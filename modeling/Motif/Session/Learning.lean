import Motif.Session.Basic
import Motif.Survey.Report

/-!
# Work on surveys and training

The requests of a session about its survey and its trainer.
-/

namespace Motif.Session

/-- Starts a survey of the session's own. -/
def startSurvey (maxExamples : Setting Limit) (minKind : Kind) : Action Unit :=
  modify fun session => { session.separateSurvey with survey := { maxExamples, minKind } }

/-- Changes the survey. -/
def changeSurvey (change : Survey → Survey) : Action Unit :=
  modify fun session => { session with survey := change session.survey }

/-- Adds a chart to the survey. -/
def observe (chart : Chart) : Action Unit :=
  ExceptT.mk do
    let session ← get
    let (result, survey) := (Survey.record session.registry.grammar chart).run session.survey
    set { session with survey }
    return result

/-- Sets the coverage of a pattern in the survey. -/
def setCoverage (id coverage : Int) : Action Unit :=
  changeSurvey fun survey =>
    { survey with stats := survey.stats.update id {} fun stats => { stats with coverage } }

/-- The proposals of a strategy for the session's survey and charts. -/
def propose (strategy : Strategy) : Action (List Proposal) := do
  let session ← getThe Session
  changeSurvey (strategy.surveyAfter session.registry)
  onRegistry (strategy.propose session.survey session.charts)

/-- Makes a new trainer on the session's registry, with fixed proposals in each iteration if there
are any. -/
def startTrainer (options : TrainOptions) (fixed : Option (List String)) : Action Trainer := do
  let created ← Trainer.create options (← getThe Session).registry
  let trainer := match fixed with
    | none => created
    | some texts => { created with strategies := created.strategies ++ [.fixed texts] }
  modify fun session => { session with
    trainer := some trainer
    survey := trainer.survey
    sharesRegistry := true
    sharesSurvey := true
    sharesCharts := false }
  return trainer

/-- Trains for a number of iterations. The charts of the trainer become the session's, also if
training fails. -/
def train (iterations : Option (Setting Int)) (single : Bool) : Action (List Summary) := do
  let action := if single then (fun summary => [summary]) <$> Trainer.trainIteration
    else Trainer.train iterations
  let result ← ExceptT.mk (Except.ok <$> (onTrainer action).run)
  modify fun session => match session.trainer with
    | some trainer => { session with charts := trainer.charts, sharesCharts := true }
    | none => session
  match result with
  | .ok summaries => return summaries
  | .error fault => throw fault

/-- The events since the last call, in order; the trainer forgets them. Without a trainer nothing
happens. -/
def takeEvents : Action (List (Int × Event)) := do
  let session ← getThe Session
  match session.trainer with
  | none => return []
  | some trainer =>
    set { session with trainer := some { trainer with events := [] } }
    return trainer.events.reverse

end Motif.Session
