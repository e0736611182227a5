import Motif.Training.Trainer

/-!
# Sessions

A session works step by step on one registry, a list of charts, a survey and at most one trainer.
It remembers which pattern each step has made. A new trainer takes the session's registry and
lends it its survey; the two stay common until the session gets others of its own. Charts become
common when the trainer has trained.
-/

namespace Motif

/-- The state of a session. -/
structure Session where
  registry : Registry := {}
  charts : List Chart := []
  survey : Survey := {}
  trainer : Option Trainer := none
  /-- The trainer works on the session's registry. -/
  sharesRegistry : Bool := false
  /-- The trainer works on the session's survey. -/
  sharesSurvey : Bool := false
  /-- The trainer's charts are the session's. -/
  sharesCharts : Bool := false
  /-- The pattern made by each step, the last step first. -/
  made : List (Option Serial) := []
deriving Inhabited

namespace Session

/-- An operation of a session. What it has changed stays changed also if it fails. -/
abbrev Action (α : Type) := ExceptT Fault (StateM Session) α

/-- How a request names a pattern. -/
inductive Target where
  | id (id : Int)
  | name (name : String)
  /-- The pattern made by a step, the first step being step zero. -/
  | step (index : Nat)
  /-- A pattern compiled for the request. -/
  | text (text : String) (name : Option String) (kind : Kind)
deriving Repr

/-- Runs an operation on the session's registry. -/
def onRegistry {α : Type} (action : Registry.Action α) : Action α :=
  ExceptT.mk do
    let session ← get
    let (result, registry) := action.run session.registry
    set { session with registry }
    return result

/-- The trainer with what it has in common with the session. -/
def joined (session : Session) (trainer : Trainer) : Trainer :=
  { trainer with
    registry :=
      if session.sharesRegistry then session.registry
      else { trainer.registry with ledger := session.registry.ledger }
    survey := if session.sharesSurvey then session.survey else trainer.survey
    charts := if session.sharesCharts then session.charts else trainer.charts }

/-- The session with what it has in common with its trainer. -/
def rejoined (session : Session) (trainer : Trainer) : Session :=
  { session with
    registry :=
      if session.sharesRegistry then trainer.registry
      else { session.registry with ledger := trainer.registry.ledger }
    survey := if session.sharesSurvey then trainer.survey else session.survey
    charts := if session.sharesCharts then trainer.charts else session.charts
    trainer := some trainer }

/-- Runs an operation on the session's trainer. -/
def onTrainer {α : Type} (action : Trainer.Action α) : Action α :=
  ExceptT.mk do
    let session ← get
    match session.trainer with
    | none => return .error (.request "no trainer")
    | some trainer =>
      let (result, trainer) := action.run (session.joined trainer)
      set (session.rejoined trainer)
      return result

/-- The session with its trainer keeping a registry of its own from now on. -/
def separateRegistry (session : Session) : Session :=
  { session with trainer := session.trainer.map session.joined, sharesRegistry := false }

/-- The session with its trainer keeping a survey of its own from now on. -/
def separateSurvey (session : Session) : Session :=
  { session with trainer := session.trainer.map session.joined, sharesSurvey := false }

/-- The place of a chart in the list; a negative index counts from the end. -/
def chartPlace (index : Int) : Action Nat := do
  match Chart.slot? (← getThe Session).charts.length index with
  | some place => return place
  | none => throw (.request "no such chart")

/-- The chart of an index. -/
def chartAt (index : Int) : Action Chart := do
  let place ← chartPlace index
  return (← getThe Session).charts.getD place default

/-- Runs an operation on the chart of an index. -/
def onChart {α : Type} (index : Int) (action : Chart.Action α) : Action α := do
  let place ← chartPlace index
  ExceptT.mk do
    let session ← get
    let (result, chart) := action.run (session.charts.getD place default)
    set { session with charts := session.charts.set place chart }
    return result

/-- The serial and the pattern that a request names. -/
def resolve (target : Target) : Action (Serial × Pattern) := do
  let session ← getThe Session
  let serial ← match target with
    | .id id => pure (session.registry.serialOf? id)
    | .name name => pure (session.registry.named? name)
    | .step index => pure (session.made.reverse[index]?.join)
    | .text text name kind => do
      let pattern ← session.registry.compile text name kind
      some <$> onRegistry (Registry.keep pattern)
  let registry := (← getThe Session).registry
  match serial.bind fun serial => (registry.pattern? serial).map (serial, ·) with
  | some found => return found
  | none => throw (.request "no such pattern")

/-- The pattern of a serial. -/
def patternOf (serial : Serial) : Action Pattern := do
  match (← getThe Session).registry.pattern? serial with
  | some pattern => return pattern
  | none => throw (.request "no such pattern")

/-- Ends a step, which may have made a pattern. -/
def endStep (session : Session) (made : Option Serial) : Session :=
  { session with made := made :: session.made }

end Session

end Motif
