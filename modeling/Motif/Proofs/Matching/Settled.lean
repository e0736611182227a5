import Motif.Proofs.Matching.Replaying

/-!
# Settled charts

On a settled chart matching is a matter of looking up: a pattern is matched by the token that is
remembered, and a node as plain evaluation tells from the remembered tokens. So every remembered
token is what its pattern evaluates to, one level deep, whatever other patterns the chart knows.
-/

namespace Motif.Chart

open Evaluation

variable {grammar : Grammar} {depth : Int → Nat} {text : Array Char} {chart : Chart}

/-- The token that is remembered for a pattern at a position. -/
def remembered (chart : Chart) (id position : Int) : Option Token :=
  (chart.outcome? position id).join

theorem remembered_eq_some_iff {id position : Int} {token : Token} :
    chart.remembered id position = some token ↔
      chart.outcome? position id = some (some token) :=
  Option.join_eq_some_iff

/-- A trial of a known pattern inside the text. -/
def Inside (grammar : Grammar) (text : Array Char) (position id : Int) : Prop :=
  (grammar.find? id).isSome ∧ 0 ≤ position ∧ position < text.size

/-- A pattern that has been tried everywhere is matched by looking up. -/
theorem matched_of_done {token : Int → Int → Option Token} {active : List Cell}
    {done : Int → Int → Prop} {pattern : Pattern}
    (hfind : grammar.find? pattern.id = some pattern)
    (hdone : ∀ position, Inside grammar text position pattern.id → done position pattern.id)
    (houtside : ∀ position : Int, ¬ (0 ≤ position ∧ position < text.size) →
      token pattern.id position = none) (room : Nat) :
    Matched grammar text token active done room pattern := by
  intro more hmore start chart hchart
  have hknown : (grammar.find? pattern.id).isSome := by simp [hfind]
  have hcovers : chart.covers start = decide (0 ≤ start ∧ start < text.size) := by
    rw [covers, size, hchart.text_eq, Bool.decide_and]
  have hrecalled : ∃ attempt, matchPattern grammar room pattern start =
      recalled pattern start attempt := by
    cases room with
    | zero => exact ⟨_, matchPattern.eq_1 grammar pattern start⟩
    | succ room => exact ⟨_, matchPattern.eq_2 grammar pattern start room⟩
  obtain ⟨attempt, heq⟩ := hrecalled
  rw [heq]
  unfold recalled
  refine .read ?_
  rw [hcovers]
  by_cases hinside : 0 ≤ start ∧ start < text.size
  · obtain ⟨outcome, houtcome⟩ := Option.isSome_iff_exists.mp
      (hchart.outcome_of_done (hmore start pattern.id (hdone start ⟨hknown, hinside⟩)))
    rw [decide_eq_true hinside, Bool.not_true, if_neg Bool.false_ne_true]
    refine .read ?_
    rw [← hchart.outcome_eq hknown houtcome, houtcome]
    exact .pure ⟨hchart, fun _ _ => by simp [houtcome]⟩ _
  · rw [decide_eq_false hinside, Bool.not_false, if_pos rfl, houtside start hinside]
    exact .pure ⟨hchart, fun hnonneg hsize => absurd ⟨hnonneg, hsize⟩ hinside⟩ _

namespace Settled

variable (hchart : Settled grammar depth text chart)
include hchart

theorem fits {id position : Int} {token : Token}
    (htoken : chart.remembered id position = some token) : Fits text id position token :=
  hchart.indexed.fits (remembered_eq_some_iff.mp htoken)

theorem exists_outcome {pattern : Pattern} (hfind : grammar.find? pattern.id = some pattern)
    {position : Int} (hnonneg : 0 ≤ position) (hsize : position < text.size) :
    ∃ outcome, chart.outcome? position pattern.id = some outcome := by
  rw [← hchart.indexed.text_eq] at hsize
  exact Option.isSome_iff_exists.mp (hchart.tried hfind position hnonneg hsize)

theorem remembered_eq_none {position : Int} (houtside : ¬ (0 ≤ position ∧ position < text.size))
    (id : Int) : chart.remembered id position = none := by
  rw [Option.eq_none_iff_forall_ne_some]
  intro token htoken
  obtain ⟨hnonneg, hsize, -⟩ := hchart.rebuilt (remembered_eq_some_iff.mp htoken)
  rw [hchart.indexed.text_eq] at hsize
  exact houtside ⟨hnonneg, hsize⟩

theorem faithful (hid : ∀ {id pattern}, grammar.find? id = some pattern → pattern.id = id) :
    Faithful grammar text chart.remembered [] (Inside grammar text) chart where
  text_eq := hchart.indexed.text_eq
  active_eq := hchart.indexed.active_eq
  size_tails := hchart.indexed.size_tails
  outcome_eq _ houtcome := by
    rw [remembered, houtcome]
    rfl
  tail_of_outcome _ houtcome hlength := hchart.indexed.tail_of_outcome houtcome hlength
  token_of_tail {last id found} _ htail := by
    obtain ⟨houtcome, hlast, hlength⟩ := hchart.indexed.outcome_of_tail htail
    exact ⟨remembered_eq_some_iff.mpr houtcome, hlast, hlength⟩
  outcome_of_scanned {position id} hknown hnonneg hscanned hsize := by
    rw [← hchart.indexed.text_eq] at hsize
    exact hchart.swept hknown position hnonneg hscanned hsize
  outcome_of_done {position id} hdone := by
    obtain ⟨hknown, hnonneg, hsize⟩ := hdone
    obtain ⟨pattern, hfind⟩ := Option.isSome_iff_exists.mp hknown
    obtain rfl := hid hfind
    obtain ⟨outcome, houtcome⟩ := hchart.exists_outcome hfind hnonneg hsize
    rw [houtcome]
    rfl

/-- On a settled chart references are answered by the remembered tokens. -/
theorem answers {pattern : Pattern} (hfind : grammar.find? pattern.id = some pattern)
    (room : Nat) :
    Answers (Faithful grammar text chart.remembered [] (Inside grammar text)) grammar
      chart.remembered room pattern.id := by
  refine answers_of_matched (fun id position found => hchart.fits) hfind ?_
  refine matched_of_done hfind (fun _ => id) (fun position houtside => ?_) room
  exact hchart.remembered_eq_none houtside pattern.id

/-- What is remembered for a pattern is what it evaluates to given all that is remembered, if its
looks behind can be retraced. -/
theorem remembered_eq {rank : Int → Nat} (hlayered : grammar.Layered rank) {pattern : Pattern}
    (hfind : grammar.find? pattern.id = some pattern)
    (hbehind : ∀ root node, pattern.content = .tree root → Node.Within node root →
      node.look = .behind → node.Retraceable (Unambiguous chart.remembered)) (position : Int) :
    chart.remembered pattern.id position = evalWith chart.remembered text pattern position := by
  by_cases hinside : 0 ≤ position ∧ position < text.size
  · obtain ⟨outcome, houtcome⟩ := hchart.exists_outcome hfind hinside.1 hinside.2
    obtain ⟨-, -, other, room, hother, hroom, hreplays⟩ := hchart.rebuilt houtcome
    rw [hfind] at hother
    cases hother
    have hbuild : Settles (Faithful grammar text chart.remembered [] (Inside grammar text))
        (build (matchNode grammar room) pattern position)
        (evalWith chart.remembered text pattern position) := by
      refine settles_build (fun other hother => hother.text_eq) hinside.1 hinside.2
        fun root hroot => ?_
      rw [Pattern.depth, hroot] at hroom
      refine settles_matchNode (fun other hother => by rw [hother.text_eq]) root
        (fun node => hbehind root node hroot) ?_ (Nat.le_of_succ_le_succ hroom) position
      intro id hid room _
      have hreferences := hlayered.refers hfind
      rw [hroot] at hreferences
      obtain ⟨below, hbelow⟩ := Option.isSome_iff_exists.mp (hreferences id hid).1
      obtain rfl := hlayered.id_eq hbelow
      exact hchart.answers hbelow room
    -- Building the token again gives the remembered one, and it gives what evaluation tells.
    have hvalue := hbuild.run_eq (hchart.faithful hlayered.id_eq)
    rw [hreplays.run_eq] at hvalue
    rw [remembered, houtcome]
    exact Except.ok.inj hvalue
  · rw [hchart.remembered_eq_none hinside, evalWith, if_neg hinside]

end Settled

end Motif.Chart
