import Motif.Proofs.Action
import Motif.Proofs.Matching.Evaluation

/-!
# Submatches of a node

Matching a node goes through repetitions, sequences and alternatives. Each of them settles on what
plain evaluation gives, as soon as the matching of the nodes and patterns below does; what a run of
submatches means for a node is the greedy repetition of the evaluation.
-/

namespace Motif.Chart

open Evaluation (greedy quantified)

/-- A run of submatches one after another, at most `tries` of them and none after an empty one. -/
def runOf (once : Int → Option Reach) : Nat → Int → Run
  | 0, position => ⟨0, false, position, []⟩
  | tries + 1, position =>
    match once position with
    | none => ⟨0, false, position, []⟩
    | some reach =>
      if reach.stop = position then ⟨1, true, position, []⟩
      else
        let run := runOf once tries reach.stop
        { run with count := run.count + 1, children := reach.children ++ run.children }

theorem greedy_eq_runOf (once : Int → Option Reach) (tries : Nat) (needed position : Int) :
    greedy once tries needed position =
      let run := runOf once tries position
      if !run.stalled && (run.count : Int) < needed then none
      else some ⟨run.stop, run.children⟩ := by
  induction tries generalizing needed position with
  | zero =>
      by_cases hneeded : needed ≤ 0
      · simp [greedy, runOf, hneeded, Int.not_lt.mpr hneeded]
      · simp [greedy, runOf, hneeded, Int.not_le.mp hneeded]
  | succ tries ih =>
      cases honce : once position with
      | none =>
          by_cases hneeded : needed ≤ 0
          · simp [greedy, runOf, honce, hneeded, Int.not_lt.mpr hneeded]
          · simp [greedy, runOf, honce, hneeded, Int.not_le.mp hneeded]
      | some reach =>
          by_cases hstop : reach.stop = position
          · simp [greedy, runOf, honce, hstop]
          · -- The one that has been found counts in the run and is needed no more.
            simp only [greedy, runOf, honce, hstop, ↓reduceIte, ih]
            have hcount (count : Nat) :
                ((count + 1 : Nat) : Int) < needed ↔ (count : Int) < needed - 1 := by omega
            simp only [hcount]
            split <;> rfl

theorem outcomeOf_runOf (quantity : Quantity) (look : Look) (once : Int → Option Reach)
    (size : Nat) (start : Int) :
    outcomeOf quantity look start (runOf once (triesOf quantity size) start) =
      quantified size quantity look once start := by
  by_cases hnever : quantity.most = 0
  · have htries : triesOf quantity size = 1 := by
      simp [triesOf, Quantity.isUnlimited, Quantity.unlimited, hnever]
    simp only [outcomeOf, Quantity.isNegative, hnever, decide_true, ↓reduceIte, htries, quantified]
    cases honce : once start with
    | none => simp [runOf, honce]
    | some reach => by_cases hstop : reach.stop = start <;> simp [runOf, honce, hstop]
  · have htries : triesOf quantity size = Evaluation.room quantity size := by
      simp [triesOf, Evaluation.room, Quantity.isUnlimited]
    simp only [outcomeOf, Quantity.isNegative, hnever, decide_false, htries, quantified,
      greedy_eq_runOf, Bool.false_eq_true, ↓reduceIte]
    split
    · rfl
    · split <;> rfl

variable {invariant : Chart → Prop}

theorem settles_repeatMatch {once : Int → Action (Option Reach)} {value : Int → Option Reach}
    (honce : ∀ position, Settles invariant (once position) (value position)) (tries : Nat)
    (position : Int) :
    Settles invariant (repeatMatch once tries position) (runOf value tries position) := by
  induction tries generalizing position with
  | zero => exact .pure _
  | succ tries ih =>
      refine (honce position).bind ?_
      cases hvalue : value position with
      | none =>
          rw [runOf, hvalue]
          exact .pure _
      | some reach =>
          by_cases hstop : reach.stop = position
          · simp only [runOf, hvalue, hstop, ↓reduceIte]
            exact .pure _
          · simp only [runOf, hvalue, hstop, ↓reduceIte]
            exact (ih reach.stop).bind (.pure _)

section Trees

variable {token : Int → Int → Option Token} {size : Nat}
  {node : Node → Int → Action (Option Reach)}

theorem settles_matchSequence {sequence : List Node}
    (hnode : ∀ child ∈ sequence, ∀ position,
      Settles invariant (node child position) (Evaluation.evalNode token size child position))
    (position : Int) :
    Settles invariant (matchSequence node sequence position)
      (Evaluation.evalSequence token size sequence position) := by
  induction sequence generalizing position with
  | nil => exact .pure _
  | cons first rest ih =>
      refine (hnode first List.mem_cons_self position).bind ?_
      rw [Evaluation.evalSequence]
      cases Evaluation.evalNode token size first position with
      | none => exact .pure _
      | some reach =>
          dsimp only
          refine (ih (fun child hchild => hnode child (List.mem_cons_of_mem _ hchild))
            reach.stop).bind ?_
          cases Evaluation.evalSequence token size rest reach.stop with
          | none => exact .pure _
          | some tail => exact .pure _

theorem settles_matchAlternatives {alternatives : List (List Node)}
    (hnode : ∀ sequence ∈ alternatives, ∀ child ∈ sequence, ∀ position,
      Settles invariant (node child position) (Evaluation.evalNode token size child position))
    (position : Int) :
    Settles invariant (matchAlternatives node alternatives position)
      (Evaluation.evalAlternatives token size alternatives position) := by
  induction alternatives with
  | nil => exact .pure _
  | cons first rest ih =>
      refine (settles_matchSequence (hnode first List.mem_cons_self) position).bind ?_
      rw [Evaluation.evalAlternatives]
      cases Evaluation.evalSequence token size first position with
      | none => exact ih fun sequence hsequence => hnode sequence (List.mem_cons_of_mem _ hsequence)
      | some reach => exact .pure _

end Trees

end Motif.Chart
