import Motif.Chart.Matching
import Motif.Proofs.Action

/-!
# Combinations of submatches

Repetitions, sequences and alternatives only put operations one after another. A property that
holds of an operation that ends at once, and of one operation followed by another, holds of all
that they put together.
-/

namespace Motif.Chart

/-- A property of operations on charts that holds of what ends at once and of one operation that is
followed by another. -/
structure Composable (property : ∀ {α : Type}, Action α → Prop) : Prop where
  pure : ∀ {α : Type} (value : α), property (pure value : Action α)
  bind : ∀ {α β : Type} {action : Action α} {next : α → Action β}, property action →
    (∀ value, property (next value)) → property (action >>= next)

/-- Charts that are related to the one before may be left behind one after another. -/
theorem composable_yields {grows : Chart → Chart → Prop} [Growth grows] (allowed : Fault → Prop) :
    Composable fun action => Yields grows action (fun _ _ => True) allowed where
  pure _ _ hchart := .pure hchart trivial
  bind haction hnext chart hchart :=
    (haction chart hchart).bind fun value after hafter _ =>
      hnext value after (Growth.refl_right hafter)

variable {property : ∀ {α : Type}, Action α → Prop}

theorem Composable.repeatMatch (hproperty : Composable property)
    {once : Int → Action (Option Reach)} (honce : ∀ position, property (once position))
    (tries : Nat) (position : Int) : property (repeatMatch once tries position) := by
  induction tries generalizing position with
  | zero => exact hproperty.pure _
  | succ tries ih =>
      rw [Chart.repeatMatch]
      refine hproperty.bind (honce position) fun value => ?_
      cases value with
      | none => exact hproperty.pure _
      | some reach =>
          dsimp only
          split
          next => exact hproperty.pure _
          next => exact hproperty.bind (ih reach.stop) fun _ => hproperty.pure _

section Forwards

variable {node : Node → Int → Action (Option Reach)}

theorem Composable.matchSequence (hproperty : Composable property) {sequence : List Node}
    (hnode : ∀ child ∈ sequence, ∀ position, property (node child position)) (position : Int) :
    property (matchSequence node sequence position) := by
  induction sequence generalizing position with
  | nil => exact hproperty.pure _
  | cons first rest ih =>
      rw [Chart.matchSequence]
      refine hproperty.bind (hnode first List.mem_cons_self position) fun value => ?_
      cases value with
      | none => exact hproperty.pure _
      | some reach =>
          have hrest := ih (fun child hchild => hnode child (List.mem_cons_of_mem _ hchild))
            reach.stop
          refine hproperty.bind hrest fun tail => ?_
          cases tail with
          | none => exact hproperty.pure _
          | some last => exact hproperty.pure _

theorem Composable.matchAlternatives (hproperty : Composable property)
    {alternatives : List (List Node)}
    (hnode : ∀ sequence ∈ alternatives, ∀ child ∈ sequence, ∀ position,
      property (node child position)) (position : Int) :
    property (matchAlternatives node alternatives position) := by
  induction alternatives with
  | nil => exact hproperty.pure _
  | cons first rest ih =>
      rw [Chart.matchAlternatives]
      have hfirst := hproperty.matchSequence (hnode first List.mem_cons_self) position
      refine hproperty.bind hfirst fun value => ?_
      cases value with
      | none => exact ih fun sequence hsequence => hnode sequence (List.mem_cons_of_mem _ hsequence)
      | some reach => exact hproperty.pure _

end Forwards

section Backwards

variable {back : Node → Int → Action (Option Int)}

theorem Composable.behindSequence (hproperty : Composable property) {sequence : List Node}
    (hback : ∀ child ∈ sequence, ∀ last, property (back child last)) (last : Int) :
    property (behindSequence back sequence last) := by
  induction sequence generalizing last with
  | nil => exact hproperty.pure _
  | cons first rest ih =>
      rw [Chart.behindSequence]
      refine hproperty.bind (hback first List.mem_cons_self last) fun value => ?_
      cases value with
      | none => exact hproperty.pure _
      | some start => exact ih (fun child hchild => hback child (List.mem_cons_of_mem _ hchild)) _

theorem Composable.behindAlternatives (hproperty : Composable property)
    {alternatives : List (List Node)}
    (hback : ∀ sequence ∈ alternatives, ∀ child ∈ sequence, ∀ last, property (back child last))
    (last : Int) : property (behindAlternatives back alternatives last) := by
  induction alternatives with
  | nil => exact hproperty.pure _
  | cons first rest ih =>
      have hfirst : ∀ child ∈ first.reverse, ∀ last, property (back child last) :=
        fun child hchild => hback first List.mem_cons_self child (List.mem_reverse.mp hchild)
      rw [Chart.behindAlternatives]
      refine hproperty.bind (hproperty.behindSequence hfirst last) fun value => ?_
      cases value with
      | none => exact ih fun sequence hsequence => hback sequence (List.mem_cons_of_mem _ hsequence)
      | some start => exact hproperty.pure _

end Backwards

end Motif.Chart
