import Motif.Proofs.Matching.Memory

/-!
# Looking behind

A look behind goes back through a sequence from its end and takes the first start that it finds of
each node. That loses nothing if only the first node of a sequence may have several starts for one
end. The start of a reference is read off the chart after its pattern has been tried at every
position up to the end.
-/

namespace Motif

/-- A reference, or a group whose alternatives are single nodes of that shape again. -/
inductive Node.SingleFile : Node → Prop where
  | ref (id : Int) (quantity : Quantity) (look : Look) : SingleFile (.ref id quantity look)
  | group {alternatives : List (List Node)} (quantity : Quantity) (look : Look)
      (hlength : ∀ sequence ∈ alternatives, sequence.length = 1)
      (hnode : ∀ sequence ∈ alternatives, ∀ node ∈ sequence, SingleFile node) :
      SingleFile (.group alternatives quantity look)

/-- A node in whose sequences every node but the first leaves no choice. -/
inductive Node.Retraceable (unambiguous : Node → Prop) : Node → Prop where
  | ref (id : Int) (quantity : Quantity) (look : Look) :
      Retraceable unambiguous (.ref id quantity look)
  | group {alternatives : List (List Node)} (quantity : Quantity) (look : Look)
      (hnonempty : ∀ sequence ∈ alternatives, sequence ≠ [])
      (hnode : ∀ sequence ∈ alternatives, ∀ node ∈ sequence, Retraceable unambiguous node)
      (hrest : ∀ sequence ∈ alternatives, ∀ node ∈ sequence.tail, unambiguous node) :
      Retraceable unambiguous (.group alternatives quantity look)

theorem Node.SingleFile.retraceable {node : Node} (hnode : node.SingleFile)
    (unambiguous : Node → Prop) : node.Retraceable unambiguous := by
  induction hnode with
  | ref id quantity look => exact .ref id quantity look
  | group quantity look hlength _ ih =>
      refine .group quantity look ?_ ih ?_
      · intro sequence hsequence hempty
        have hone := hlength sequence hsequence
        rw [hempty] at hone
        cases hone
      · intro sequence hsequence node hnode
        obtain ⟨only, rfl⟩ := List.length_eq_one_iff.mp (hlength sequence hsequence)
        cases hnode

namespace Evaluation

variable {token : Int → Int → Option Token}

/-- A node has at most one start for each end. -/
def Unambiguous (token : Int → Int → Option Token) (node : Node) : Prop :=
  ∀ ⦃stop start other : Int⦄, start ∈ starts token node stop → other ∈ starts token node stop →
    start = other

theorem startsOfSequence_concat (sequence : List Node) (node : Node) (stop : Int) :
    startsOfSequence token (sequence ++ [node]) stop =
      (starts token node stop).flatMap fun middle => startsOfSequence token sequence middle := by
  induction sequence with
  | nil => simp [startsOfSequence]
  | cons first rest ih =>
      rw [List.cons_append, startsOfSequence, ih, List.flatMap_assoc]
      rfl

theorem mem_starts_ref {id : Int} {quantity : Quantity} {look : Look} {start stop : Int} :
    start ∈ starts token (.ref id quantity look) stop ↔
      0 ≤ start ∧ start < stop ∧ ∃ found, token id start = some found ∧ found.stop = stop := by
  simp only [starts, positionsBefore, List.mem_filter, List.mem_map, List.mem_range,
    Option.any_eq_true, decide_eq_true_eq]
  constructor
  · rintro ⟨⟨place, hplace, rfl⟩, hfound⟩
    refine ⟨Int.natCast_nonneg _, ?_, hfound⟩
    change (place : Int) < stop
    omega
  · rintro ⟨hnonneg, hlt, hfound⟩
    exact ⟨⟨start.toNat, by omega, Int.toNat_of_nonneg hnonneg⟩, hfound⟩

theorem mem_startsOfAlternatives {alternatives : List (List Node)} {start stop : Int} :
    start ∈ startsOfAlternatives token alternatives stop ↔
      ∃ sequence ∈ alternatives, start ∈ startsOfSequence token sequence stop := by
  induction alternatives with
  | nil => simp [startsOfAlternatives]
  | cons first rest ih => simp [startsOfAlternatives, ih]

/-- Nothing that can be retraced ends before the first character. -/
theorem starts_eq_nil_of_nonpos {unambiguous : Node → Prop} {node : Node}
    (hnode : node.Retraceable unambiguous) {stop : Int} (hstop : stop ≤ 0) :
    starts token node stop = [] := by
  induction hnode with
  | ref id quantity look =>
      rw [List.eq_nil_iff_forall_not_mem]
      intro start hstart
      obtain ⟨hnonneg, hlt, -⟩ := mem_starts_ref.mp hstart
      omega
  | @group alternatives quantity look hnonempty _ _ ih =>
      have hsequence : ∀ sequence ∈ alternatives, startsOfSequence token sequence stop = [] := by
        intro sequence hsequence
        rcases List.eq_nil_or_concat sequence with hempty | ⟨before, last, hconcat⟩
        · exact absurd hempty (hnonempty sequence hsequence)
        · have hlast := ih sequence hsequence last (by simp [hconcat])
          rw [hconcat, List.concat_eq_append, startsOfSequence_concat, hlast, List.flatMap_nil]
      rw [starts, List.eq_nil_iff_forall_not_mem]
      intro start hstart
      obtain ⟨sequence, hmem, hstart⟩ := mem_startsOfAlternatives.mp hstart
      rw [hsequence sequence hmem] at hstart
      cases hstart

end Evaluation

namespace Chart

open Evaluation (starts startsOfSequence startsOfAlternatives Unambiguous)

variable {invariant : Chart → Prop} {token : Int → Int → Option Token}

/-- From every chart with the invariant the action ends with a member of the list, or with nothing
if the list is empty, and keeps the invariant. -/
def Finds (invariant : Chart → Prop) (action : Action (Option Int)) (list : List Int) : Prop :=
  ∀ chart, invariant chart → ∃ value, SettlesFrom invariant chart action value ∧
    match value with
    | none => list = []
    | some start => start ∈ list

theorem finds_behindSequence {node : Node → Int → Action (Option Int)} {sequence : List Node}
    (hnonempty : sequence ≠ [])
    (hnode : ∀ child ∈ sequence, ∀ last,
      Finds invariant (node child last) (starts token child (last + 1)))
    (hrest : ∀ child ∈ sequence.tail, Unambiguous token child) (last : Int) :
    Finds invariant (behindSequence node sequence.reverse last)
      (startsOfSequence token sequence (last + 1)) := by
  -- The last node is the first to be gone back through.
  induction sequence using List.reverseRecOn generalizing last with
  | nil => exact absurd rfl hnonempty
  | append_singleton before child ih =>
      intro chart hchart
      rw [List.reverse_append, List.reverse_singleton, List.singleton_append,
        Evaluation.startsOfSequence_concat]
      obtain ⟨value, hsettles, hvalue⟩ := hnode child (by simp) last chart hchart
      cases value with
      | none =>
          refine ⟨none, hsettles.bind (.pure _), ?_⟩
          rw [show starts token child (last + 1) = [] from hvalue, List.flatMap_nil]
      | some start =>
          replace hvalue : start ∈ starts token child (last + 1) := hvalue
          by_cases hbefore : before = []
          · subst hbefore
            refine ⟨some start, hsettles.bind ?_, ?_⟩
            · change Settles invariant (pure (some (start - 1 + 1))) (some start)
              rw [Int.sub_add_cancel]
              exact .pure _
            · simpa [startsOfSequence] using hvalue
          · -- Only one start of the node has been found, but it has no other.
            have hchild : Unambiguous token child := by
              refine hrest child ?_
              rw [List.tail_append_of_ne_nil hbefore]
              simp
            obtain ⟨middle, hrun, hmiddle⟩ := hsettles
            obtain ⟨value, ⟨after, hafter, hinvariant⟩, hfound⟩ := ih hbefore
              (fun other hother => hnode other (List.mem_append_left _ hother))
              (fun other hother => hrest other (by
                rw [List.tail_append_of_ne_nil hbefore]
                exact List.mem_append_left _ hother))
              (start - 1) middle hmiddle
            refine ⟨value, ⟨after, (run_bind_of_ok hrun).trans hafter, hinvariant⟩, ?_⟩
            rw [Int.sub_add_cancel] at hfound
            cases value with
            | none =>
                refine List.flatMap_eq_nil_iff.mpr fun other hother => ?_
                rw [← hchild hvalue hother]
                exact hfound
            | some first => exact List.mem_flatMap.mpr ⟨start, hvalue, hfound⟩

theorem finds_behindAlternatives {node : Node → Int → Action (Option Int)}
    {alternatives : List (List Node)}
    (hnonempty : ∀ sequence ∈ alternatives, sequence ≠ [])
    (hnode : ∀ sequence ∈ alternatives, ∀ child ∈ sequence, ∀ last,
      Finds invariant (node child last) (starts token child (last + 1)))
    (hrest : ∀ sequence ∈ alternatives, ∀ child ∈ sequence.tail, Unambiguous token child)
    (last : Int) :
    Finds invariant (behindAlternatives node alternatives last)
      (startsOfAlternatives token alternatives (last + 1)) := by
  induction alternatives with
  | nil =>
      intro chart hchart
      exact ⟨none, .pure hchart _, rfl⟩
  | cons first others ih =>
      intro chart hchart
      have hothers := ih (fun sequence hmem => hnonempty sequence (List.mem_cons_of_mem _ hmem))
        (fun sequence hmem => hnode sequence (List.mem_cons_of_mem _ hmem))
        (fun sequence hmem => hrest sequence (List.mem_cons_of_mem _ hmem))
      obtain ⟨value, hsettles, hvalue⟩ := finds_behindSequence
        (hnonempty first List.mem_cons_self) (hnode first List.mem_cons_self)
        (hrest first List.mem_cons_self) last chart hchart
      rw [startsOfAlternatives]
      cases value with
      | some start =>
          refine ⟨some start, hsettles.bind (.pure _), ?_⟩
          exact List.mem_append_left _ hvalue
      | none =>
          obtain ⟨middle, hrun, hmiddle⟩ := hsettles
          obtain ⟨value, ⟨after, hafter, hinvariant⟩, hfound⟩ := hothers middle hmiddle
          refine ⟨value, ⟨after, (run_bind_of_ok hrun).trans hafter, hinvariant⟩, ?_⟩
          rw [show startsOfSequence token first (last + 1) = [] from hvalue, List.nil_append]
          exact hfound

end Chart

end Motif
