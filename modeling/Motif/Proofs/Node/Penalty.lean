import Mathlib.Data.List.Forall2
import Motif.Node.Penalty
import Motif.Proofs.Action
import Motif.Proofs.Node.Structure

/-!
# Penalties

A tree has a penalty exactly if all patterns to which it refers have one, and the penalty depends on
nothing else of them. Where its references cost less, a tree does not cost more.
-/

namespace Motif.Node

variable {cost : Int → Except Fault Int}

theorem exists_totalPenalty_iff {sequence : List Node} :
    (∃ total, totalPenalty cost sequence = .ok total) ↔
      ∀ node ∈ sequence, ∃ value, node.penalty cost = .ok value := by
  induction sequence with
  | nil => exact iff_of_true ⟨_, rfl⟩ (by simp)
  | cons first rest ih =>
      rw [List.forall_mem_cons, ← ih]
      constructor
      · rintro ⟨total, htotal⟩
        rw [totalPenalty] at htotal
        obtain ⟨own, hown, htotal⟩ := bind_eq_ok_iff.mp htotal
        obtain ⟨others, hothers, -⟩ := bind_eq_ok_iff.mp htotal
        exact ⟨⟨own, hown⟩, others, hothers⟩
      · rintro ⟨⟨own, hown⟩, others, hothers⟩
        rw [totalPenalty, hown, hothers]
        exact ⟨_, rfl⟩

theorem exists_worstPenalty_iff {alternatives : List (List Node)} :
    (∃ worst, worstPenalty cost alternatives = .ok worst) ↔
      ∀ sequence ∈ alternatives, ∀ node ∈ sequence, ∃ value, node.penalty cost = .ok value := by
  induction alternatives with
  | nil => exact iff_of_true ⟨_, rfl⟩ (by simp)
  | cons first others ih =>
      rw [List.forall_mem_cons, ← ih, ← exists_totalPenalty_iff]
      constructor
      · rintro ⟨worst, hworst⟩
        rw [worstPenalty] at hworst
        obtain ⟨own, hown, hworst⟩ := bind_eq_ok_iff.mp hworst
        obtain ⟨more, hmore, -⟩ := bind_eq_ok_iff.mp hworst
        exact ⟨⟨own, hown⟩, more, hmore⟩
      · rintro ⟨⟨own, hown⟩, more, hmore⟩
        rw [worstPenalty, hown, hmore]
        exact ⟨_, rfl⟩

/-- A tree has a penalty exactly if all patterns to which it refers have one. -/
theorem exists_penalty_iff {node : Node} :
    (∃ value, node.penalty cost = .ok value) ↔
      ∀ id ∈ node.references, ∃ found, cost id = .ok found := by
  induction node using memberInduction with
  | ref id quantity look =>
      simp only [mem_references_ref, forall_eq]
      constructor
      · rintro ⟨value, hvalue⟩
        rw [penalty] at hvalue
        obtain ⟨found, hfound, -⟩ := bind_eq_ok_iff.mp hvalue
        exact ⟨found, hfound⟩
      · rintro ⟨found, hfound⟩
        rw [penalty, hfound]
        exact ⟨_, rfl⟩
  | group alternatives quantity look ih =>
      have hreferences : (∃ worst, worstPenalty cost alternatives = .ok worst) ↔
          ∀ id ∈ (group alternatives quantity look).references,
            ∃ found, cost id = .ok found := by
        rw [exists_worstPenalty_iff]
        constructor
        · intro hnodes id hid
          obtain ⟨sequence, hsequence, node, hnode, hid⟩ := mem_references_group.mp hid
          exact (ih sequence hsequence node hnode).mp (hnodes sequence hsequence node hnode) id hid
        · intro hknown sequence hsequence node hnode
          refine (ih sequence hsequence node hnode).mpr fun id hid => hknown id ?_
          exact mem_references_group.mpr ⟨sequence, hsequence, node, hnode, hid⟩
      rw [← hreferences]
      constructor
      · rintro ⟨value, hvalue⟩
        rw [penalty] at hvalue
        obtain ⟨worst, hworst, -⟩ := bind_eq_ok_iff.mp hvalue
        exact ⟨worst, hworst⟩
      · rintro ⟨worst, hworst⟩
        rw [penalty, hworst]
        exact ⟨_, rfl⟩

theorem exists_of_totalPenalty_eq_error {sequence : List Node} {fault : Fault}
    (htotal : totalPenalty cost sequence = .error fault) :
    ∃ node ∈ sequence, node.penalty cost = .error fault := by
  induction sequence with
  | nil => cases htotal
  | cons first rest ih =>
      rw [totalPenalty] at htotal
      rcases bind_eq_error_iff.mp htotal with hfirst | ⟨own, -, htotal⟩
      · exact ⟨first, List.mem_cons_self, hfirst⟩
      · rcases bind_eq_error_iff.mp htotal with hrest | ⟨others, -, ⟨⟩⟩
        obtain ⟨node, hnode, hfault⟩ := ih hrest
        exact ⟨node, List.mem_cons_of_mem _ hnode, hfault⟩

theorem exists_of_worstPenalty_eq_error {alternatives : List (List Node)} {fault : Fault}
    (hworst : worstPenalty cost alternatives = .error fault) :
    ∃ sequence ∈ alternatives, ∃ node ∈ sequence, node.penalty cost = .error fault := by
  induction alternatives with
  | nil => cases hworst
  | cons first others ih =>
      rw [worstPenalty] at hworst
      rcases bind_eq_error_iff.mp hworst with hfirst | ⟨own, -, hworst⟩
      · exact ⟨first, List.mem_cons_self, exists_of_totalPenalty_eq_error hfirst⟩
      · rcases bind_eq_error_iff.mp hworst with hmore | ⟨more, -, ⟨⟩⟩
        obtain ⟨sequence, hsequence, hnode⟩ := ih hmore
        exact ⟨sequence, List.mem_cons_of_mem _ hsequence, hnode⟩

/-- A tree without a penalty has the fault of a pattern to which it refers. -/
theorem exists_of_penalty_eq_error {node : Node} {fault : Fault}
    (hpenalty : node.penalty cost = .error fault) :
    ∃ id ∈ node.references, cost id = .error fault := by
  induction node using memberInduction with
  | ref id quantity look =>
      rw [penalty] at hpenalty
      rcases bind_eq_error_iff.mp hpenalty with hcost | ⟨found, -, ⟨⟩⟩
      exact ⟨id, mem_references_ref.mpr rfl, hcost⟩
  | group alternatives quantity look ih =>
      rw [penalty] at hpenalty
      rcases bind_eq_error_iff.mp hpenalty with hworst | ⟨worst, -, ⟨⟩⟩
      obtain ⟨sequence, hsequence, node, hnode, hfault⟩ := exists_of_worstPenalty_eq_error hworst
      obtain ⟨id, hid, hcost⟩ := ih sequence hsequence node hnode hfault
      exact ⟨id, mem_references_group.mpr ⟨sequence, hsequence, node, hnode, hid⟩, hcost⟩

theorem totalPenalty_congr {other : Int → Except Fault Int} {sequence : List Node}
    (hnodes : ∀ node ∈ sequence, node.penalty cost = node.penalty other) :
    totalPenalty cost sequence = totalPenalty other sequence := by
  induction sequence with
  | nil => rfl
  | cons first rest ih =>
      rw [totalPenalty, totalPenalty, hnodes first List.mem_cons_self,
        ih fun node hnode => hnodes node (List.mem_cons_of_mem _ hnode)]

theorem worstPenalty_congr {other : Int → Except Fault Int} {alternatives : List (List Node)}
    (hnodes : ∀ sequence ∈ alternatives, ∀ node ∈ sequence,
      node.penalty cost = node.penalty other) :
    worstPenalty cost alternatives = worstPenalty other alternatives := by
  induction alternatives with
  | nil => rfl
  | cons first rest ih =>
      rw [worstPenalty, worstPenalty,
        totalPenalty_congr (hnodes first List.mem_cons_self),
        ih fun sequence hmem => hnodes sequence (List.mem_cons_of_mem _ hmem)]

/-- Only the penalties of the patterns to which it refers matter to that of a tree. -/
theorem penalty_congr {other : Int → Except Fault Int} {node : Node}
    (hcost : ∀ id ∈ node.references, cost id = other id) :
    node.penalty cost = node.penalty other := by
  induction node using memberInduction with
  | ref id quantity look => rw [penalty, penalty, hcost id (by simp)]
  | group alternatives quantity look ih =>
      rw [penalty, penalty, worstPenalty_congr]
      intro sequence hsequence node hnode
      refine ih sequence hsequence node hnode fun id hid => hcost id ?_
      exact mem_references_group.mpr ⟨sequence, hsequence, node, hnode, hid⟩

/-! ## Trees that cost less -/

/-- Where the second is a penalty, the first is one as well, and no greater one. -/
def AtMost (first second : Except Fault Int) : Prop :=
  ∀ value, second = .ok value → ∃ lower, first = .ok lower ∧ lower ≤ value

theorem AtMost.refl (penalty : Except Fault Int) : AtMost penalty penalty :=
  fun value hvalue => ⟨value, hvalue, Int.le_refl value⟩

theorem AtMost.trans {first second third : Except Fault Int} (hfirst : AtMost first second)
    (hsecond : AtMost second third) : AtMost first third := by
  intro value hvalue
  obtain ⟨middle, hmiddle, hle⟩ := hsecond value hvalue
  obtain ⟨lower, hlower, hleLower⟩ := hfirst middle hmiddle
  exact ⟨lower, hlower, Int.le_trans hleLower hle⟩

variable {dearer : Int → Except Fault Int}

theorem atMost_totalPenalty {sequence others : List Node}
    (hnodes : List.Forall₂ (fun node other => AtMost (node.penalty cost) (other.penalty dearer))
      sequence others) :
    AtMost (totalPenalty cost sequence) (totalPenalty dearer others) := by
  induction hnodes with
  | nil => exact .refl _
  | cons hnode _ ih =>
      intro value hvalue
      rw [totalPenalty] at hvalue
      obtain ⟨own, hown, hvalue⟩ := bind_eq_ok_iff.mp hvalue
      obtain ⟨rest, hrest, hvalue⟩ := bind_eq_ok_iff.mp hvalue
      cases hvalue
      obtain ⟨lower, hlower, hle⟩ := hnode own hown
      obtain ⟨least, hleast, hleRest⟩ := ih rest hrest
      refine ⟨lower + least, ?_, Int.add_le_add hle hleRest⟩
      rw [totalPenalty, hlower, hleast]
      rfl

theorem atMost_worstPenalty {alternatives others : List (List Node)}
    (hnodes : List.Forall₂ (List.Forall₂ fun node other =>
      AtMost (node.penalty cost) (other.penalty dearer)) alternatives others) :
    AtMost (worstPenalty cost alternatives) (worstPenalty dearer others) := by
  induction hnodes with
  | nil => exact .refl _
  | cons hsequence _ ih =>
      intro value hvalue
      rw [worstPenalty] at hvalue
      obtain ⟨own, hown, hvalue⟩ := bind_eq_ok_iff.mp hvalue
      obtain ⟨rest, hrest, hvalue⟩ := bind_eq_ok_iff.mp hvalue
      cases hvalue
      obtain ⟨lower, hlower, hle⟩ := atMost_totalPenalty hsequence own hown
      obtain ⟨least, hleast, hleRest⟩ := ih rest hrest
      refine ⟨max lower least, ?_, by omega⟩
      rw [worstPenalty, hlower, hleast]
      rfl

theorem atMost_penalty_group {alternatives others : List (List Node)}
    (hnodes : List.Forall₂ (List.Forall₂ fun node other =>
      AtMost (node.penalty cost) (other.penalty dearer)) alternatives others)
    (quantity : Quantity) (look : Look) :
    AtMost ((group alternatives quantity look).penalty cost)
      ((group others quantity look).penalty dearer) := by
  intro value hvalue
  rw [penalty] at hvalue
  obtain ⟨worst, hworst, hvalue⟩ := bind_eq_ok_iff.mp hvalue
  cases hvalue
  obtain ⟨lower, hlower, hle⟩ := atMost_worstPenalty hnodes worst hworst
  refine ⟨ownPenalty quantity look + lower, ?_, Int.add_le_add_left hle _⟩
  rw [penalty, hlower]
  rfl

end Motif.Node
