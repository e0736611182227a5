import Motif.Node.Basic

/-!
# Structure of pattern trees

A tree is taken apart by membership: a node of a group is a member of one of its alternatives.
Induction over trees, the nodes of a tree and the ids to which it refers are all described that
way, so that no later proof goes through the lists of a group by hand.
-/

namespace Motif.Node

/-- Induction over trees: what holds of every node of a group's alternatives passes to the
group. -/
theorem memberInduction {motive : Node → Prop}
    (ref : ∀ id quantity look, motive (.ref id quantity look))
    (group : ∀ alternatives quantity look,
      (∀ sequence ∈ alternatives, ∀ node ∈ sequence, motive node) →
        motive (.group alternatives quantity look))
    (node : Node) : motive node := by
  refine Node.rec (motive_1 := motive)
    (motive_2 := fun alternatives => ∀ sequence ∈ alternatives, ∀ node ∈ sequence, motive node)
    (motive_3 := fun sequence => ∀ node ∈ sequence, motive node)
    ref group ?_ ?_ ?_ ?_ node
  · intro sequence hsequence
    exact absurd hsequence List.not_mem_nil
  · intro first rest hfirst hrest sequence hsequence
    rcases List.mem_cons.mp hsequence with rfl | hsequence
    · exact hfirst
    · exact hrest sequence hsequence
  · intro node hnode
    exact absurd hnode List.not_mem_nil
  · intro first rest hfirst hrest node hnode
    rcases List.mem_cons.mp hnode with rfl | hnode
    · exact hfirst
    · exact hrest node hnode

theorem mem_referencesOfSequence {id : Int} {sequence : List Node} :
    id ∈ referencesOfSequence sequence ↔ ∃ node ∈ sequence, id ∈ node.references := by
  induction sequence with
  | nil => simp [referencesOfSequence]
  | cons first rest ih => simp [referencesOfSequence, ih]

theorem mem_referencesOfAlternatives {id : Int} {alternatives : List (List Node)} :
    id ∈ referencesOfAlternatives alternatives ↔
      ∃ sequence ∈ alternatives, ∃ node ∈ sequence, id ∈ node.references := by
  induction alternatives with
  | nil => simp [referencesOfAlternatives]
  | cons first rest ih => simp [referencesOfAlternatives, mem_referencesOfSequence, ih]

@[simp] theorem mem_references_ref {id other : Int} {quantity : Quantity} {look : Look} :
    id ∈ (ref other quantity look).references ↔ id = other := by
  simp [references]

@[simp] theorem mem_references_group {id : Int} {alternatives : List (List Node)}
    {quantity : Quantity} {look : Look} :
    id ∈ (group alternatives quantity look).references ↔
      ∃ sequence ∈ alternatives, ∃ node ∈ sequence, id ∈ node.references := by
  rw [references, mem_referencesOfAlternatives]

/-- A node stands somewhere in a tree, the root counted. -/
inductive Within : Node → Node → Prop where
  | root (node : Node) : Within node node
  | inside {node child : Node} {alternatives : List (List Node)} {quantity : Quantity}
      {look : Look} {sequence : List Node} (hsequence : sequence ∈ alternatives)
      (hchild : child ∈ sequence) (hnode : Within node child) :
      Within node (.group alternatives quantity look)

@[simp] theorem within_ref_iff {node : Node} {id : Int} {quantity : Quantity} {look : Look} :
    Within node (ref id quantity look) ↔ node = ref id quantity look := by
  constructor
  · intro hnode
    cases hnode
    rfl
  · rintro rfl
    exact .root _

@[simp] theorem within_group_iff {node : Node} {alternatives : List (List Node)}
    {quantity : Quantity} {look : Look} :
    Within node (group alternatives quantity look) ↔ node = group alternatives quantity look ∨
      ∃ sequence ∈ alternatives, ∃ child ∈ sequence, Within node child := by
  constructor
  · intro hnode
    cases hnode with
    | root => exact .inl rfl
    | inside hsequence hchild hnode => exact .inr ⟨_, hsequence, _, hchild, hnode⟩
  · rintro (rfl | ⟨sequence, hsequence, child, hchild, hnode⟩)
    · exact .root _
    · exact .inside hsequence hchild hnode

/-- A property of every node of a tree. -/
def Everywhere (property : Node → Prop) (root : Node) : Prop :=
  ∀ node, Within node root → property node

theorem everywhere_ref_iff {property : Node → Prop} {id : Int} {quantity : Quantity} {look : Look} :
    Everywhere property (ref id quantity look) ↔ property (ref id quantity look) := by
  simp [Everywhere]

theorem everywhere_group_iff {property : Node → Prop} {alternatives : List (List Node)}
    {quantity : Quantity} {look : Look} :
    Everywhere property (group alternatives quantity look) ↔
      property (group alternatives quantity look) ∧
        ∀ sequence ∈ alternatives, ∀ node ∈ sequence, Everywhere property node := by
  unfold Everywhere
  constructor
  · intro hroot
    exact ⟨hroot _ (.root _), fun sequence hsequence child hchild node hnode =>
      hroot node (.inside hsequence hchild hnode)⟩
  · rintro ⟨hroot, hinside⟩ node hnode
    rcases within_group_iff.mp hnode with rfl | ⟨sequence, hsequence, child, hchild, hnode⟩
    · exact hroot
    · exact hinside sequence hsequence child hchild node hnode

end Motif.Node
