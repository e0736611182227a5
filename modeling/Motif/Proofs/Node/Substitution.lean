import Motif.Proofs.Node.Phrase

/-!
# Replacing references

A tree in which every reference is replaced by a node that is spelled like the reference is spelled
as before.
-/

namespace Motif

namespace Node

/- What a reference is replaced by. -/
variable (replace : Int → Quantity → Look → Node)

mutual

/-- The tree with every reference replaced. -/
def substitute : Node → Node
  | ref id quantity look => replace id quantity look
  | group alternatives quantity look => group (substituteAlternatives alternatives) quantity look

/-- The sequence with every reference replaced. -/
def substituteSequence : List Node → List Node
  | [] => []
  | node :: rest => substitute node :: substituteSequence rest

/-- The alternatives with every reference replaced. -/
def substituteAlternatives : List (List Node) → List (List Node)
  | [] => []
  | sequence :: rest => substituteSequence sequence :: substituteAlternatives rest

end

theorem substituteAlternatives_eq_map (alternatives : List (List Node)) :
    substituteAlternatives replace alternatives =
      alternatives.map fun sequence => sequence.map (substitute replace) := by
  have hsequence : ∀ sequence, substituteSequence replace sequence =
      sequence.map (substitute replace) := by
    intro sequence
    induction sequence with
    | nil => rfl
    | cons first rest ih => rw [substituteSequence, ih, List.map_cons]
  induction alternatives with
  | nil => rfl
  | cons first rest ih => rw [substituteAlternatives, ih, List.map_cons, hsequence]

variable {replace}

theorem exists_of_mem_substituteAlternatives {alternatives : List (List Node)}
    {sequence : List Node} {node : Node}
    (hsequence : sequence ∈ substituteAlternatives replace alternatives) (hnode : node ∈ sequence) :
    ∃ origins ∈ alternatives, ∃ origin ∈ origins, node = origin.substitute replace := by
  rw [substituteAlternatives_eq_map] at hsequence
  obtain ⟨origins, horigins, rfl⟩ := List.mem_map.mp hsequence
  obtain ⟨origin, horigin, rfl⟩ := List.mem_map.mp hnode
  exact ⟨origins, horigins, origin, horigin, rfl⟩

theorem substitute_congr {other : Int → Quantity → Look → Node} {node : Node}
    (hsame : ∀ id ∈ node.references, replace id = other id) :
    node.substitute replace = node.substitute other := by
  induction node using Node.memberInduction with
  | ref id quantity look => rw [substitute, substitute, hsame id (by simp)]
  | group alternatives quantity look ih =>
      rw [substitute, substitute, substituteAlternatives_eq_map, substituteAlternatives_eq_map]
      congr 1
      refine List.map_congr_left fun sequence hsequence => List.map_congr_left fun node hnode => ?_
      refine ih sequence hsequence node hnode fun id hid => hsame id ?_
      exact mem_references_group.mpr ⟨sequence, hsequence, node, hnode, hid⟩

theorem everywhere_substitute (given : Node → Prop) {property : Node → Prop} {node : Node}
    (hgroup : ∀ alternatives quantity look, given (group alternatives quantity look) →
      property (group (substituteAlternatives replace alternatives) quantity look))
    (hreplace : ∀ id quantity look, id ∈ node.references → given (ref id quantity look) →
      Everywhere property (replace id quantity look))
    (hnode : Everywhere given node) : Everywhere property (node.substitute replace) := by
  induction node using Node.memberInduction with
  | ref id quantity look =>
      exact hreplace id quantity look (by simp) (everywhere_ref_iff.mp hnode)
  | group alternatives quantity look ih =>
      obtain ⟨hgiven, hinside⟩ := everywhere_group_iff.mp hnode
      rw [substitute, everywhere_group_iff]
      refine ⟨hgroup _ _ _ hgiven, ?_⟩
      intro sequence hsequence node hnode
      obtain ⟨origins, horigins, origin, horigin, rfl⟩ :=
        exists_of_mem_substituteAlternatives hsequence hnode
      refine ih origins horigins origin horigin
        (fun id quantity look hid => hreplace id quantity look ?_)
        (hinside origins horigins origin horigin)
      exact mem_references_group.mpr ⟨origins, horigins, origin, horigin, hid⟩

theorem mem_references_substitute {node : Node} {id : Int}
    (hid : id ∈ (node.substitute replace).references) :
    ∃ origin ∈ node.references, ∃ quantity look,
      id ∈ (replace origin quantity look).references := by
  induction node using Node.memberInduction with
  | ref origin quantity look => exact ⟨origin, by simp, quantity, look, hid⟩
  | group alternatives quantity look ih =>
      obtain ⟨sequence, hsequence, node, hnode, hid⟩ := mem_references_group.mp hid
      obtain ⟨origins, horigins, origin, horigin, rfl⟩ :=
        exists_of_mem_substituteAlternatives hsequence hnode
      obtain ⟨source, hsource, hrest⟩ := ih origins horigins origin horigin hid
      exact ⟨source, mem_references_group.mpr ⟨origins, horigins, origin, horigin, hsource⟩, hrest⟩

theorem spellAlternatives_map {leaf : Bool → Int → List (List Phrase)} {behind : Bool}
    {change : Node → Node} {alternatives : List (List Node)}
    (hchange : ∀ sequence ∈ alternatives, ∀ node ∈ sequence,
      spell leaf behind (change node) = spell leaf behind node) :
    spellAlternatives leaf behind (alternatives.map fun sequence => sequence.map change) =
      spellAlternatives leaf behind alternatives := by
  have hsequence : ∀ sequence : List Node,
      (∀ node ∈ sequence, spell leaf behind (change node) = spell leaf behind node) →
        spellSequence leaf behind (sequence.map change) = spellSequence leaf behind sequence := by
    intro sequence hnodes
    induction sequence with
    | nil => rfl
    | cons first rest ih =>
        rw [List.map_cons, spellSequence, spellSequence, hnodes first List.mem_cons_self,
          ih fun node hnode => hnodes node (List.mem_cons_of_mem _ hnode)]
  induction alternatives with
  | nil => rfl
  | cons first rest ih =>
      rw [List.map_cons, spellAlternatives, spellAlternatives,
        hsequence first (hchange first List.mem_cons_self),
        ih fun sequence hmem => hchange sequence (List.mem_cons_of_mem _ hmem)]

theorem spell_substitute {leaf : Bool → Int → List (List Phrase)} {node : Node}
    (hreplace : ∀ id ∈ node.references, ∀ behind quantity look,
      spell leaf behind (replace id quantity look) = spell leaf behind (ref id quantity look))
    (behind : Bool) : spell leaf behind (node.substitute replace) = spell leaf behind node := by
  induction node using Node.memberInduction generalizing behind with
  | ref id quantity look => exact hreplace id (by simp) behind quantity look
  | group alternatives quantity look ih =>
      rw [substitute, spell, spell, substituteAlternatives_eq_map, spellAlternatives_map]
      intro sequence hsequence node hnode
      refine ih sequence hsequence node hnode (fun id hid => hreplace id ?_) _
      exact mem_references_group.mpr ⟨sequence, hsequence, node, hnode, hid⟩

end Node

end Motif
