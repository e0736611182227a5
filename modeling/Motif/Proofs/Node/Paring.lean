import Motif.Proofs.Node.Parsing
import Motif.Proofs.Node.Penalty
import Motif.Proofs.Node.Reduction

/-!
# Pared trees

A group with a quantity or a look of its own around a single undecorated node is written as that
node with the quantity and the look, and is read as such. So a tree that is written and read again
has lost its groups of this kind and nothing else, and costs no more than before.
-/

namespace Motif

namespace Phrase

variable {target : Symbol → Int}

theorem wrap_atom (symbol : Symbol) (quantity : Quantity) (look : Look) :
    wrap [[.atom symbol .once .here]] quantity look = [.atom symbol quantity look] := by
  by_cases hplain : quantity = .once ∧ look = .here
  · obtain ⟨rfl, rfl⟩ := hplain
    exact wrap_singleton _
  · exact wrap_of_plain hplain ⟨rfl, rfl⟩

theorem tree_decorate (phrase : Phrase) (quantity : Quantity) (look : Look) :
    (phrase.decorate quantity look).tree target =
      ((phrase.tree target).withLook look).withQuantity quantity := by
  cases phrase <;> rfl

theorem isDecorated_tree_eq_false_iff {phrase : Phrase} :
    (phrase.tree target).isDecorated = false ↔ phrase.IsPlain := by
  cases phrase <;> exact Registry.isDecorated_eq_false_iff

end Phrase

namespace Node

open Phrase (treesOfSequence treesOfAlternatives wrap)

/-- A decorated group around a single undecorated node, which could be decorated itself. -/
def isSuperfluous : Node → Bool
  | group [[node]] quantity look => (group [[node]] quantity look).isDecorated && !node.isDecorated
  | _ => false

/-- A group with these alternatives, unless it is superfluous. -/
def enclose (alternatives : List (List Node)) (quantity : Quantity) (look : Look) : Node :=
  match alternatives with
  | [[node]] =>
    if (group [[node]] quantity look).isSuperfluous then
      (node.withLook look).withQuantity quantity
    else group [[node]] quantity look
  | _ => group alternatives quantity look

mutual

/-- The tree without its superfluous groups. -/
def pared : Node → Node
  | ref id quantity look => ref id quantity look
  | group alternatives quantity look => enclose (paredAlternatives alternatives) quantity look

/-- The nodes of a sequence without their superfluous groups. -/
def paredSequence : List Node → List Node
  | [] => []
  | node :: rest => node.pared :: paredSequence rest

/-- The alternatives without their superfluous groups. -/
def paredAlternatives : List (List Node) → List (List Node)
  | [] => []
  | sequence :: rest => paredSequence sequence :: paredAlternatives rest

end

theorem paredSequence_eq_map (sequence : List Node) :
    paredSequence sequence = sequence.map pared := by
  induction sequence with
  | nil => rfl
  | cons first rest ih => rw [paredSequence, ih, List.map_cons]

theorem paredAlternatives_eq_map (alternatives : List (List Node)) :
    paredAlternatives alternatives = alternatives.map fun sequence => sequence.map pared := by
  induction alternatives with
  | nil => rfl
  | cons first rest ih => rw [paredAlternatives, ih, List.map_cons, paredSequence_eq_map]

theorem exists_of_mem_paredAlternatives {alternatives : List (List Node)} {sequence : List Node}
    {node : Node} (hsequence : sequence ∈ paredAlternatives alternatives) (hnode : node ∈ sequence) :
    ∃ origins ∈ alternatives, ∃ origin ∈ origins, node = origin.pared := by
  rw [paredAlternatives_eq_map] at hsequence
  obtain ⟨origins, horigins, rfl⟩ := List.mem_map.mp hsequence
  obtain ⟨origin, horigin, rfl⟩ := List.mem_map.mp hnode
  exact ⟨origins, horigins, origin, horigin, rfl⟩

theorem forall₂_paredAlternatives {related : Node → Node → Prop}
    {alternatives : List (List Node)}
    (hnode : ∀ sequence ∈ alternatives, ∀ node ∈ sequence, related node.pared node) :
    List.Forall₂ (List.Forall₂ related) (paredAlternatives alternatives) alternatives := by
  rw [paredAlternatives_eq_map, List.forall₂_map_left_iff]
  refine List.forall₂_same.mpr fun sequence hsequence => ?_
  rw [List.forall₂_map_left_iff]
  exact List.forall₂_same.mpr (hnode sequence hsequence)

/-! ## Superfluous groups -/

variable {alternatives : List (List Node)} {quantity : Quantity} {look : Look}

theorem isDecorated_group_eq_true_iff :
    (group alternatives quantity look).isDecorated = true ↔
      ¬ (quantity = .once ∧ look = .here) := by
  rw [← Bool.not_eq_false, Registry.isDecorated_eq_false_iff]
  rfl

theorem isSuperfluous_group_iff : (group alternatives quantity look).isSuperfluous = true ↔
    ∃ node, alternatives = [[node]] ∧ ¬ (quantity = .once ∧ look = .here) ∧
      node.isDecorated = false := by
  unfold isSuperfluous
  split
  next node _ _ heq =>
    obtain ⟨rfl, rfl, rfl⟩ := Node.group.inj heq
    simp [isDecorated_group_eq_true_iff]
  next hother =>
    simp only [Bool.false_eq_true, false_iff]
    rintro ⟨node, rfl, -⟩
    exact hother node quantity look rfl

theorem enclose_of_superfluous {node : Node} (hdecorated : ¬ (quantity = .once ∧ look = .here))
    (hplain : node.isDecorated = false) :
    enclose [[node]] quantity look = (node.withLook look).withQuantity quantity := by
  rw [enclose, if_pos (isSuperfluous_group_iff.mpr ⟨node, rfl, hdecorated, hplain⟩)]

theorem enclose_of_needed (hneeded : (group alternatives quantity look).isSuperfluous = false) :
    enclose alternatives quantity look = group alternatives quantity look := by
  unfold enclose
  split
  next node => rw [if_neg (by rw [hneeded]; exact Bool.false_ne_true)]
  next => rfl

/-- A group stays, or it stands around a single node that takes over its quantity and its look. -/
theorem enclose_cases (alternatives : List (List Node)) (quantity : Quantity) (look : Look) :
    (∃ node, alternatives = [[node]] ∧ ¬ (quantity = .once ∧ look = .here) ∧
      node.isDecorated = false ∧
        enclose alternatives quantity look = (node.withLook look).withQuantity quantity) ∨
      (group alternatives quantity look).isSuperfluous = false ∧
        enclose alternatives quantity look = group alternatives quantity look := by
  cases hsuperfluous : (group alternatives quantity look).isSuperfluous with
  | true =>
      obtain ⟨node, rfl, hdecorated, hplain⟩ := isSuperfluous_group_iff.mp hsuperfluous
      exact .inl ⟨node, rfl, hdecorated, hplain, enclose_of_superfluous hdecorated hplain⟩
  | false => exact .inr ⟨rfl, enclose_of_needed hsuperfluous⟩

/-- Leaving out parentheses changes neither the quantity of a node nor its look. -/
theorem decoration_pared (node : Node) :
    node.pared.quantity = node.quantity ∧ node.pared.look = node.look := by
  cases node with
  | ref id quantity look => exact ⟨rfl, rfl⟩
  | group alternatives quantity look =>
      rw [pared]
      rcases enclose_cases (paredAlternatives alternatives) quantity look with
        ⟨child, -, -, -, hsame⟩ | ⟨-, hsame⟩
      · rw [hsame]
        cases child <;> exact ⟨rfl, rfl⟩
      · rw [hsame]
        exact ⟨rfl, rfl⟩

@[simp]
theorem isDecorated_pared (node : Node) : node.pared.isDecorated = node.isDecorated := by
  rw [isDecorated, isDecorated, isQuantified, isQuantified, (decoration_pared node).1,
    (decoration_pared node).2]

/-- An undecorated group is not superfluous. -/
theorem pared_plainGroup (alternatives : List (List Node)) :
    (plainGroup alternatives).pared = plainGroup (paredAlternatives alternatives) := by
  rw [plainGroup, pared]
  refine enclose_of_needed ?_
  rw [← Bool.not_eq_true, isSuperfluous_group_iff]
  rintro ⟨-, -, hdecorated, -⟩
  exact hdecorated ⟨rfl, rfl⟩

theorem eq_plainGroup_of_pared {node : Node} {inner : List (List Node)}
    (hnode : node.pared = plainGroup inner) :
    ∃ alternatives, node = plainGroup alternatives ∧ inner = paredAlternatives alternatives := by
  have hplain : node.isDecorated = false := by
    rw [← isDecorated_pared, hnode]
    rfl
  obtain ⟨hquantity, hlook⟩ := Registry.isDecorated_eq_false_iff.mp hplain
  cases node with
  | ref id quantity look => cases hnode
  | group alternatives quantity look =>
      obtain rfl : quantity = .once := hquantity
      obtain rfl : look = .here := hlook
      have hsame := (pared_plainGroup alternatives).symm.trans hnode
      exact ⟨alternatives, rfl, (Node.group.inj hsame).1.symm⟩

theorem isTransparent_eq_true_iff {node : Node} :
    node.isTransparent = true ↔ ∃ sequence, node = plainGroup [sequence] := by
  unfold isTransparent
  split
  next sequence => exact iff_of_true rfl ⟨sequence, rfl⟩
  next hsolid =>
    simp only [Bool.false_eq_true, false_iff]
    rintro ⟨sequence, rfl⟩
    exact hsolid sequence rfl

/-- Paring makes no group that could be spliced. -/
theorem isTransparent_pared {node : Node} (hnode : node.isTransparent = false) :
    node.pared.isTransparent = false := by
  rw [← Bool.not_eq_true, isTransparent_eq_true_iff] at hnode ⊢
  rintro ⟨sequence, hpared⟩
  obtain ⟨alternatives, rfl, hsame⟩ := eq_plainGroup_of_pared hpared
  rw [paredAlternatives_eq_map] at hsame
  obtain ⟨origin, rfl, -⟩ := List.map_eq_singleton_iff.mp hsame.symm
  exact hnode ⟨origin, rfl⟩

/-- A superfluous group is written like the node inside it. -/
theorem spell_withQuantity {leaf : Bool → Int → List (List Phrase)} {node : Node}
    (hplain : node.isDecorated = false) (behind : Bool) (quantity : Quantity) (look : Look) :
    spell leaf behind ((node.withLook look).withQuantity quantity) =
      spell leaf behind (group [[node]] quantity look) := by
  obtain ⟨hquantity, hlook⟩ := Registry.isDecorated_eq_false_iff.mp hplain
  have hinside : ∀ behind, spellAlternatives leaf behind [[node]] = [spell leaf behind node] := by
    intro behind
    rw [spellAlternatives, spellAlternatives, spellSequence, spellSequence, List.append_nil]
  cases node with
  | ref id own around =>
      obtain rfl : own = .once := hquantity
      obtain rfl : around = .here := hlook
      rw [spell.eq_2, hinside, spell, withLook, withQuantity, spell]
      simp [Phrase.wrap_wrap]
  | group inner own around =>
      obtain rfl : own = .once := hquantity
      obtain rfl : around = .here := hlook
      rw [spell.eq_2 _ _ [[_]], hinside, spell, withLook, withQuantity, spell]
      simp [Phrase.wrap_wrap]

theorem spellSequence_paredSequence {leaf : Bool → Int → List (List Phrase)} {behind : Bool}
    {sequence : List Node}
    (hnode : ∀ node ∈ sequence, spell leaf behind node.pared = spell leaf behind node) :
    spellSequence leaf behind (paredSequence sequence) = spellSequence leaf behind sequence := by
  induction sequence with
  | nil => rfl
  | cons first rest ih =>
      rw [paredSequence, spellSequence, spellSequence, hnode first List.mem_cons_self,
        ih fun node hmem => hnode node (List.mem_cons_of_mem _ hmem)]

theorem spellAlternatives_paredAlternatives {leaf : Bool → Int → List (List Phrase)}
    {behind : Bool} {alternatives : List (List Node)}
    (hnode : ∀ sequence ∈ alternatives, ∀ node ∈ sequence,
      spell leaf behind node.pared = spell leaf behind node) :
    spellAlternatives leaf behind (paredAlternatives alternatives) =
      spellAlternatives leaf behind alternatives := by
  induction alternatives with
  | nil => rfl
  | cons first rest ih =>
      rw [paredAlternatives, spellAlternatives, spellAlternatives,
        spellSequence_paredSequence (hnode first List.mem_cons_self),
        ih fun sequence hmem => hnode sequence (List.mem_cons_of_mem _ hmem)]

/-- Paring does not change how a tree is spelled. -/
theorem spell_pared (leaf : Bool → Int → List (List Phrase)) (behind : Bool) (node : Node) :
    spell leaf behind node.pared = spell leaf behind node := by
  induction node using Node.memberInduction generalizing behind with
  | ref id quantity look => rfl
  | group alternatives quantity look ih =>
      have hinside : ∀ behind, spellAlternatives leaf behind (paredAlternatives alternatives) =
          spellAlternatives leaf behind alternatives := fun behind =>
        spellAlternatives_paredAlternatives fun sequence hsequence node hnode =>
          ih sequence hsequence node hnode behind
      have henclose : spell leaf behind (enclose (paredAlternatives alternatives) quantity look) =
          spell leaf behind (group (paredAlternatives alternatives) quantity look) := by
        rcases enclose_cases (paredAlternatives alternatives) quantity look with
          ⟨child, hchild, -, hplain, hsame⟩ | ⟨-, hsame⟩
        · rw [hsame, hchild, spell_withQuantity hplain]
        · rw [hsame]
      rw [pared, henclose, spell, spell, hinside]

/-! ## Canonical trees -/

theorem isTight_withQuantity {node : Node} (hnode : Everywhere IsTight node) (quantity : Quantity)
    (look : Look) : Everywhere IsTight ((node.withLook look).withQuantity quantity) := by
  cases node with
  | ref id own around => exact everywhere_ref_iff.mpr trivial
  | group alternatives own around =>
      obtain ⟨htight, hinside⟩ := everywhere_group_iff.mp hnode
      exact everywhere_group_iff.mpr ⟨htight, hinside⟩

theorem isTight_pared {node : Node} (hnode : Everywhere IsTight node) :
    Everywhere IsTight node.pared := by
  induction node using Node.memberInduction with
  | ref id quantity look => exact hnode
  | group alternatives quantity look ih =>
      obtain ⟨htight, hinside⟩ := everywhere_group_iff.mp hnode
      have hpared : Everywhere IsTight (group (paredAlternatives alternatives) quantity look) := by
        refine everywhere_group_iff.mpr ⟨?_, ?_⟩
        · intro sequence hsequence child hchild
          obtain ⟨origins, horigins, origin, horigin, rfl⟩ :=
            exists_of_mem_paredAlternatives hsequence hchild
          exact isTransparent_pared (htight origins horigins origin horigin)
        · intro sequence hsequence child hchild
          obtain ⟨origins, horigins, origin, horigin, rfl⟩ :=
            exists_of_mem_paredAlternatives hsequence hchild
          exact ih origins horigins origin horigin (hinside origins horigins origin horigin)
      rw [pared]
      rcases enclose_cases (paredAlternatives alternatives) quantity look with
        ⟨child, halternatives, -, -, hsame⟩ | ⟨-, hsame⟩
      · rw [hsame]
        rw [halternatives] at hpared
        have hchild := (everywhere_group_iff.mp hpared).2
        exact isTight_withQuantity (hchild [child] List.mem_cons_self child List.mem_cons_self) _ _
      · rw [hsame]
        exact hpared

theorem spliced_eq_singleton {node : Node} (hnode : node.isTransparent = false) :
    node.spliced = [node] := by
  rcases spliced_cases node with ⟨sequence, rfl, -⟩ | ⟨-, hspliced⟩
  · cases hnode
  · exact hspliced

/-- A tight tree is reduced already. -/
theorem reduce_eq_self {node : Node} (hnode : Everywhere IsTight node) : node.reduce = node := by
  induction node using Node.memberInduction with
  | ref id quantity look => rfl
  | group alternatives quantity look ih =>
      obtain ⟨htight, hinside⟩ := everywhere_group_iff.mp hnode
      have hsequence : ∀ sequence ∈ alternatives, reduceSequence sequence = sequence := by
        intro sequence hsequence
        have hnodes : ∀ child ∈ sequence, child.reduce.spliced = [child] := by
          intro child hchild
          rw [ih sequence hsequence child hchild (hinside sequence hsequence child hchild)]
          exact spliced_eq_singleton (htight sequence hsequence child hchild)
        clear hsequence
        induction sequence with
        | nil => rfl
        | cons first rest ihRest =>
            rw [reduceSequence, hnodes first List.mem_cons_self,
              ihRest fun child hchild => hnodes child (List.mem_cons_of_mem _ hchild)]
            rfl
      rw [reduce, reduceAlternatives_eq_map, List.map_congr_left hsequence, List.map_id']

theorem unwrap_paredAlternatives (hunwrap : unwrap alternatives = alternatives) :
    unwrap (paredAlternatives alternatives) = paredAlternatives alternatives := by
  refine unwrap.eq_2 _ fun inner hinner => ?_
  rw [paredAlternatives_eq_map] at hinner
  obtain ⟨sequence, rfl, hsequence⟩ := List.map_eq_singleton_iff.mp hinner
  obtain ⟨node, rfl, hnode⟩ := List.map_eq_singleton_iff.mp hsequence
  obtain ⟨origin, rfl, -⟩ := eq_plainGroup_of_pared hnode
  exact Registry.unwrap_ne _ origin hunwrap

/-- A tight tree without plain parentheses around all of it is still reduced when it has been
pared. -/
theorem reduceRoot_paredAlternatives (htight : Everywhere IsTight (plainGroup alternatives))
    (hunwrap : unwrap alternatives = alternatives) :
    (plainGroup (paredAlternatives alternatives)).reduceRoot =
      plainGroup (paredAlternatives alternatives) := by
  have hpared := isTight_pared htight
  rw [pared_plainGroup] at hpared
  have hreduce := reduce_eq_self hpared
  rw [plainGroup, reduce] at hreduce
  rw [reduceRoot_plainGroup, (Node.group.inj hreduce).1, unwrap_paredAlternatives hunwrap]

/-! ## Trees that are written and read -/

section Reading

variable {target : Symbol → Int} {leaf : Bool → Int → List (List Phrase)}

/-- What is written for a group is read as the group, unless it is superfluous. A plain group of a
single sequence is not written. -/
theorem treesOfSequence_wrap {phrases : List (List Phrase)}
    (hsolid : ¬ (quantity = .once ∧ look = .here ∧ ∃ sequence, phrases = [sequence])) :
    treesOfSequence target (wrap phrases quantity look) =
      [enclose (treesOfAlternatives target phrases) quantity look] := by
  by_cases hplain : quantity = .once ∧ look = .here
  · have hmany : ¬ ∃ sequence, phrases = [sequence] := fun hsingle =>
      hsolid ⟨hplain.1, hplain.2, hsingle⟩
    rw [Phrase.wrap_of_not_singleton hmany, enclose_of_needed]
    · rfl
    · rw [← Bool.not_eq_true, isSuperfluous_group_iff]
      rintro ⟨-, -, hdecorated, -⟩
      exact hdecorated hplain
  · by_cases hsingle : ∃ phrase, phrases = [[phrase]] ∧ phrase.IsPlain
    · obtain ⟨phrase, rfl, hphrase⟩ := hsingle
      rw [Phrase.wrap_of_plain hplain hphrase]
      have hnode : (phrase.tree target).isDecorated = false :=
        Phrase.isDecorated_tree_eq_false_iff.mpr hphrase
      have henclose := enclose_of_superfluous hplain hnode
      exact congrArg (fun node => [node])
        ((Phrase.tree_decorate phrase quantity look).trans henclose.symm)
    · rw [Phrase.wrap_of_decorated hplain hsingle, enclose_of_needed]
      · rfl
      · rw [← Bool.not_eq_true, isSuperfluous_group_iff, Phrase.treesOfAlternatives_eq_map]
        rintro ⟨node, hnode, -, hundecorated⟩
        obtain ⟨sequence, rfl, hsequence⟩ := List.map_eq_singleton_iff.mp hnode
        obtain ⟨phrase, rfl, rfl⟩ := List.map_eq_singleton_iff.mp hsequence
        exact hsingle ⟨phrase, rfl, Phrase.isDecorated_tree_eq_false_iff.mp hundecorated⟩

theorem treesOfSequence_spellSequence {behind : Bool} {sequence : List Node}
    (hnode : ∀ node ∈ sequence,
      treesOfSequence target (spell leaf behind node) = [node.pared]) :
    treesOfSequence target (spellSequence leaf behind sequence) = paredSequence sequence := by
  induction sequence with
  | nil => rfl
  | cons first rest ih =>
      rw [spellSequence, Phrase.treesOfSequence_append, hnode first List.mem_cons_self,
        ih fun node hmem => hnode node (List.mem_cons_of_mem _ hmem)]
      rfl

theorem treesOfAlternatives_spellAlternatives {behind : Bool}
    (hnode : ∀ sequence ∈ alternatives, ∀ node ∈ sequence,
      treesOfSequence target (spell leaf behind node) = [node.pared]) :
    treesOfAlternatives target (spellAlternatives leaf behind alternatives) =
      paredAlternatives alternatives := by
  induction alternatives with
  | nil => rfl
  | cons first rest ih =>
      rw [spellAlternatives, treesOfAlternatives,
        treesOfSequence_spellSequence (hnode first List.mem_cons_self),
        ih fun sequence hmem => hnode sequence (List.mem_cons_of_mem _ hmem)]
      rfl

/-- A single lexeme stands for the reference. -/
def IsAtom (leaf : Bool → Int → List (List Phrase)) (target : Symbol → Int) (id : Int) : Prop :=
  ∀ behind, ∃ symbol, leaf behind id = [[.atom symbol .once .here]] ∧ target symbol = id

/-- A node that would not be spliced is written as a phrase that is read as the pared node. -/
theorem treesOfSequence_spell {node : Node} (htight : Everywhere IsTight node)
    (hnode : node.isTransparent = false) (hleaf : ∀ id ∈ node.references, IsAtom leaf target id)
    (behind : Bool) : treesOfSequence target (spell leaf behind node) = [node.pared] := by
  induction node using Node.memberInduction generalizing behind with
  | ref id quantity look =>
      obtain ⟨symbol, hsymbol, htarget⟩ := hleaf id (by simp) (behind || look = .behind)
      rw [spell, hsymbol, Phrase.wrap_atom, pared, ← htarget]
      rfl
  | group alternatives quantity look ih =>
      obtain ⟨htightness, htight⟩ := everywhere_group_iff.mp htight
      have hinside : treesOfAlternatives target
          (spellAlternatives leaf (behind || look = .behind) alternatives) =
            paredAlternatives alternatives := by
        refine treesOfAlternatives_spellAlternatives fun sequence hsequence child hchild => ?_
        refine ih sequence hsequence child hchild (htight sequence hsequence child hchild)
          (htightness sequence hsequence child hchild) (fun id hid => hleaf id ?_) _
        exact mem_references_group.mpr ⟨sequence, hsequence, child, hchild, hid⟩
      rw [spell, pared, ← hinside]
      refine treesOfSequence_wrap ?_
      rintro ⟨rfl, rfl, phrases, hphrases⟩
      rw [Registry.spellAlternatives_eq_map] at hphrases
      obtain ⟨sequence, rfl, -⟩ := List.map_eq_singleton_iff.mp hphrases
      cases hnode

/-- What is written for a tight tree is read as the pared tree. -/
theorem treesOfAlternatives_spell (htight : Everywhere IsTight (plainGroup alternatives))
    (hleaf : ∀ id ∈ (plainGroup alternatives).references, IsAtom leaf target id) (behind : Bool) :
    treesOfAlternatives target (spellAlternatives leaf behind alternatives) =
      paredAlternatives alternatives := by
  obtain ⟨htightness, htight⟩ := everywhere_group_iff.mp htight
  refine treesOfAlternatives_spellAlternatives fun sequence hsequence node hnode => ?_
  refine treesOfSequence_spell (htight sequence hsequence node hnode)
    (htightness sequence hsequence node hnode) (fun id hid => hleaf id ?_) behind
  exact mem_references_group.mpr ⟨sequence, hsequence, node, hnode, hid⟩

end Reading

/-! ## Trees that stay -/

/-- No group of the tree is superfluous. -/
def IsPared (node : Node) : Prop :=
  Everywhere (fun child => child.isSuperfluous = false) node

theorem paredAlternatives_eq_self_iff : paredAlternatives alternatives = alternatives ↔
    ∀ sequence ∈ alternatives, ∀ node ∈ sequence, node.pared = node := by
  have hmap : ∀ {α : Type} {f : α → α} (xs : List α), xs.map f = xs ↔ ∀ x ∈ xs, f x = x := by
    intro α f xs
    exact (Eq.congr_right (List.map_id xs).symm).trans List.map_inj_left
  rw [paredAlternatives_eq_map, hmap]
  exact forall₂_congr fun sequence _ => hmap sequence

/-- A node is not a group around a single node merely by its quantity and its look. -/
theorem withQuantity_ne_group {node : Node} (hplain : node.isDecorated = false)
    (hsolid : node.isTransparent = false) (child : Node) (quantity : Quantity) (look : Look) :
    (node.withLook look).withQuantity quantity ≠ group [[child]] quantity look := by
  obtain ⟨hquantity, hlook⟩ := Registry.isDecorated_eq_false_iff.mp hplain
  intro hsame
  cases node with
  | ref id own around => cases hsame
  | group inner own around =>
      obtain rfl : own = .once := hquantity
      obtain rfl : around = .here := hlook
      obtain ⟨rfl, -, -⟩ := Node.group.inj hsame
      cases hsolid

/-- A tight tree is pared exactly if paring it changes nothing. -/
theorem pared_eq_self_iff {node : Node} (htight : Everywhere IsTight node) :
    node.pared = node ↔ node.IsPared := by
  induction node using Node.memberInduction with
  | ref id quantity look => exact iff_of_true rfl (everywhere_ref_iff.mpr rfl)
  | group alternatives quantity look ih =>
      obtain ⟨htightness, htight⟩ := everywhere_group_iff.mp htight
      rw [IsPared, everywhere_group_iff, pared]
      constructor
      · intro hsame
        have hinside : paredAlternatives alternatives = alternatives := by
          rcases enclose_cases (paredAlternatives alternatives) quantity look with
            ⟨child, hchild, -, hplain, henclose⟩ | ⟨-, henclose⟩
          · rw [paredAlternatives_eq_map] at hchild
            obtain ⟨sequence, rfl, hsequence⟩ := List.map_eq_singleton_iff.mp hchild
            obtain ⟨origin, rfl, rfl⟩ := List.map_eq_singleton_iff.mp hsequence
            have hsolid := isTransparent_pared
              (htightness [origin] List.mem_cons_self origin List.mem_cons_self)
            rw [henclose] at hsame
            exact absurd hsame (withQuantity_ne_group hplain hsolid origin quantity look)
          · rw [henclose] at hsame
            exact (Node.group.inj hsame).1
        refine ⟨?_, fun sequence hsequence node hnode => ?_⟩
        · rw [hinside] at hsame
          by_contra hsuperfluous
          rw [Bool.not_eq_false, isSuperfluous_group_iff] at hsuperfluous
          obtain ⟨node, rfl, hdecorated, hplain⟩ := hsuperfluous
          rw [enclose_of_superfluous hdecorated hplain] at hsame
          exact withQuantity_ne_group hplain (htightness [node] List.mem_cons_self node
            List.mem_cons_self) node quantity look hsame
        · have hnodes := paredAlternatives_eq_self_iff.mp hinside sequence hsequence node hnode
          exact (ih sequence hsequence node hnode (htight sequence hsequence node hnode)).mp hnodes
      · rintro ⟨hneeded, hpared⟩
        have hinside : paredAlternatives alternatives = alternatives := by
          refine paredAlternatives_eq_self_iff.mpr fun sequence hsequence node hnode => ?_
          exact (ih sequence hsequence node hnode (htight sequence hsequence node hnode)).mpr
            (hpared sequence hsequence node hnode)
        rw [hinside, enclose_of_needed hneeded]

/-! ## Penalties -/

variable {cost dearer : Int → Except Fault Int}

theorem penalty_withQuantity {node : Node} {value : Int} (hvalue : node.penalty cost = .ok value)
    (quantity : Quantity) (look : Look) :
    ((node.withLook look).withQuantity quantity).penalty cost =
      .ok (ownPenalty quantity look + (value - ownPenalty node.quantity node.look)) := by
  cases node with
  | ref id own around =>
      obtain ⟨found, hfound, hvalue⟩ := bind_eq_ok_iff.mp hvalue
      cases hvalue
      rw [withLook, withQuantity, penalty, hfound]
      simp only [Node.quantity, Node.look]
      exact congrArg Except.ok (by omega)
  | group alternatives own around =>
      obtain ⟨worst, hworst, hvalue⟩ := bind_eq_ok_iff.mp hvalue
      cases hvalue
      rw [withLook, withQuantity, penalty, hworst]
      simp only [Node.quantity, Node.look]
      exact congrArg Except.ok (by omega)

/-- Without a superfluous group around it a node costs less, if anything. -/
theorem atMost_penalty_enclose (alternatives : List (List Node)) (quantity : Quantity)
    (look : Look) : AtMost ((enclose alternatives quantity look).penalty cost)
      ((group alternatives quantity look).penalty cost) := by
  rcases enclose_cases alternatives quantity look with
    ⟨node, rfl, -, hplain, hsame⟩ | ⟨-, hsame⟩
  · rw [hsame]
    obtain ⟨hquantity, hlook⟩ := Registry.isDecorated_eq_false_iff.mp hplain
    intro value hvalue
    obtain ⟨worst, hworst, hvalue⟩ := bind_eq_ok_iff.mp hvalue
    obtain ⟨total, htotal, hworst⟩ := bind_eq_ok_iff.mp hworst
    obtain ⟨own, hown, htotal⟩ := bind_eq_ok_iff.mp htotal
    cases hvalue
    cases hworst
    cases htotal
    refine ⟨_, penalty_withQuantity hown quantity look, ?_⟩
    rw [hquantity, hlook]
    change _ + (own - 1) ≤ _ + max (own + 0) 0
    omega
  · rw [hsame]
    exact .refl _

/-- A pared tree does not cost more than the tree, also where its references cost less. -/
theorem atMost_penalty_pared {node : Node}
    (hcost : ∀ id ∈ node.references, AtMost (cost id) (dearer id)) :
    AtMost (node.pared.penalty cost) (node.penalty dearer) := by
  induction node using Node.memberInduction with
  | ref id quantity look =>
      intro value hvalue
      rw [penalty] at hvalue
      obtain ⟨found, hfound, hvalue⟩ := bind_eq_ok_iff.mp hvalue
      cases hvalue
      obtain ⟨lower, hlower, hle⟩ := hcost id (by simp) found hfound
      refine ⟨ownPenalty quantity look + lower, ?_, Int.add_le_add_left hle _⟩
      rw [pared, penalty, hlower]
      rfl
  | group alternatives quantity look ih =>
      have hinside : List.Forall₂ (List.Forall₂ fun node other =>
          AtMost (node.penalty cost) (other.penalty dearer)) (paredAlternatives alternatives)
            alternatives := by
        refine forall₂_paredAlternatives fun sequence hsequence node hnode => ?_
        refine ih sequence hsequence node hnode fun id hid => hcost id ?_
        exact mem_references_group.mpr ⟨sequence, hsequence, node, hnode, hid⟩
      rw [pared]
      exact (atMost_penalty_enclose _ quantity look).trans
        (atMost_penalty_group hinside quantity look)

end Node

end Motif
