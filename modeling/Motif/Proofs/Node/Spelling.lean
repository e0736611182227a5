import Motif.Proofs.Node.Parsing
import Motif.Proofs.Node.Reduction

/-!
# Spelling what has been parsed

The tree of the phrases that spell a node is spelled like the node itself, whatever its references
are spelled as. So it does not matter for the spelling that a tree is written down and read again,
even if references to other trees are written out on the way.
-/

namespace Motif

namespace Phrase

/-- Alternatives that can be written and read again. -/
structure Readable (alternatives : List (List Phrase)) : Prop where
  nonempty : alternatives ≠ []
  full : ∀ sequence ∈ alternatives, sequence ≠ []
  legible : ∀ sequence ∈ alternatives, ∀ phrase ∈ sequence, phrase.Legible

theorem Readable.singleton {phrase : Phrase} (hlegible : phrase.Legible) :
    Readable [[phrase]] where
  nonempty := List.cons_ne_nil _ _
  full := by simp
  legible := by
    intro sequence hsequence other hother
    obtain rfl := List.mem_singleton.mp hsequence
    obtain rfl := List.mem_singleton.mp hother
    exact hlegible

theorem legible_decorate {phrase : Phrase} (hphrase : phrase.Legible) {quantity : Quantity}
    {look : Look} (hallowed : Allowed quantity look) :
    (phrase.decorate quantity look).Legible := by
  cases hphrase with
  | atom hsymbol _ => exact .atom hsymbol hallowed
  | parens halternatives hsequences hphrases _ =>
      exact .parens halternatives hsequences hphrases hallowed

theorem Readable.parens {alternatives : List (List Phrase)} (hreadable : Readable alternatives)
    {quantity : Quantity} {look : Look} (hallowed : Allowed quantity look) :
    (Phrase.parens alternatives quantity look).Legible :=
  .parens hreadable.nonempty hreadable.full hreadable.legible hallowed

theorem Readable.legible_wrap {alternatives : List (List Phrase)}
    (hreadable : Readable alternatives)
    {quantity : Quantity} {look : Look} (hallowed : Allowed quantity look) :
    wrap alternatives quantity look ≠ [] ∧
      ∀ phrase ∈ wrap alternatives quantity look, phrase.Legible := by
  unfold wrap
  split
  next =>
    split
    next sequence =>
      exact ⟨hreadable.full sequence List.mem_cons_self,
        hreadable.legible sequence List.mem_cons_self⟩
    next =>
      simpa using hreadable.parens (allowed_here Quantity.legal_once)
  next =>
    split
    next phrase =>
      have hphrase := hreadable.legible [phrase] List.mem_cons_self phrase List.mem_cons_self
      split
      next => simpa using legible_decorate hphrase hallowed
      next => simpa using hreadable.parens hallowed
    next => simpa using hreadable.parens hallowed

end Phrase

namespace Node

open Phrase (Readable wrap treesOfSequence treesOfAlternatives)

variable {leaf written : Bool → Int → List (List Phrase)} {target : Symbol → Int}

theorem spellSequence_congr {first second : Bool} {sequence : List Node}
    (hnode : ∀ node ∈ sequence, spell leaf first node = spell written second node) :
    spellSequence leaf first sequence = spellSequence written second sequence := by
  induction sequence with
  | nil => rfl
  | cons node rest ih =>
      rw [spellSequence, spellSequence, hnode node List.mem_cons_self,
        ih fun other hother => hnode other (List.mem_cons_of_mem _ hother)]

theorem spellAlternatives_congr_of_mem {first second : Bool} {alternatives : List (List Node)}
    (hnode : ∀ sequence ∈ alternatives, ∀ node ∈ sequence,
      spell leaf first node = spell written second node) :
    spellAlternatives leaf first alternatives = spellAlternatives written second alternatives := by
  induction alternatives with
  | nil => rfl
  | cons sequence rest ih =>
      rw [spellAlternatives, spellAlternatives,
        spellSequence_congr (hnode sequence List.mem_cons_self),
        ih fun other hother => hnode other (List.mem_cons_of_mem _ hother)]

/-- Only what stands for the references of a node matters to its spelling, and that only up to plain
parentheses. -/
theorem spell_congr_of_wrap {node : Node}
    (hleaf : ∀ id ∈ node.references, ∀ behind quantity look,
      wrap (leaf behind id) quantity look = wrap (written behind id) quantity look)
    (behind : Bool) : spell leaf behind node = spell written behind node := by
  induction node using Node.memberInduction generalizing behind with
  | ref id quantity look => rw [spell, spell, hleaf id (by simp)]
  | group alternatives quantity look ih =>
      rw [spell, spell, spellAlternatives_congr_of_mem]
      intro sequence hsequence node hnode
      refine ih sequence hsequence node hnode (fun id hid => hleaf id ?_) _
      exact mem_references_group.mpr ⟨sequence, hsequence, node, hnode, hid⟩

theorem spellAlternatives_congr_of_wrap {alternatives : List (List Node)}
    (hleaf : ∀ id ∈ (plainGroup alternatives).references, ∀ behind quantity look,
      wrap (leaf behind id) quantity look = wrap (written behind id) quantity look)
    (behind : Bool) :
    spellAlternatives leaf behind alternatives = spellAlternatives written behind alternatives := by
  refine spellAlternatives_congr_of_mem fun sequence hsequence node hnode => ?_
  refine spell_congr_of_wrap (fun id hid => hleaf id ?_) behind
  exact mem_references_group.mpr ⟨sequence, hsequence, node, hnode, hid⟩

theorem spellAlternatives_congr {alternatives : List (List Node)}
    (hleaf : ∀ id ∈ (plainGroup alternatives).references, ∀ behind,
      leaf behind id = written behind id) (behind : Bool) :
    spellAlternatives leaf behind alternatives = spellAlternatives written behind alternatives :=
  spellAlternatives_congr_of_wrap (fun id hid behind _ _ => by rw [hleaf id hid behind]) behind

theorem spell_of_uniform (leaf : Int → List (List Phrase)) (first second : Bool) (node : Node) :
    spell (fun _ => leaf) first node = spell (fun _ => leaf) second node := by
  induction node using Node.memberInduction generalizing first second with
  | ref id quantity look => rfl
  | group alternatives quantity look ih =>
      rw [spell, spell, spellAlternatives_congr_of_mem]
      exact fun sequence hsequence node hnode => ih sequence hsequence node hnode _ _

theorem spellAlternatives_of_uniform (leaf : Int → List (List Phrase)) (first second : Bool)
    (alternatives : List (List Node)) :
    spellAlternatives (fun _ => leaf) first alternatives =
      spellAlternatives (fun _ => leaf) second alternatives :=
  spellAlternatives_congr_of_mem fun _ _ node _ => spell_of_uniform leaf first second node

theorem spellSequence_wrap (behind : Bool) (alternatives : List (List Phrase)) (quantity : Quantity)
    (look : Look) :
    spellSequence leaf behind (treesOfSequence target (wrap alternatives quantity look)) =
      wrap (spellAlternatives leaf (behind || look = .behind)
        (treesOfAlternatives target alternatives)) quantity look := by
  by_cases hplain : quantity = .once ∧ look = .here
  · obtain ⟨rfl, rfl⟩ := hplain
    by_cases hsingle : ∃ sequence, alternatives = [sequence]
    · obtain ⟨sequence, rfl⟩ := hsingle
      rw [Phrase.wrap_singleton, treesOfAlternatives, treesOfAlternatives, spellAlternatives,
        spellAlternatives, Phrase.wrap_singleton]
      simp
    · rw [Phrase.wrap_of_not_singleton hsingle, treesOfSequence, treesOfSequence, spellSequence,
        spellSequence, List.append_nil, Phrase.tree, spell]
  · by_cases hsingle : ∃ phrase, alternatives = [[phrase]] ∧ phrase.IsPlain
    · obtain ⟨phrase, rfl, hphrase⟩ := hsingle
      rw [Phrase.wrap_of_plain hplain hphrase, treesOfSequence, treesOfSequence, spellSequence,
        spellSequence, List.append_nil, treesOfAlternatives, treesOfAlternatives,
        spellAlternatives, spellAlternatives, treesOfSequence, treesOfSequence, spellSequence,
        spellSequence, List.append_nil]
      obtain ⟨symbol, rfl⟩ | ⟨inner, rfl⟩ := hphrase.cases
      all_goals
        simp only [Phrase.decorate, Phrase.tree, spell, reduceCtorEq, decide_false, Bool.or_false]
        exact (Phrase.wrap_wrap _ _ _).symm
    · rw [Phrase.wrap_of_decorated hplain hsingle, treesOfSequence, treesOfSequence, spellSequence,
        spellSequence, List.append_nil, Phrase.tree, spell]

/-- What is written for a reference is spelled as the reference, once it has been read. -/
def StandsFor (leaf written : Bool → Int → List (List Phrase)) (target : Symbol → Int) (id : Int) :
    Prop :=
  ∀ behind quantity look,
    wrap (spellAlternatives leaf behind (treesOfAlternatives target (written behind id))) quantity
      look = wrap (leaf behind id) quantity look

theorem spellSequence_spell_of_mem {behind : Bool} {sequence : List Node}
    (hnode : ∀ node ∈ sequence,
      spellSequence leaf behind (treesOfSequence target (spell written behind node)) =
        spell leaf behind node) :
    spellSequence leaf behind (treesOfSequence target (spellSequence written behind sequence)) =
      spellSequence leaf behind sequence := by
  induction sequence with
  | nil => rfl
  | cons first rest ih =>
      rw [spellSequence, Phrase.treesOfSequence_append, spellSequence_append, spellSequence,
        hnode first List.mem_cons_self, ih fun node hmem =>
          hnode node (List.mem_cons_of_mem _ hmem)]

theorem spellAlternatives_spell_of_mem {behind : Bool} {alternatives : List (List Node)}
    (hnode : ∀ sequence ∈ alternatives, ∀ node ∈ sequence,
      spellSequence leaf behind (treesOfSequence target (spell written behind node)) =
        spell leaf behind node) :
    spellAlternatives leaf behind
        (treesOfAlternatives target (spellAlternatives written behind alternatives)) =
      spellAlternatives leaf behind alternatives := by
  induction alternatives with
  | nil => rfl
  | cons first rest ih =>
      rw [spellAlternatives, treesOfAlternatives, spellAlternatives, spellAlternatives,
        spellSequence_spell_of_mem (hnode first List.mem_cons_self),
        ih fun sequence hmem => hnode sequence (List.mem_cons_of_mem _ hmem)]

/-- The tree that is read where a node was written is spelled as the node. -/
theorem spellSequence_spell {node : Node}
    (hstands : ∀ id ∈ node.references, StandsFor leaf written target id) (behind : Bool) :
    spellSequence leaf behind (treesOfSequence target (spell written behind node)) =
      spell leaf behind node := by
  induction node using Node.memberInduction generalizing behind with
  | ref id quantity look =>
      rw [spell, spellSequence_wrap, spell]
      exact hstands id (by simp) _ quantity look
  | group alternatives quantity look ih =>
      rw [spell, spellSequence_wrap, spell, spellAlternatives_spell_of_mem]
      intro sequence hsequence node hnode
      refine ih sequence hsequence node hnode (fun id hid => hstands id ?_) _
      exact mem_references_group.mpr ⟨sequence, hsequence, node, hnode, hid⟩

theorem spellAlternatives_spellAlternatives {alternatives : List (List Node)}
    (hstands : ∀ id ∈ (plainGroup alternatives).references, StandsFor leaf written target id)
    (behind : Bool) :
    spellAlternatives leaf behind
        (treesOfAlternatives target (spellAlternatives written behind alternatives)) =
      spellAlternatives leaf behind alternatives := by
  refine spellAlternatives_spell_of_mem fun sequence hsequence node hnode => ?_
  refine spellSequence_spell (fun id hid => hstands id ?_) behind
  exact mem_references_group.mpr ⟨sequence, hsequence, node, hnode, hid⟩

/-! ## Spelling legibly -/

/-- The quantity and the look of a node may be written. -/
def IsAllowed (node : Node) : Prop :=
  Phrase.Allowed node.quantity node.look

theorem readable_spellAlternatives_of_mem {behind : Bool} {alternatives : List (List Node)}
    (hfull : alternatives ≠ [] ∧ ∀ sequence ∈ alternatives, sequence ≠ [])
    (hnode : ∀ sequence ∈ alternatives, ∀ node ∈ sequence,
      spell leaf behind node ≠ [] ∧ ∀ phrase ∈ spell leaf behind node, phrase.Legible) :
    Readable (spellAlternatives leaf behind alternatives) := by
  have hsequence : ∀ sequence : List Node, (∀ node ∈ sequence, ∀ phrase ∈ spell leaf behind node,
      phrase.Legible) → ∀ phrase ∈ spellSequence leaf behind sequence, phrase.Legible := by
    intro sequence hlegible
    induction sequence with
    | nil =>
        intro phrase hphrase
        cases hphrase
    | cons first rest ih =>
        intro phrase hphrase
        rcases List.mem_append.mp hphrase with hphrase | hphrase
        · exact hlegible first List.mem_cons_self phrase hphrase
        · exact ih (fun node hmem => hlegible node (List.mem_cons_of_mem _ hmem)) phrase hphrase
  rw [Registry.spellAlternatives_eq_map]
  refine ⟨by simpa using hfull.1, ?_, ?_⟩
  · intro phrases hphrases
    obtain ⟨sequence, hmem, rfl⟩ := List.mem_map.mp hphrases
    obtain ⟨first, rest, rfl⟩ := List.exists_cons_of_ne_nil (hfull.2 sequence hmem)
    rw [spellSequence]
    exact List.append_ne_nil_of_left_ne_nil (hnode _ hmem first List.mem_cons_self).1 _
  · intro phrases hphrases phrase hphrase
    obtain ⟨sequence, hmem, rfl⟩ := List.mem_map.mp hphrases
    exact hsequence sequence (fun node hnodes => (hnode sequence hmem node hnodes).2) phrase hphrase

theorem legible_spell {node : Node} (hfull : Everywhere IsFull node)
    (hallowed : Everywhere IsAllowed node)
    (hleaf : ∀ id ∈ node.references, ∀ behind, Readable (leaf behind id)) (behind : Bool) :
    spell leaf behind node ≠ [] ∧ ∀ phrase ∈ spell leaf behind node, phrase.Legible := by
  induction node using Node.memberInduction generalizing behind with
  | ref id quantity look =>
      exact (hleaf id (by simp) _).legible_wrap (everywhere_ref_iff.mp hallowed)
  | group alternatives quantity look ih =>
      obtain ⟨hfullness, hfull⟩ := everywhere_group_iff.mp hfull
      obtain ⟨hdecoration, hallowed⟩ := everywhere_group_iff.mp hallowed
      refine Readable.legible_wrap (readable_spellAlternatives_of_mem hfullness ?_) hdecoration
      intro sequence hsequence node hnode
      refine ih sequence hsequence node hnode (hfull sequence hsequence node hnode)
        (hallowed sequence hsequence node hnode) (fun id hid => hleaf id ?_) _
      exact mem_references_group.mpr ⟨sequence, hsequence, node, hnode, hid⟩

/-- A whole tree is spelled legibly if its references are. -/
theorem readable_spellAlternatives {alternatives : List (List Node)}
    (hfull : Everywhere IsFull (plainGroup alternatives))
    (hallowed : Everywhere IsAllowed (plainGroup alternatives))
    (hleaf : ∀ id ∈ (plainGroup alternatives).references, ∀ behind, Readable (leaf behind id))
    (behind : Bool) : Readable (spellAlternatives leaf behind alternatives) := by
  obtain ⟨hfullness, hfull⟩ := everywhere_group_iff.mp hfull
  obtain ⟨-, hallowed⟩ := everywhere_group_iff.mp hallowed
  refine readable_spellAlternatives_of_mem hfullness fun sequence hsequence node hnode => ?_
  refine legible_spell (hfull sequence hsequence node hnode)
    (hallowed sequence hsequence node hnode) (fun id hid => hleaf id ?_) behind
  exact mem_references_group.mpr ⟨sequence, hsequence, node, hnode, hid⟩

/-! ## What is mentioned -/

theorem mentions_decorate {symbol : Symbol} {phrase : Phrase} {quantity : Quantity} {look : Look}
    (hmention : Phrase.Mentions symbol (phrase.decorate quantity look)) :
    Phrase.Mentions symbol phrase := by
  cases phrase with
  | atom own _ _ =>
      cases hmention
      exact .atom _ _
  | parens alternatives _ _ =>
      cases hmention with
      | parens hsequence hphrase hmention => exact .parens hsequence hphrase hmention

theorem mentions_wrap {symbol : Symbol} {alternatives : List (List Phrase)} {quantity : Quantity}
    {look : Look} {phrase : Phrase} (hphrase : phrase ∈ wrap alternatives quantity look)
    (hmention : Phrase.Mentions symbol phrase) :
    ∃ sequence ∈ alternatives, ∃ inner ∈ sequence, Phrase.Mentions symbol inner := by
  have hparens : ∀ quantity look, Phrase.Mentions symbol (.parens alternatives quantity look) →
      ∃ sequence ∈ alternatives, ∃ inner ∈ sequence, Phrase.Mentions symbol inner := by
    intro quantity look hmention
    cases hmention with
    | parens hsequence hphrase hmention => exact ⟨_, hsequence, _, hphrase, hmention⟩
  unfold Phrase.wrap at hphrase
  split at hphrase
  next =>
    split at hphrase
    next sequence => exact ⟨sequence, List.mem_cons_self, phrase, hphrase, hmention⟩
    next =>
      obtain rfl := List.mem_singleton.mp hphrase
      exact hparens _ _ hmention
  next =>
    split at hphrase
    next single =>
      split at hphrase
      next =>
        obtain rfl := List.mem_singleton.mp hphrase
        exact ⟨[single], List.mem_cons_self, single, List.mem_cons_self, mentions_decorate hmention⟩
      next =>
        obtain rfl := List.mem_singleton.mp hphrase
        exact hparens _ _ hmention
    next =>
      obtain rfl := List.mem_singleton.mp hphrase
      exact hparens _ _ hmention

theorem mem_spellAlternatives {behind : Bool} {alternatives : List (List Node)}
    {phrases : List Phrase} (hphrases : phrases ∈ spellAlternatives leaf behind alternatives)
    {phrase : Phrase} (hphrase : phrase ∈ phrases) :
    ∃ sequence ∈ alternatives, ∃ node ∈ sequence, phrase ∈ spell leaf behind node := by
  rw [Registry.spellAlternatives_eq_map] at hphrases
  obtain ⟨sequence, hsequence, rfl⟩ := List.mem_map.mp hphrases
  refine ⟨sequence, hsequence, ?_⟩
  clear hphrases hsequence
  induction sequence with
  | nil => cases hphrase
  | cons first rest ih =>
      rcases List.mem_append.mp hphrase with hphrase | hphrase
      · exact ⟨first, List.mem_cons_self, hphrase⟩
      · obtain ⟨node, hnode, hspelled⟩ := ih hphrase
        exact ⟨node, List.mem_cons_of_mem _ hnode, hspelled⟩

/-- The phrases of a node mention only what stands for its references. -/
theorem mentions_spell {symbol : Symbol} {node : Node} {behind : Bool} {phrase : Phrase}
    (hphrase : phrase ∈ spell leaf behind node) (hmention : Phrase.Mentions symbol phrase) :
    ∃ id ∈ node.references, ∃ behind, ∃ sequence ∈ leaf behind id, ∃ inner ∈ sequence,
      Phrase.Mentions symbol inner := by
  induction node using Node.memberInduction generalizing behind phrase with
  | ref id quantity look => exact ⟨id, by simp, _, mentions_wrap hphrase hmention⟩
  | group alternatives quantity look ih =>
      obtain ⟨phrases, hphrases, inner, hinner, hmention⟩ := mentions_wrap hphrase hmention
      obtain ⟨sequence, hsequence, node, hnode, hspelled⟩ := mem_spellAlternatives hphrases hinner
      obtain ⟨id, hid, hmentions⟩ := ih sequence hsequence node hnode hspelled hmention
      exact ⟨id, mem_references_group.mpr ⟨sequence, hsequence, node, hnode, hid⟩, hmentions⟩

/-! ## What stands inside a look behind -/

/-- The trees of a group's phrases: those inside it, a reference or a group that holds what was
inside. -/
theorem tree_of_mem_wrap {property : Node → Prop} {alternatives : List (List Phrase)}
    (hinside : ∀ sequence ∈ alternatives, ∀ phrase ∈ sequence,
      Everywhere property (phrase.tree target))
    {quantity : Quantity} {look : Look} {phrase : Phrase}
    (hphrase : phrase ∈ wrap alternatives quantity look) :
    (quantity = .once ∧ look = .here ∧ ∃ sequence ∈ alternatives, phrase ∈ sequence) ∨
      (∃ id, phrase.tree target = .ref id quantity look) ∨
      ∃ inner, phrase.tree target = .group inner quantity look ∧
        ∀ sequence ∈ inner, ∀ node ∈ sequence, Everywhere property node := by
  have hparens : (∃ id, (Phrase.parens alternatives quantity look).tree target =
        .ref id quantity look) ∨
      ∃ inner, (Phrase.parens alternatives quantity look).tree target = .group inner quantity look ∧
        ∀ sequence ∈ inner, ∀ node ∈ sequence, Everywhere property node := by
    refine .inr ⟨treesOfAlternatives target alternatives, rfl, ?_⟩
    intro sequence hsequence node hnode
    obtain ⟨phrases, hphrases, phrase, hphrase, rfl⟩ :=
      Phrase.exists_of_mem_treesOfAlternatives hsequence hnode
    exact hinside phrases hphrases phrase hphrase
  unfold Phrase.wrap at hphrase
  split at hphrase
  next hplain =>
    obtain ⟨rfl, rfl⟩ := hplain
    split at hphrase
    next sequence => exact .inl ⟨rfl, rfl, sequence, List.mem_cons_self, hphrase⟩
    next =>
      obtain rfl := List.mem_singleton.mp hphrase
      exact .inr hparens
  next =>
    split at hphrase
    next single =>
      split at hphrase
      next hsingle =>
        obtain rfl := List.mem_singleton.mp hphrase
        have hproperty := hinside [single] List.mem_cons_self single List.mem_cons_self
        cases single with
        | atom symbol _ _ => exact .inr (.inl ⟨target symbol, rfl⟩)
        | parens inner _ _ =>
            exact .inr (.inr ⟨treesOfAlternatives target inner, rfl,
              (everywhere_group_iff.mp hproperty).2⟩)
      next =>
        obtain rfl := List.mem_singleton.mp hphrase
        exact .inr hparens
    next =>
      obtain rfl := List.mem_singleton.mp hphrase
      exact .inr hparens

/-- A node without quantifier and look. -/
def IsPlain (node : Node) : Prop :=
  node.quantity = .once ∧ node.look = .here

/-- Inside a look behind a reference is written as a single lexeme. -/
def WritesAtoms (leaf : Bool → Int → List (List Phrase)) (id : Int) : Prop :=
  ∃ symbol, leaf true id = [[.atom symbol .once .here]]

theorem everywhere_isPlain_tree {node : Node} (hplain : Everywhere IsPlain node)
    (hleaf : ∀ id ∈ node.references, WritesAtoms leaf id) {phrase : Phrase}
    (hphrase : phrase ∈ spell leaf true node) : Everywhere IsPlain (phrase.tree target) := by
  induction node using Node.memberInduction generalizing phrase with
  | ref id quantity look =>
      obtain ⟨rfl, rfl⟩ : quantity = .once ∧ look = .here := everywhere_ref_iff.mp hplain
      obtain ⟨symbol, hsymbol⟩ := hleaf id (by simp)
      rw [spell, Bool.true_or, hsymbol, Phrase.wrap_singleton, List.mem_singleton] at hphrase
      rw [hphrase, Phrase.tree, everywhere_ref_iff]
      exact ⟨rfl, rfl⟩
  | group alternatives quantity look ih =>
      obtain ⟨hnode, hinside⟩ := everywhere_group_iff.mp hplain
      rw [spell, Bool.true_or] at hphrase
      have hphrases : ∀ sequence ∈ spellAlternatives leaf true alternatives, ∀ phrase ∈ sequence,
          Everywhere IsPlain (phrase.tree target) := by
        intro phrases hphrases phrase hphrase
        obtain ⟨sequence, hsequence, node, hmem, hspelled⟩ := mem_spellAlternatives hphrases hphrase
        refine ih sequence hsequence node hmem (hinside sequence hsequence node hmem)
          (fun id hid => hleaf id ?_) hspelled
        exact mem_references_group.mpr ⟨sequence, hsequence, node, hmem, hid⟩
      rcases tree_of_mem_wrap hphrases hphrase with
        ⟨-, -, sequence, hsequence, hmem⟩ | ⟨id, htree⟩ | ⟨inner, htree, hinner⟩
      · exact hphrases sequence hsequence phrase hmem
      · rw [htree, everywhere_ref_iff]
        exact hnode
      · rw [htree, everywhere_group_iff]
        exact ⟨hnode, hinner⟩

theorem looksBehindPlainly_of_isPlain {node : Node} (hplain : Everywhere IsPlain node) :
    Everywhere LooksBehindPlainly node := by
  intro child hchild
  obtain ⟨-, hlook⟩ := hplain child hchild
  cases child with
  | ref id quantity look => trivial
  | group alternatives quantity look =>
      obtain rfl : look = .here := hlook
      trivial

theorem looksBehindPlainly_of_mem_wrap {alternatives : List (List Phrase)}
    (hinside : ∀ sequence ∈ alternatives, ∀ phrase ∈ sequence,
      Everywhere LooksBehindPlainly (phrase.tree target))
    {quantity : Quantity} {look : Look} (hlook : look ≠ .behind) {phrase : Phrase}
    (hphrase : phrase ∈ wrap alternatives quantity look) :
    Everywhere LooksBehindPlainly (phrase.tree target) := by
  rcases tree_of_mem_wrap hinside hphrase with
    ⟨-, -, sequence, hsequence, hmem⟩ | ⟨other, htree⟩ | ⟨inner, htree, hinner⟩
  · exact hinside sequence hsequence phrase hmem
  · rw [htree, everywhere_ref_iff]
    trivial
  · rw [htree, everywhere_group_iff]
    refine ⟨?_, hinner⟩
    cases look with
    | behind => exact absurd rfl hlook
    | here => trivial
    | ahead => trivial

/-- What stands behind a look is plain through and through. -/
theorem looksBehindPlainly_of_mem_wrap_behind {alternatives : List (List Phrase)}
    (hinside : ∀ sequence ∈ alternatives, ∀ phrase ∈ sequence,
      Everywhere IsPlain (phrase.tree target))
    {quantity : Quantity} {phrase : Phrase}
    (hphrase : phrase ∈ wrap alternatives quantity .behind) :
    Everywhere LooksBehindPlainly (phrase.tree target) := by
  rcases tree_of_mem_wrap hinside hphrase with
    ⟨-, hlook, -⟩ | ⟨other, htree⟩ | ⟨inner, htree, hinner⟩
  · cases hlook
  · rw [htree, everywhere_ref_iff]
    trivial
  · rw [htree, everywhere_group_iff]
    exact ⟨hinner, fun sequence hsequence node hmem =>
      looksBehindPlainly_of_isPlain (hinner sequence hsequence node hmem)⟩

/-- The tree that is read where a node was written has only undecorated nodes inside its looks
behind, if the node has. -/
theorem looksBehindPlainly_tree {node : Node} (hbehind : Everywhere LooksBehindPlainly node)
    (hatoms : ∀ id ∈ node.references, WritesAtoms leaf id)
    (hleaf : ∀ id ∈ node.references, ∀ behind, ∀ sequence ∈ leaf behind id, ∀ phrase ∈ sequence,
      Everywhere LooksBehindPlainly (phrase.tree target))
    {behind : Bool} {phrase : Phrase} (hphrase : phrase ∈ spell leaf behind node) :
    Everywhere LooksBehindPlainly (phrase.tree target) := by
  induction node using Node.memberInduction generalizing behind phrase with
  | ref id quantity look =>
      by_cases hlook : look = .behind
      · subst hlook
        obtain ⟨symbol, hsymbol⟩ := hatoms id (by simp)
        rw [spell] at hphrase
        simp only [decide_true, Bool.or_true, hsymbol] at hphrase
        have hwrap : wrap [[.atom symbol .once .here]] quantity .behind =
            [.atom symbol quantity .behind] := by
          rw [wrap, if_neg (by simp)]
          rfl
        rw [hwrap, List.mem_singleton] at hphrase
        rw [hphrase, Phrase.tree, everywhere_ref_iff]
        trivial
      · exact looksBehindPlainly_of_mem_wrap (hleaf id (by simp) _) hlook hphrase
  | group alternatives quantity look ih =>
      obtain ⟨hnode, hinside⟩ := everywhere_group_iff.mp hbehind
      have hreferences : ∀ sequence ∈ alternatives, ∀ node ∈ sequence, ∀ id ∈ node.references,
          id ∈ (group alternatives quantity look).references := by
        intro sequence hsequence node hmem id hid
        exact mem_references_group.mpr ⟨sequence, hsequence, node, hmem, hid⟩
      by_cases hlook : look = .behind
      · subst hlook
        rw [spell] at hphrase
        refine looksBehindPlainly_of_mem_wrap_behind ?_ hphrase
        intro phrases hphrases phrase hphrase
        simp only [decide_true, Bool.or_true] at hphrases
        obtain ⟨sequence, hsequence, node, hmem, hspelled⟩ := mem_spellAlternatives hphrases hphrase
        exact everywhere_isPlain_tree (hnode sequence hsequence node hmem)
          (fun id hid => hatoms id (hreferences sequence hsequence node hmem id hid)) hspelled
      · refine looksBehindPlainly_of_mem_wrap ?_ hlook hphrase
        intro phrases hphrases phrase hphrase
        obtain ⟨sequence, hsequence, node, hmem, hspelled⟩ := mem_spellAlternatives hphrases hphrase
        exact ih sequence hsequence node hmem (hinside sequence hsequence node hmem)
          (fun id hid => hatoms id (hreferences sequence hsequence node hmem id hid))
          (fun id hid => hleaf id (hreferences sequence hsequence node hmem id hid)) hspelled

end Node

end Motif
