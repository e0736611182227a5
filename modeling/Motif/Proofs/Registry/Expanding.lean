import Motif.Proofs.Action
import Motif.Proofs.Node.Substitution
import Motif.Proofs.Registry.Describing

/-!
# Expanded trees and full descriptions

The expanded tree of a pattern is spelled in full like its own tree. So the full description of a
pattern is the text of its full phrases, whatever has been computed and stored before.
-/

namespace Motif.Registry

open Node (Canonical Everywhere IsAllowed IsFull IsTight plainGroup spell spellAlternatives
  substituteAlternatives)

variable {registry : Registry}

/-- What takes the place of a reference in an expanded tree: the tree to which it leads, if it leads
to one. -/
def inPlace (expanded : Int → Option Node) (id : Int) (quantity : Quantity) (look : Look) : Node :=
  match expanded id with
  | none => .ref id quantity look
  | some tree => .group tree.alternatives quantity look

/-- The expanded tree of a content; a literal has none. -/
def expandContent (expanded : Int → Option Node) : Content → Option Node
  | .literal _ => none
  | .tree root => some (root.substitute (inPlace expanded)).reduceRoot

/-- The expanded trees of the registered patterns. -/
def expansion (registry : Registry) : Int → Option Node :=
  registry.along none fun expanded pattern => expandContent expanded pattern.content

theorem fromReferences_expandContent :
    Grammar.FromReferences fun expanded pattern => expandContent expanded pattern.content := by
  intro pattern expanded other hsame
  cases hcontent : pattern.content with
  | literal text => simp only [hcontent, expandContent]
  | tree root =>
      rw [hcontent] at hsame
      simp only [hcontent, expandContent]
      rw [Node.substitute_congr fun id hid => ?_]
      funext quantity look
      rw [inPlace, inPlace, hsame id hid]

theorem expansion_eq (hgrounded : registry.Grounded) {id : Int} {pattern : Pattern}
    (hpattern : registry.byId? id = some pattern) :
    registry.expansion id = expandContent registry.expansion pattern.content :=
  hgrounded.along_eq fromReferences_expandContent hpattern

/-- A tree of literals that is spelled in full like a tree with other references. -/
structure Expands (registry : Registry) (alternatives expanded : List (List Node)) : Prop where
  full : Everywhere IsFull (plainGroup expanded)
  tight : Everywhere IsTight (plainGroup expanded)
  allowed : Everywhere IsAllowed (plainGroup expanded)
  unwrapped : Node.unwrap expanded = expanded
  literals : ∀ id ∈ (plainGroup expanded).references,
    ∃ pattern, registry.byId? id = some pattern ∧ ∃ text, pattern.content = .literal text
  spelled : ∀ quantity look, Phrase.wrap (registry.fullPhrases expanded) quantity look =
    Phrase.wrap (registry.fullPhrases alternatives) quantity look

/-- The expanded tree of a reference to a tree. -/
def ExpandsAt (registry : Registry) (id : Int) : Prop :=
  ∀ pattern, registry.byId? id = some pattern → ∀ root, pattern.content = .tree root →
    ∃ expanded, registry.expansion id = some (plainGroup expanded) ∧
      registry.Expands root.alternatives expanded

/-- A literal keeps its reference in an expanded tree, the reference to a tree gives way to the
expanded one. -/
inductive Expandable (registry : Registry) (id : Int) : Prop where
  | literal {pattern : Pattern} {text : String} (hpattern : registry.byId? id = some pattern)
      (hcontent : pattern.content = .literal text) (hexpansion : registry.expansion id = none)
  | tree {pattern : Pattern} {root : Node} {expanded : List (List Node)}
      (hpattern : registry.byId? id = some pattern) (hcontent : pattern.content = .tree root)
      (hexpansion : registry.expansion id = some (plainGroup expanded))
      (hexpands : registry.Expands root.alternatives expanded)

theorem ExpandsAt.expandable (hgrounded : registry.Grounded) {id : Int}
    (hexpands : registry.ExpandsAt id) (hknown : (registry.byId? id).isSome) :
    registry.Expandable id := by
  obtain ⟨pattern, hpattern⟩ := Option.isSome_iff_exists.mp hknown
  cases hcontent : pattern.content with
  | literal text =>
      refine .literal hpattern hcontent ?_
      rw [expansion_eq hgrounded hpattern, hcontent, expandContent]
  | tree root =>
      obtain ⟨expanded, hexpansion, hinside⟩ := hexpands pattern hpattern root hcontent
      exact .tree hpattern hcontent hexpansion hinside

section Substituting

variable {alternatives : List (List Node)}
  (htargets : ∀ id ∈ (plainGroup alternatives).references, registry.Expandable id)
include htargets

theorem everywhere_isFull_substitute (hfull : Everywhere IsFull (plainGroup alternatives)) :
    Everywhere IsFull ((plainGroup alternatives).substitute (inPlace registry.expansion)) := by
  refine Node.everywhere_substitute IsFull ?_ ?_ hfull
  · rintro inner quantity look ⟨hne, hsequences⟩
    rw [Node.substituteAlternatives_eq_map]
    refine ⟨by simpa using hne, ?_⟩
    intro sequence hsequence
    obtain ⟨origin, horigin, rfl⟩ := List.mem_map.mp hsequence
    simpa using hsequences origin horigin
  · intro id quantity look hid _
    cases htargets id hid with
    | literal _ _ hexpansion =>
        rw [inPlace, hexpansion]
        exact Node.everywhere_ref_iff.mpr trivial
    | tree _ _ hexpansion hexpands =>
        rw [inPlace, hexpansion]
        obtain ⟨hfullness, hinside⟩ := Node.everywhere_group_iff.mp hexpands.full
        exact Node.everywhere_group_iff.mpr ⟨hfullness, hinside⟩

theorem everywhere_isAllowed_substitute
    (hallowed : Everywhere IsAllowed (plainGroup alternatives)) :
    Everywhere IsAllowed ((plainGroup alternatives).substitute (inPlace registry.expansion)) := by
  refine Node.everywhere_substitute IsAllowed (fun _ _ _ hgiven => hgiven) ?_ hallowed
  intro id quantity look hid hdecoration
  cases htargets id hid with
  | literal _ _ hexpansion =>
      rw [inPlace, hexpansion]
      exact Node.everywhere_ref_iff.mpr hdecoration
  | tree _ _ hexpansion hexpands =>
      rw [inPlace, hexpansion]
      exact Node.everywhere_group_iff.mpr
        ⟨hdecoration, (Node.everywhere_group_iff.mp hexpands.allowed).2⟩

theorem exists_literal_of_mem_references_substitute {id : Int}
    (hid : id ∈ ((plainGroup alternatives).substitute (inPlace registry.expansion)).references) :
    ∃ pattern, registry.byId? id = some pattern ∧ ∃ text, pattern.content = .literal text := by
  obtain ⟨origin, horigin, quantity, look, hid⟩ := Node.mem_references_substitute hid
  cases htargets origin horigin with
  | literal hpattern hcontent hexpansion =>
      rw [inPlace, hexpansion, Node.mem_references_ref] at hid
      exact hid ▸ ⟨_, hpattern, _, hcontent⟩
  | tree _ _ hexpansion hexpands =>
      rw [inPlace, hexpansion] at hid
      exact hexpands.literals id hid

/-- An expanded tree is spelled in full like its origin, also before it is reduced. -/
theorem fullPhrases_substitute (hgrounded : registry.Grounded) :
    registry.fullPhrases (substituteAlternatives (inPlace registry.expansion) alternatives) =
      registry.fullPhrases alternatives := by
  rw [fullPhrases, Node.substituteAlternatives_eq_map, Node.spellAlternatives_map]
  · rfl
  intro sequence hsequence node hnode
  refine Node.spell_substitute (fun id hid behind quantity look => ?_) false
  have hreference : id ∈ (plainGroup alternatives).references :=
    Node.mem_references_group.mpr ⟨sequence, hsequence, node, hnode, hid⟩
  cases htargets id hreference with
  | literal _ _ hexpansion => rw [inPlace, hexpansion]
  | @tree _ _ expanded hpattern hcontent hexpansion hexpands =>
      rw [inPlace, hexpansion]
      change spell _ _ (.group expanded quantity look) = _
      rw [spell, spell, Node.spellAlternatives_of_uniform registry.spelling _ false,
        spelling_eq hgrounded hpattern, hcontent]
      exact hexpands.spelled quantity look

end Substituting

theorem expands_of_references (hsound : registry.Sound) {alternatives : List (List Node)}
    (hcanonical : Canonical alternatives) (hknown : registry.Knows alternatives)
    (hreferences : ∀ id ∈ (plainGroup alternatives).references, registry.ExpandsAt id) :
    ∃ expanded, ((plainGroup alternatives).substitute (inPlace registry.expansion)).reduceRoot =
        plainGroup expanded ∧ registry.Expands alternatives expanded := by
  have htargets : ∀ id ∈ (plainGroup alternatives).references, registry.Expandable id :=
    fun id hid => (hreferences id hid).expandable hsound.toGrounded (hknown id hid)
  have hfull := everywhere_isFull_substitute htargets hcanonical.full
  have hallowed := everywhere_isAllowed_substitute htargets hcanonical.allowed
  have hsubstitute : (plainGroup alternatives).substitute (inPlace registry.expansion) =
      plainGroup (substituteAlternatives (inPlace registry.expansion) alternatives) := rfl
  rw [hsubstitute] at hfull hallowed
  obtain ⟨hfull, htight, hallowed⟩ := Node.reduced_unwrap hfull hallowed
  refine ⟨_, by rw [hsubstitute, Node.reduceRoot_plainGroup], hfull, htight, hallowed,
    Node.unwrap_unwrap _, ?_, ?_⟩
  · intro id hid
    rw [← Node.reduceRoot_plainGroup, Node.mem_references_reduceRoot] at hid
    exact exists_literal_of_mem_references_substitute htargets hid
  · intro quantity look
    rw [fullPhrases, Node.wrap_spellAlternatives_reduceRoot]
    exact congrArg (Phrase.wrap · quantity look) (fullPhrases_substitute htargets hsound.toGrounded)

theorem expandsAt (hsound : registry.Sound) {id : Int} (hid : (registry.byId? id).isSome) :
    registry.ExpandsAt id := by
  refine hsound.toGrounded.induction (motive := registry.ExpandsAt) ?_ hid
  intro id found hfound hbelow pattern hpattern root hcontent
  obtain rfl : found = pattern := Option.some.inj (hfound.symm.trans hpattern)
  obtain ⟨rfl, hcanonical⟩ := hsound.alternatives_eq hpattern hcontent
  obtain ⟨expanded, hreduced, hexpands⟩ := expands_of_references hsound hcanonical
    (hsound.knows hpattern) fun other hother => (hbelow other (Content.mem_references _ hother)).2
  refine ⟨expanded, ?_, hexpands⟩
  rw [expansion_eq hsound.toGrounded hpattern, hcontent, expandContent, hreduced]

/-- The expanded tree of alternatives whose references are registered. -/
theorem exists_expands (hsound : registry.Sound) {alternatives : List (List Node)}
    (hcanonical : Canonical alternatives) (hknown : registry.Knows alternatives) :
    ∃ expanded, ((plainGroup alternatives).substitute (inPlace registry.expansion)).reduceRoot =
        plainGroup expanded ∧ registry.Expands alternatives expanded :=
  expands_of_references hsound hcanonical hknown fun id hid => expandsAt hsound (hknown id hid)

/-- The full description of a content. -/
def fullText (registry : Registry) : Content → String
  | .literal text => Text.quote text
  | .tree root => Phrase.textOf (Phrase.unwrapped (registry.fullPhrases root.alternatives))

theorem fullText_eq_textOf (content : Content) :
    registry.fullText content =
      Phrase.textOf (Phrase.unwrapped (spellContent registry.spelling content)) := by
  cases content with
  | literal word =>
      simp [fullText, spellContent, Phrase.unwrapped, Phrase.textOf, Phrase.textsOfAlternatives,
        Phrase.textsOfSequence, Phrase.text, Symbol.text, Look.mark, Quantity.suffix_once]
  | tree root => rfl

/-- An expanded tree is written as the full description of what it expands. -/
theorem render_expanded (hsound : registry.Sound) {inline : Pattern → Except Fault String}
    {alternatives expanded : List (List Node)} (hexpands : registry.Expands alternatives expanded) :
    registry.render inline { full := true } true false (plainGroup expanded) =
      .ok (registry.fullText (.tree (plainGroup alternatives))) := by
  have hatom : ∀ id ∈ (plainGroup expanded).references, ∃ pattern text,
      registry.byId? id = some pattern ∧ pattern.content = .literal text ∧
        registry.spelling id = [[.atom (.quoted (Text.quote text)) .once .here]] := by
    intro id hid
    obtain ⟨pattern, hpattern, text, hcontent⟩ := hexpands.literals id hid
    exact ⟨pattern, text, hpattern, hcontent, by
      rw [spelling_eq hsound.toGrounded hpattern, hcontent, spellContent]⟩
  have hwrites : ∀ id ∈ (plainGroup expanded).references,
      registry.Writes inline { full := true } (fun _ => registry.spelling) id := by
    intro id hid behind
    obtain ⟨pattern, text, hpattern, hcontent, hspelling⟩ := hatom id hid
    refine ⟨.atom (.quoted (Text.quote text)) .once .here, hspelling, ⟨rfl, rfl⟩, ?_⟩
    rw [referenceText_eq hpattern, hcontent]
    simp [Phrase.text, Symbol.text, Look.mark, Quantity.suffix_once]
  have hunwrapped : Phrase.unwrapped (registry.fullPhrases expanded) =
      registry.fullPhrases expanded :=
    unwrapped_spellAlternatives hexpands.full hexpands.tight hexpands.unwrapped hwrites
      fun id hid _ => by
        obtain ⟨pattern, text, -, -, hspelling⟩ := hatom id hid
        exact ⟨_, hspelling⟩
  have hspelled := Phrase.unwrapped_eq_of_wrap_eq (hexpands.spelled .never .here)
  rw [hunwrapped] at hspelled
  rw [render_root_eq hexpands.full hexpands.tight hwrites]
  exact congrArg (fun phrases => Except.ok (Phrase.textOf phrases)) hspelled

end Motif.Registry
