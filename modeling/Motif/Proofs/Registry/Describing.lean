import Motif.Proofs.Registry.Compiling
import Motif.Proofs.Registry.Identity
import Motif.Proofs.Registry.References
import Motif.Registry.Expansion

/-!
# Descriptions of registered patterns

The description of a pattern is the text of phrases: a reference is the lexeme of its pattern, or
what spells that pattern in parentheses. These phrases can be read again, and what is read is
spelled in full like the pattern itself.
-/

namespace Motif

/-- The alternatives of a tree; a literal has none. -/
def Content.alternatives : Content → List (List Node)
  | .literal _ => []
  | .tree root => root.alternatives

theorem Content.mem_references (content : Content) {id : Int}
    (hid : id ∈ (Node.plainGroup content.alternatives).references) : id ∈ content.references := by
  cases content with
  | literal text => simp [alternatives, Node.plainGroup] at hid
  | tree root =>
      cases root with
      | ref other quantity look => simp [alternatives, Node.alternatives, Node.plainGroup] at hid
      | group inner quantity look =>
          simpa [alternatives, Node.alternatives, Node.plainGroup, references] using hid

/-- The tree of the pattern, if it has one, is as if it had been compiled. -/
def Pattern.IsCanonical (pattern : Pattern) : Prop :=
  ∀ root, pattern.content = .tree root →
    ∃ alternatives, root = Node.plainGroup alternatives ∧ Node.Canonical alternatives

namespace Registry

open Node (Canonical Everywhere StandsFor plainGroup spell spellAlternatives)
open Phrase (Mentions Readable wrap treesOfAlternatives)

variable {registry : Registry}

/-- All references can be followed to their end, and all trees are groups. -/
structure Rooted (registry : Registry) : Prop extends Grounded registry where
  isGroup : ∀ pattern ∈ registry.patterns, ∀ root, pattern.content = .tree root →
    ∃ alternatives quantity look, root = .group alternatives quantity look

/-- All references can be followed to their end, and all trees are canonical. -/
structure Sound (registry : Registry) : Prop extends Grounded registry where
  canonical : ∀ pattern ∈ registry.patterns, pattern.IsCanonical

theorem Sound.rooted (hsound : registry.Sound) : registry.Rooted where
  toGrounded := hsound.toGrounded
  isGroup pattern hpattern root hroot := by
    obtain ⟨alternatives, rfl, -⟩ := hsound.canonical pattern hpattern root hroot
    exact ⟨alternatives, .once, .here, rfl⟩

theorem Coherent.mem_patterns (hcoherent : registry.Coherent) {id : Int} {pattern : Pattern}
    (hpattern : registry.byId? id = some pattern) : pattern ∈ registry.patterns := by
  rw [hcoherent.mem_patterns_iff, hcoherent.id_eq hpattern]
  exact hpattern

theorem Sound.alternatives_eq (hsound : registry.Sound) {id : Int} {pattern : Pattern}
    (hpattern : registry.byId? id = some pattern) {root : Node}
    (hroot : pattern.content = .tree root) :
    root = plainGroup pattern.content.alternatives ∧ Canonical pattern.content.alternatives := by
  obtain ⟨alternatives, rfl, hcanonical⟩ :=
    hsound.canonical pattern (hsound.coherent.mem_patterns hpattern) root hroot
  rw [hroot]
  exact ⟨rfl, hcanonical⟩

/-! ## What stands for a reference -/

/-- What stands for a reference: the lexeme of its pattern, or parentheses around what spells it. -/
def reference (registry : Registry) (useIds : Bool) (inline : Int → List (List Phrase))
    (behind : Bool) (id : Int) : List (List Phrase) :=
  match registry.byId? id with
  | none => []
  | some pattern =>
    if pattern.literal?.isSome || pattern.name.isSome || useIds || behind then
      [[.atom pattern.symbol .once .here]]
    else [[.parens (inline id) .once .here]]

/-- The phrases of every pattern, nameless ones written out. -/
def inlined (registry : Registry) : Int → List (List Phrase) :=
  registry.along [] fun inline pattern =>
    spellAlternatives (registry.reference false inline) false pattern.content.alternatives

/-- The phrases of a description. -/
def phrases (registry : Registry) (useIds : Bool) (alternatives : List (List Node)) :
    List (List Phrase) :=
  spellAlternatives (registry.reference useIds registry.inlined) false alternatives

/-- The phrases of a content in full: its literal text, or those of its alternatives. -/
def spellContent (spelled : Int → List (List Phrase)) : Content → List (List Phrase)
  | .literal text => [[.atom (.quoted (Text.quote text)) .once .here]]
  | .tree root => spellAlternatives (fun _ => spelled) false root.alternatives

/-- What stands for a pattern in a full description. -/
def spelling (registry : Registry) : Int → List (List Phrase) :=
  registry.along [] fun spelled pattern => spellContent spelled pattern.content

/-- The phrases of a full description. -/
def fullPhrases (registry : Registry) (alternatives : List (List Node)) : List (List Phrase) :=
  spellAlternatives (fun _ => registry.spelling) false alternatives

theorem inlined_eq (hgrounded : registry.Grounded) {id : Int} {pattern : Pattern}
    (hpattern : registry.byId? id = some pattern) :
    registry.inlined id = registry.phrases false pattern.content.alternatives := by
  refine hgrounded.along_eq (fun pattern inline other hsame => ?_) hpattern
  refine Node.spellAlternatives_congr (fun id hid behind => ?_) false
  rw [reference, reference, hsame id (Content.mem_references _ hid)]

theorem fromReferences_spellContent :
    Grammar.FromReferences fun spelled pattern => spellContent spelled pattern.content := by
  intro pattern spelled other hsame
  cases hcontent : pattern.content with
  | literal text => simp only [hcontent, spellContent]
  | tree root =>
      rw [hcontent] at hsame
      simp only [hcontent, spellContent]
      exact Node.spellAlternatives_congr (fun id hid _ =>
        hsame id (Content.mem_references _ hid)) false

theorem spelling_eq (hgrounded : registry.Grounded) {id : Int} {pattern : Pattern}
    (hpattern : registry.byId? id = some pattern) :
    registry.spelling id = spellContent registry.spelling pattern.content :=
  hgrounded.along_eq fromReferences_spellContent hpattern

/-! ## Descriptions are texts of phrases -/

/-- Every reference of the alternatives leads to a registered pattern. -/
def Knows (registry : Registry) (alternatives : List (List Node)) : Prop :=
  ∀ id ∈ (plainGroup alternatives).references, (registry.byId? id).isSome

/-- Every reference of the alternatives leads to a registered pattern to which text can refer. -/
def Names (registry : Registry) (alternatives : List (List Node)) : Prop :=
  ∀ id ∈ (plainGroup alternatives).references,
    ∃ pattern, registry.byId? id = some pattern ∧ pattern.Writable

theorem Names.knows {alternatives : List (List Node)} (hnames : registry.Names alternatives) :
    registry.Knows alternatives := by
  intro id hid
  obtain ⟨pattern, hpattern, -⟩ := hnames id hid
  simp [hpattern]

/-- Text can refer to every pattern to which a registered one refers. -/
def Legible (registry : Registry) : Prop :=
  ∀ pattern ∈ registry.patterns, registry.Names pattern.content.alternatives

theorem Sound.knows (hsound : registry.Sound) {id : Int} {pattern : Pattern}
    (hpattern : registry.byId? id = some pattern) : registry.Knows pattern.content.alternatives :=
  fun other hother => hsound.closed pattern (hsound.coherent.mem_patterns hpattern) other
    (Content.mem_references _ hother)

theorem referenceText_eq {inline : Pattern → Except Fault String} {style : Style} {behind : Bool}
    {id : Int} {target : Pattern} (htarget : registry.byId? id = some target) :
    registry.referenceText inline style behind id =
      match target.content with
      | .literal text => if style.full then .ok (Text.quote text) else target.identity
      | .tree _ =>
        if target.name.isSome || style.useIds || behind then target.identity
        else do return "(" ++ (← inline target) ++ ")" := by
  have hget : registry.get id = .ok target := by
    rw [Registry.get, htarget]
  unfold referenceText
  rw [hget]
  rfl

theorem describeWithin_eq (hsound : registry.Sound) (hlegible : registry.Legible) {depth : Nat}
    (useIds : Bool) {pattern : Pattern} {alternatives : List (List Node)}
    (hcontent : pattern.content = .tree (plainGroup alternatives))
    (hcanonical : Canonical alternatives) (hnames : registry.Names alternatives)
    (hdepth : ∀ id ∈ (plainGroup alternatives).references, registry.rank id < depth) :
    registry.describeWithin (depth + 1) useIds pattern =
      .ok (Phrase.textOf (registry.phrases useIds alternatives)) := by
  -- The depth exceeds the ranks of what the pattern refers to, and falls with them.
  induction depth generalizing pattern alternatives useIds with
  | zero =>
      rw [describeWithin, hcontent]
      refine render_root_eq hcanonical.full hcanonical.tight fun id hid => ?_
      exact absurd (hdepth id hid) (Nat.not_lt_zero _)
  | succ depth ih =>
      rw [describeWithin, hcontent]
      refine render_root_eq hcanonical.full hcanonical.tight fun id hid behind => ?_
      obtain ⟨target, htarget, hwritable⟩ := hnames id hid
      have hidentity := Pattern.identity_eq hwritable
      rw [referenceText_eq htarget]
      simp only [reference, htarget]
      cases htree : target.content with
      | literal text =>
          refine ⟨.atom target.symbol .once .here, ?_, ⟨rfl, rfl⟩, ?_⟩
          · simp [Pattern.literal?, htree, Content.literal?]
          · simpa [Phrase.text, Look.mark, Quantity.suffix_once] using hidentity
      | tree root =>
          obtain ⟨rfl, hinner⟩ := hsound.alternatives_eq htarget htree
          have hliteral : target.literal? = none := by
            rw [Pattern.literal?, htree]
            rfl
          by_cases hnamed : (target.name.isSome || useIds || behind) = true
          · refine ⟨.atom target.symbol .once .here, ?_, ⟨rfl, rfl⟩, ?_⟩
            · rw [hliteral]
              simp only [Option.isSome_none, Bool.false_or, hnamed, if_pos]
            · rw [if_pos hnamed, hidentity]
              simp [Phrase.text, Look.mark, Quantity.suffix_once]
          · refine ⟨.parens (registry.inlined id) .once .here, ?_, ⟨rfl, rfl⟩, ?_⟩
            · rw [hliteral]
              simp only [Option.isSome_none, Bool.false_or]
              rw [if_neg hnamed]
            · have hbelow : ∀ other ∈ (plainGroup target.content.alternatives).references,
                  registry.rank other < depth := by
                intro other hother
                have hlower := (hsound.layered.refers htarget other
                  (Content.mem_references _ hother)).2
                have hrank := hdepth id hid
                omega
              have htext := ih false htree hinner
                (hlegible target (hsound.coherent.mem_patterns htarget)) hbelow
              rw [if_neg hnamed, htext, inlined_eq hsound.toGrounded htarget]
              simp [Phrase.text, Phrase.textOf, Look.mark, Quantity.suffix_once]

/-- The description of a pattern whose references are registered. -/
theorem describe_eq (hsound : registry.Sound) (hlegible : registry.Legible) (useIds : Bool)
    {pattern : Pattern} {alternatives : List (List Node)}
    (hcontent : pattern.content = .tree (plainGroup alternatives))
    (hcanonical : Canonical alternatives) (hnames : registry.Names alternatives) :
    registry.describe pattern useIds =
      .ok (Phrase.textOf (registry.phrases useIds alternatives)) := by
  refine describeWithin_eq hsound hlegible useIds hcontent hcanonical hnames fun id hid => ?_
  exact rank_lt_size hsound.coherent hsound.acyclic (hnames.knows id hid)

end Registry

end Motif
