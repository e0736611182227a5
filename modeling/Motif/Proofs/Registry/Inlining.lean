import Motif.Proofs.Matching.Charts
import Motif.Proofs.Matching.Phrases
import Motif.Proofs.Registry.Recalling

/-!
# Matching what stands for references

A reference to a pattern and the phrases that spell this pattern reach equally far from every
position inside the text. At the end of the text a reference never matches, whatever its pattern is,
and what it finds behind are the tokens of its pattern only. So phrases may stand in the place of a
reference if they do not match at the end of the text either and find behind what they would match
forwards.
-/

namespace Motif

namespace Evaluation

open Chart (Reach)
open Node (Everywhere plainGroup)
open Phrase (reach reachAlternatives reachSequence)
open Registry (spellContent)

variable {token : Int → Int → Option Token} {text : Array Char} {leaf : Int → List (List Phrase)}

/-- How far a word reaches from a position of a text. -/
def wordReach (text : Array Char) (word : String) (start : Int) : Option Reach :=
  if (0 ≤ start ∧ start < text.size) ∧ word ≠ "" ∧ word.toList <+: text.toList.drop start.toNat then
    some ⟨start + word.length, []⟩
  else none

/-- How far the word in quotes that a symbol is reaches from a position of a text. -/
def symbolReach (text : Array Char) (symbol : Symbol) : Int → Option Reach :=
  wordReach text (Text.unquote symbol.text)

/-- How far a content reaches from a position of a text, which may be its end. -/
def contentReach (token : Int → Int → Option Token) (text : Array Char) :
    Content → Int → Option Reach
  | .literal word, start => wordReach text word start
  | .tree root, start => (evalNode token text.size root start).map Reach.bare

theorem isBare_symbolReach (symbol : Symbol) : IsBare (symbolReach text symbol) := by
  intro start
  unfold symbolReach wordReach
  split <;> rfl

/-- Inside the text a pattern reaches as far as its content. -/
theorem bare_evalWith (pattern : Pattern) {start : Int} (hnonneg : 0 ≤ start)
    (hsize : start < text.size) :
    ((evalWith token text pattern start).map ofToken).map Reach.bare =
      contentReach token text pattern.content start := by
  have hinside : 0 ≤ start ∧ start < text.size := ⟨hnonneg, hsize⟩
  unfold evalWith
  rw [if_pos hinside]
  cases pattern.content with
  | literal word =>
      simp only [contentReach, wordReach, hinside, and_self, true_and]
      split <;> rfl
  | tree root =>
      simp only [contentReach, Option.map_map]
      refine Option.map_congr fun found _ => ?_
      simp [ofToken, tokenOf, Token.stop, Reach.bare]

/-- Inside the text the length of a match is that of its content. -/
theorem length_evalWith (pattern : Pattern) {start : Int} (hnonneg : 0 ≤ start)
    (hsize : start < text.size) :
    (evalWith token text pattern start).map Token.length =
      (contentReach token text pattern.content start).map fun reach => reach.stop - start := by
  have hinside : 0 ≤ start ∧ start < text.size := ⟨hnonneg, hsize⟩
  unfold evalWith
  rw [if_pos hinside]
  cases pattern.content with
  | literal word =>
      simp only [contentReach, wordReach, hinside, and_self, true_and]
      split
      next => simp
      next => rfl
  | tree root =>
      simp only [contentReach, Option.map_map]
      rfl

theorem evalWith_of_outside (pattern : Pattern) {start : Int}
    (houtside : ¬ (0 ≤ start ∧ start < text.size)) : evalWith token text pattern start = none :=
  if_neg houtside

theorem reachAlternatives_literal (word : String) (start : Int) :
    reachAlternatives (symbolReach text) text.size (spellContent leaf (.literal word)) start =
      contentReach token text (.literal word) start := by
  have hbare : IsBare (symbolReach text (.quoted (Text.quote word))) := isBare_symbolReach _
  rw [spellContent, Phrase.reachAlternatives_singleton, Phrase.reachSequence_singleton, reach,
    hbare.decorated .once .here, decorated_plain hbare, contentReach, symbolReach, Symbol.text,
    Text.unquote_quote]

/-- What spells a tree reaches as far as the tree. -/
theorem reachAlternatives_tree (alternatives : List (List Node))
    (hbehind : Everywhere (LooksBehindForwards token text.size) (plainGroup alternatives))
    (hadvances : ∀ id ∈ (plainGroup alternatives).references,
      Advances text.size fun position => (token id position).map ofToken)
    (hstands : ∀ id ∈ (plainGroup alternatives).references,
      Stands (symbolReach text) text.size token leaf id)
    {start : Int} (hnonneg : 0 ≤ start) (hsize : start ≤ text.size) :
    reachAlternatives (symbolReach text) text.size
        (spellContent leaf (.tree (plainGroup alternatives))) start =
      contentReach token text (.tree (plainGroup alternatives)) start := by
  have hspelled := reachSequence_spell isBare_symbolReach (plainGroup alternatives) hbehind
    hadvances hstands hnonneg hsize
  rw [plainGroup, Node.spell, Phrase.reachSequence_wrap isBare_symbolReach,
    decorated_plain (Phrase.isBare_reachAlternatives _)] at hspelled
  exact hspelled

end Evaluation

namespace Registry

open Evaluation
open Node (Everywhere plainGroup)
open Phrase (reachAlternatives)

variable {registry : Registry}

/-- In this text what spells the patterns of a content may stand in the place of references to them:
no pattern that is referred to would match at the end of the text, and looking behind is the same as
matching forwards. -/
inductive Inlinable (registry : Registry) (text : String) : Content → Prop where
  | literal (word : String) : Inlinable registry text (.literal word)
  | tree {root : Node} (hretraces : Retraces (registry.token text) (.tree root))
      (hbehind : Everywhere
        (LooksBehindForwards (registry.token text) text.toList.toArray.size) root)
      (hspent : ∀ id ∈ root.references, ∀ pattern, registry.byId? id = some pattern →
        contentReach (registry.token text) text.toList.toArray pattern.content
          text.toList.toArray.size = none)
      (hbelow : ∀ id ∈ root.references, ∀ pattern, registry.byId? id = some pattern →
        Inlinable registry text pattern.content) :
      Inlinable registry text (.tree root)

theorem advances_token (hgrounded : registry.Grounded) (text : String) (id : Int) :
    Advances text.toList.toArray.size fun position =>
      (registry.token text id position).map ofToken :=
  advances_ofToken fun _ _ hfound => fits_of_along hgrounded.layered hfound

/-- What spells an inlinable content reaches as far as the content. -/
theorem Inlinable.reachAlternatives_eq (hsound : registry.Sound) {text : String} {content : Content}
    (hinlinable : registry.Inlinable text content) (hfits : registry.Fits content) {start : Int}
    (hnonneg : 0 ≤ start) (hsize : start ≤ text.toList.toArray.size) :
    reachAlternatives (symbolReach text.toList.toArray) text.toList.toArray.size
        (spellContent registry.spelling content) start =
      contentReach (registry.token text) text.toList.toArray content start := by
  induction hinlinable generalizing start with
  | literal word => exact reachAlternatives_literal word start
  | @tree root hretraces hbehind hspent hbelow ih =>
      obtain ⟨alternatives, rfl, -⟩ := hfits.canonical root rfl
      apply reachAlternatives_tree alternatives hbehind
        (fun id _ => advances_token hsound.toGrounded text id) ?_ hnonneg hsize
      intro id hid position hlow hhigh
      obtain ⟨pattern, hpattern⟩ := Option.isSome_iff_exists.mp (hfits.known id hid)
      have hinner := ih id hid pattern hpattern
        (hsound.fits (hsound.coherent.mem_patterns hpattern)) hlow hhigh
      rw [spelling_eq hsound.toGrounded hpattern, hinner,
        token_eq hsound.coherent hsound.closed hsound.acyclic text hpattern, evaluate]
      by_cases hinside : position < text.toList.toArray.size
      · exact (bare_evalWith pattern hlow hinside).symm
      · -- At the end of the text neither the reference nor what spells it matches.
        have hend : position = text.toList.toArray.size := by omega
        rw [evalWith_of_outside pattern fun hcovered => hinside hcovered.2, hend,
          hspent id hid pattern hpattern]
        rfl

theorem Inlinable.retraces {text : String} {content : Content}
    (hinlinable : registry.Inlinable text content) : Retraces (registry.token text) content := by
  cases hinlinable with
  | literal word =>
      intro root node hcontent
      cases hcontent
  | tree hretraces => exact hretraces

/-- Where nothing looks behind, only the end of the text matters. -/
theorem Inlinable.of_not_behind {text : String} {root : Node}
    (hlook : Everywhere (fun node => node.look ≠ .behind) root)
    (hspent : ∀ id ∈ root.references, ∀ pattern, registry.byId? id = some pattern →
      contentReach (registry.token text) text.toList.toArray pattern.content
        text.toList.toArray.size = none)
    (hbelow : ∀ id ∈ root.references, ∀ pattern, registry.byId? id = some pattern →
      registry.Inlinable text pattern.content) : registry.Inlinable text (.tree root) := by
  refine .tree ?_ (fun node hwithin => ?_) hspent hbelow
  · rintro other node ⟨⟩ hwithin hbehind
    exact absurd hbehind (hlook node hwithin)
  · have hnode := hlook node hwithin
    cases node with
    | ref => trivial
    | group alternatives quantity look =>
        cases look with
        | behind => exact absurd rfl hnode
        | ahead => trivial
        | here => trivial

/-- The length that an inlinable pattern matches is told by what spells it. -/
theorem Inlinable.length_evaluate (hsound : registry.Sound) {text : String} {pattern : Pattern}
    (hinlinable : registry.Inlinable text pattern.content) (hfits : registry.Fits pattern.content)
    (start : Int) :
    (registry.evaluate text pattern start).map Token.length =
      if 0 ≤ start ∧ start < text.toList.toArray.size then
        (reachAlternatives (symbolReach text.toList.toArray) text.toList.toArray.size
          (spellContent registry.spelling pattern.content) start).map fun reach =>
            reach.stop - start
      else none := by
  rw [evaluate]
  split
  next hinside =>
    rw [length_evalWith pattern hinside.1 hinside.2,
      hinlinable.reachAlternatives_eq hsound hfits hinside.1 hinside.2.le]
  next houtside => rw [evalWith_of_outside pattern houtside, Option.map_none]

end Registry

end Motif
