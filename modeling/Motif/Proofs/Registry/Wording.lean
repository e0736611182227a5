import Motif.Proofs.Registry.Recompiling
import Motif.Proposal

/-!
# The wording of proposals

The texts of proposals are put together from identities, with blanks also inside parentheses. In a
registry that knows the patterns of these identities, every such text is compiled, and to the tree
that it shows.
-/

namespace Motif

open Lexeme (ReadsAs ReadsPhrase)
open Node (Everywhere LooksBehindPlainly plainGroup)
open Phrase (Allowed Mentions)

namespace Phrase

/-- Two lexemes one after another, in parentheses. -/
def pair (first second : Symbol) (quantity : Quantity) (look : Look) : Phrase :=
  .parens [[.atom first .once .here, .atom second .once .here]] quantity look

end Phrase

/-- Two identities in parentheses, with blanks around them. -/
def pairText (first second : String) : String :=
  "( " ++ first ++ " " ++ second ++ " )"

namespace Lexeme

theorem readsAs_pairText {first second : Symbol} (hfirst : first.IsReference)
    (hsecond : second.IsReference) (rest : List Char) :
    ReadsAs (pairText first.text second.text).toList [.opening, first, second, .closing] rest := by
  have hspace : ∀ more : List Char, Breaks (' ' :: more) := breaks_cons (by decide) (by decide)
  have htext : (pairText first.text second.text).toList = ['('] ++ ([' '] ++
      (first.text.toList ++ ([' '] ++ (second.text.toList ++ ([' '] ++ [')']))))) := by
    simp [pairText]
  rw [htext]
  exact .append (.symbol (isReadBefore_opening _)) (.append (.space _)
    (.append (.symbol (isReadBefore_reference hfirst (hspace _))) (.append (.space _)
      (.append (.symbol (isReadBefore_reference hsecond (hspace _))) (.append (.space _)
        (.symbol (isReadBefore_closing _)))))))

theorem readsPhrase_pair {first second : Symbol} (hfirst : first.IsReference)
    (hsecond : second.IsReference) {quantity : Quantity} (hlegal : quantity.Legal) (look : Look) :
    ReadsPhrase (look.mark ++ pairText first.text second.text ++ quantity.suffix)
      (.pair first second quantity look) := by
  intro rest _
  rw [String.toList_append, String.toList_append, List.append_assoc]
  have hread := (readsAs_look look _).append ((readsAs_pairText hfirst hsecond _).append
    (readsAs_suffix hlegal rest))
  have hhere : Look.here.symbol? = none := rfl
  have honce : Quantity.once.symbol? = none := rfl
  simpa [Phrase.pair, Phrase.symbols, Phrase.symbolsOfAlternatives, Phrase.symbolsOfSequence, hhere,
    honce] using hread

end Lexeme

namespace Registry

open Phrase (allowed_here allowed_many allowed_never_behind allowed_some)

variable {registry : Registry}

/-- A text that is read as a phrase wherever it stands, and that phrase can be read again in the
registry. -/
structure Spells (registry : Registry) (text : String) (phrase : Phrase) : Prop where
  reads : ReadsPhrase text phrase
  legible : phrase.Legible
  mentions : ∀ symbol, Mentions symbol phrase →
    ∃ id pattern, registry.byId? id = some pattern ∧ pattern.Writable ∧ symbol = pattern.symbol
  behind : Everywhere LooksBehindPlainly (phrase.tree registry.scope.target)

/-- Texts that spell phrases, with blanks between them, are compiled to the tree of the phrases one
after another. -/
theorem compileTree_of_spells (hcoherent : registry.Coherent) (hnamed : registry.Named)
    (pieces : List (String × Phrase)) (hne : pieces ≠ [])
    (hspells : ∀ piece ∈ pieces, registry.Spells piece.1 piece.2) {text : String}
    (htext : text = " ".intercalate (pieces.map Prod.fst)) (name : Option String) :
    compileTree registry.scope text name =
      .ok (plainGroup [Phrase.treesOfSequence registry.scope.target
        (pieces.map Prod.snd)]).reduceRoot := by
  have hphrase : ∀ sequence ∈ [pieces.map Prod.snd], ∀ phrase ∈ sequence,
      ∃ text, registry.Spells text phrase := by
    intro sequence hsequence phrase hmem
    obtain rfl := List.mem_singleton.mp hsequence
    obtain ⟨piece, hpiece, rfl⟩ := List.mem_map.mp hmem
    exact ⟨piece.1, hspells piece hpiece⟩
  have hrereads : registry.Rereads [pieces.map Prod.snd] := by
    refine ⟨⟨List.cons_ne_nil _ _, by simpa using hne, ?_⟩, ?_, ?_⟩
    all_goals
      intro sequence hsequence phrase hmem
      obtain ⟨text, hspells⟩ := hphrase sequence hsequence phrase hmem
    · exact hspells.legible
    · exact hspells.mentions
    · exact hspells.behind
  apply hrereads.compileTree hcoherent hnamed
  rw [htext, Phrase.symbolsOfAlternatives, Phrase.symbolsOfAlternatives, List.intercalate_singleton]
  exact Lexeme.readsAs_spaced (fun piece hpiece => (hspells piece hpiece).reads) Lexeme.breaks_nil

section Pieces

variable {id : Int} {pattern : Pattern} (hpattern : registry.byId? id = some pattern)
  (hwritable : pattern.Writable)
include hpattern hwritable

theorem spells_atom {quantity : Quantity} {look : Look} (hallowed : Allowed quantity look) :
    registry.Spells (look.mark ++ pattern.symbol.text ++ quantity.suffix)
      (.atom pattern.symbol quantity look) where
  reads _ hrest :=
    Lexeme.readsAs_phrase (.atom (Pattern.isReference_symbol hwritable) hallowed) hrest
  legible := .atom (Pattern.isReference_symbol hwritable) hallowed
  mentions symbol hmention := by
    cases hmention
    exact ⟨id, pattern, hpattern, hwritable, rfl⟩
  behind := Node.everywhere_ref_iff.mpr trivial

theorem spells_pair {other : Int} {second : Pattern} (hother : registry.byId? other = some second)
    (hsecond : second.Writable) {quantity : Quantity} {look : Look}
    (hallowed : Allowed quantity look) :
    registry.Spells (look.mark ++ pairText pattern.symbol.text second.symbol.text ++ quantity.suffix)
      (.pair pattern.symbol second.symbol quantity look) where
  reads := Lexeme.readsPhrase_pair (Pattern.isReference_symbol hwritable)
    (Pattern.isReference_symbol hsecond) hallowed.legal look
  legible := by
    have hone := Phrase.allowed_here Quantity.legal_once
    refine .parens (List.cons_ne_nil _ _) (by simp) ?_ hallowed
    simp only [forall_eq, List.mem_cons, List.not_mem_nil, or_false]
    rintro phrase (rfl | rfl)
    · exact .atom (Pattern.isReference_symbol hwritable) hone
    · exact .atom (Pattern.isReference_symbol hsecond) hone
  mentions symbol hmention := by
    cases hmention with
    | parens hsequence hphrase hmention =>
        obtain rfl := List.mem_singleton.mp hsequence
        rcases List.mem_pair.mp hphrase with rfl | rfl <;> cases hmention
        · exact ⟨id, pattern, hpattern, hwritable, rfl⟩
        · exact ⟨other, second, hother, hsecond, rfl⟩
  behind := by
    simp only [Phrase.pair, Phrase.tree, Phrase.treesOfAlternatives, Phrase.treesOfSequence]
    rw [Node.everywhere_group_iff]
    cases look <;> simp [LooksBehindPlainly, Node.everywhere_ref_iff, Node.quantity, Node.look]

end Pieces

/-! ## The trees of the texts -/

section Texts

variable (hcoherent : registry.Coherent) (hnamed : registry.Named) {first second : Int}
  {leader follower : Pattern} (hleader : registry.byId? first = some leader)
  (hleadable : leader.Writable)
include hcoherent hnamed hleader hleadable

theorem target_symbol : registry.scope.target leader.symbol = first :=
  (resolve_scope hcoherent hnamed hleader hleadable none 0).2

/-- The text of a repetition is compiled to it. -/
theorem compileTree_some (name : Option String) :
    compileTree registry.scope (leader.symbol.text ++ "+") name =
      .ok (plainGroup [[.ref first ⟨1, Quantity.unlimited⟩ .here]]) := by
  have hspells := spells_atom hleader hleadable allowed_some
  rw [compileTree_of_spells hcoherent hnamed [(_, _)] (by simp) (by simpa using hspells)
    (by simp [Look.mark, Quantity.suffix_some])]
  simp only [List.map_cons, List.map_nil, Phrase.treesOfSequence, Phrase.tree,
    target_symbol hcoherent hnamed hleader hleadable]
  rfl

variable (hfollower : registry.byId? second = some follower) (hfollowable : follower.Writable)
include hfollower hfollowable

/-- The text of two patterns one after the other is compiled to these. -/
theorem compileTree_pair (name : Option String) :
    compileTree registry.scope (leader.symbol.text ++ " " ++ follower.symbol.text) name =
      .ok (plainGroup [[.plainRef first, .plainRef second]]) := by
  have hfirst := spells_atom hleader hleadable (allowed_here Quantity.legal_once)
  have hsecond := spells_atom hfollower hfollowable (allowed_here Quantity.legal_once)
  rw [compileTree_of_spells hcoherent hnamed [(_, _), (_, _)] (by simp)
    (by simpa using ⟨hfirst, hsecond⟩)
    (by simp [Look.mark, Quantity.suffix_once, String.append_assoc])]
  simp only [List.map_cons, List.map_nil, Phrase.treesOfSequence, Phrase.tree,
    target_symbol hcoherent hnamed hleader hleadable,
    target_symbol hcoherent hnamed hfollower hfollowable]
  rfl

/-- The text of pairs that repeat is compiled to them. -/
theorem compileTree_pairs (name : Option String) :
    compileTree registry.scope
        ("( " ++ leader.symbol.text ++ " " ++ follower.symbol.text ++ " )+") name =
      .ok (plainGroup [[.group [[.plainRef first, .plainRef second]] ⟨1, Quantity.unlimited⟩
        .here]]) := by
  have hspells := spells_pair hleader hleadable hfollower hfollowable allowed_some
  rw [compileTree_of_spells hcoherent hnamed [(_, _)] (by simp) (by simpa using hspells)
    (by simp [Look.mark, Quantity.suffix_some, pairText, String.append_assoc])]
  simp only [List.map_cons, List.map_nil, Phrase.treesOfSequence, Phrase.pair, Phrase.tree,
    Phrase.treesOfAlternatives, target_symbol hcoherent hnamed hleader hleadable,
    target_symbol hcoherent hnamed hfollower hfollowable]
  rfl

/-- The text of a pattern and pairs that end with it is compiled to these. -/
theorem compileTree_returning (name : Option String) :
    compileTree registry.scope (leader.symbol.text ++ " ( " ++ follower.symbol.text ++ " " ++
        leader.symbol.text ++ " )*") name =
      .ok (plainGroup [[.plainRef first, .group [[.plainRef second, .plainRef first]]
        ⟨0, Quantity.unlimited⟩ .here]]) := by
  have hfirst := spells_atom hleader hleadable (allowed_here Quantity.legal_once)
  have hpairs := spells_pair hfollower hfollowable hleader hleadable allowed_many
  rw [compileTree_of_spells hcoherent hnamed [(_, _), (_, _)] (by simp)
    (by simpa using ⟨hfirst, hpairs⟩)
    (by rw [← String.toList_inj]; simp [Look.mark, Quantity.suffix_once, Quantity.suffix_many,
      pairText])]
  simp only [List.map_cons, List.map_nil, Phrase.treesOfSequence, Phrase.pair, Phrase.tree,
    Phrase.treesOfAlternatives, target_symbol hcoherent hnamed hleader hleadable,
    target_symbol hcoherent hnamed hfollower hfollowable]
  rfl

end Texts

end Registry

end Motif
