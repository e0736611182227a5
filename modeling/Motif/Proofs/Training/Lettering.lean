import Motif.Proofs.Matching.Words
import Motif.Proofs.Registry.LiteralIndex
import Motif.Proofs.Training.Enduring

/-!
# Words in trained registries

The literals of a trained registry are those of the printable characters, each under its name, and
the index leads to each of them. So every text of such characters has a pattern text, which is
compiled to a pattern that matches exactly this text.
-/

namespace Motif.Registry

open Evaluation (referencesTo wordsOf)
open Node (plainGroup plainRef)
open Phrase (allowed_here)

variable {registry : Registry} {serial : Serial} {pattern : Pattern}

/-- A registry that has begun with the basic patterns and has gone through iterations of training,
whatever the trainers were and whether or not the iterations have failed. -/
inductive Trained : Registry → Prop where
  | basics : Trained (registerBasics.run {}).2
  | iterate {trainer : Trainer} (htrained : Trained trainer.registry) :
      Trained (Trainer.trainIteration.run trainer).2.registry

/-- A literal pattern of a printable character under the name of the character. -/
def IsLetter (pattern : Pattern) (text : String) : Prop :=
  pattern.kind = .literal ∧
    ∃ c ∈ printableAscii, text = single c ∧ pattern.name = some (literalName c)

/-- Names and the index of literals lead to registered patterns, every literal is in the index, and
it is one of the basic ones. -/
structure Lettered (registry : Registry) : Prop extends registry.Numbered where
  named : registry.Named
  leads : registry.LiteralsLead
  indexed : ∀ text, registry.Covers text → (registry.literalFor? text).isSome
  letters : ∀ serial pattern, (serial, pattern) ∈ registry.registered → ∀ text,
    pattern.literal? = some text → IsLetter pattern text

/-! ## The literals endure -/

theorem KeepsIndex.indexed_of_covers {before after : Registry} (hkeeps : KeepsIndex before after)
    (hindexed : ∀ text, before.Covers text → (before.literalFor? text).isSome) (text : String)
    (hcovers : after.Covers text) : (after.literalFor? text).isSome := by
  obtain ⟨serial, hliteral⟩ := hcovers
  rcases hkeeps.indexed text serial hliteral with hliteral | hsome
  · obtain ⟨found, hfound⟩ := Option.isSome_iff_exists.mp (hindexed text ⟨serial, hliteral⟩)
    rw [hkeeps.kept text found hfound, Option.isSome_some]
  · exact hsome

theorem literal?_eq_none_of_compile {text : String} {name : Option String} {kind : Kind}
    (hcompile : registry.compile text name kind = .ok pattern) : pattern.literal? = none := by
  obtain ⟨alternatives, penalty, -, -, -, rfl⟩ := compile_eq_ok hcompile
  rfl

namespace Lettered

variable (hlettered : registry.Lettered)
include hlettered

theorem stores {after : Registry} (hstores : registry.OnlyStores after) : after.Lettered := by
  rw [hstores]
  exact ⟨⟨⟨hlettered.coherent.nodup_ids, hlettered.coherent.exists_pattern⟩, hlettered.bounded,
    hlettered.counter⟩, hlettered.named, hlettered.leads, hlettered.indexed, hlettered.letters⟩

theorem extend (hfree : registry.Free pattern)
    (hletter : ∀ text, pattern.literal? = some text → IsLetter pattern text) :
    (registry.extend { pattern with id := registry.idFor pattern }).Lettered where
  toNumbered := hlettered.toNumbered.extend (hlettered.idFor_nonneg pattern)
    (hlettered.serialOf?_idFor hfree)
  named := hlettered.named.extend hlettered.coherent hfree.name
  leads := hlettered.leads.extend hlettered.coherent _
  indexed := (KeepsIndex.extend hlettered.coherent _).indexed_of_covers hlettered.indexed
  letters := by
    intro serial found hfound text htext
    rw [hlettered.coherent.registered_extend, List.mem_append, List.mem_singleton] at hfound
    rcases hfound with hfound | heq
    · exact hlettered.letters serial found hfound text htext
    · obtain ⟨rfl, rfl⟩ := Prod.mk.inj heq
      exact hletter text htext

theorem literal?_eq_none (hregistered : (serial, pattern) ∈ registry.registered)
    (hkind : pattern.kind = .experimental) : pattern.literal? = none := by
  rw [Option.eq_none_iff_forall_ne_some]
  intro text htext
  have hletter := (hlettered.letters serial pattern hregistered text htext).1
  rw [hkind] at hletter
  cases hletter

theorem renamed (hregistered : (serial, pattern) ∈ registry.registered)
    (hkind : pattern.kind = .experimental) {name : String} (hname : registry.named? name = none)
    (kind : Option Kind) : (registry.renamed serial pattern name kind).Lettered := by
  have hpattern := (mem_registered hregistered).1
  refine ⟨hlettered.toNumbered.renamed hpattern name kind, hlettered.named.renamed hpattern ?_,
    hlettered.leads.renamed hlettered.coherent hpattern name kind,
    (KeepsIndex.renamed hpattern name kind).indexed_of_covers hlettered.indexed, ?_⟩
  · simp [hname]
  · intro other found hfound text htext
    rw [registered_renamed hpattern] at hfound
    obtain ⟨origin, horigin, heq⟩ := List.mem_map.mp hfound
    split at heq
    next =>
      cases heq
      have hnone := hlettered.literal?_eq_none hregistered hkind
      exact absurd (hnone.symm.trans htext) (by simp)
    next =>
      subst heq
      exact hlettered.letters other found horigin text htext

theorem without (hregistered : (serial, pattern) ∈ registry.registered)
    (hkind : pattern.kind = .experimental) : (registry.without serial pattern).Lettered := by
  have hpattern := (mem_registered hregistered).1
  refine ⟨hlettered.toNumbered.without serial pattern, hlettered.named.without serial pattern,
    hlettered.leads.without hpattern, ?_, ?_⟩
  · rintro text ⟨other, hliteral⟩
    obtain ⟨found, hfound⟩ := Option.isSome_iff_exists.mp
      (hlettered.indexed text ⟨other, hasLiteral_of_without hliteral⟩)
    -- The index leads to a literal, and what is removed is none.
    have hother : found ≠ serial := by
      rintro rfl
      obtain ⟨same, hsame, htext⟩ := hlettered.leads text found (mem_of_lookup hfound)
      obtain rfl := Option.some.inj (hpattern.symm.trans (mem_registered hsame).1)
      rw [hlettered.literal?_eq_none hregistered hkind] at htext
      cases htext
    rw [literalFor?_without hfound hother, Option.isSome_some]
  · intro other found hfound
    rw [registered_without] at hfound
    exact hlettered.letters other found (List.mem_of_mem_filter hfound)

end Lettered

theorem enduring_lettered : Enduring Lettered where
  stores hlettered hstores := hlettered.stores hstores
  withNext hlettered hcompile := by
    obtain ⟨hfree, hid⟩ := free_of_compile hcompile
    have hextended := hlettered.extend hfree (by simp [literal?_eq_none_of_compile hcompile])
    rwa [hid] at hextended
  named hlettered hregistered hkind hname := hlettered.renamed hregistered hkind hname _
  without hlettered hregistered hkind _ := hlettered.without hregistered hkind

theorem lettered_empty : Lettered {} :=
  ⟨tidy_empty.numbered, tidy_empty.named, fun _ _ hentry => absurd hentry List.not_mem_nil,
    fun _ ⟨_, _, hregistered, _⟩ => absurd hregistered List.not_mem_nil,
    fun _ _ hregistered => absurd hregistered List.not_mem_nil⟩

theorem lettered_registerBasics : (registerBasics.run {}).2.Lettered := by
  have hkept : KeepsFrom Lettered {} registerBasics := by
    apply keepsFrom_registerBasics lettered_empty
    · intro c hc state hstate
      apply keepsFrom_add hstate
      intro hfree
      apply hstate.extend hfree
      rintro text ⟨⟩
      exact ⟨rfl, c, hc, rfl, rfl⟩
    · intro entry _ state hstate
      apply keepsFrom_register hstate
      intro found hfound
      apply keepsFrom_add hstate
      intro hfree
      apply hstate.extend hfree
      intro text htext
      have hnone := literal?_eq_none_of_compile hfound
      exact absurd (hnone.symm.trans htext) (by simp)
  exact hkept

theorem Trained.lettered (htrained : registry.Trained) : registry.Lettered := by
  induction htrained with
  | basics => exact lettered_registerBasics
  | iterate _ ih => exact enduring_lettered.trainIteration ih

/-! ## The printable characters -/

/-- Text can refer to a printable character by its name. -/
theorem writable_literalName {c : Char} (hc : c ∈ printableAscii) :
    literalName c ≠ "" ∧ (literalName c).toList.getLast? ≠ some '\n' := by
  have hfeed : c ≠ '\n' := by
    rintro rfl
    exact absurd hc (by decide)
  refine ⟨literalName_ne_empty c, ?_⟩
  unfold literalName
  -- The name of a character is itself or one of a few words.
  repeat' split
  all_goals simp [hfeed]

instance : Growth TidilyIndexed where
  trans hfirst hsecond := ⟨hsecond.1, hfirst.2.trans hsecond.2⟩
  refl_right hgrows := ⟨hgrows.1, .refl _⟩

/-- Registering the literal of a character puts it into the index. -/
theorem yields_addLiteral (c : Char) :
    Yields TidilyIndexed (discard (addLiteral (single c) (literalName c)))
      (fun _ after => (after.literalFor? (single c)).isSome) fun _ => True := by
  intro state hstate
  have hkept : KeepsFrom (TidilyIndexed state) state (addLiteral (single c) (literalName c)) :=
    (additive_tidilyIndexed state).addLiteral hstate _ _ _ _
  rcases hrun : (addLiteral (single c) (literalName c)).run state with ⟨result, after⟩
  rw [KeepsFrom, hrun] at hkept
  cases result with
  | error fault => exact ⟨_, after, run_bind_of_error hrun, hkept, trivial⟩
  | ok serial =>
      refine ⟨_, after, run_bind_of_ok hrun, hkept, ?_⟩
      obtain ⟨-, rfl⟩ := exists_of_run_add hrun
      dsimp only
      rw [literalFor?_extend]
      simp [Pattern.literal?, Content.literal?]

/-- All printable characters have literals among the basic patterns. -/
theorem covers_registerBasics {c : Char} (hc : c ∈ printableAscii) :
    (registerBasics.run {}).2.Covers (single c) := by
  have htidily : TidilyIndexed {} {} := ⟨tidy_empty, .refl _⟩
  obtain ⟨middle, hliterals, -⟩ := settles_literalWords
  obtain ⟨_, _, hagain, hindexed, hsome⟩ :=
    Yields.forM_each (fun c (_ : c ∈ printableAscii) => yields_addLiteral c)
      (fun c before after hkeeps hbefore => by
        obtain ⟨serial, hserial⟩ := Option.isSome_iff_exists.mp hbefore
        rw [hkeeps.2.kept _ serial hserial, Option.isSome_some]) {} htidily
  rw [hliterals] at hagain
  cases hagain
  have hclasses : KeepsFrom (TidilyIndexed middle) middle
      (basicClasses.forM fun entry => discard (register entry.1 .basics entry.2)) :=
    .forM (fun entry _ state hstate =>
      ((additive_tidilyIndexed middle).register hstate _ _ _ _).discard) ⟨hindexed.1, .refl _⟩
  obtain ⟨serial, hserial⟩ := Option.isSome_iff_exists.mp (hsome c hc)
  refine ⟨serial, lettered_registerBasics.leads _ _ (mem_of_lookup ?_)⟩
  rw [registerBasics, run_bind_of_ok hliterals]
  exact hclasses.2.kept _ serial hserial

/-! ## Texts of words -/

namespace Lettered

variable (hlettered : registry.Lettered)
include hlettered

/-- Every text that is covered has a registered literal in the index, to which text can refer. -/
theorem exists_literal {text : String} (hcovers : registry.Covers text) :
    ∃ literal, (registry.literalFor? text).bind registry.pattern? = some literal ∧
      registry.byId? literal.id = some literal ∧ literal.content = .literal text ∧
        literal.Writable := by
  obtain ⟨serial, hserial⟩ := Option.isSome_iff_exists.mp (hlettered.indexed text hcovers)
  obtain ⟨literal, hregistered, htext⟩ :=
    hlettered.leads text serial (mem_of_lookup hserial)
  obtain ⟨hpattern, hmem⟩ := mem_registered hregistered
  obtain ⟨-, c, hc, -, hname⟩ := hlettered.letters serial literal hregistered text htext
  refine ⟨literal, ?_, hlettered.coherent.mem_patterns_iff.mp hmem, ?_, ?_⟩
  · rw [hserial, Option.bind_some, hpattern]
  · cases hcontent : literal.content <;> simp_all [Pattern.literal?, Content.literal?]
  · refine ⟨fun name hgiven => ?_, fun hnone => ?_⟩
    · obtain rfl : literalName c = name := by simpa [hname] using hgiven
      exact writable_literalName hc
    · rw [hname] at hnone
      cases hnone

end Lettered

/-- A pattern that has not been registered has an id of its own. -/
theorem Numbered.byId?_neg (hnumbered : registry.Numbered) {id : Int} (hid : id < 0) :
    registry.byId? id = none := by
  rw [Option.eq_none_iff_forall_ne_some]
  intro found hfound
  obtain ⟨serial, hentry, -⟩ := hnumbered.coherent.byId?_eq_some_iff.mp hfound
  have hbounds := hnumbered.bounded id serial hentry
  omega

/-- Characters with their registered literals, to which text can refer. -/
def Letters (registry : Registry) (letters : List (Pattern × Char)) : Prop :=
  ∀ letter ∈ letters, registry.byId? letter.1.id = some letter.1 ∧
    letter.1.content = .literal (single letter.2) ∧ letter.1.Writable

/-- The ids and texts of literals. -/
def piecesOf (letters : List (Pattern × Char)) : List (Int × String) :=
  letters.map fun letter => (letter.1.id, single letter.2)

theorem wordsOf_piecesOf (letters : List (Pattern × Char)) :
    wordsOf (piecesOf letters) = letters.map Prod.snd := by
  induction letters with
  | nil => rfl
  | cons letter rest ih =>
      rw [piecesOf, List.map_cons, wordsOf, List.flatMap_cons, ← wordsOf, ← piecesOf, ih]
      simp [single]

theorem reduceRoot_referencesTo (pieces : List (Int × String)) :
    (plainGroup [referencesTo pieces]).reduceRoot = plainGroup [referencesTo pieces] := by
  have hsequence : Node.reduceSequence (referencesTo pieces) = referencesTo pieces := by
    induction pieces with
    | nil => rfl
    | cons piece rest ih => exact congrArg (plainRef piece.1 :: ·) ih
  rw [Node.reduceRoot_plainGroup, Node.reduceAlternatives, Node.reduceAlternatives, hsequence,
    Node.unwrap.eq_2]
  intro inner hinner
  obtain ⟨piece, -, hpiece⟩ := List.mem_map.mp
    ((List.cons.inj hinner).1 ▸ List.mem_singleton_self _)
  cases hpiece

/-- The identities of the literals of a text whose characters are covered. -/
theorem Lettered.exists_literalIdentities (hlettered : registry.Lettered) (cs : List Char)
    (hcovers : ∀ c ∈ cs, registry.Covers (single c)) :
    ∃ letters, registry.Letters letters ∧ letters.map Prod.snd = cs ∧
      Proposal.literalIdentities registry cs =
        .ok (some (letters.map fun letter => letter.1.symbol.text)) := by
  induction cs with
  | nil => exact ⟨[], by simp [Letters], rfl, rfl⟩
  | cons c rest ih =>
      obtain ⟨hfirst, hrest⟩ := List.forall_mem_cons.mp hcovers
      obtain ⟨literal, hfound, hpattern, hcontent, hwritable⟩ := hlettered.exists_literal hfirst
      obtain ⟨letters, hletters, hchars, hidentities⟩ := ih hrest
      refine ⟨(literal, c) :: letters, List.forall_mem_cons.mpr
        ⟨⟨hpattern, hcontent, hwritable⟩, hletters⟩, by rw [List.map_cons, hchars], ?_⟩
      rw [Proposal.literalIdentities, ← single, hfound]
      dsimp only
      rw [Pattern.identity_eq hwritable, hidentities]
      rfl

section Compiling

variable {letters : List (Pattern × Char)} (hletters : registry.Letters letters)
include hletters

theorem Letters.writes : ∀ piece ∈ piecesOf letters,
    registry.grammar.Writes piece.1 piece.2 := by
  intro piece hpiece
  obtain ⟨letter, hletter, rfl⟩ := List.mem_map.mp hpiece
  obtain ⟨hpattern, hcontent, -⟩ := hletters letter hletter
  exact ⟨letter.1, hpattern, hcontent, by simp [single]⟩

/-- The identities of literals, with blanks between them, are compiled to the references to these
one after another. -/
theorem Letters.exists_compile (hcoherent : registry.Coherent) (hnamed : registry.Named)
    (hsome : letters ≠ []) :
    ∃ penalty, registry.compile (" ".intercalate (letters.map fun letter =>
        letter.1.symbol.text)) = .ok
      { kind := .experimental
        content := .tree (plainGroup [referencesTo (piecesOf letters)])
        penalty } := by
  have htree := compileTree_of_spells hcoherent hnamed
    (letters.map fun letter => (letter.1.symbol.text, .atom letter.1.symbol .once .here))
    (by simpa using hsome) (fun piece hpiece => by
      obtain ⟨letter, hletter, rfl⟩ := List.mem_map.mp hpiece
      obtain ⟨hpattern, -, hwritable⟩ := hletters letter hletter
      have hspells := spells_atom hpattern hwritable (allowed_here Quantity.legal_once)
      simpa [Look.mark, Quantity.suffix_once] using hspells) rfl none
  have hreferences : Phrase.treesOfSequence registry.scope.target
      ((letters.map fun letter => (letter.1.symbol.text, Phrase.atom letter.1.symbol .once
        .here)).map Prod.snd) = referencesTo (piecesOf letters) := by
    rw [Phrase.treesOfSequence_eq_map, List.map_map, List.map_map, referencesTo, piecesOf,
      List.map_map]
    apply List.map_congr_left
    intro letter hletter
    obtain ⟨hpattern, -, hwritable⟩ := hletters letter hletter
    have htarget := target_symbol hcoherent hnamed hpattern hwritable
    simp [Phrase.tree, htarget, plainRef]
  rw [hreferences, reduceRoot_referencesTo, List.map_map] at htree
  apply Registry.exists_compile htree
  intro id hid
  obtain ⟨piece, hpiece, rfl⟩ := Evaluation.mem_references_referencesTo.mp hid
  obtain ⟨letter, hletter, rfl⟩ := List.mem_map.mp hpiece
  exact Option.isSome_of_eq_some (hletters letter hletter).1

/-- The references to literals one after another match where the characters of the literals are
found. -/
theorem Letters.exists_matchText (hnumbered : registry.Numbered) (hid : pattern.id < 0)
    (hcontent : pattern.content = .tree (plainGroup [referencesTo (piecesOf letters)]))
    (hsome : letters ≠ []) (text : String) {start : Int} (hstart : 0 ≤ start) :
    ∃ found, registry.matchText pattern text start = .ok found ∧
      (found.isSome ↔ letters.map Prod.snd <+: text.toList.drop start.toNat) ∧
      ∀ token ∈ found, token.length = letters.length := by
  have hnew : registry.grammar.find? pattern.id = none := hnumbered.byId?_neg hid
  obtain ⟨found, hfound, hlength⟩ := Chart.exists_matchPattern_referencesTo
    (fun hpattern => hnumbered.coherent.id_eq hpattern) hnew hcontent
    (by simpa [piecesOf] using hsome) hletters.writes
    (by decide : 4 ≤ Chart.roomFor Chart.defaultDepth) text hstart
  rw [wordsOf_piecesOf] at hlength
  refine ⟨found, hfound, ?_⟩
  by_cases hfollows : letters.map Prod.snd <+: text.toList.drop start.toNat
  · rw [if_pos hfollows] at hlength
    obtain ⟨token, rfl, htoken⟩ := Option.map_eq_some_iff.mp hlength
    simp [hfollows, htoken]
  · rw [if_neg hfollows, Option.map_eq_none_iff] at hlength
    simp [hlength, hfollows]

end Compiling

/-- Every text that is not empty and whose characters have literals in a trained registry has a
pattern text. This is compiled, and at every position of any text the pattern matches exactly if the
text goes on there with the one that has been spelled, and then it matches no more than that. -/
theorem exists_literalSequence?_matches (htrained : registry.Trained) {word : String}
    (hword : word ≠ "") (hcovers : ∀ c ∈ word.toList, registry.Covers (single c)) :
    ∃ sequence pattern, Proposal.literalSequence? registry word = .ok (some sequence) ∧
      registry.compile sequence = .ok pattern ∧
      ∀ (text : String) (start : Int), 0 ≤ start →
        ∃ found, registry.matchText pattern text start = .ok found ∧
          (found.isSome ↔ word.toList <+: text.toList.drop start.toNat) ∧
          ∀ token ∈ found, token.length = word.length := by
  have hlettered := htrained.lettered
  obtain ⟨letters, hletters, hchars, hidentities⟩ :=
    hlettered.exists_literalIdentities word.toList hcovers
  have hsome : letters ≠ [] := by
    rintro rfl
    exact hword (by simpa using hchars.symm)
  have hlength : letters.length = word.length := by
    rw [← String.length_toList, ← hchars, List.length_map]
  obtain ⟨penalty, hcompile⟩ :=
    hletters.exists_compile hlettered.coherent hlettered.named hsome
  refine ⟨_, _, by rw [Proposal.literalSequence?, hidentities]; rfl, hcompile,
    fun text start hstart => ?_⟩
  rw [← hchars, ← hlength]
  exact hletters.exists_matchText hlettered.toNumbered (Int.negSucc_lt_zero 0) rfl hsome text hstart

/-- The basic patterns spell a bar and an apostrophe, which have a meaning of their own in pattern
text. -/
theorem exists_literalSequence?_matches_marks :
    (registerBasics.run {}).2.Trained ∧ "|'" ≠ "" ∧
      (∀ c ∈ "|'".toList, (registerBasics.run {}).2.Covers (single c)) ∧
      ∃ sequence pattern,
        Proposal.literalSequence? (registerBasics.run {}).2 "|'" = .ok (some sequence) ∧
        (registerBasics.run {}).2.compile sequence = .ok pattern ∧
        ∀ (text : String) (start : Int), 0 ≤ start →
          ∃ found, (registerBasics.run {}).2.matchText pattern text start = .ok found ∧
            (found.isSome ↔ "|'".toList <+: text.toList.drop start.toNat) ∧
            ∀ token ∈ found, token.length = "|'".length := by
  have hcovers : ∀ c ∈ "|'".toList, (registerBasics.run {}).2.Covers (single c) := by
    intro c hc
    have hprintable : "|'".toList ⊆ printableAscii := by decide
    exact covers_registerBasics (hprintable hc)
  exact ⟨.basics, by decide, hcovers, exists_literalSequence?_matches .basics (by decide) hcovers⟩

end Motif.Registry
