import Motif.Proofs.Node.Uniqueness
import Motif.Proofs.Registry.Inlining
import Motif.Proofs.Registry.RoundTrip

/-!
# Patterns with the same full description

A full description tells the phrases that spell a pattern. So patterns with the same full
description match the same stretches of a text in which these phrases may stand in the place of
references, and there no text is taken for a duplicate of a pattern that matches otherwise. Where a
reference leads to a pattern that matches at the end of the text this fails, since the reference
does not.
-/

namespace Motif

namespace Phrase

/-- Alternatives that can be written and read again and mention nothing but quoted texts. -/
structure Literal (alternatives : List (List Phrase)) : Prop extends Readable alternatives where
  quoted : IsQuoted alternatives

theorem Literal.unwrapped {alternatives : List (List Phrase)} (hliteral : Literal alternatives) :
    Literal (unwrapped alternatives) := by
  induction alternatives using unwrapped.induct with
  | case1 inner ih =>
      have hlegible := hliteral.legible [.parens inner ⟨1, 1⟩ .here] List.mem_cons_self _
        List.mem_cons_self
      rw [Phrase.unwrapped]
      cases hlegible with
      | parens hnonempty hfull hinside hallowed =>
          refine ih ⟨⟨hnonempty, hfull, hinside⟩,
            fun sequence hsequence phrase hphrase symbol hmention => ?_⟩
          exact hliteral.quoted _ List.mem_cons_self _ List.mem_cons_self symbol
            (.parens hsequence hphrase hmention)
  | case2 alternatives hother =>
      rw [unwrapped.eq_2 _ hother]
      exact hliteral

end Phrase

namespace Registry

open Evaluation
open Node (plainGroup)
open Phrase (Literal)

variable {registry : Registry}

/-! ## Registries whose literals are not empty -/

/-- No pattern of the ledger is the empty text. -/
def Worded (registry : Registry) : Prop :=
  ∀ serial pattern, registry.pattern? serial = some pattern → pattern.content ≠ .literal ""

theorem Worded.keeps_add (hworded : registry.Worded) {pattern : Pattern}
    (hword : pattern.content ≠ .literal "") : KeepsFrom Worded registry (add pattern) := by
  refine keepsFrom_add hworded fun _ serial found hfound => ?_
  rw [pattern?_extend] at hfound
  split at hfound
  next =>
    cases hfound
    exact hword
  next => exact hworded serial found hfound

theorem Worded.keeps_register (hworded : registry.Worded) (name : Option String) (kind : Kind)
    (text : String) (id : Int) : KeepsFrom Worded registry (register name kind text id) := by
  refine keepsFrom_register hworded fun pattern hpattern => ?_
  obtain ⟨alternatives, penalty, -, -, -, rfl⟩ := compile_eq_ok hpattern
  exact hworded.keeps_add Content.noConfusion

theorem Worded.recalled (hworded : registry.Worded) {state : Registry}
    (hrecalls : registry.Recalls state) : state.Worded := by
  rw [hrecalls.same]
  exact hworded

theorem single_ne_empty (c : Char) : single c ≠ "" := by
  simp [single]

theorem Worded.keeps_registerBasics (hworded : registry.Worded) :
    KeepsFrom Worded registry registerBasics := by
  refine keepsFrom_registerBasics hworded (fun c _ state hstate => ?_)
    fun _ _ _ hstate => hstate.keeps_register _ _ _ _
  exact hstate.keeps_add fun hsame => single_ne_empty c (Content.literal.inj hsame)

theorem Worded.keeps_registerExperiment (hworded : registry.Worded)
    (hconsistent : registry.Consistent) (text : String) :
    KeepsFrom Worded registry (registerExperiment text) := by
  refine hconsistent.keepsFrom_registerExperiment (fun state => hworded.recalled)
    fun pattern middle hcompile _ hrecalls => ?_
  obtain ⟨alternatives, penalty, -, -, -, rfl⟩ := compile_eq_ok hcompile
  exact (hworded.recalled hrecalls).keeps_add Content.noConfusion

/-- A registry that has come from the empty one by registering patterns, the basic ones among them,
where every literal has a text. -/
inductive Taught : Registry → Prop where
  | empty : Taught {}
  | addLiteral {registry : Registry} (htaught : Taught registry) {text : String} (htext : text ≠ "")
      (name : Option String) (id : Int) (kind : Kind) :
      Taught ((Registry.addLiteral text name id kind).run registry).2
  | registerBasics {registry : Registry} (htaught : Taught registry) :
      Taught (Registry.registerBasics.run registry).2
  | register {registry : Registry} (htaught : Taught registry) (name : Option String) (kind : Kind)
      (text : String) (id : Int) : Taught ((Registry.register name kind text id).run registry).2
  | registerExperiment {registry : Registry} (htaught : Taught registry) (text : String) :
      Taught ((Registry.registerExperiment text).run registry).2

theorem Taught.built (htaught : registry.Taught) : registry.Built := by
  induction htaught with
  | empty => exact .empty
  | addLiteral _ _ name id kind ih => exact .addLiteral ih _ name id kind
  | registerBasics _ ih => exact .registerBasics ih
  | register _ name kind text id ih => exact .register ih name kind text id
  | registerExperiment _ text ih => exact .registerExperiment ih text

theorem Taught.worded (htaught : registry.Taught) : registry.Worded := by
  induction htaught with
  | empty => simp [Worded, pattern?]
  | addLiteral _ htext name id kind ih =>
      exact ih.keeps_add fun hsame => htext (Content.literal.inj hsame)
  | registerBasics _ ih => exact ih.keeps_registerBasics
  | register _ name kind text id ih => exact ih.keeps_register name kind text id
  | registerExperiment htaught text ih =>
      exact ih.keeps_registerExperiment htaught.built.consistent text

/-! ## Full descriptions tell phrases -/

theorem literal_spellContent_of_references {content : Content} (hfits : registry.Fits content)
    (hword : content ≠ .literal "")
    (hbelow : ∀ id ∈ content.references, Literal (registry.spelling id)) :
    Literal (spellContent registry.spelling content) := by
  cases content with
  | literal word =>
      have hsymbol : (Symbol.quoted (Text.quote word)).IsReference :=
        ⟨word, fun hempty => hword (by rw [hempty]), rfl⟩
      refine ⟨.singleton (.atom hsymbol (Phrase.allowed_here Quantity.legal_once)),
        fun sequence hsequence phrase hphrase symbol hmention => ?_⟩
      obtain rfl := List.mem_singleton.mp hsequence
      obtain rfl := List.mem_singleton.mp hphrase
      cases hmention
      exact ⟨word, rfl⟩
  | tree root =>
      obtain ⟨alternatives, rfl, hcanonical⟩ := hfits.canonical root rfl
      refine ⟨Node.readable_spellAlternatives hcanonical.full hcanonical.allowed
        (fun id hid _ => (hbelow id hid).toReadable) false, ?_⟩
      intro phrases hphrases phrase hphrase symbol hmention
      obtain ⟨sequence, hsequence, node, hnode, hspelled⟩ :=
        Node.mem_spellAlternatives hphrases hphrase
      obtain ⟨id, hid, -, inner, hinner, other, hother, hmention⟩ :=
        Node.mentions_spell hspelled hmention
      have hreference : id ∈ (plainGroup alternatives).references :=
        Node.mem_references_group.mpr ⟨sequence, hsequence, node, hnode, hid⟩
      exact (hbelow id hreference).quoted inner hinner other hother symbol hmention

theorem literal_spelling (hsound : registry.Sound) (hworded : registry.Worded) {id : Int}
    (hid : (registry.byId? id).isSome) : Literal (registry.spelling id) := by
  refine hsound.toGrounded.induction (motive := fun id => Literal (registry.spelling id))
    (fun id pattern hpattern hbelow => ?_) hid
  obtain ⟨serial, -, hserial⟩ := hsound.coherent.byId?_eq_some_iff.mp hpattern
  rw [spelling_eq hsound.toGrounded hpattern]
  exact literal_spellContent_of_references (hsound.fits (hsound.coherent.mem_patterns hpattern))
    (hworded serial pattern hserial) fun other hother => (hbelow other hother).2

/-- Contents with the same full description are spelled alike, up to plain parentheses around all of
it. -/
theorem unwrapped_eq_of_fullText_eq (hsound : registry.Sound) (hworded : registry.Worded)
    {first second : Content} (hfirst : registry.Fits first) (hsecond : registry.Fits second)
    (hword : first ≠ .literal "") (hother : second ≠ .literal "")
    (htext : registry.fullText first = registry.fullText second) :
    Phrase.unwrapped (spellContent registry.spelling first) =
      Phrase.unwrapped (spellContent registry.spelling second) := by
  have hspelled : ∀ {content : Content}, registry.Fits content → content ≠ .literal "" →
      Literal (Phrase.unwrapped (spellContent registry.spelling content)) := fun hfits hword =>
    (literal_spellContent_of_references hfits hword fun id hid =>
      literal_spelling hsound hworded (hfits.known id hid)).unwrapped
  rw [fullText_eq_textOf, fullText_eq_textOf] at htext
  have hone := hspelled hfirst hword
  have htwo := hspelled hsecond hother
  exact Phrase.eq_of_textOf_eq hone.toReadable htwo.toReadable hone.quoted htwo.quoted htext

/-! ## Duplicates -/

/-- The pattern is registered or has been compiled, and this is its full description. -/
inductive Describes (registry : Registry) : Pattern → String → Prop where
  | registered {serial : Serial} {pattern : Pattern} {description : String}
      (hpattern : (serial, pattern) ∈ registry.registered)
      (hdescription : ((fullDescription serial pattern).run registry).1 = .ok description) :
      Describes registry pattern description
  | compiled {text : String} {name : Option String} {kind : Kind} {pattern : Pattern}
      {description : String} (hpattern : registry.compile text name kind = .ok pattern)
      (hdescription : ((describeFully none pattern).run registry).1 = .ok description) :
      Describes registry pattern description

/-- At any limit that is not reached both patterns match the same stretches of a text. -/
def MatchAlike (registry : Registry) (text : String) (first second : Pattern) : Prop :=
  ∀ start maxDepth : Int,
    Unreached (fun limit => registry.matchText first text start limit) maxDepth →
    Unreached (fun limit => registry.matchText second text start limit) maxDepth →
      ∃ found other, registry.matchText first text start maxDepth = .ok found ∧
        registry.matchText second text start maxDepth = .ok other ∧
          found.map Token.length = other.map Token.length

namespace Describes

variable {pattern : Pattern} {description : String}

theorem fits (hdescribes : registry.Describes pattern description) (hsound : registry.Sound) :
    registry.Fits pattern.content := by
  cases hdescribes with
  | registered hpattern _ => exact hsound.fits (mem_registered hpattern).2
  | compiled hpattern _ => exact fits_of_compile hpattern

theorem eq_fullText (hdescribes : registry.Describes pattern description)
    (hconsistent : registry.Consistent) : description = registry.fullText pattern.content := by
  have hfits := hdescribes.fits hconsistent.sound
  cases hdescribes with
  | registered hpattern hdescription =>
      have hserial := (mem_registered hpattern).1
      have hrun := (settles_fullDescription hconsistent.sound hserial hfits).run_eq
        hconsistent.recalls
      exact Except.ok.inj (hdescription.symm.trans hrun)
  | compiled hpattern hdescription =>
      have hrun := (settles_describeFully hconsistent.sound hfits (standsAt_none _)).run_eq
        hconsistent.recalls
      exact Except.ok.inj (hdescription.symm.trans hrun)

theorem ne_empty (hdescribes : registry.Describes pattern description)
    (hworded : registry.Worded) : pattern.content ≠ .literal "" := by
  cases hdescribes with
  | @registered serial _ _ hpattern _ => exact hworded serial pattern (mem_registered hpattern).1
  | compiled hpattern _ =>
      obtain ⟨alternatives, penalty, -, -, -, rfl⟩ := compile_eq_ok hpattern
      exact Content.noConfusion

/-- A described pattern is the one registered under its id, if there is one. -/
theorem byId?_eq (hdescribes : registry.Describes pattern description)
    (hconsistent : registry.Consistent) (hknown : (registry.byId? pattern.id).isSome) :
    registry.byId? pattern.id = some pattern := by
  cases hdescribes with
  | registered hpattern _ =>
      exact hconsistent.coherent.mem_patterns_iff.mp (mem_registered hpattern).2
  | compiled hpattern _ =>
      -- A compiled pattern has the id -1, which no registered one has.
      obtain ⟨alternatives, penalty, -, -, -, rfl⟩ := compile_eq_ok hpattern
      obtain ⟨⟨id, serial⟩, hentry, hid⟩ :=
        List.mem_map.mp (hconsistent.coherent.byId?_isSome_iff.mp hknown)
      have hnonneg := (hconsistent.bounded id serial hentry).1
      change id = -1 at hid
      omega

theorem matchText_eq (hdescribes : registry.Describes pattern description)
    (hconsistent : registry.Consistent) {text : String} (hretraces : registry.RetracesIn text)
    (hinlinable : registry.Inlinable text pattern.content) {start maxDepth : Int}
    (hunreached : Unreached (fun limit => registry.matchText pattern text start limit) maxDepth) :
    registry.matchText pattern text start maxDepth =
      .ok (registry.evaluate text pattern start) := by
  have hsound := hconsistent.sound
  exact matchText_eq_evaluate hsound.coherent hsound.closed hsound.acyclic hretraces
    (hdescribes.byId?_eq hconsistent) (hdescribes.fits hsound).known hinlinable.retraces hunreached

end Describes

theorem describes_compiled (hconsistent : registry.Consistent) {text : String}
    {name : Option String} {kind : Kind} {pattern : Pattern}
    (hcompile : registry.compile text name kind = .ok pattern) :
    registry.Describes pattern (registry.fullText pattern.content) :=
  .compiled hcompile ((settles_describeFully hconsistent.sound (fits_of_compile hcompile)
    (standsAt_none _)).run_eq hconsistent.recalls)

theorem describes_registered (hconsistent : registry.Consistent) {serial : Serial}
    {pattern : Pattern} (hpattern : (serial, pattern) ∈ registry.registered) :
    registry.Describes pattern (registry.fullText pattern.content) := by
  obtain ⟨hserial, hmem⟩ := mem_registered hpattern
  exact .registered hpattern ((settles_fullDescription hconsistent.sound hserial
    (hconsistent.sound.fits hmem)).run_eq hconsistent.recalls)

/-- A registered pattern that stands for an experiment is described like the text. -/
theorem exists_describes_of_registerExperiment (hconsistent : registry.Consistent) {text : String}
    {serial : Serial} (hrun : ((registerExperiment text).run registry).1 = .ok serial)
    {found : Pattern} (hfound : (serial, found) ∈ registry.registered) :
    ∃ compiled description, registry.compile text = .ok compiled ∧
      registry.Describes compiled description ∧ registry.Describes found description := by
  have hexperiment := hconsistent.experiment text
  generalize (registerExperiment text).run registry = outcome at hexperiment hrun
  cases hexperiment with
  | refused => cases hrun
  | @known compiled other after hcompile hfirst _ =>
      obtain rfl : other = serial := Except.ok.inj hrun
      refine ⟨compiled, registry.fullText compiled.content, hcompile,
        describes_compiled hconsistent hcompile, ?_⟩
      obtain ⟨pattern, hpattern, htext⟩ := mem_registered_of_firstSpelled hfirst
      obtain rfl : found = pattern :=
        Option.some.inj ((mem_registered hfound).1.symm.trans (mem_registered hpattern).1)
      rw [← htext]
      exact describes_registered hconsistent hfound
  | @added compiled middle _ _ hrecalls =>
      -- The serial of a pattern that is added now is not in use yet.
      have hnew : serial = middle.ledger.size := serial_of_run_add hrun
      rw [hrecalls.same] at hnew
      have hlt := hconsistent.coherent.serial_lt (hconsistent.coherent.mem_entries_of_registered hfound)
      exact absurd hnew (Nat.ne_of_lt hlt)

theorem matchAlike_of_describes (htaught : registry.Taught) {text : String}
    (hretraces : registry.RetracesIn text) {first second : Pattern} {description : String}
    (hfirst : registry.Describes first description)
    (hsecond : registry.Describes second description)
    (hinlinable : registry.Inlinable text first.content)
    (hother : registry.Inlinable text second.content) :
    registry.MatchAlike text first second := by
  have hconsistent := htaught.built.consistent
  have hsound := hconsistent.sound
  have htext : registry.fullText first.content = registry.fullText second.content :=
    (hfirst.eq_fullText hconsistent).symm.trans (hsecond.eq_fullText hconsistent)
  have hphrases := unwrapped_eq_of_fullText_eq hsound htaught.worded (hfirst.fits hsound)
    (hsecond.fits hsound) (hfirst.ne_empty htaught.worded) (hsecond.ne_empty htaught.worded) htext
  intro start maxDepth hunreached hunreachedOther
  refine ⟨_, _, hfirst.matchText_eq hconsistent hretraces hinlinable hunreached,
    hsecond.matchText_eq hconsistent hretraces hother hunreachedOther, ?_⟩
  rw [hinlinable.length_evaluate hsound (hfirst.fits hsound),
    hother.length_evaluate hsound (hsecond.fits hsound), ← Phrase.reachAlternatives_unwrapped,
    hphrases, Phrase.reachAlternatives_unwrapped]

/-- In a text in which what spells patterns may stand in the place of references to them, patterns
with the same full description match alike, and so do the text of an experiment and a registered
pattern that stands for it. -/
theorem duplicates_matchAlike (htaught : registry.Taught) {text : String}
    (hretraces : registry.RetracesIn text) :
    (∀ first second description, registry.Describes first description →
      registry.Describes second description → registry.Inlinable text first.content →
        registry.Inlinable text second.content → registry.MatchAlike text first second) ∧
    ∀ source serial found, ((registerExperiment source).run registry).1 = .ok serial →
      (serial, found) ∈ registry.registered →
        ∃ compiled, registry.compile source = .ok compiled ∧
          (registry.Inlinable text compiled.content → registry.Inlinable text found.content →
            registry.MatchAlike text compiled found) := by
  constructor
  · intro first second description hfirst hsecond hinlinable hother
    exact matchAlike_of_describes htaught hretraces hfirst hsecond hinlinable hother
  · intro source serial found hrun hfound
    obtain ⟨compiled, description, hcompile, hcompiled, hdescribes⟩ :=
      exists_describes_of_registerExperiment htaught.built.consistent hrun hfound
    exact ⟨compiled, hcompile,
      matchAlike_of_describes htaught hretraces hcompiled hdescribes⟩

/-- A registry of a literal and its repetition. -/
def repetition : Registry where
  ledger := #[{ kind := .literal, name := some "A", content := .literal "a", id := 0 },
    { kind := .derived, name := some "R", content := .tree (.plainGroup [[.ref 0 ⟨1, -1⟩ .here]]),
      penalty := 3, id := 1 }]
  entries := [(0, 0), (1, 1)]
  names := [("R", 1), ("A", 0)]
  literals := [("a", 0)]
  nextId := 2

/-- A registry of a literal, its repetition and the choice of leaving it out. -/
def shorthands : Registry where
  ledger := repetition.ledger.push
    { kind := .derived, name := some "O", content := .tree (.plainGroup [[.ref 0 ⟨0, 1⟩ .here]]),
      penalty := 3, id := 2 }
  entries := [(0, 0), (1, 1), (2, 2)]
  names := [("O", 2), ("R", 1), ("A", 0)]
  literals := [("a", 0)]
  nextId := 3

theorem taught_shorthands : shorthands.Taught := by
  have hlettered : ((addLiteral "a" (some "A") (-1) .literal).run {}).2 = lettered := rfl
  have hrepetition : ((register (some "R") .derived "A+" (-1)).run lettered).2 = repetition := rfl
  have hshorthands : ((register (some "O") .derived "A?" (-1)).run repetition).2 = shorthands := rfl
  rw [← hshorthands, ← hrepetition, ← hlettered]
  exact .register (.register (.addLiteral .empty (by decide) _ _ _) _ _ _ _) _ _ _ _

theorem not_behind_shorthands {pattern : Pattern} (hpattern : pattern ∈ shorthands.patterns)
    {root : Node} (hcontent : pattern.content = .tree root) :
    Node.Everywhere (fun node => node.look ≠ .behind) root := by
  have hpatterns : shorthands.patterns = shorthands.ledger.toList := rfl
  rw [hpatterns] at hpattern
  simp only [shorthands, repetition, Array.toList_push, List.cons_append, List.nil_append,
    List.mem_cons, List.not_mem_nil, or_false] at hpattern
  rcases hpattern with rfl | rfl | rfl <;> cases hcontent <;>
    simp [plainGroup, Node.everywhere_group_iff, Node.everywhere_ref_iff, Node.look]

theorem retracesIn_shorthands (text : String) : shorthands.RetracesIn text :=
  fun _ hpattern _ node hcontent hwithin hbehind =>
    absurd hbehind (not_behind_shorthands hpattern hcontent node hwithin)

/-- References to the literal and its repetition may be written out in a text that ends
otherwise. -/
theorem inlinable_shorthands {root : Node}
    (hlook : Node.Everywhere (fun node => node.look ≠ .behind) root)
    (hids : ∀ id ∈ root.references, id = 0 ∨ id = 1) :
    shorthands.Inlinable "aab" (.tree root) := by
  have hrepetition : shorthands.Inlinable "aab" (.tree (plainGroup [[.ref 0 ⟨1, -1⟩ .here]])) := by
    apply Inlinable.of_not_behind
    · simp [plainGroup, Node.everywhere_group_iff, Node.everywhere_ref_iff, Node.look]
    · intro id hid pattern hpattern
      obtain rfl : id = 0 := by simpa [plainGroup] using hid
      cases hpattern
      rfl
    · intro id hid pattern hpattern
      obtain rfl : id = 0 := by simpa [plainGroup] using hid
      cases hpattern
      exact .literal "a"
  apply Inlinable.of_not_behind hlook
  · intro id hid pattern hpattern
    rcases hids id hid with rfl | rfl <;> cases hpattern <;> rfl
  · intro id hid pattern hpattern
    rcases hids id hid with rfl | rfl <;> cases hpattern
    · exact .literal "a"
    · exact hrepetition

/-- A literal and a reference to its repetition match like the two written out, and an experiment of
the repetition matches like the pattern that stands for it. -/
theorem duplicates_matchAlike_shorthands :
    (∃ first second, shorthands.compile "A R" = .ok first ∧ shorthands.compile "A A+" = .ok second ∧
      shorthands.MatchAlike "aab" first second) ∧
    ∃ compiled found, shorthands.compile "A+" = .ok compiled ∧ (1, found) ∈ shorthands.registered ∧
      shorthands.MatchAlike "aab" compiled found := by
  obtain ⟨hdescribed, hexperiment⟩ :=
    duplicates_matchAlike taught_shorthands (retracesIn_shorthands "aab")
  constructor
  · have hcompile : shorthands.compile "A R" = .ok {
        kind := .experimental, content := .tree (plainGroup [[.plainRef 0, .plainRef 1]]),
        penalty := 6 } := rfl
    have hcompileOther : shorthands.compile "A A+" = .ok {
        kind := .experimental, content := .tree (plainGroup [[.plainRef 0, .ref 0 ⟨1, -1⟩ .here]]),
        penalty := 4 } := rfl
    refine ⟨_, _, hcompile, hcompileOther, hdescribed _ _ "'a' 'a'+" (.compiled hcompile rfl)
      (.compiled hcompileOther rfl) (inlinable_shorthands ?_ ?_) (inlinable_shorthands ?_ ?_)⟩ <;>
      simp [plainGroup, Node.plainRef, Node.everywhere_group_iff, Node.everywhere_ref_iff,
        Node.look]
  · obtain ⟨found, hregistered, hcontent⟩ : ∃ found, (1, found) ∈ shorthands.registered ∧
        found.content = .tree (plainGroup [[.ref 0 ⟨1, -1⟩ .here]]) :=
      ⟨_, List.mem_cons_of_mem _ List.mem_cons_self, rfl⟩
    obtain ⟨compiled, hcompile, halike⟩ := hexperiment "A+" 1 found rfl hregistered
    have hrepetition : shorthands.Inlinable "aab"
        (.tree (plainGroup [[.ref 0 ⟨1, -1⟩ .here]])) := by
      apply inlinable_shorthands <;>
        simp [plainGroup, Node.everywhere_group_iff, Node.everywhere_ref_iff, Node.look]
    cases hcompile
    exact ⟨_, found, rfl, hregistered, halike hrepetition (hcontent ▸ hrepetition)⟩

/-- At the end of the text a reference to an optional literal fails, where the literal may be left
out. -/
theorem not_matchAlike_shorthands :
    ∃ first second description, shorthands.Taught ∧ shorthands.Describes first description ∧
      shorthands.Describes second description ∧ ¬ shorthands.MatchAlike "a" first second := by
  have hcompile : shorthands.compile "A O" = .ok {
      kind := .experimental, content := .tree (plainGroup [[.plainRef 0, .plainRef 2]]),
      penalty := 6 } := rfl
  have hcompileOther : shorthands.compile "A A?" = .ok {
      kind := .experimental, content := .tree (plainGroup [[.plainRef 0, .ref 0 ⟨0, 1⟩ .here]]),
      penalty := 4 } := rfl
  refine ⟨_, _, "'a' 'a'?", taught_shorthands, .compiled hcompile rfl, .compiled hcompileOther rfl,
    fun halike => ?_⟩
  have hgrounded := taught_shorthands.built.consistent.grounded
  obtain ⟨found, other, hfound, hother, hlength⟩ := halike 0 256
    (unreached_matchText hgrounded.coherent hgrounded.closed hgrounded.acyclic (by decide) "a" 0)
    (unreached_matchText hgrounded.coherent hgrounded.closed hgrounded.acyclic (by decide) "a" 0)
  cases hfound
  cases hother
  cases hlength

end Registry

end Motif
