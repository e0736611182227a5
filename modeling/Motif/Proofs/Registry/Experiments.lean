import Motif.Proofs.Registry.Basics
import Motif.Proofs.Registry.Histories
import Motif.Proofs.Registry.Refusals

/-!
# Experiments

Where after the basic patterns only experiments are registered, no two patterns have the same full
description: the full description of a pattern stays the same while others are renamed, removed and
added, and a text whose full description a pattern has leads to that pattern. Such a text is not
registered again, and any other text that is compiled is.
-/

namespace Motif.Registry

variable {registry first second state : Registry}

/-! ## Distinct full descriptions -/

/-- What the registered patterns match. -/
def contents (registry : Registry) : List Content :=
  registry.registered.map fun entry => entry.2.content

/-- No two registered patterns have the same full description. -/
def Distinct (registry : Registry) : Prop :=
  (registry.contents.map registry.fullText).Nodup

theorem Sound.fits_of_mem_contents (hsound : registry.Sound) {content : Content}
    (hcontent : content ∈ registry.contents) : registry.Fits content := by
  obtain ⟨entry, hentry, rfl⟩ := List.mem_map.mp hcontent
  exact hsound.fits (mem_registered hentry).2

theorem fullText_eq_of_mem_contents (hfirst : first.Sound) (hsecond : second.Sound)
    (hagrees : Agrees first second ∨ Agrees second first) {content : Content}
    (hold : content ∈ first.contents) (hnew : content ∈ second.contents) :
    second.fullText content = first.fullText content := by
  rcases hagrees with hagrees | hagrees
  · exact (fullText_eq_of_agrees hfirst.toGrounded hsecond.toGrounded hagrees
      (hfirst.fits_of_mem_contents hold).known).symm
  · exact fullText_eq_of_agrees hsecond.toGrounded hfirst.toGrounded hagrees
      (hsecond.fits_of_mem_contents hnew).known

/-- Full descriptions stay distinct where contents stay and none is added. -/
theorem Distinct.transfer (hdistinct : first.Distinct) (hfirst : first.Sound)
    (hsecond : second.Sound) (hagrees : Agrees first second ∨ Agrees second first)
    (hcontents : second.contents.Sublist first.contents) : second.Distinct := by
  have hsame : second.contents.map second.fullText = second.contents.map first.fullText :=
    List.map_congr_left fun content hcontent =>
      fullText_eq_of_mem_contents hfirst hsecond hagrees (hcontents.mem hcontent) hcontent
  rw [Distinct, hsame]
  exact hdistinct.sublist (hcontents.map _)

theorem Recalls.fullText (hrecalls : registry.Recalls state) :
    state.fullText = registry.fullText := by
  rw [hrecalls.same]
  rfl

theorem Recalls.contents (hrecalls : registry.Recalls state) :
    state.contents = registry.contents := by
  rw [hrecalls.same]
  rfl

theorem Recalls.compile (hrecalls : registry.Recalls state) (text : String) :
    state.compile text = registry.compile text := by
  rw [hrecalls.same]
  rfl

theorem Recalls.distinct (hrecalls : registry.Recalls state) (hdistinct : registry.Distinct) :
    state.Distinct := by
  rw [Distinct, hrecalls.contents, hrecalls.fullText]
  exact hdistinct

section Operations

variable {serial : Serial} {pattern : Pattern}

theorem contents_renamed (hpattern : registry.pattern? serial = some pattern) {name : String}
    {kind : Option Kind} :
    (registry.renamed serial pattern name kind).contents = registry.contents := by
  unfold contents registered
  rw [List.map_filterMap, List.map_filterMap]
  refine List.filterMap_congr fun entry _ => ?_
  rw [pattern?_renamed hpattern]
  split
  next hserial =>
    rw [hserial, hpattern]
    rfl
  next => rfl

theorem Consistent.distinct_renamed (hconsistent : registry.Consistent)
    (hdistinct : registry.Distinct) (hpattern : registry.pattern? serial = some pattern)
    {name : String} (hname : ∀ other, registry.named? name = some other → other = serial)
    (kind : Option Kind) : (registry.renamed serial pattern name kind).Distinct := by
  refine hdistinct.transfer hconsistent.sound (hconsistent.renamed hpattern hname).sound
    (.inl (hconsistent.coherent.agrees_renamed hpattern)) ?_
  rw [contents_renamed hpattern]

theorem Consistent.distinct_without (hconsistent : registry.Consistent)
    (hdistinct : registry.Distinct) (hpattern : registry.pattern? serial = some pattern)
    (hunused : registry.dependents serial pattern.id = []) :
    (registry.without serial pattern).Distinct := by
  refine hdistinct.transfer hconsistent.sound (hconsistent.without hpattern hunused).sound
    (.inr (hconsistent.coherent.agrees_without serial pattern)) ?_
  rw [contents, registered_without]
  exact List.filter_sublist.map _

end Operations

theorem Distinct.entry_eq (hdistinct : registry.Distinct) {entry other : Serial × Pattern}
    (hentry : entry ∈ registry.registered) (hother : other ∈ registry.registered)
    (hsame : registry.fullText entry.2.content = registry.fullText other.2.content) :
    entry = other := by
  rw [Distinct, Registry.contents, List.map_map] at hdistinct
  exact List.inj_on_of_nodup_map hdistinct hentry hother hsame

/-! ## The next pattern -/

/-- The registry with a pattern registered under the next id. -/
def withNext (registry : Registry) (pattern : Pattern) : Registry :=
  registry.extend { pattern with id := registry.nextId }

section Adding

variable {text : String} {pattern : Pattern}

theorem name_of_compile (hcompile : registry.compile text = .ok pattern) : pattern.name = none := by
  obtain ⟨alternatives, penalty, -, -, -, rfl⟩ := compile_eq_ok hcompile
  rfl

/-- What has been compiled asks for no id, and a name is free if there is none. -/
theorem free_of_compile (hcompile : registry.compile text = .ok pattern) :
    registry.Free pattern ∧ registry.idFor pattern = registry.nextId := by
  obtain ⟨alternatives, penalty, -, -, -, rfl⟩ := compile_eq_ok hcompile
  exact ⟨⟨by simp, by simp⟩, rfl⟩

variable (htidy : registry.Tidy) (hcompile : registry.compile text = .ok pattern)
include htidy hcompile

theorem Tidy.withNext : (registry.withNext pattern).Tidy := by
  have hfits := fits_of_compile hcompile
  have hfree := (free_of_compile hcompile).1
  exact htidy.extend hfits htidy.counter htidy.numbered.serialOf?_nextId hfree.name

theorem Tidy.fullText_withNext {content : Content} (hfits : registry.Fits content) :
    (registry.withNext pattern).fullText content = registry.fullText content :=
  (fullText_eq_of_agrees htidy.grounded (htidy.withNext hcompile).grounded
    (htidy.agrees_extend htidy.numbered.serialOf?_nextId) hfits.known).symm

/-- Full descriptions stay distinct if no pattern has that of the next one. -/
theorem Tidy.distinct_withNext (hdistinct : registry.Distinct)
    (hnew : ∀ content ∈ registry.contents,
      registry.fullText content ≠ registry.fullText pattern.content) :
    (registry.withNext pattern).Distinct := by
  have hcontents :
      (registry.withNext pattern).contents = registry.contents ++ [pattern.content] := by
    rw [Registry.contents, Registry.withNext, htidy.coherent.registered_extend, List.map_append]
    rfl
  have hold : registry.contents.map (registry.withNext pattern).fullText =
      registry.contents.map registry.fullText :=
    List.map_congr_left fun content hcontent =>
      htidy.fullText_withNext hcompile (htidy.sound.fits_of_mem_contents hcontent)
  rw [Distinct, hcontents, List.map_append, hold, List.map_singleton,
    htidy.fullText_withNext hcompile (fits_of_compile hcompile)]
  refine List.nodup_append.mpr ⟨hdistinct, List.nodup_singleton _, ?_⟩
  rintro text htext other hother rfl
  obtain ⟨content, hcontent, rfl⟩ := List.mem_map.mp htext
  exact hnew content hcontent (List.mem_singleton.mp hother)

/-- The next pattern is registered also if its id has too many digits to be written. -/
theorem Tidy.run_add_of_compile : (add pattern).run registry =
    (if registry.nextId < 10 ^ Text.mostDigits then .ok registry.ledger.size
      else .error (.integerTooLong none), registry.withNext pattern) := by
  obtain ⟨hfree, hid⟩ := free_of_compile hcompile
  have hidentity : ({ pattern with id := registry.nextId } : Pattern).identity =
      do return "[" ++ (← Pattern.writeId registry.nextId) ++ "]" := by
    simp only [Pattern.identity, name_of_compile hcompile]
    rw [if_pos htidy.counter]
  rw [run_add_of_free hfree, hid, hidentity]
  refine Prod.ext ?_ rfl
  split
  next hlt =>
    rw [Pattern.writeId_of_lt htidy.counter hlt]
    rfl
  next hle =>
    rw [Pattern.writeId_of_le htidy.counter (Int.not_lt.mp hle)]
    rfl

/-- A text is compiled in the same way after what some text is compiled to has been registered. -/
theorem Tidy.compile_withNext {other : String} {found : Pattern}
    (hother : registry.compile other = .ok found) :
    (registry.withNext pattern).compile other = .ok found := by
  have hid := htidy.numbered.serialOf?_nextId
  have hnameless := name_of_compile hcompile
  refine compile_widen ⟨fun id hknown => ?_, fun name id hfound => ?_⟩ (fun id hknown => ?_)
    hother
  · obtain ⟨found, hfound⟩ := Option.isSome_iff_exists.mp hknown
    exact Option.isSome_of_eq_some (htidy.byId?_extend hid hfound)
  · obtain ⟨found, hpattern, rfl⟩ := Option.map_eq_some_iff.mp hfound
    obtain ⟨serial, hnamed, hserial⟩ := Option.bind_eq_some_iff.mp hpattern
    have hne : serial ≠ registry.ledger.size := Nat.ne_of_lt (lt_size_of_pattern? hserial)
    simp [scope, Registry.withNext, named?_extend, hnameless, hnamed, pattern?_extend, hne, hserial]
  · obtain ⟨found, hfound⟩ := Option.isSome_iff_exists.mp hknown
    rw [hfound]
    exact htidy.byId?_extend hid hfound

end Adding

/-! ## What comes of an experiment -/

/-- A pattern with this full description is registered under the serial. -/
def IsDescribed (registry : Registry) (description : String) (serial : Serial) : Prop :=
  ∃ pattern, (serial, pattern) ∈ registry.registered ∧
    ((fullDescription serial pattern).run registry).1 = .ok description

/-- Nothing but what is stored about patterns may differ. -/
def OnlyStores (before after : Registry) : Prop :=
  after = { before with trees := after.trees, descriptions := after.descriptions }

/-- Exactly one registered pattern has the full description, and the text leads to it. -/
structure Represents (registry : Registry) (text description : String) (serial : Serial) : Prop
    where
  isDescribed_iff : ∀ other, registry.IsDescribed description other ↔ other = serial
  again : ∃ after, (registerExperiment text).run registry = (.ok serial, after) ∧
    registry.OnlyStores after

/-- One more pattern is registered, under the next id. -/
structure Adds (before : Registry) (pattern : Pattern) (after : Registry) : Prop where
  registered : after.registered =
    before.registered ++ [(before.ledger.size, { pattern with id := before.nextId })]
  names : after.names = before.names
  nextId : after.nextId = before.nextId + 1

/-- What comes of registering a text as an experiment. The text is refused, and nothing changes; or
a pattern has its full description and stands for it; or none has, and one more pattern is
registered, also if its id turns out to have too many digits to be written. -/
inductive Outcome (registry : Registry) (text : String) : Except Fault Serial × Registry → Prop
    where
  | refused {fault : Fault} (hcompile : registry.compile text = .error fault)
      (hblames : Lexeme.ReadsRanges text → ∃ cause, fault = .pattern cause) :
      Outcome registry text (.error fault, registry)
  | known {pattern : Pattern} {description : String} {serial : Serial} {after : Registry}
      (hcompile : registry.compile text = .ok pattern)
      (hdescription : ((describeFully none pattern).run registry).1 = .ok description)
      (hdescribed : registry.IsDescribed description serial) (hstores : registry.OnlyStores after)
      (hrepresents : after.Represents text description serial) :
      Outcome registry text (.ok serial, after)
  | added {pattern : Pattern} {description : String} {after : Registry}
      (hcompile : registry.compile text = .ok pattern)
      (hdescription : ((describeFully none pattern).run registry).1 = .ok description)
      (hnew : ∀ serial, ¬ registry.IsDescribed description serial)
      (hadds : registry.Adds pattern after)
      (hrepresents : after.Represents text description registry.ledger.size) :
      Outcome registry text (if registry.nextId < 10 ^ Text.mostDigits
        then .ok registry.ledger.size else .error (.integerTooLong none), after)

theorem Consistent.isDescribed_iff (hconsistent : registry.Consistent) {description : String}
    {serial : Serial} : registry.IsDescribed description serial ↔
      ∃ pattern, (serial, pattern) ∈ registry.registered ∧
        registry.fullText pattern.content = description := by
  refine exists_congr fun pattern => and_congr_right fun hregistered => ?_
  obtain ⟨hpattern, hmem⟩ := mem_registered hregistered
  rw [(settles_fullDescription hconsistent.sound hpattern (hconsistent.sound.fits hmem)).run_eq
    hconsistent.recalls]
  exact ⟨fun hsame => Except.ok.inj hsame, congrArg Except.ok⟩

section Representing

variable {text : String} {pattern other : Pattern} {serial : Serial}

/-- Where descriptions are distinct, the pattern with the full description of a text is the one to
which the text leads. -/
theorem Consistent.represents (hconsistent : registry.Consistent) (hdistinct : registry.Distinct)
    (hcompile : registry.compile text = .ok pattern)
    (hregistered : (serial, other) ∈ registry.registered)
    (hsame : registry.fullText other.content = registry.fullText pattern.content) :
    registry.Represents text (registry.fullText pattern.content) serial := by
  have honly : ∀ {known found}, (known, found) ∈ registry.registered →
      registry.fullText found.content = registry.fullText pattern.content → known = serial := by
    intro known found hfound htext
    have hentry := hdistinct.entry_eq hfound hregistered (htext.trans hsame.symm)
    exact congrArg Prod.fst hentry
  refine ⟨fun known => ?_, ?_⟩
  · rw [hconsistent.isDescribed_iff]
    constructor
    · rintro ⟨found, hfound, htext⟩
      exact honly hfound htext
    · rintro rfl
      exact ⟨other, hregistered, hsame⟩
  · have hexperiment := hconsistent.experiment text
    generalize (registerExperiment text).run registry = outcome at hexperiment
    cases hexperiment with
    | refused hrefused =>
        rw [hcompile] at hrefused
        cases hrefused
    | @known again known after hagain hfirst hrecalls =>
        obtain rfl : pattern = again := Except.ok.inj (hcompile.symm.trans hagain)
        obtain ⟨found, hfound, htext⟩ := mem_registered_of_firstSpelled hfirst
        obtain rfl := honly hfound htext
        exact ⟨after, rfl, hrecalls.same⟩
    | @added again middle hagain hfirst hrecalls =>
        obtain rfl : pattern = again := Except.ok.inj (hcompile.symm.trans hagain)
        exact absurd hsame (ne_of_firstSpelled_eq_none hfirst hregistered)

theorem Tidy.adds_withNext (htidy : registry.Tidy)
    (hcompile : registry.compile text = .ok pattern) :
    registry.Adds pattern (registry.withNext pattern) where
  registered := htidy.coherent.registered_extend _
  names := by simp [Registry.withNext, Registry.extend, name_of_compile hcompile]
  nextId := by
    have hcounter := htidy.counter
    change max registry.nextId (registry.nextId + 1) = _
    omega

theorem Tidy.represents_withNext (htidy : registry.Tidy) (hdistinct : registry.Distinct)
    (hcompile : registry.compile text = .ok pattern)
    (hnew : ∀ content ∈ registry.contents,
      registry.fullText content ≠ registry.fullText pattern.content) :
    (registry.withNext pattern).Represents text (registry.fullText pattern.content)
      registry.ledger.size := by
  have hregistered : (registry.ledger.size, { pattern with id := registry.nextId }) ∈
      (registry.withNext pattern).registered := by
    rw [(htidy.adds_withNext hcompile).registered]
    exact List.mem_append_right _ (List.mem_singleton_self _)
  rw [← htidy.fullText_withNext hcompile (fits_of_compile hcompile)]
  exact (htidy.withNext hcompile).represents (htidy.distinct_withNext hcompile hdistinct hnew)
    (htidy.compile_withNext hcompile hcompile) hregistered rfl

end Representing

/-- What an experiment adds does not depend on what has been stored. -/
theorem Recalls.adds (hrecalls : registry.Recalls state) {pattern : Pattern} {after : Registry}
    (hadds : state.Adds pattern after) : registry.Adds pattern after := by
  rw [hrecalls.same] at hadds
  exact ⟨hadds.registered, hadds.names, hadds.nextId⟩

/-- If no pattern has a full description, this is so whatever has been stored. -/
theorem Recalls.fullText_ne (hrecalls : registry.Recalls state) {wanted : Content}
    (hfirst : registry.firstSpelled (registry.fullText wanted) none registry.registered = none) :
    ∀ content ∈ state.contents, state.fullText content ≠ state.fullText wanted := by
  rw [hrecalls.contents, hrecalls.fullText]
  intro content hcontent
  obtain ⟨entry, hentry, rfl⟩ := List.mem_map.mp hcontent
  exact ne_of_firstSpelled_eq_none hfirst hentry

/-- An experiment in a tidy registry with distinct descriptions. -/
theorem Tidy.outcome (htidy : registry.Tidy) (hdistinct : registry.Distinct) (text : String) :
    registry.Outcome text ((registerExperiment text).run registry) := by
  have hexperiment := htidy.toConsistent.experiment text
  have hdescription : ∀ {pattern}, registry.compile text = .ok pattern →
      ((describeFully none pattern).run registry).1 = .ok (registry.fullText pattern.content) :=
    fun hcompile => (settles_describeFully htidy.sound (fits_of_compile hcompile)
      (standsAt_none _)).run_eq htidy.recalls
  generalize (registerExperiment text).run registry = outcome at hexperiment
  cases hexperiment with
  | @refused fault hcompile =>
      exact .refused hcompile fun hranges =>
        htidy.blames_compile hranges none .experimental fault hcompile
  | @known pattern serial after hcompile hfirst hrecalls =>
      obtain ⟨found, hfound, htext⟩ := mem_registered_of_firstSpelled hfirst
      -- Searching has stored descriptions, which changes none of them.
      refine .known hcompile (hdescription hcompile)
        (htidy.isDescribed_iff.mpr ⟨found, hfound, htext⟩) hrecalls.same ?_
      rw [← hrecalls.fullText] at htext ⊢
      rw [← hrecalls.registered] at hfound
      exact (hrecalls.consistent htidy.toConsistent).represents (hrecalls.distinct hdistinct)
        ((hrecalls.compile text).trans hcompile) hfound htext
  | @added pattern middle hcompile hfirst hrecalls =>
      have hmiddle := hrecalls.tidy htidy
      have hagain := (hrecalls.compile text).trans hcompile
      have hnew : ∀ serial, ¬ registry.IsDescribed (registry.fullText pattern.content) serial := by
        intro serial hdescribed
        obtain ⟨found, hfound, htext⟩ := htidy.isDescribed_iff.mp hdescribed
        exact ne_of_firstSpelled_eq_none hfirst hfound htext
      have hadds := hrecalls.adds (hmiddle.adds_withNext hagain)
      -- The search has come before, so what is extended is the registry that it has left.
      have hledger : middle.ledger = registry.ledger := by rw [hrecalls.same]
      have hnext : middle.nextId = registry.nextId := by rw [hrecalls.same]
      have hrepresents : (middle.withNext pattern).Represents text
          (registry.fullText pattern.content) registry.ledger.size := by
        rw [← hrecalls.fullText, ← hledger]
        exact hmiddle.represents_withNext (hrecalls.distinct hdistinct) hagain
          (hrecalls.fullText_ne hfirst)
      rw [hmiddle.run_add_of_compile hagain, hnext, hledger]
      exact .added hcompile (hdescription hcompile) hnew hadds hrepresents

/-! ## Histories of experiments -/

/-- The operation registers an experiment, or removes or renames a pattern. -/
def Operation.explores : Operation → Bool
  | registerExperiment _ | unregister _ | rename _ _ _ => true
  | registerBasics | register _ _ _ _ | addLiteral _ _ _ _ | readTable _ => false

theorem Tidy.distinct_registerExperiment (htidy : registry.Tidy) (hdistinct : registry.Distinct)
    (text : String) : KeepsFrom Distinct registry (registerExperiment text) := by
  refine htidy.keepsFrom_registerExperiment (fun state hrecalls => hrecalls.distinct hdistinct)
    fun pattern middle hcompile hfirst hrecalls => ?_
  have hmiddle := hrecalls.tidy htidy
  have hagain := (hrecalls.compile text).trans hcompile
  rw [KeepsFrom, hmiddle.run_add_of_compile hagain]
  exact hmiddle.distinct_withNext hagain (hrecalls.distinct hdistinct) (hrecalls.fullText_ne hfirst)

/-- No operation of this kind makes two patterns alike. -/
theorem Tidy.distinct_applyTo (htidy : registry.Tidy) (hdistinct : registry.Distinct)
    {operation : Operation} (hexplores : operation.explores = true) :
    (operation.applyTo registry).Distinct := by
  cases operation with
  | registerExperiment text =>
      rw [Operation.applyTo, Operation.perform, run_discard]
      exact htidy.distinct_registerExperiment hdistinct text
  | unregister serial =>
      rw [Operation.applyTo, Operation.perform, run_read_bind]
      cases hpattern : registry.pattern? serial with
      | none => exact hdistinct
      | some pattern =>
          exact keepsFrom_unregister hdistinct (htidy.distinct_without hdistinct hpattern)
  | rename id name kind =>
      rw [Operation.applyTo, Operation.perform, run_read_bind]
      cases hfound : registry.registered.find? fun entry => entry.2.id = id with
      | none => exact hdistinct
      | some entry =>
          have hpattern := (mem_registered (List.mem_of_find?_eq_some hfound)).1
          exact keepsFrom_rename hdistinct fun hname =>
            htidy.distinct_renamed hdistinct hpattern hname kind
  | registerBasics => cases hexplores
  | register => cases hexplores
  | addLiteral => cases hexplores
  | readTable => cases hexplores

theorem history_registerBasics :
    history [.registerBasics] = Operation.registerBasics.applyTo {} :=
  history_append [] .registerBasics

theorem lists_history_registerBasics : (history [.registerBasics]).Lists basicWords := by
  obtain ⟨after, hrun, hlists⟩ := settles_registerBasics
  rw [history_registerBasics, Operation.applyTo, Operation.perform, hrun]
  exact hlists

theorem distinct_history {operations : List Operation}
    (hexplores : ∀ operation ∈ operations, operation.explores = true) :
    (history (.registerBasics :: operations)).Distinct := by
  induction operations using List.reverseRecOn with
  | nil =>
      rw [Distinct, contents, List.map_map]
      exact lists_history_registerBasics.nodup_fullText
  | append_singleton earlier operation ih =>
      rw [← List.cons_append, history_append]
      refine (tidy_history _).distinct_applyTo (ih fun other hother => ?_) ?_
      · exact hexplores other (List.mem_append_left _ hother)
      · exact hexplores operation (List.mem_append_right _ (List.mem_singleton_self _))

/-- After the basic patterns and any experiments, removals and renamings, no two patterns have the
same full description, and a further experiment leads to the pattern that has its own: one more is
registered only if there has been none. -/
theorem outcome_of_explores {operations : List Operation}
    (hexplores : ∀ operation ∈ operations, operation.explores = true) :
    (∃ descriptions, (fullDescriptions.run (history (.registerBasics :: operations))).1 =
      .ok descriptions ∧ descriptions.Nodup) ∧
    ∀ text, (history (.registerBasics :: operations)).Outcome text
      ((registerExperiment text).run (history (.registerBasics :: operations))) := by
  have htidy := tidy_history (.registerBasics :: operations)
  have hdistinct := distinct_history hexplores
  refine ⟨⟨_, htidy.run_fullDescriptions, ?_⟩, htidy.outcome hdistinct⟩
  rw [Distinct, contents, List.map_map] at hdistinct
  exact hdistinct

/-- A pair of letters is registered, named and used; a longer text is registered and removed. -/
def pairing : List Operation :=
  [.registerExperiment "A B", .rename 125 "Pair" none, .registerExperiment "Pair C",
    .registerExperiment "A B C D", .unregister 127]

theorem outcome_of_explores_pairing :
    (∀ operation ∈ pairing, operation.explores = true) ∧
    (∃ descriptions, (fullDescriptions.run (history (.registerBasics :: pairing))).1 =
      .ok descriptions ∧ descriptions.Nodup) ∧
    ∀ text, (history (.registerBasics :: pairing)).Outcome text
      ((registerExperiment text).run (history (.registerBasics :: pairing))) := by
  have hexplores : ∀ operation ∈ pairing, operation.explores = true := by decide
  exact ⟨hexplores, outcome_of_explores hexplores⟩

/-- A range may have blanks of any kind in it, but not all of them are skipped when it is read. -/
theorem compile_eq_notInteger {id : Int} (hid : registry.scope.idOf "A" = some id)
    {name : Option String} {kind : Kind} :
    registry.compile "A\x7b3+\n\x7d" name kind = .error (.notInteger "3+\n") := by
  have hread : Lexeme.read "A\x7b3+\n\x7d" name =
      .ok [⟨.name "A", 0⟩, ⟨.range "\x7b3+\n\x7d", 1⟩] := rfl
  have hresolve : Node.Parser.resolve registry.scope name ⟨.name "A", 0⟩ = .ok id := by
    simp [Node.Parser.resolve, Symbol.text, hid]
  have hparse : Node.ofLexemes registry.scope
      [⟨.name "A", 0⟩, ⟨.range "\x7b3+\n\x7d", 1⟩] name = .error (.notInteger "3+\n") := by
    rw [Node.ofLexemes, List.foldlM_cons, Node.Parser.step]
    dsimp only
    rw [hresolve]
    rfl
  rw [compile, compileTree, hread]
  -- The tree is parsed first, and nothing else is looked at once that has failed.
  change (do let root ← (do let parsed ← Node.ofLexemes _ _ _; _); _) = _
  rw [hparse]
  rfl

theorem run_registerExperiment_of_error {text : String} {fault : Fault}
    (hcompile : registry.compile text = .error fault) :
    (registerExperiment text).run registry = (.error fault, registry) := by
  rw [registerExperiment, run_read_bind, run_lift_bind, hcompile]

/-- An experiment may fail with another fault than that of a pattern. -/
theorem registerExperiment_eq_notInteger :
    ∃ fault, (registerExperiment "A\x7b3+\n\x7d").run (history [.registerBasics]) =
      (.error fault, history [.registerBasics]) ∧ ∀ cause, fault ≠ .pattern cause := by
  obtain ⟨id, hid⟩ := lists_history_registerBasics.exists_idOf
    (literalWord_mem_basicWords (show 'A' ∈ printableAscii by decide))
  exact ⟨_, run_registerExperiment_of_error (compile_eq_notInteger hid), by simp⟩

end Motif.Registry
