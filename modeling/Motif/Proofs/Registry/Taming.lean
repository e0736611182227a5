import Motif.Proofs.Registry.Freshness
import Motif.Proofs.Registry.Rebuilding
import Motif.Proofs.Registry.Wording

/-!
# Tame registries

A tame registry can be written as a table, and each of its literal texts leads to a registered
pattern that matches it. Experiments, plain names and removals leave it tame. As long as no id has
more than nine digits, text can refer to every pattern of a tame registry.
-/

namespace Motif.Registry

open Phrase (allowed_here allowed_many allowed_never_behind allowed_some)

variable {registry state : Registry}

/-! ## Literals -/

/-- Every literal text leads to a registered pattern that matches it. -/
def LiteralsLead (registry : Registry) : Prop :=
  ∀ text serial, (text, serial) ∈ registry.literals →
    ∃ pattern, (serial, pattern) ∈ registry.registered ∧ pattern.literal? = some text

theorem LiteralsLead.extend (hlead : registry.LiteralsLead) (hcoherent : registry.Coherent)
    (pattern : Pattern) : (registry.extend pattern).LiteralsLead := by
  intro text serial hentry
  rw [hcoherent.registered_extend]
  have hold : (text, serial) ∈ registry.literals →
      ∃ found, (serial, found) ∈ registry.registered ++ [(registry.ledger.size, pattern)] ∧
        found.literal? = some text := by
    intro hentry
    obtain ⟨found, hfound, htext⟩ := hlead text serial hentry
    exact ⟨found, List.mem_append_left _ hfound, htext⟩
  cases hliteral : pattern.literal? with
  | none =>
      simp only [Registry.extend, hliteral] at hentry
      exact hold hentry
  | some given =>
      simp only [Registry.extend, hliteral] at hentry
      split at hentry
      next => exact hold hentry
      next =>
        rcases List.mem_cons.mp hentry with heq | hentry
        · cases heq
          exact ⟨pattern, by simp, hliteral⟩
        · exact hold hentry

section Changing

variable {serial : Serial} {pattern : Pattern}

theorem LiteralsLead.renamed (hlead : registry.LiteralsLead) (hcoherent : registry.Coherent)
    (hpattern : registry.pattern? serial = some pattern) (name : String) (kind : Option Kind) :
    (registry.renamed serial pattern name kind).LiteralsLead := by
  intro text other hentry
  obtain ⟨origin, horigin, htext⟩ := hlead text other hentry
  have hkept : (origin.id, other) ∈ (registry.renamed serial pattern name kind).entries :=
    hcoherent.mem_entries_of_registered horigin
  obtain ⟨found, hfound, hcontent, -⟩ :=
    exists_pattern?_renamed hpattern (mem_registered horigin).1
  refine ⟨found, mem_registered_of_entry hkept hfound, ?_⟩
  rw [Pattern.literal?, hcontent]
  exact htext

theorem LiteralsLead.without (hlead : registry.LiteralsLead)
    (hpattern : registry.pattern? serial = some pattern) :
    (registry.without serial pattern).LiteralsLead := by
  intro text other hentry
  obtain ⟨hentry, hkept⟩ := mem_dropEntry.mp hentry
  obtain ⟨found, hfound, htext⟩ := hlead text other hentry
  refine ⟨found, ?_, htext⟩
  rw [registered_without]
  refine List.mem_filter.mpr ⟨hfound, ?_⟩
  -- The entry of the pattern that goes is dropped, so what is left belongs to another one.
  have hother : other ≠ serial := by
    rintro rfl
    obtain rfl := Option.some.inj (hpattern.symm.trans (mem_registered hfound).1)
    exact hkept ⟨htext.symm, rfl⟩
  simpa using hother

end Changing

theorem lasting_literalsLead :
    Lasting fun registry => registry.Tidy ∧ registry.LiteralsLead where
  tidy hregistry := hregistry.1
  recalled := by
    intro registry state hregistry hrecalls
    refine ⟨hrecalls.tidy hregistry.1, fun text serial hentry => ?_⟩
    rw [hrecalls.same] at hentry
    rw [hrecalls.registered]
    exact hregistry.2 text serial hentry
  extend hregistry hfree hfits :=
    ⟨lasting_tidy.extend hregistry.1 hfree hfits, hregistry.2.extend hregistry.1.coherent _⟩
  renamed kind hregistry hregistered hname :=
    ⟨lasting_tidy.renamed kind hregistry.1 hregistered hname,
      hregistry.2.renamed hregistry.1.coherent (mem_registered hregistered).1 _ kind⟩
  without hregistry hpattern hunused :=
    ⟨lasting_tidy.without hregistry.1 hpattern hunused, hregistry.2.without hpattern⟩

/-! ## Ids of at most nine digits -/

/-- No id has more than nine digits. -/
def HasShortIds (registry : Registry) : Prop :=
  registry.nextId ≤ 10 ^ 9

/-- A registry that can be written as a table, in which literal texts lead to registered
patterns. -/
structure Tame (registry : Registry) : Prop extends registry.Tabled where
  literals : registry.LiteralsLead

theorem Tame.byId?_of_registered (htame : registry.Tame) {serial : Serial} {pattern : Pattern}
    (hregistered : (serial, pattern) ∈ registry.registered) :
    registry.byId? pattern.id = some pattern :=
  htame.coherent.mem_patterns_iff.mp (mem_registered hregistered).2

/-- Text can refer to every registered pattern whose id is short enough. -/
theorem Tame.writable (htame : registry.Tame) (hshort : registry.HasShortIds) {id : Int}
    {pattern : Pattern} (hpattern : registry.byId? id = some pattern) : pattern.Writable where
  name name hname := by
    have htabular := htame.tabular pattern (htame.coherent.mem_patterns hpattern)
    exact ⟨(htabular.name name hname).1, htabular.ne_lineFeed hname⟩
  id _ := by
    obtain ⟨serial, hentry, -⟩ :=
      htame.coherent.exists_entry (htame.coherent.mem_patterns hpattern)
    obtain ⟨hnonneg, hlt⟩ := htame.bounded _ _ hentry
    exact ⟨hnonneg, Int.lt_of_lt_of_le hlt hshort⟩

theorem Tame.recalled (htame : registry.Tame) (hrecalls : registry.Recalls state) :
    state.Tame where
  toTabled := hrecalls.tabled htame.toTabled
  literals := (lasting_literalsLead.recalled ⟨htame.toTidy, htame.literals⟩ hrecalls).2

theorem Recalls.hasShortIds_iff (hrecalls : registry.Recalls state) :
    state.HasShortIds ↔ registry.HasShortIds := by
  rw [hrecalls.same]
  rfl

theorem Tame.renamed (htame : registry.Tame) {serial : Serial} {pattern : Pattern}
    (hregistered : (serial, pattern) ∈ registry.registered) {name : String} {kind : Option Kind}
    (hword : Text.isWord name.toList = true)
    (hkind : ∀ level, kind = some level → level ≠ .literal ∧ pattern.literal? = none)
    (hname : ∀ other, registry.named? name = some other → other = serial) :
    (registry.renamed serial pattern name kind).Tame where
  toTabled := htame.toTabled.renamed hregistered hword hkind hname
  literals :=
    (lasting_literalsLead.renamed kind ⟨htame.toTidy, htame.literals⟩ hregistered hname).2

theorem Tame.without (htame : registry.Tame) {serial : Serial} {pattern : Pattern}
    (hpattern : registry.pattern? serial = some pattern)
    (hunused : registry.dependents serial pattern.id = []) :
    (registry.without serial pattern).Tame where
  toTabled := htame.toTabled.without hpattern hunused
  literals := (lasting_literalsLead.without ⟨htame.toTidy, htame.literals⟩ hpattern hunused).2

/-- The basic patterns make a tame registry, which is not empty, and take at most 125 ids. -/
theorem exists_registerBasics : ∃ after, registerBasics.run {} = (.ok ⟨⟩, after) ∧ after.Tame ∧
    after.size ≠ 0 ∧ after.nextId ≤ 125 := by
  obtain ⟨after, hrun, hlists⟩ := settles_registerBasics
  have htabled : KeepsFrom Tabled {} registerBasics := tabled_empty.keeps_registerBasics
  have hlead : KeepsFrom (fun registry => registry.Tidy ∧ registry.LiteralsLead) {}
      registerBasics := lasting_literalsLead.durable.keeps_registerBasics
    ⟨tidy_empty, fun _ _ hentry => absurd hentry List.not_mem_nil⟩
  have hcompact := compact_registerBasics
  have hledger := size_ledger_registerBasics
  rw [KeepsFrom, hrun] at htabled hlead
  rw [hrun] at hcompact hledger
  refine ⟨after, hrun, ⟨htabled, hlead.2⟩, fun hsize => ?_, ?_⟩
  · have hnames := hlists.names_eq
    rw [registered, List.length_eq_zero_iff.mp hsize] at hnames
    cases hnames
  · exact Int.le_trans hcompact.nextId_le (Int.ofNat_le.mpr hledger)

/-! ## Texts that are compiled -/

/-- The text is compiled. -/
def Compiles (registry : Registry) (text : String) : Prop :=
  ∃ pattern, registry.compile text = .ok pattern

theorem Tidy.compiles_of_compileTree (htidy : registry.Tidy) {text : String} {root : Node}
    (hroot : compileTree registry.scope text = .ok root) : registry.Compiles text := by
  obtain ⟨_, -, -, hknown⟩ := canonical_of_compileTree
    (fun id => (registry.byId? id).isSome) (fun _ _ _ hid => hid)
    (fun _ _ hid => htidy.known_of_idOf hid) hroot
  obtain ⟨penalty, hcompile⟩ := exists_compile hroot hknown .experimental
  exact ⟨_, hcompile⟩

/-- Texts that spell phrases, with blanks between them, are compiled. -/
theorem Tidy.compiles_of_spells (htidy : registry.Tidy) (pieces : List (String × Phrase))
    (hne : pieces ≠ []) (hspells : ∀ piece ∈ pieces, registry.Spells piece.1 piece.2)
    {text : String} (htext : text = " ".intercalate (pieces.map Prod.fst)) :
    registry.Compiles text :=
  htidy.compiles_of_compileTree
    (compileTree_of_spells htidy.coherent htidy.named pieces hne hspells htext none)

/-! ## Growth by experiments -/

/-- From one registry to another what is registered stays registered, what is compiled is compiled
to the same, and the counter does not go back. -/
structure Grows (before after : Registry) : Prop where
  isSome_byId? : ∀ id, (before.byId? id).isSome → (after.byId? id).isSome
  compile_eq : ∀ text pattern, before.compile text = .ok pattern →
    after.compile text = .ok pattern
  nextId_le : before.nextId ≤ after.nextId

namespace Grows

theorem refl (registry : Registry) : Grows registry registry where
  isSome_byId? _ hid := hid
  compile_eq _ _ hcompile := hcompile
  nextId_le := Int.le_refl _

theorem trans {first second third : Registry} (hfirst : Grows first second)
    (hsecond : Grows second third) : Grows first third where
  isSome_byId? id hid := hsecond.isSome_byId? id (hfirst.isSome_byId? id hid)
  compile_eq text pattern hcompile :=
    hsecond.compile_eq text pattern (hfirst.compile_eq text pattern hcompile)
  nextId_le := Int.le_trans hfirst.nextId_le hsecond.nextId_le

theorem compiles {before after : Registry} (hgrows : Grows before after) {text : String}
    (hcompiles : before.Compiles text) : after.Compiles text := by
  obtain ⟨pattern, hcompile⟩ := hcompiles
  exact ⟨pattern, hgrows.compile_eq text pattern hcompile⟩

/-- Ids that are short in the end have always been. -/
theorem hasShortIds {before after : Registry} (hgrows : Grows before after)
    (hshort : after.HasShortIds) : before.HasShortIds :=
  Int.le_trans hgrows.nextId_le hshort

end Grows

theorem Recalls.nextId (hrecalls : registry.Recalls state) : state.nextId = registry.nextId := by
  rw [hrecalls.same]

theorem Recalls.grows (hrecalls : registry.Recalls state) : Grows registry state where
  isSome_byId? id hid := by rwa [hrecalls.byId?]
  compile_eq text pattern hcompile := by rwa [hrecalls.compile]
  nextId_le := hrecalls.nextId.ge

theorem Tidy.grows_withNext (htidy : registry.Tidy) {text : String} {pattern : Pattern}
    (hcompile : registry.compile text = .ok pattern) :
    Grows registry (registry.withNext pattern) where
  isSome_byId? id hid := by
    obtain ⟨found, hfound⟩ := Option.isSome_iff_exists.mp hid
    exact Option.isSome_of_eq_some (htidy.byId?_extend htidy.numbered.serialOf?_nextId hfound)
  compile_eq other found hfound := htidy.compile_withNext hcompile hfound
  nextId_le := Int.le_max_left _ _

/-- An experiment, registered or not, leaves a registry tame and everything in it as it was, and
takes one id at most. -/
theorem Tame.keeps_registerExperiment (htame : registry.Tame) (text : String) :
    KeepsFrom (fun after => after.Tame ∧ Grows registry after ∧ after.nextId ≤ registry.nextId + 1)
      registry (registerExperiment text) := by
  have htabled := htame.toTabled.keeps_registerExperiment text
  have hlead := lasting_literalsLead.keeps_registerExperiment ⟨htame.toTidy, htame.literals⟩ text
  have hgrown : KeepsFrom (fun after => Grows registry after ∧ after.nextId ≤ registry.nextId + 1)
      registry (registerExperiment text) := by
    refine htame.keepsFrom_registerExperiment (fun _ hrecalls => ?_) ?_
    · exact ⟨hrecalls.grows, hrecalls.nextId.le.trans (Int.le_add_one (Int.le_refl _))⟩
    · intro pattern middle hcompile _ hrecalls
      rw [← hrecalls.compile] at hcompile
      have htidy := hrecalls.tidy htame.toTidy
      have hnext : (middle.withNext pattern).nextId ≤ registry.nextId + 1 := by
        change max middle.nextId (middle.nextId + 1) ≤ registry.nextId + 1
        rw [hrecalls.nextId]
        omega
      rw [KeepsFrom, htidy.run_add_of_compile hcompile]
      exact ⟨hrecalls.grows.trans (htidy.grows_withNext hcompile), hnext⟩
  exact ⟨⟨htabled, hlead.2⟩, hgrown⟩

/-- A text that is compiled is registered, or a registered pattern stands for it, as long as the
next id can be written. -/
theorem Tame.exists_registerExperiment (htame : registry.Tame) (hshort : registry.HasShortIds)
    {text : String} (hcompiles : registry.Compiles text) :
    ∃ serial pattern after, (registerExperiment text).run registry = (.ok serial, after) ∧
      (serial, pattern) ∈ after.registered := by
  obtain ⟨compiled, hcompile⟩ := hcompiles
  have hexperiment := htame.toConsistent.experiment text
  generalize (registerExperiment text).run registry = outcome at hexperiment ⊢
  cases hexperiment with
  | refused hrefused => cases hcompile.symm.trans hrefused
  | @known _ serial after _ hfirst hrecalls =>
      obtain ⟨found, hfound, -⟩ := mem_registered_of_firstSpelled hfirst
      refine ⟨serial, found, after, rfl, ?_⟩
      rwa [hrecalls.registered]
  | @added pattern middle hadded _ hrecalls =>
      rw [← hrecalls.compile] at hadded
      have htidy := hrecalls.tidy htame.toTidy
      have hwritten : middle.nextId < 10 ^ Text.mostDigits :=
        Int.lt_of_le_of_lt (hrecalls.hasShortIds_iff.mpr hshort) (by decide +kernel)
      rw [htidy.run_add_of_compile hadded, if_pos hwritten]
      refine ⟨middle.ledger.size, { pattern with id := middle.nextId },
        middle.withNext pattern, rfl, ?_⟩
      rw [Registry.withNext, htidy.coherent.registered_extend]
      exact List.mem_append_right _ List.mem_cons_self

end Motif.Registry
