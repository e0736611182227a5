import Motif.Proofs.Registry.Filing
import Motif.Proofs.Registry.Histories
import Motif.Proofs.Registry.Weighing

/-!
# Curated registries

A curated registry has come about by registering basic patterns, experiments and patterns under
plain words, by giving patterns other plain words as names and by removing patterns. It can be
written as a table, and all its patterns are weighed.
-/

namespace Motif.Registry

open Text (IsLine)

variable {registry : Registry} {pattern : Pattern}

/-- A tidy registry of weighed patterns, each of which can stand in a row of a table. -/
structure Tabled (registry : Registry) : Prop extends registry.Tidy where
  tabular : ∀ pattern ∈ registry.patterns, pattern.Tabular
  weighed : registry.Weighed

/-! ## Names in tables -/

theorem fits_field_of_isWord {name : String} (hname : Text.isWord name.toList = true) :
    name ≠ "" ∧ IsLine name.toList ∧ ¬ Table.separator <:+: name.toList := by
  have hbounds := Pattern.toNat_bounds_of_mem_isWord hname
  refine ⟨?_, fun c hc => ?_, fun hinside => ?_⟩
  · rintro rfl
    cases hname
  · have hc := hbounds c hc
    simp only [Text.isLineEnd, Bool.or_eq_false_iff, Bool.and_eq_false_iff,
      decide_eq_false_iff_not]
    omega
  · have hbar := hbounds '|' (hinside.mem (by decide))
    exact absurd hbar.2 (by decide)

theorem isLine_printableAscii : IsLine printableAscii := by
  decide +kernel

theorem fits_field_literalName {c : Char} (hc : c ∈ printableAscii) :
    literalName c ≠ "" ∧ IsLine (literalName c).toList ∧
      ¬ Table.separator <:+: (literalName c).toList := by
  unfold literalName
  split
  · exact fits_field_of_isWord (by decide)
  split
  · exact fits_field_of_isWord (by decide)
  split
  · exact fits_field_of_isWord (by decide)
  · refine ⟨by simp, by simpa [IsLine] using isLine_printableAscii c hc, fun hinside => ?_⟩
    have hlength : 3 ≤ 1 := by simpa [Table.separator] using hinside.length_le
    exact absurd hlength (by decide)

/-! ## Operations -/

theorem Tabled.extend (htabled : registry.Tabled) (hfits : registry.Fits pattern.content)
    (hnonneg : 0 ≤ pattern.id) (hid : registry.serialOf? pattern.id = none)
    (hname : ∀ name, pattern.name = some name → registry.named? name = none)
    (htabular : pattern.Tabular) (hweighs : registry.Weighs pattern) :
    (registry.extend pattern).Tabled where
  toTidy := htabled.toTidy.extend hfits hnonneg hid hname
  tabular := by
    rw [patterns_extend htabled.toOrderly]
    intro found hfound
    rcases List.mem_append.mp hfound with hfound | hfound
    · exact htabled.tabular found hfound
    · obtain rfl := List.mem_singleton.mp hfound
      exact htabular
  weighed := htabled.toOrderly.weighed_extend htabled.weighed hid hfits hweighs

theorem Tabled.renamed (htabled : registry.Tabled) {serial : Serial}
    (hregistered : (serial, pattern) ∈ registry.registered) {name : String} {kind : Option Kind}
    (hword : Text.isWord name.toList = true)
    (hkind : ∀ level, kind = some level → level ≠ .literal ∧ pattern.literal? = none)
    (hname : ∀ other, registry.named? name = some other → other = serial) :
    (registry.renamed serial pattern name kind).Tabled := by
  have hentry := htabled.coherent.mem_entries_of_registered hregistered
  obtain ⟨hpattern, hmem⟩ := mem_registered hregistered
  have hrenamed : (registry.renamed serial pattern name kind).Tidy :=
    htabled.toTidy.renamed hentry hpattern hname
  refine ⟨hrenamed, fun found hfound => ?_,
    htabled.toConsistent.weighed_renamed htabled.weighed hpattern hname kind⟩
  obtain ⟨other, hother, hfound⟩ := hrenamed.coherent.exists_entry hfound
  rw [pattern?_renamed hpattern] at hfound
  split at hfound
  next =>
    obtain rfl := Option.some.inj hfound
    have htabular := htabled.tabular pattern hmem
    refine ⟨?_, fun text htext => ?_, fun root hroot => ?_⟩
    · rintro given ⟨⟩
      exact fits_field_of_isWord hword
    · obtain ⟨hliteral, hline⟩ := htabular.literal text htext
      cases kind with
      | none => exact ⟨hliteral, hline⟩
      | some level =>
          have hnone := (hkind level rfl).2
          rw [Pattern.literal?, htext] at hnone
          cases hnone
    · cases kind with
      | none => exact htabular.tree root hroot
      | some level => exact (hkind level rfl).1
  next =>
    exact htabled.tabular found (htabled.coherent.mem_patterns_of_entry hother hfound)

theorem Tabled.without (htabled : registry.Tabled) {serial : Serial}
    (hpattern : registry.pattern? serial = some pattern)
    (hunused : registry.dependents serial pattern.id = []) :
    (registry.without serial pattern).Tabled where
  toTidy := htabled.toTidy.without hpattern hunused
  tabular := by
    intro found hfound
    refine htabled.tabular found ?_
    rw [patterns, registered_without] at hfound
    exact (List.filter_sublist.map Prod.snd).mem hfound
  weighed := htabled.toConsistent.weighed_without htabled.weighed hpattern hunused

theorem Recalls.tabled {state : Registry} (hrecalls : registry.Recalls state)
    (htabled : registry.Tabled) : state.Tabled := by
  have htidy := hrecalls.tidy htabled.toTidy
  obtain ⟨hsame, -, -⟩ := hrecalls
  rw [hsame] at htidy ⊢
  exact ⟨htidy, htabled.tabular, htabled.weighed⟩

theorem Tabled.keeps_add (htabled : registry.Tabled) (hfits : registry.Fits pattern.content)
    (htabular : pattern.Tabular) (hweighs : registry.Weighs pattern) :
    KeepsFrom Tabled registry (add pattern) :=
  keepsFrom_add htabled fun hfree => htabled.extend hfits (htabled.idFor_nonneg pattern)
    (htabled.serialOf?_idFor hfree) hfree.name ⟨htabular.name, htabular.literal, htabular.tree⟩
      hweighs

section Naming

variable {name : Option String}
  (hname : ∀ given, name = some given →
    given ≠ "" ∧ IsLine given.toList ∧ ¬ Table.separator <:+: given.toList)
include hname

theorem Tabled.keeps_addLiteral (htabled : registry.Tabled) {text : String}
    (htext : IsLine text.toList) (id : Int) :
    KeepsFrom Tabled registry (addLiteral text name id) := by
  refine htabled.keeps_add (.literal text) ⟨hname, ?_, by simp⟩ rfl
  rintro text ⟨⟩
  exact ⟨rfl, htext⟩

theorem Tabled.keeps_register (htabled : registry.Tabled) {kind : Kind} (hkind : kind ≠ .literal)
    (text : String) (id : Int) : KeepsFrom Tabled registry (register name kind text id) := by
  refine keepsFrom_register htabled fun pattern hpattern => ?_
  have hweighs := weighs_of_compile hpattern
  have hfits := fits_of_compile hpattern
  obtain ⟨alternatives, penalty, -, -, -, rfl⟩ := compile_eq_ok hpattern
  exact htabled.keeps_add hfits ⟨hname, by simp, fun _ _ => hkind⟩ hweighs

end Naming

theorem Tabled.keeps_registerBasics (htabled : registry.Tabled) :
    KeepsFrom Tabled registry registerBasics := by
  have hline : ∀ c ∈ printableAscii, IsLine (single c).toList := by
    simpa [single, IsLine] using isLine_printableAscii
  have hwords : ∀ entry ∈ basicClasses, Text.isWord entry.1.toList = true := by decide +kernel
  refine keepsFrom_registerBasics htabled (fun c hc state hstate => ?_)
    fun entry hentry state hstate => ?_
  · refine hstate.keeps_addLiteral ?_ (hline c hc) (-1)
    rintro given ⟨⟩
    exact fits_field_literalName hc
  · refine hstate.keeps_register ?_ (by decide) entry.2 (-1)
    rintro given ⟨⟩
    exact fits_field_of_isWord (hwords entry hentry)

theorem Tabled.keeps_registerExperiment (htabled : registry.Tabled) (text : String) :
    KeepsFrom Tabled registry (registerExperiment text) := by
  refine htabled.keepsFrom_registerExperiment (fun state hrecalls => hrecalls.tabled htabled)
    fun pattern middle hcompile _ hrecalls => ?_
  have hweighs : middle.Weighs pattern := by
    refine (weighs_of_compile hcompile).transfer fun id _ => ?_
    rw [cost, cost, get, get, hrecalls.byId?]
  have hfits := hrecalls.fits (fits_of_compile hcompile)
  obtain ⟨alternatives, penalty, -, -, -, rfl⟩ := compile_eq_ok hcompile
  exact (hrecalls.tabled htabled).keeps_add hfits ⟨by simp, by simp, by simp⟩ hweighs

theorem Tabled.keeps_rename (htabled : registry.Tabled) {serial : Serial}
    (hregistered : (serial, pattern) ∈ registry.registered) {name : String} {kind : Option Kind}
    (hword : Text.isWord name.toList = true)
    (hkind : ∀ level, kind = some level → level ≠ .literal ∧ pattern.literal? = none) :
    KeepsFrom Tabled registry (rename serial pattern name kind) :=
  keepsFrom_rename htabled fun hname => htabled.renamed hregistered hword hkind hname

theorem Tabled.keeps_unregister (htabled : registry.Tabled) {serial : Serial}
    (hpattern : registry.pattern? serial = some pattern) :
    KeepsFrom Tabled registry (unregister serial pattern) :=
  keepsFrom_unregister htabled fun hunused => htabled.without hpattern hunused

/-! ## Histories -/

/-- The operation gives no names other than plain words, and what it makes or renames is a literal
exactly if it is of that kind. -/
def Operation.Suits (registry : Registry) : Operation → Prop
  | registerBasics | registerExperiment _ | unregister _ => True
  | register name kind _ _ =>
    kind ≠ .literal ∧ ∀ given, name = some given → Text.isWord given.toList = true
  | addLiteral text name _ kind =>
    kind = .literal ∧ IsLine text.toList ∧
      ∀ given, name = some given → Text.isWord given.toList = true
  | rename id name kind =>
    Text.isWord name.toList = true ∧ ∀ level, kind = some level → level ≠ .literal ∧
      ∀ pattern ∈ registry.patterns, pattern.id = id → pattern.literal? = none
  | readTable _ => False

/-- A registry that has come from the empty one by such operations, whichever of them failed. -/
inductive Curated : Registry → Prop where
  | empty : Curated {}
  | apply {registry : Registry} {operation : Operation} (hcurated : Curated registry)
      (hsuits : operation.Suits registry) : Curated (operation.applyTo registry)

theorem tabled_empty : Tabled {} where
  toTidy := tidy_empty
  tabular := by simp [patterns, registered]
  weighed := weighed_empty

theorem Tabled.applyTo (htabled : registry.Tabled) {operation : Operation}
    (hsuits : operation.Suits registry) : (operation.applyTo registry).Tabled := by
  cases operation with
  | registerBasics => exact htabled.keeps_registerBasics
  | register name kind text id =>
      obtain ⟨hkind, hname⟩ := hsuits
      rw [Operation.applyTo, Operation.perform, run_discard]
      exact htabled.keeps_register (fun given hgiven => fits_field_of_isWord (hname given hgiven))
        hkind text id
  | addLiteral text name id kind =>
      obtain ⟨rfl, htext, hname⟩ := hsuits
      rw [Operation.applyTo, Operation.perform, run_discard]
      exact htabled.keeps_addLiteral (fun given hgiven => fits_field_of_isWord (hname given hgiven))
        htext id
  | registerExperiment text =>
      rw [Operation.applyTo, Operation.perform, run_discard]
      exact htabled.keeps_registerExperiment text
  | unregister serial =>
      rw [Operation.applyTo, Operation.perform, run_read_bind]
      cases hpattern : registry.pattern? serial with
      | none => exact htabled
      | some pattern => exact htabled.keeps_unregister hpattern
  | rename id name kind =>
      obtain ⟨hword, hkind⟩ := hsuits
      rw [Operation.applyTo, Operation.perform, run_read_bind]
      cases hfound : registry.registered.find? fun entry => entry.2.id = id with
      | none => exact htabled
      | some entry =>
          have hregistered := List.mem_of_find?_eq_some hfound
          have hid : entry.2.id = id := by simpa using List.find?_some hfound
          refine htabled.keeps_rename hregistered hword fun level hlevel => ?_
          obtain ⟨hlevel, hnone⟩ := hkind level hlevel
          exact ⟨hlevel, hnone entry.2 (mem_registered hregistered).2 hid⟩
  | readTable text => exact hsuits.elim

theorem Curated.tabled (hcurated : registry.Curated) : registry.Tabled := by
  induction hcurated with
  | empty => exact tabled_empty
  | apply _ hsuits ih => exact ih.applyTo hsuits

end Motif.Registry
