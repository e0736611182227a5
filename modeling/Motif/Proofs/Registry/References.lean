import Mathlib.Data.Finset.Card
import Mathlib.Logic.Relation
import Motif.Chart.Matching
import Motif.Proofs.Node.Structure

/-!
# References between patterns

A registry is coherent if its entries lead to patterns of their ids. Where all references lead to
registered patterns and none leads back to its own pattern, patterns have ranks: each refers only
to patterns of lower rank. Whatever is defined along references is determined rank by rank, so the
bound on the number of patterns passed is immaterial as soon as it exceeds the rank.
-/

namespace Motif

namespace Registry

/-- Every entry leads to a pattern of its id, and no id has two entries. -/
structure Coherent (registry : Registry) : Prop where
  nodup_ids : (registry.entries.map Prod.fst).Nodup
  exists_pattern : ∀ {id serial}, (id, serial) ∈ registry.entries →
    ∃ pattern, registry.pattern? serial = some pattern ∧ pattern.id = id

/-- Every reference of a registered pattern leads to a registered pattern. -/
def Closed (registry : Registry) : Prop :=
  ∀ pattern ∈ registry.patterns, ∀ id ∈ pattern.content.references, (registry.byId? id).isSome

/-- The pattern registered under an id refers directly to another id. -/
def Refers (registry : Registry) (id other : Int) : Prop :=
  ∃ pattern, registry.byId? id = some pattern ∧ other ∈ pattern.content.references

/-- No pattern reaches itself through references. -/
def Acyclic (registry : Registry) : Prop :=
  ∀ id, ¬ Relation.TransGen registry.Refers id id

variable {registry : Registry}

/-- What is found under a key is there. -/
theorem mem_of_lookup {κ ν : Type} [BEq κ] [LawfulBEq κ] {table : List (κ × ν)} {key : κ}
    {value : ν} (hlookup : table.lookup key = some value) : (key, value) ∈ table := by
  obtain ⟨left, right, rfl, -⟩ := List.lookup_eq_some_iff.mp hlookup
  simp

/-- Nothing is found under a key if no entry has it. -/
theorem lookup_eq_none_iff_not_mem {κ ν : Type} [BEq κ] [LawfulBEq κ] {table : List (κ × ν)}
    {key : κ} : table.lookup key = none ↔ key ∉ table.map Prod.fst := by
  rw [List.lookup_eq_none_iff, List.mem_map]
  constructor
  · rintro hnone ⟨entry, hentry, rfl⟩
    simpa using hnone entry hentry
  · intro hmem entry hentry
    have hne : key ≠ entry.1 := fun hsame => hmem ⟨entry, hentry, hsame.symm⟩
    simpa using hne

/-- Where no key comes twice, looking a key up finds exactly the entries that are there. -/
theorem lookup_eq_some_iff_mem {κ ν : Type} [BEq κ] [LawfulBEq κ] {table : List (κ × ν)}
    (hnodup : (table.map Prod.fst).Nodup) {key : κ} {value : ν} :
    table.lookup key = some value ↔ (key, value) ∈ table := by
  induction table with
  | nil => simp
  | cons entry rest ih =>
      obtain ⟨first, content⟩ := entry
      rw [List.map_cons, List.nodup_cons] at hnodup
      by_cases hkey : key = first
      · subst hkey
        rw [List.lookup_cons_self, List.mem_cons]
        constructor
        · intro heq
          exact .inl (by rw [Option.some.inj heq])
        · rintro (heq | hmem)
          · cases heq
            rfl
          · exact absurd (List.mem_map_of_mem hmem) hnodup.1
      · have hbeq : (key == first) = false := beq_eq_false_iff_ne.mpr hkey
        rw [List.lookup_cons, hbeq, ih hnodup.2, List.mem_cons]
        exact ⟨.inr, fun hmem => hmem.resolve_left fun heq => hkey (Prod.mk.inj heq).1⟩

theorem Coherent.serialOf?_eq_some_iff (hcoherent : registry.Coherent) {id : Int}
    {serial : Serial} :
    registry.serialOf? id = some serial ↔ (id, serial) ∈ registry.entries :=
  lookup_eq_some_iff_mem hcoherent.nodup_ids

theorem Coherent.byId?_eq_some_iff (hcoherent : registry.Coherent) {id : Int}
    {pattern : Pattern} :
    registry.byId? id = some pattern ↔
      ∃ serial, (id, serial) ∈ registry.entries ∧ registry.pattern? serial = some pattern := by
  simp [byId?, Option.bind_eq_some_iff, hcoherent.serialOf?_eq_some_iff]

theorem Coherent.id_eq (hcoherent : registry.Coherent) {id : Int} {pattern : Pattern}
    (hpattern : registry.byId? id = some pattern) : pattern.id = id := by
  obtain ⟨serial, hentry, hserial⟩ := hcoherent.byId?_eq_some_iff.mp hpattern
  obtain ⟨other, hother, hid⟩ := hcoherent.exists_pattern hentry
  rw [hserial] at hother
  exact Option.some.inj hother ▸ hid

theorem Coherent.byId?_isSome_iff (hcoherent : registry.Coherent) {id : Int} :
    (registry.byId? id).isSome ↔ id ∈ registry.entries.map Prod.fst := by
  rw [Option.isSome_iff_exists, List.mem_map]
  constructor
  · rintro ⟨pattern, hpattern⟩
    obtain ⟨serial, hentry, -⟩ := hcoherent.byId?_eq_some_iff.mp hpattern
    exact ⟨(id, serial), hentry, rfl⟩
  · rintro ⟨⟨other, serial⟩, hentry, rfl⟩
    obtain ⟨pattern, hserial, -⟩ := hcoherent.exists_pattern hentry
    exact ⟨pattern, hcoherent.byId?_eq_some_iff.mpr ⟨serial, hentry, hserial⟩⟩

theorem Coherent.mem_patterns_iff (hcoherent : registry.Coherent) {pattern : Pattern} :
    pattern ∈ registry.patterns ↔ registry.byId? pattern.id = some pattern := by
  rw [hcoherent.byId?_eq_some_iff]
  simp only [patterns, registered, List.mem_map, List.mem_filterMap, Option.map_eq_some_iff]
  constructor
  · rintro ⟨_, ⟨⟨id, serial⟩, hentry, found, hfound, rfl⟩, rfl⟩
    obtain ⟨other, hother, hid⟩ := hcoherent.exists_pattern hentry
    rw [hfound] at hother
    exact ⟨serial, by rwa [Option.some.inj hother, hid], hfound⟩
  · rintro ⟨serial, hentry, hserial⟩
    exact ⟨(serial, pattern), ⟨_, hentry, pattern, hserial, rfl⟩, rfl⟩

/-- References that always lower some measure do not lead back. -/
theorem acyclic_of_decreasing (measure : Int → Nat)
    (hstep : ∀ id other, registry.Refers id other → measure other < measure id) :
    registry.Acyclic := by
  have hpath : ∀ id other, Relation.TransGen registry.Refers id other →
      measure other < measure id := by
    intro id other hpath
    induction hpath with
    | single hfirst => exact hstep _ _ hfirst
    | tail _ hlast ih => exact (hstep _ _ hlast).trans ih
  exact fun id hcycle => Nat.lt_irrefl _ (hpath id id hcycle)

end Registry

namespace Grammar

/-- Patterns carry their ids, and every pattern refers only to patterns of lower rank. -/
structure Layered (grammar : Grammar) (rank : Int → Nat) : Prop where
  id_eq : ∀ {id pattern}, grammar.find? id = some pattern → pattern.id = id
  refers : ∀ {id pattern}, grammar.find? id = some pattern →
    ∀ other ∈ pattern.content.references, (grammar.find? other).isSome ∧ rank other < rank id

end Grammar

namespace Registry

variable {registry : Registry}

open Classical in
/-- The number of registered patterns that an id reaches through references. -/
noncomputable def rank (registry : Registry) (id : Int) : Nat :=
  ((registry.entries.map Prod.fst).toFinset.filter fun other =>
    Relation.TransGen registry.Refers id other).card

theorem layered (hcoherent : registry.Coherent) (hclosed : registry.Closed)
    (hacyclic : registry.Acyclic) : registry.grammar.Layered registry.rank where
  id_eq := hcoherent.id_eq
  refers {id pattern} hpattern other hother := by
    classical
    have hid : pattern.id = id := hcoherent.id_eq hpattern
    have hmem : pattern ∈ registry.patterns := by
      rw [hcoherent.mem_patterns_iff, hid]
      exact hpattern
    have hknown : (registry.byId? other).isSome := hclosed pattern hmem other hother
    refine ⟨hknown, ?_⟩
    have hstep : registry.Refers id other := ⟨pattern, hpattern, hother⟩
    apply Finset.card_lt_card
    rw [Finset.ssubset_iff_of_subset]
    · refine ⟨other, ?_, ?_⟩
      · rw [Finset.mem_filter, List.mem_toFinset, ← hcoherent.byId?_isSome_iff]
        exact ⟨hknown, .single hstep⟩
      · intro hfilter
        exact hacyclic other (Finset.mem_filter.mp hfilter).2
    · intro place hplace
      rw [Finset.mem_filter] at hplace ⊢
      exact ⟨hplace.1, .head hstep hplace.2⟩

theorem rank_lt_size (hcoherent : registry.Coherent) (hacyclic : registry.Acyclic) {id : Int}
    (hknown : (registry.byId? id).isSome) : registry.rank id < registry.size := by
  classical
  have hmem : id ∈ (registry.entries.map Prod.fst).toFinset := by
    rwa [List.mem_toFinset, ← hcoherent.byId?_isSome_iff]
  have hsize : (registry.entries.map Prod.fst).toFinset.card = registry.size := by
    rw [List.toFinset_card_of_nodup hcoherent.nodup_ids, List.length_map, size]
  rw [← hsize]
  apply Finset.card_lt_card
  rw [Finset.ssubset_iff_of_subset (Finset.filter_subset _ _)]
  exact ⟨id, hmem, fun hfilter => hacyclic id (Finset.mem_filter.mp hfilter).2⟩

end Registry

namespace Grammar

variable {α : Type}

/-- What is defined along references, through at most `levels` patterns: `step` gives the value of a
pattern from those of the patterns to which it refers. -/
def along (grammar : Grammar) (absent : α) (step : (Int → α) → Pattern → α) : Nat → Int → α
  | 0, _ => absent
  | levels + 1, id =>
    match grammar.find? id with
    | none => absent
    | some pattern => step (grammar.along absent step levels) pattern

/-- The value of a pattern comes from those at its references alone. -/
def FromReferences (step : (Int → α) → Pattern → α) : Prop :=
  ∀ ⦃pattern : Pattern⦄ ⦃value other : Int → α⦄,
    (∀ id ∈ pattern.content.references, value id = other id) →
      step value pattern = step other pattern

variable {grammar : Grammar} {rank : Int → Nat} {absent : α} {step : (Int → α) → Pattern → α}

theorem along_eq_of_rank_lt (hlayered : grammar.Layered rank) (hstep : FromReferences step)
    {levels more : Nat} {id : Int} (hlevels : rank id < levels) (hmore : rank id < more) :
    grammar.along absent step levels id = grammar.along absent step more id := by
  -- A reference leads to a lower rank, so one level less is enough for it on both sides.
  induction levels generalizing more id with
  | zero => exact absurd hlevels (Nat.not_lt_zero _)
  | succ levels ih =>
      obtain ⟨more, rfl⟩ := Nat.exists_eq_succ_of_ne_zero (Nat.ne_zero_of_lt hmore)
      rw [along, along]
      cases hpattern : grammar.find? id with
      | none => rfl
      | some pattern =>
          refine hstep fun below hbelow => ?_
          have hrank := (hlayered.refers hpattern below hbelow).2
          exact ih (by omega) (by omega)

end Grammar

namespace Registry

variable {α : Type} {registry : Registry}

/-- What is defined along the references of registered patterns. No chain of references passes
through more patterns than are registered, unless it leads back to itself. -/
def along (registry : Registry) (absent : α) (step : (Int → α) → Pattern → α) : Int → α :=
  registry.grammar.along absent step registry.size

theorem along_eq (hcoherent : registry.Coherent) (hclosed : registry.Closed)
    (hacyclic : registry.Acyclic) {absent : α} {step : (Int → α) → Pattern → α}
    (hstep : Grammar.FromReferences step) {id : Int} {pattern : Pattern}
    (hpattern : registry.byId? id = some pattern) :
    registry.along absent step id = step (registry.along absent step) pattern := by
  have hlayered := layered hcoherent hclosed hacyclic
  have hrank : registry.rank id < registry.size :=
    rank_lt_size hcoherent hacyclic (by simp [hpattern])
  obtain ⟨levels, hlevels⟩ := Nat.exists_eq_succ_of_ne_zero (Nat.ne_zero_of_lt hrank)
  have hfind : registry.grammar.find? id = some pattern := hpattern
  unfold along
  rw [hlevels, Grammar.along, hfind]
  refine hstep fun below hbelow => ?_
  have hlower := (hlayered.refers hfind below hbelow).2
  exact Grammar.along_eq_of_rank_lt hlayered hstep (by omega) (by omega)

/-- All references can be followed to their end. -/
structure Grounded (registry : Registry) : Prop where
  coherent : registry.Coherent
  closed : registry.Closed
  acyclic : registry.Acyclic

theorem Grounded.layered (hgrounded : registry.Grounded) : registry.grammar.Layered registry.rank :=
  Registry.layered hgrounded.coherent hgrounded.closed hgrounded.acyclic

theorem Grounded.along_eq (hgrounded : registry.Grounded) {absent : α}
    {step : (Int → α) → Pattern → α} (hstep : Grammar.FromReferences step) {id : Int}
    {pattern : Pattern} (hpattern : registry.byId? id = some pattern) :
    registry.along absent step id = step (registry.along absent step) pattern :=
  Registry.along_eq hgrounded.coherent hgrounded.closed hgrounded.acyclic hstep hpattern

/-- Induction along references: what holds of all patterns to which one refers passes to it. -/
theorem Grounded.induction (hgrounded : registry.Grounded) {motive : Int → Prop}
    (hstep : ∀ id pattern, registry.byId? id = some pattern →
      (∀ other ∈ pattern.content.references, (registry.byId? other).isSome ∧ motive other) →
        motive id)
    {id : Int} (hid : (registry.byId? id).isSome) : motive id := by
  induction hrank : registry.rank id using Nat.strong_induction_on generalizing id with
  | _ rank ih =>
      obtain ⟨pattern, hpattern⟩ := Option.isSome_iff_exists.mp hid
      refine hstep id pattern hpattern fun other hother => ?_
      obtain ⟨hknown, hlower⟩ := hgrounded.layered.refers hpattern other hother
      exact ⟨hknown, ih (registry.rank other) (hrank ▸ hlower) hknown rfl⟩

/-- What is defined along the contents of patterns stays the same where those contents do, however
many more patterns there are. -/
theorem Grounded.along_eq_along {first second : Registry} (hfirst : first.Grounded)
    (hsecond : second.Grounded) {absent : α} {step : (Int → α) → Pattern → α}
    (hstep : Grammar.FromReferences step)
    (hcontent : ∀ value (pattern other : Pattern), pattern.content = other.content →
      step value pattern = step value other)
    (hagree : ∀ id pattern, first.byId? id = some pattern →
      ∃ other, second.byId? id = some other ∧ other.content = pattern.content)
    {id : Int} (hid : (first.byId? id).isSome) :
    first.along absent step id = second.along absent step id := by
  refine hfirst.induction (motive := fun id =>
    first.along absent step id = second.along absent step id)
    (fun id pattern hpattern hbelow => ?_) hid
  obtain ⟨other, hother, hsame⟩ := hagree id pattern hpattern
  rw [hfirst.along_eq hstep hpattern, hsecond.along_eq hstep hother, hcontent _ other pattern hsame]
  exact hstep fun below hmem => (hbelow below hmem).2

end Registry

end Motif
