import Motif.Proofs.Registry.Operations

/-!
# Tidy registries

A tidy registry lists its patterns in the order in which they were made, its counter exceeds every
id that has ever been given, and its names lead to registered patterns only. Registering, renaming
and removing patterns keep a registry tidy.
-/

namespace Motif.Registry

variable {registry : Registry}

/-- A consistent registry whose entries stand in the order of registration, whose counter exceeds
the id of every pattern ever made, and whose names lead to registered patterns only. -/
structure Tidy (registry : Registry) : Prop extends registry.Consistent where
  ascending : registry.entries.Pairwise fun first second => first.2 < second.2
  counted : ∀ serial pattern, registry.pattern? serial = some pattern →
    pattern.id < registry.nextId
  nodup_names : (registry.names.map Prod.fst).Nodup
  registered_of_named : ∀ name serial, (name, serial) ∈ registry.names →
    ∃ pattern, (pattern.id, serial) ∈ registry.entries ∧
      registry.pattern? serial = some pattern ∧ pattern.name = some name

theorem tidy_empty : Tidy {} where
  toConsistent := consistent_empty
  ascending := .nil
  counted := by simp [pattern?]
  nodup_names := .nil
  registered_of_named := by simp

theorem named?_eq_none_iff {name : String} :
    registry.named? name = none ↔ name ∉ registry.names.map Prod.fst :=
  lookup_eq_none_iff_not_mem

theorem Tidy.extend (htidy : registry.Tidy) {pattern : Pattern}
    (hfits : registry.Fits pattern.content) (hnonneg : 0 ≤ pattern.id)
    (hid : registry.serialOf? pattern.id = none)
    (hname : ∀ name, pattern.name = some name → registry.named? name = none) :
    (registry.extend pattern).Tidy := by
  have hold : ∀ id serial, (id, serial) ∈ registry.entries →
      (registry.extend pattern).pattern? serial = registry.pattern? serial :=
    fun id serial hentry => htidy.coherent.pattern?_extend hentry
  have hnamed : ∀ name serial, (name, serial) ∈ registry.names →
      ∃ found, (found.id, serial) ∈ (registry.extend pattern).entries ∧
        (registry.extend pattern).pattern? serial = some found ∧ found.name = some name := by
    intro name serial hentry
    obtain ⟨found, hmem, hfound, hsame⟩ := htidy.registered_of_named name serial hentry
    exact ⟨found, mem_entries_extend.mpr (.inl hmem), (hold _ _ hmem).trans hfound, hsame⟩
  refine ⟨htidy.toConsistent.extend hfits hnonneg hid hname, ?_, ?_, ?_, ?_⟩
  · refine List.pairwise_append.mpr ⟨htidy.ascending, List.pairwise_singleton _ _, ?_⟩
    rintro ⟨id, serial⟩ hentry new hnew
    obtain rfl := List.mem_singleton.mp hnew
    exact htidy.coherent.serial_lt hentry
  · intro serial found hfound
    rw [pattern?_extend] at hfound
    have hnext : (registry.extend pattern).nextId = max registry.nextId (pattern.id + 1) := rfl
    split at hfound
    next =>
      obtain rfl := Option.some.inj hfound
      omega
    next =>
      have hlt := htidy.counted serial found hfound
      omega
  · cases hgiven : pattern.name with
    | none =>
        simp only [Registry.extend, hgiven]
        exact htidy.nodup_names
    | some given =>
        simp only [Registry.extend, hgiven, List.map_cons, List.nodup_cons]
        exact ⟨named?_eq_none_iff.mp (hname given hgiven), htidy.nodup_names⟩
  · intro name serial hentry
    cases hgiven : pattern.name with
    | none =>
        simp only [Registry.extend, hgiven] at hentry
        exact hnamed name serial hentry
    | some given =>
        simp only [Registry.extend, hgiven] at hentry
        rcases List.mem_cons.mp hentry with hsame | hentry
        · cases hsame
          refine ⟨pattern, mem_entries_extend.mpr (.inr ⟨rfl, rfl⟩), ?_, hgiven⟩
          rw [pattern?_extend_size]
        · exact hnamed name serial hentry

theorem mem_dropEntry {table : List (String × Serial)} {key : Option String} {serial : Serial}
    {entry : String × Serial} :
    entry ∈ dropEntry table key serial ↔
      entry ∈ table ∧ ¬ (some entry.1 = key ∧ entry.2 = serial) := by
  rw [dropEntry, List.mem_filter, Bool.not_eq_true', Bool.and_eq_false_iff]
  simp [imp_iff_not_or]

/-- An entry of the names that is left after those of a pattern have been dropped belongs to another
pattern. -/
theorem Tidy.serial_ne_of_mem_dropEntry (htidy : registry.Tidy) {serial : Serial}
    {pattern : Pattern} (hpattern : registry.pattern? serial = some pattern) {name : String}
    {other : Serial} (hentry : (name, other) ∈ dropEntry registry.names pattern.name serial) :
    other ≠ serial := by
  obtain ⟨hmem, hkept⟩ := mem_dropEntry.mp hentry
  rintro rfl
  obtain ⟨found, -, hfound, hname⟩ := htidy.registered_of_named name other hmem
  obtain rfl : pattern = found := Option.some.inj (hpattern.symm.trans hfound)
  exact hkept ⟨hname.symm, rfl⟩

theorem Tidy.renamed (htidy : registry.Tidy) {serial : Serial} {pattern : Pattern}
    (hregistered : (pattern.id, serial) ∈ registry.entries)
    (hpattern : registry.pattern? serial = some pattern) {name : String} {kind : Option Kind}
    (hname : ∀ other, registry.named? name = some other → other = serial) :
    (registry.renamed serial pattern name kind).Tidy := by
  refine ⟨htidy.toConsistent.renamed hpattern hname, htidy.ascending, ?_, ?_, ?_⟩
  · intro other found hfound
    rw [pattern?_renamed hpattern] at hfound
    split at hfound
    next =>
      obtain rfl := Option.some.inj hfound
      exact htidy.counted serial pattern hpattern
    next => exact htidy.counted other found hfound
  · have hothers : ((dropEntry registry.names pattern.name serial).filter
        fun entry => entry.1 ≠ name).Sublist registry.names :=
      List.filter_sublist.trans List.filter_sublist
    refine List.nodup_cons.mpr ⟨?_, htidy.nodup_names.sublist (hothers.map Prod.fst)⟩
    intro hmem
    obtain ⟨entry, hentry, hsame⟩ := List.mem_map.mp hmem
    exact of_decide_eq_true (List.mem_filter.mp hentry).2 hsame
  · intro given other hentry
    rcases List.mem_cons.mp hentry with hsame | hentry
    · cases hsame
      refine ⟨{ pattern with name := some name, kind := kind.getD pattern.kind }, hregistered, ?_,
        rfl⟩
      rw [pattern?_renamed hpattern, if_pos rfl]
    · have hdropped := List.mem_of_mem_filter hentry
      obtain ⟨found, hmem, hfound, hgiven⟩ :=
        htidy.registered_of_named given other (mem_dropEntry.mp hdropped).1
      refine ⟨found, hmem, ?_, hgiven⟩
      rw [pattern?_renamed hpattern, if_neg (htidy.serial_ne_of_mem_dropEntry hpattern hdropped)]
      exact hfound

theorem Tidy.without (htidy : registry.Tidy) {serial : Serial} {pattern : Pattern}
    (hpattern : registry.pattern? serial = some pattern)
    (hunused : registry.dependents serial pattern.id = []) :
    (registry.without serial pattern).Tidy := by
  refine ⟨htidy.toConsistent.without hpattern hunused, htidy.ascending.filter _, htidy.counted,
    htidy.nodup_names.sublist (List.filter_sublist.map Prod.fst), ?_⟩
  intro name other hentry
  have hother := htidy.serial_ne_of_mem_dropEntry hpattern hentry
  obtain ⟨found, hmem, hfound, hname⟩ :=
    htidy.registered_of_named name other (mem_dropEntry.mp hentry).1
  exact ⟨found, mem_entries_without.mpr ⟨hmem, hother⟩, hfound, hname⟩

theorem Recalls.tidy (htidy : registry.Tidy) {state : Registry}
    (hrecalls : registry.Recalls state) : state.Tidy := by
  have hconsistent := hrecalls.consistent htidy.toConsistent
  obtain ⟨hsame, -, -⟩ := hrecalls
  rw [hsame] at hconsistent ⊢
  exact ⟨hconsistent, htidy.ascending, htidy.counted, htidy.nodup_names,
    htidy.registered_of_named⟩

end Motif.Registry
