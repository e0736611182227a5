import Motif.Proofs.Registry.Recalling
import Motif.Proofs.Registry.Recompiling
import Motif.Registry.Maintenance

/-!
# Consistent registries

In a consistent registry every pattern refers to older ones, every name leads to its pattern, and
what has been stored is right. Registering, renaming and removing a pattern keep a registry
consistent, since none of them changes the content of another pattern.
-/

namespace Motif.Registry

open Node (Canonical plainGroup)

variable {registry : Registry}

/-- Every entry leads to a pattern of its id, which refers to older entries only, and every name to
its pattern. Ids are neither negative nor given by the counter again. -/
structure Orderly (registry : Registry) : Prop where
  coherent : registry.Coherent
  descends : ∀ id serial pattern, (id, serial) ∈ registry.entries →
    registry.pattern? serial = some pattern → ∀ other ∈ pattern.content.references,
      ∃ lower, (other, lower) ∈ registry.entries ∧ lower < serial
  canonical : ∀ pattern ∈ registry.patterns, pattern.IsCanonical
  named : registry.Named
  bounded : ∀ id serial, (id, serial) ∈ registry.entries → 0 ≤ id ∧ id < registry.nextId
  counter : 0 ≤ registry.nextId

/-- Every entry leads to a pattern of its id, and ids are neither negative nor given by the counter
again. -/
structure Numbered (registry : Registry) : Prop where
  coherent : registry.Coherent
  bounded : ∀ id serial, (id, serial) ∈ registry.entries → 0 ≤ id ∧ id < registry.nextId
  counter : 0 ≤ registry.nextId

theorem Orderly.numbered (horderly : registry.Orderly) : registry.Numbered :=
  { horderly with }

/-- What holds of a registry after any operation. -/
structure Consistent (registry : Registry) : Prop extends Orderly registry where
  recalls : registry.Recalls registry

theorem Coherent.exists_entry (hcoherent : registry.Coherent) {pattern : Pattern}
    (hpattern : pattern ∈ registry.patterns) :
    ∃ serial, (pattern.id, serial) ∈ registry.entries ∧ registry.pattern? serial = some pattern :=
  hcoherent.byId?_eq_some_iff.mp (hcoherent.mem_patterns_iff.mp hpattern)

theorem Numbered.serialOf?_nextId (hnumbered : registry.Numbered) :
    registry.serialOf? registry.nextId = none := by
  cases hlookup : registry.serialOf? registry.nextId with
  | none => rfl
  | some serial =>
      have hbounds := hnumbered.bounded _ _
        (hnumbered.coherent.serialOf?_eq_some_iff.mp hlookup)
      omega

theorem Coherent.mem_patterns_of_entry (hcoherent : registry.Coherent) {id : Int} {serial : Serial}
    (hentry : (id, serial) ∈ registry.entries) {pattern : Pattern}
    (hpattern : registry.pattern? serial = some pattern) : pattern ∈ registry.patterns :=
  hcoherent.mem_patterns (hcoherent.byId?_eq_some_iff.mpr ⟨serial, hentry, hpattern⟩)

/-- A pattern is registered under its own id. -/
theorem Coherent.mem_entries_of_registered (hcoherent : registry.Coherent)
    {entry : Serial × Pattern} (hentry : entry ∈ registry.registered) :
    (entry.2.id, entry.1) ∈ registry.entries := by
  simp only [registered, List.mem_filterMap, Option.map_eq_some_iff] at hentry
  obtain ⟨⟨id, serial⟩, hmem, pattern, hpattern, rfl⟩ := hentry
  obtain ⟨other, hother, rfl⟩ := hcoherent.exists_pattern hmem
  obtain rfl : pattern = other := Option.some.inj (hpattern.symm.trans hother)
  exact hmem

theorem mem_registered_of_entry {id : Int} {serial : Serial} {pattern : Pattern}
    (hentry : (id, serial) ∈ registry.entries)
    (hpattern : registry.pattern? serial = some pattern) :
    (serial, pattern) ∈ registry.registered := by
  simp only [registered, List.mem_filterMap, Option.map_eq_some_iff]
  exact ⟨(id, serial), hentry, pattern, hpattern, rfl⟩

theorem eq_of_mem_registered {first second : Serial × Pattern}
    (hfirst : first ∈ registry.registered) (hsecond : second ∈ registry.registered)
    (hserial : first.1 = second.1) : first = second := by
  obtain ⟨hfirst, -⟩ := mem_registered hfirst
  obtain ⟨hsecond, -⟩ := mem_registered hsecond
  rw [hserial, hsecond] at hfirst
  exact Prod.ext hserial (Option.some.inj hfirst).symm

theorem Orderly.grounded (horderly : registry.Orderly) : registry.Grounded where
  coherent := horderly.coherent
  closed := by
    intro pattern hpattern id hid
    obtain ⟨serial, hentry, hserial⟩ := horderly.coherent.exists_entry hpattern
    obtain ⟨lower, hlower, -⟩ := horderly.descends _ serial pattern hentry hserial id hid
    exact horderly.coherent.byId?_isSome_iff.mpr (List.mem_map_of_mem hlower)
  acyclic := by
    refine acyclic_of_decreasing (fun id => (registry.serialOf? id).getD 0) ?_
    rintro id other ⟨pattern, hpattern, hother⟩
    obtain ⟨serial, hentry, hserial⟩ := horderly.coherent.byId?_eq_some_iff.mp hpattern
    obtain ⟨lower, hlower, hlt⟩ := horderly.descends id serial pattern hentry hserial other hother
    simpa [horderly.coherent.serialOf?_eq_some_iff.mpr hentry,
      horderly.coherent.serialOf?_eq_some_iff.mpr hlower] using hlt

theorem Orderly.sound (horderly : registry.Orderly) : registry.Sound where
  toGrounded := horderly.grounded
  canonical := horderly.canonical

theorem consistent_empty : Consistent {} where
  coherent := ⟨List.nodup_nil, fun hentry => by cases hentry⟩
  descends := by simp
  canonical := by simp [patterns, registered]
  named := by simp [Named]
  bounded := by simp
  counter := Int.le_refl 0
  recalls := ⟨rfl, by simp, by simp⟩

/-! ## Contents that stay -/

/-- Every pattern registered in the first registry has its content in the second one, too. -/
def Agrees (first second : Registry) : Prop :=
  ∀ id pattern, first.byId? id = some pattern →
    ∃ other, second.byId? id = some other ∧ other.content = pattern.content

variable {first second : Registry}

theorem expansion_eq_of_agrees (hfirst : first.Grounded) (hsecond : second.Grounded)
    (hagrees : Agrees first second) {id : Int} (hid : (first.byId? id).isSome) :
    first.expansion id = second.expansion id :=
  hfirst.along_eq_along hsecond fromReferences_expandContent
    (fun expanded _ _ hsame => congrArg (expandContent expanded) hsame) hagrees hid

theorem spelling_eq_of_agrees (hfirst : first.Grounded) (hsecond : second.Grounded)
    (hagrees : Agrees first second) {id : Int} (hid : (first.byId? id).isSome) :
    first.spelling id = second.spelling id :=
  hfirst.along_eq_along hsecond fromReferences_spellContent
    (fun spelled _ _ hsame => congrArg (spellContent spelled) hsame) hagrees hid

theorem spellContent_eq_of_agrees (hfirst : first.Grounded) (hsecond : second.Grounded)
    (hagrees : Agrees first second) {content : Content}
    (hknown : ∀ id ∈ content.references, (first.byId? id).isSome) :
    spellContent first.spelling content = spellContent second.spelling content := by
  cases content with
  | literal text => rfl
  | tree root =>
      refine Node.spellAlternatives_congr (fun id hid _ => ?_) false
      exact spelling_eq_of_agrees hfirst hsecond hagrees
        (hknown id (Content.mem_references (.tree root) hid))

theorem fullText_eq_of_agrees (hfirst : first.Grounded) (hsecond : second.Grounded)
    (hagrees : Agrees first second) {content : Content}
    (hknown : ∀ id ∈ content.references, (first.byId? id).isSome) :
    first.fullText content = second.fullText content := by
  cases content with
  | literal text => rfl
  | tree root =>
      have hspelled := spellContent_eq_of_agrees hfirst hsecond hagrees hknown
      exact congrArg (fun phrases => Phrase.textOf (Phrase.unwrapped phrases)) hspelled

/-- What is right in one registry is right in another one that keeps the entries and contents for
which something is stored. -/
theorem Recalls.transfer (hfirst : first.Grounded) (hsecond : second.Grounded)
    (hagrees : Agrees first second ∨ Agrees second first) (hrecalls : first.Recalls first)
    (htrees : ∀ serial tree, second.trees[serial]? = some tree → first.trees[serial]? = some tree ∧
      ∀ id, (id, serial) ∈ first.entries → (id, serial) ∈ second.entries)
    (hdescriptions : ∀ serial text, second.descriptions[serial]? = some text →
      first.descriptions[serial]? = some text ∧
        ∀ id, (id, serial) ∈ first.entries → (id, serial) ∈ second.entries)
    (hpatterns : ∀ serial pattern, first.pattern? serial = some pattern →
      ∃ other, second.pattern? serial = some other ∧ other.content = pattern.content) :
    second.Recalls second where
  same := rfl
  trees := by
    intro serial tree hstored
    obtain ⟨hfound, hkept⟩ := htrees serial tree hstored
    obtain ⟨id, hentry, hexpansion⟩ := hrecalls.trees serial tree hfound
    refine ⟨id, hkept id hentry, ?_⟩
    rw [← hexpansion]
    rcases hagrees with hagrees | hagrees
    · refine (expansion_eq_of_agrees hfirst hsecond hagrees ?_).symm
      exact hfirst.coherent.byId?_isSome_iff.mpr (List.mem_map_of_mem hentry)
    · refine expansion_eq_of_agrees hsecond hfirst hagrees ?_
      exact hsecond.coherent.byId?_isSome_iff.mpr (List.mem_map_of_mem (hkept id hentry))
  descriptions := by
    intro serial text hstored
    obtain ⟨hfound, hkept⟩ := hdescriptions serial text hstored
    obtain ⟨id, pattern, hentry, hpattern, rfl⟩ := hrecalls.descriptions serial text hfound
    obtain ⟨other, hother, hsame⟩ := hpatterns serial pattern hpattern
    refine ⟨id, other, hkept id hentry, hother, ?_⟩
    rw [hsame]
    rcases hagrees with hagrees | hagrees
    · exact fullText_eq_of_agrees hfirst hsecond hagrees
        (hfirst.closed pattern (hfirst.coherent.mem_patterns_of_entry hentry hpattern))
    · refine (fullText_eq_of_agrees hsecond hfirst hagrees fun id hid => ?_).symm
      rw [← hsame] at hid
      exact hsecond.closed other
        (hsecond.coherent.mem_patterns_of_entry (hkept _ hentry) hother) id hid

/-! ## Registering -/

/-- The registry with a pattern registered under the id that it carries. -/
def extend (registry : Registry) (pattern : Pattern) : Registry :=
  { registry with
    ledger := registry.ledger.push pattern
    entries := registry.entries ++ [(pattern.id, registry.ledger.size)]
    nextId := max registry.nextId (pattern.id + 1)
    names := match pattern.name with
      | some name => (name, registry.ledger.size) :: registry.names
      | none => registry.names
    literals := match pattern.literal? with
      | some text =>
        if (registry.literalFor? text).isSome then registry.literals
        else (text, registry.ledger.size) :: registry.literals
      | none => registry.literals }

theorem pattern?_extend {pattern : Pattern} {serial : Serial} :
    (registry.extend pattern).pattern? serial =
      if serial = registry.ledger.size then some pattern else registry.pattern? serial := by
  simp only [pattern?, extend, Array.getElem?_push]

theorem Coherent.serial_lt (hcoherent : registry.Coherent) {id : Int} {serial : Serial}
    (hentry : (id, serial) ∈ registry.entries) : serial < registry.ledger.size := by
  obtain ⟨pattern, hpattern, -⟩ := hcoherent.exists_pattern hentry
  exact (Array.getElem?_eq_some_iff.mp hpattern).1

theorem Coherent.pattern?_extend (hcoherent : registry.Coherent) {pattern : Pattern} {id : Int}
    {serial : Serial} (hentry : (id, serial) ∈ registry.entries) :
    (registry.extend pattern).pattern? serial = registry.pattern? serial := by
  rw [Registry.pattern?_extend, if_neg (Nat.ne_of_lt (hcoherent.serial_lt hentry))]

theorem mem_entries_extend {pattern : Pattern} {id : Int} {serial : Serial} :
    (id, serial) ∈ (registry.extend pattern).entries ↔
      (id, serial) ∈ registry.entries ∨ id = pattern.id ∧ serial = registry.ledger.size := by
  simp [extend]

@[simp]
theorem pattern?_extend_size {pattern : Pattern} :
    (registry.extend pattern).pattern? registry.ledger.size = some pattern := by
  rw [pattern?_extend, if_pos rfl]

theorem Coherent.registered_extend (hcoherent : registry.Coherent) (pattern : Pattern) :
    (registry.extend pattern).registered =
      registry.registered ++ [(registry.ledger.size, pattern)] := by
  have hentries : (registry.extend pattern).entries =
      registry.entries ++ [(pattern.id, registry.ledger.size)] := rfl
  rw [registered, hentries, List.filterMap_append]
  congr 1
  · refine List.filterMap_congr fun entry hentry => ?_
    rw [hcoherent.pattern?_extend hentry]
  · simp

theorem Coherent.extend (hcoherent : registry.Coherent) {pattern : Pattern}
    (hid : registry.serialOf? pattern.id = none) :
    (registry.extend pattern).Coherent := by
  refine ⟨?_, fun {id serial} hentry => ?_⟩
  · have happend : (registry.extend pattern).entries.map Prod.fst =
        registry.entries.map Prod.fst ++ [pattern.id] := by
      simp [Registry.extend]
    rw [happend]
    refine List.nodup_append.mpr ⟨hcoherent.nodup_ids, List.nodup_singleton _, ?_⟩
    rintro id hmem other hother rfl
    obtain rfl := List.mem_singleton.mp hother
    obtain ⟨⟨id, serial⟩, hentry, hsame⟩ := List.mem_map.mp hmem
    rw [← hsame, hcoherent.serialOf?_eq_some_iff.mpr hentry] at hid
    cases hid
  · rcases mem_entries_extend.mp hentry with hentry | ⟨rfl, rfl⟩
    · rw [hcoherent.pattern?_extend hentry]
      exact hcoherent.exists_pattern hentry
    · exact ⟨pattern, pattern?_extend_size, rfl⟩

theorem named?_extend {pattern : Pattern} {name : String} :
    (registry.extend pattern).named? name =
      if pattern.name = some name then some registry.ledger.size else registry.named? name := by
  unfold named? extend
  cases pattern.name with
  | none => rfl
  | some given =>
      by_cases hsame : name = given
      · simp [hsame]
      · have hbeq : (name == given) = false := beq_eq_false_iff_ne.mpr hsame
        simp [List.lookup_cons, hbeq, Ne.symm hsame]

/-- What is registered afterwards was so before or is the new pattern. -/
theorem Coherent.cases_extend (hcoherent : registry.Coherent) {pattern : Pattern} {id : Int}
    {serial : Serial} {found : Pattern} (hentry : (id, serial) ∈ (registry.extend pattern).entries)
    (hfound : (registry.extend pattern).pattern? serial = some found) :
    (id, serial) ∈ registry.entries ∧ registry.pattern? serial = some found ∨
      id = pattern.id ∧ serial = registry.ledger.size ∧ found = pattern := by
  rcases mem_entries_extend.mp hentry with hold | ⟨rfl, rfl⟩
  · rw [hcoherent.pattern?_extend hold] at hfound
    exact .inl ⟨hold, hfound⟩
  · rw [pattern?_extend_size] at hfound
    exact .inr ⟨rfl, rfl, (Option.some.inj hfound).symm⟩

/-- Every pattern is still found by its name if that of a new one was free. -/
theorem Named.extend (hnamed : registry.Named) (hcoherent : registry.Coherent) {pattern : Pattern}
    (hname : ∀ name, pattern.name = some name → registry.named? name = none) :
    (registry.extend pattern).Named := by
  intro id serial found hentry hfound name hfoundName
  rw [named?_extend]
  rcases hcoherent.cases_extend hentry hfound with ⟨hold, hserial⟩ | ⟨-, rfl, rfl⟩
  · have hlookup := hnamed id serial found hold hserial name hfoundName
    rw [if_neg, hlookup]
    intro hgiven
    rw [hname name hgiven] at hlookup
    cases hlookup
  · rw [if_pos hfoundName]

/-- The counter passes an id that is taken. -/
theorem Numbered.extend (hnumbered : registry.Numbered) {pattern : Pattern}
    (hnonneg : 0 ≤ pattern.id) (hid : registry.serialOf? pattern.id = none) :
    (registry.extend pattern).Numbered := by
  have hnext : (registry.extend pattern).nextId = max registry.nextId (pattern.id + 1) := rfl
  have hcounter := hnumbered.counter
  refine ⟨hnumbered.coherent.extend hid, fun id serial hentry => ?_, by omega⟩
  rcases mem_entries_extend.mp hentry with hentry | ⟨rfl, rfl⟩
  · have hbounds := hnumbered.bounded id serial hentry
    omega
  · omega

section Extending

variable {pattern : Pattern} (horderly : registry.Orderly)
include horderly

theorem Orderly.descends_extend (hfits : registry.Fits pattern.content) {id : Int} {serial : Serial}
    {found : Pattern} (hentry : (id, serial) ∈ (registry.extend pattern).entries)
    (hfound : (registry.extend pattern).pattern? serial = some found) :
    ∀ other ∈ found.content.references,
      ∃ lower, (other, lower) ∈ (registry.extend pattern).entries ∧ lower < serial := by
  intro other hother
  rcases horderly.coherent.cases_extend hentry hfound with ⟨hold, hserial⟩ | ⟨-, rfl, rfl⟩
  · obtain ⟨lower, hlower, hlt⟩ := horderly.descends id serial found hold hserial other hother
    exact ⟨lower, mem_entries_extend.mpr (.inl hlower), hlt⟩
  · obtain ⟨target, htarget⟩ := Option.isSome_iff_exists.mp (hfits.known other hother)
    obtain ⟨lower, hlower, -⟩ := horderly.coherent.byId?_eq_some_iff.mp htarget
    exact ⟨lower, mem_entries_extend.mpr (.inl hlower), horderly.coherent.serial_lt hlower⟩

/-- Registering a pattern whose id and name are free keeps a registry orderly. -/
theorem Orderly.extend (hfits : registry.Fits pattern.content) (hnonneg : 0 ≤ pattern.id)
    (hid : registry.serialOf? pattern.id = none)
    (hname : ∀ name, pattern.name = some name → registry.named? name = none) :
    (registry.extend pattern).Orderly := by
  have hnumbered := horderly.numbered.extend hnonneg hid
  refine { hnumbered with
    descends := fun _ _ _ => horderly.descends_extend hfits
    canonical := fun found hfound => ?_
    named := horderly.named.extend horderly.coherent hname }
  obtain ⟨serial, hentry, hserial⟩ := hnumbered.coherent.exists_entry hfound
  rcases horderly.coherent.cases_extend hentry hserial with ⟨hold, hserial⟩ | ⟨-, -, rfl⟩
  · exact horderly.canonical found (horderly.coherent.mem_patterns_of_entry hold hserial)
  · exact hfits.canonical

end Extending

theorem Orderly.byId?_extend (horderly : registry.Orderly) {pattern : Pattern}
    (hid : registry.serialOf? pattern.id = none) {id : Int} {found : Pattern}
    (hfound : registry.byId? id = some found) :
    (registry.extend pattern).byId? id = some found := by
  obtain ⟨serial, hentry, hserial⟩ := horderly.coherent.byId?_eq_some_iff.mp hfound
  refine (horderly.coherent.extend hid).byId?_eq_some_iff.mpr
    ⟨serial, mem_entries_extend.mpr (.inl hentry), ?_⟩
  rw [horderly.coherent.pattern?_extend hentry, hserial]

theorem Orderly.agrees_extend (horderly : registry.Orderly) {pattern : Pattern}
    (hid : registry.serialOf? pattern.id = none) : Agrees registry (registry.extend pattern) :=
  fun _ found hfound => ⟨found, horderly.byId?_extend hid hfound, rfl⟩

/-- Registering a pattern whose id and name are free keeps a registry consistent. -/
theorem Consistent.extend (hconsistent : registry.Consistent) {pattern : Pattern}
    (hfits : registry.Fits pattern.content) (hnonneg : 0 ≤ pattern.id)
    (hid : registry.serialOf? pattern.id = none)
    (hname : ∀ name, pattern.name = some name → registry.named? name = none) :
    (registry.extend pattern).Consistent := by
  have hextended := hconsistent.toOrderly.extend hfits hnonneg hid hname
  have hagrees := hconsistent.toOrderly.agrees_extend hid
  have hkept : ∀ serial id, (id, serial) ∈ registry.entries →
      (id, serial) ∈ (registry.extend pattern).entries :=
    fun _ _ hentry => mem_entries_extend.mpr (.inl hentry)
  refine ⟨hextended, hconsistent.recalls.transfer hconsistent.grounded hextended.grounded
    (.inl hagrees) (fun serial _ hstored => ⟨hstored, hkept serial⟩)
    (fun serial _ hstored => ⟨hstored, hkept serial⟩) fun serial found hfound => ⟨found, ?_, rfl⟩⟩
  have hlt : serial < registry.ledger.size := (Array.getElem?_eq_some_iff.mp hfound).1
  rw [pattern?_extend, if_neg (Nat.ne_of_lt hlt), hfound]

/-! ## Renaming -/

/-- The registry with another name, and maybe another kind, for the pattern of a serial. -/
def renamed (registry : Registry) (serial : Serial) (pattern : Pattern) (name : String)
    (kind : Option Kind) : Registry :=
  { registry with
    ledger := registry.ledger.setIfInBounds serial
      { pattern with name := some name, kind := kind.getD pattern.kind }
    names := (name, serial) ::
      (dropEntry registry.names pattern.name serial).filter fun entry => entry.1 ≠ name }

theorem pattern?_renamed {serial other : Serial} {pattern : Pattern} {name : String}
    {kind : Option Kind} (hpattern : registry.pattern? serial = some pattern) :
    (registry.renamed serial pattern name kind).pattern? other =
      if other = serial then
        some { pattern with name := some name, kind := kind.getD pattern.kind }
      else registry.pattern? other := by
  have hlt : serial < registry.ledger.size := (Array.getElem?_eq_some_iff.mp hpattern).1
  simp only [pattern?, renamed, Array.getElem?_setIfInBounds, hlt]
  grind

/-- Entries that a filter keeps are found as before. -/
theorem lookup_filter {table : List (String × Serial)} {keep : String × Serial → Bool}
    {key : String}
    {value : Serial} (hlookup : table.lookup key = some value) (hkeep : keep (key, value) = true) :
    (table.filter keep).lookup key = some value := by
  induction table with
  | nil => cases hlookup
  | cons entry rest ih =>
      obtain ⟨first, content⟩ := entry
      by_cases hkey : key = first
      · subst hkey
        obtain rfl : content = value := by simpa using hlookup
        rw [List.filter_cons_of_pos hkeep, List.lookup_cons_self]
      · have hbeq : (key == first) = false := beq_eq_false_iff_ne.mpr hkey
        rw [List.lookup_cons, hbeq] at hlookup
        rw [List.filter_cons]
        split
        next =>
          rw [List.lookup_cons, hbeq]
          exact ih hlookup
        next => exact ih hlookup

theorem lookup_dropEntry {table : List (String × Serial)} {key : Option String} {name : String}
    {serial other : Serial} (hlookup : table.lookup name = some other) (hother : other ≠ serial) :
    (dropEntry table key serial).lookup name = some other :=
  lookup_filter hlookup (by simp [hother])

section Renaming

variable {serial : Serial} {pattern : Pattern} {name : String} {kind : Option Kind}

/-- A pattern of the renamed registry is an old one, with another name if it is the one of the
serial. -/
theorem origin_of_renamed (hpattern : registry.pattern? serial = some pattern) {other : Serial}
    {found : Pattern}
    (hfound : (registry.renamed serial pattern name kind).pattern? other = some found) :
    ∃ origin, registry.pattern? other = some origin ∧ origin.content = found.content ∧
      origin.id = found.id ∧ (other ≠ serial → origin = found) := by
  rw [pattern?_renamed hpattern] at hfound
  split at hfound
  next hserial =>
    cases hfound
    exact ⟨pattern, hserial ▸ hpattern, rfl, rfl, fun hne => absurd hserial hne⟩
  next => exact ⟨found, hfound, rfl, rfl, fun _ => rfl⟩

theorem exists_pattern?_renamed (hpattern : registry.pattern? serial = some pattern)
    {other : Serial} {origin : Pattern} (horigin : registry.pattern? other = some origin) :
    ∃ found, (registry.renamed serial pattern name kind).pattern? other = some found ∧
      found.content = origin.content ∧ found.id = origin.id := by
  rw [pattern?_renamed hpattern]
  split
  next hserial =>
    obtain rfl : pattern = origin := by
      rw [hserial, hpattern] at horigin
      exact Option.some.inj horigin
    exact ⟨_, rfl, rfl, rfl⟩
  next => exact ⟨origin, horigin, rfl, rfl⟩

theorem Coherent.renamed (hcoherent : registry.Coherent)
    (hpattern : registry.pattern? serial = some pattern) :
    (registry.renamed serial pattern name kind).Coherent := by
  refine ⟨hcoherent.nodup_ids, fun {id other} hentry => ?_⟩
  obtain ⟨origin, horigin, hid⟩ := hcoherent.exists_pattern hentry
  obtain ⟨found, hfound, -, hsame⟩ := exists_pattern?_renamed hpattern horigin
  exact ⟨found, hfound, hsame.trans hid⟩

theorem Named.renamed (hnamed : registry.Named)
    (hpattern : registry.pattern? serial = some pattern)
    (hname : ∀ other, registry.named? name = some other → other = serial) :
    (registry.renamed serial pattern name kind).Named := by
  intro id other found hentry hfound given hgiven
  unfold named? Registry.renamed
  by_cases hserial : other = serial
  · subst hserial
    rw [pattern?_renamed hpattern, if_pos rfl] at hfound
    cases hfound
    obtain rfl : name = given := by simpa using hgiven
    simp
  · obtain ⟨origin, horigin, -, -, hsame⟩ := origin_of_renamed hpattern hfound
    obtain rfl := hsame hserial
    have hlookup := hnamed id other origin hentry horigin given hgiven
    have hne : given ≠ name := by
      rintro rfl
      exact hserial (hname other hlookup)
    have hbeq : (given == name) = false := beq_eq_false_iff_ne.mpr hne
    simp only [List.lookup_cons, hbeq]
    have hkeep : decide ((given, other).1 ≠ name) = true := by simpa using hne
    exact lookup_filter (lookup_dropEntry hlookup hserial) hkeep

theorem Orderly.renamed (horderly : registry.Orderly)
    (hpattern : registry.pattern? serial = some pattern)
    (hname : ∀ other, registry.named? name = some other → other = serial) :
    (registry.renamed serial pattern name kind).Orderly := by
  have hcoherent : (registry.renamed serial pattern name kind).Coherent :=
    horderly.coherent.renamed hpattern
  refine ⟨hcoherent, ?_, ?_, horderly.named.renamed hpattern hname, horderly.bounded,
    horderly.counter⟩
  · intro id other found hentry hfound
    obtain ⟨origin, horigin, hsame, -, -⟩ := origin_of_renamed hpattern hfound
    rw [← hsame]
    exact horderly.descends id other origin hentry horigin
  · intro found hfound
    obtain ⟨other, hentry, hother⟩ := hcoherent.exists_entry hfound
    obtain ⟨origin, horigin, hsame, -, -⟩ := origin_of_renamed hpattern hother
    unfold Pattern.IsCanonical
    rw [← hsame]
    exact horderly.canonical origin (horderly.coherent.mem_patterns_of_entry hentry horigin)

theorem Coherent.agrees_renamed (hcoherent : registry.Coherent)
    (hpattern : registry.pattern? serial = some pattern) :
    Agrees registry (registry.renamed serial pattern name kind) := by
  intro id origin horigin
  obtain ⟨other, hentry, hother⟩ := hcoherent.byId?_eq_some_iff.mp horigin
  obtain ⟨found, hfound, hsame, -⟩ := exists_pattern?_renamed hpattern hother
  exact ⟨found, (hcoherent.renamed hpattern).byId?_eq_some_iff.mpr ⟨other, hentry, hfound⟩, hsame⟩

/-- Giving a pattern a name that no other one has keeps a registry consistent. -/
theorem Consistent.renamed (hconsistent : registry.Consistent)
    (hpattern : registry.pattern? serial = some pattern)
    (hname : ∀ other, registry.named? name = some other → other = serial) :
    (registry.renamed serial pattern name kind).Consistent := by
  have horderly : (registry.renamed serial pattern name kind).Orderly :=
    hconsistent.toOrderly.renamed hpattern hname
  have hagrees : Agrees registry (registry.renamed serial pattern name kind) :=
    hconsistent.coherent.agrees_renamed hpattern
  refine ⟨horderly, hconsistent.recalls.transfer hconsistent.grounded horderly.grounded
    (.inl hagrees) (fun _ _ hstored => ⟨hstored, fun _ hentry => hentry⟩)
    (fun _ _ hstored => ⟨hstored, fun _ hentry => hentry⟩) fun other origin horigin => ?_⟩
  obtain ⟨found, hfound, hsame, -⟩ := exists_pattern?_renamed hpattern horigin
  exact ⟨found, hfound, hsame⟩

end Renaming

/-! ## Removing -/

/-- The registry without the pattern of a serial. -/
def without (registry : Registry) (serial : Serial) (pattern : Pattern) : Registry :=
  { registry with
    entries := registry.entries.filter fun entry => entry.2 ≠ serial
    names := dropEntry registry.names pattern.name serial
    literals := dropEntry registry.literals pattern.literal? serial
    trees := registry.trees.erase serial
    descriptions := registry.descriptions.erase serial }

theorem mem_entries_without {serial other : Serial} {pattern : Pattern} {id : Int} :
    (id, other) ∈ (registry.without serial pattern).entries ↔
      (id, other) ∈ registry.entries ∧ other ≠ serial := by
  simp [without]

theorem registered_without {serial : Serial} {pattern : Pattern} :
    (registry.without serial pattern).registered =
      registry.registered.filter fun entry => entry.1 ≠ serial := by
  unfold registered without
  rw [List.filterMap_filter, List.filter_filterMap]
  refine List.filterMap_congr fun entry _ => ?_
  change (if _ then ((registry.pattern? entry.2).map (entry.2, ·)) else none) =
    ((registry.pattern? entry.2).map (entry.2, ·)).filter _
  cases registry.pattern? entry.2 <;> simp [Option.filter]

theorem Coherent.without (hcoherent : registry.Coherent) (serial : Serial) (pattern : Pattern) :
    (registry.without serial pattern).Coherent := by
  refine ⟨hcoherent.nodup_ids.sublist (List.filter_sublist.map Prod.fst), ?_⟩
  intro id other hentry
  exact hcoherent.exists_pattern (mem_entries_without.mp hentry).1

theorem Numbered.without (hnumbered : registry.Numbered) (serial : Serial) (pattern : Pattern) :
    (registry.without serial pattern).Numbered where
  coherent := hnumbered.coherent.without serial pattern
  bounded id other hentry := hnumbered.bounded id other (mem_entries_without.mp hentry).1
  counter := hnumbered.counter

theorem Named.without (hnamed : registry.Named) (serial : Serial) (pattern : Pattern) :
    (registry.without serial pattern).Named := by
  intro id other found hentry hfound name hname
  obtain ⟨hentry, hother⟩ := mem_entries_without.mp hentry
  exact lookup_dropEntry (hnamed id other found hentry hfound name hname) hother

theorem Coherent.agrees_without (hcoherent : registry.Coherent) (serial : Serial)
    (pattern : Pattern) : Agrees (registry.without serial pattern) registry := by
  intro id found hfound
  obtain ⟨other, hentry, hother⟩ :=
    (hcoherent.without serial pattern).byId?_eq_some_iff.mp hfound
  exact ⟨found, hcoherent.byId?_eq_some_iff.mpr
    ⟨other, (mem_entries_without.mp hentry).1, hother⟩, rfl⟩

theorem mem_dependents_iff {serial : Serial} {id : Int} {user : Serial × Pattern} :
    user ∈ registry.dependents serial id ↔
      user ∈ registry.registered ∧ user.1 ≠ serial ∧ id ∈ user.2.content.references := by
  simp [dependents, Pattern.refersTo]

section Removing

variable {serial : Serial} {pattern : Pattern}

theorem not_mem_references_of_dependents_eq_nil
    (hunused : registry.dependents serial pattern.id = []) {id : Int} {other : Serial}
    {found : Pattern} (hentry : (id, other) ∈ registry.entries) (hother : other ≠ serial)
    (hfound : registry.pattern? other = some found) : pattern.id ∉ found.content.references := by
  intro hreference
  have hdependent :=
    mem_dependents_iff.mpr ⟨mem_registered_of_entry hentry hfound, hother, hreference⟩
  rw [hunused] at hdependent
  cases hdependent

theorem Orderly.without (horderly : registry.Orderly)
    (hpattern : registry.pattern? serial = some pattern)
    (hunused : registry.dependents serial pattern.id = []) :
    (registry.without serial pattern).Orderly := by
  have hcoherent := horderly.coherent.without serial pattern
  refine { horderly.numbered.without serial pattern with
    descends := ?_, canonical := ?_, named := horderly.named.without serial pattern }
  · intro id other found hentry hfound reference hreference
    obtain ⟨hkept, hother⟩ := mem_entries_without.mp hentry
    obtain ⟨lower, hlower, hlt⟩ := horderly.descends id other found hkept hfound reference
      hreference
    refine ⟨lower, mem_entries_without.mpr ⟨hlower, ?_⟩, hlt⟩
    -- The entry below is not the one that goes, since nothing refers to the pattern of that one.
    rintro rfl
    obtain ⟨again, hagain, hid⟩ := horderly.coherent.exists_pattern hlower
    obtain rfl : pattern = again := Option.some.inj (hpattern.symm.trans hagain)
    exact not_mem_references_of_dependents_eq_nil hunused hkept hother hfound (hid ▸ hreference)
  · intro found hfound
    obtain ⟨other, hentry, hother⟩ := hcoherent.exists_entry hfound
    exact horderly.canonical found
      (horderly.coherent.mem_patterns_of_entry (mem_entries_without.mp hentry).1 hother)

/-- What is still stored was stored, and not for the serial that goes. -/
theorem getElem?_of_getElem?_erase {α : Type} {stored : Std.TreeMap Serial α} {other : Serial}
    {value : α} (hvalue : (stored.erase serial)[other]? = some value) :
    stored[other]? = some value ∧ other ≠ serial := by
  rw [Std.TreeMap.getElem?_erase] at hvalue
  split at hvalue
  next => cases hvalue
  next hne =>
    refine ⟨hvalue, ?_⟩
    rintro rfl
    exact hne Std.ReflCmp.compare_self

/-- Removing a pattern to which no other one refers keeps a registry consistent. -/
theorem Consistent.without (hconsistent : registry.Consistent)
    (hpattern : registry.pattern? serial = some pattern)
    (hunused : registry.dependents serial pattern.id = []) :
    (registry.without serial pattern).Consistent := by
  have horderly := hconsistent.toOrderly.without hpattern hunused
  have hagrees := hconsistent.coherent.agrees_without serial pattern
  have hkept : ∀ other, other ≠ serial → ∀ id, (id, other) ∈ registry.entries →
      (id, other) ∈ (registry.without serial pattern).entries :=
    fun _ hother _ hentry => mem_entries_without.mpr ⟨hentry, hother⟩
  refine ⟨horderly, hconsistent.recalls.transfer hconsistent.grounded horderly.grounded
    (.inr hagrees) (fun other tree hstored => ?_) (fun other text hstored => ?_)
    fun other found hfound => ⟨found, hfound, rfl⟩⟩
  · obtain ⟨hfound, hother⟩ := getElem?_of_getElem?_erase hstored
    exact ⟨hfound, hkept other hother⟩
  · obtain ⟨hfound, hother⟩ := getElem?_of_getElem?_erase hstored
    exact ⟨hfound, hkept other hother⟩

end Removing

/-! ## Describing all patterns -/

/-- The full descriptions of all registered patterns. -/
def fullDescriptions : Action (List String) := do
  (← getThe Registry).registered.mapM fun entry => fullDescription entry.1 entry.2

theorem Consistent.run_fullDescriptions (hconsistent : registry.Consistent) :
    (fullDescriptions.run registry).1 =
      .ok (registry.registered.map fun entry => registry.fullText entry.2.content) := by
  have hsettles : Settles registry.Recalls
      (registry.registered.mapM fun entry => fullDescription entry.1 entry.2)
      (registry.registered.map fun entry => registry.fullText entry.2.content) :=
    .mapM fun entry hentry => by
      obtain ⟨hserial, hpattern⟩ := mem_registered hentry
      exact settles_fullDescription hconsistent.sound hserial (hconsistent.sound.fits hpattern)
  rw [fullDescriptions, run_read_bind]
  exact hsettles.run_eq hconsistent.recalls

end Motif.Registry
