import Motif.Proofs.Registry.Operations
import Motif.Proofs.Registry.Rows

/-!
# Registries from tables

A registry that rows have filled holds the patterns of those rows in their order. Every pattern in
it can stand in a table again, and text can refer to every pattern that another one needs.
-/

namespace Motif.Registry

open Node (Canonical plainGroup)
open Text (IsLine)

variable {registry : Registry} {pattern : Pattern}

/-- What holds of a registry that rows of tables have filled. -/
structure Filed (registry : Registry) : Prop extends Consistent registry where
  tabular : ∀ pattern ∈ registry.patterns, pattern.Tabular
  legible : registry.Legible
  owned : ∀ name serial, registry.named? name = some serial →
    ∃ pattern, (pattern.id, serial) ∈ registry.entries ∧
      registry.pattern? serial = some pattern ∧ pattern.name = some name

/-- A pattern that a row adds to a registry. -/
structure Admits (registry : Registry) (pattern : Pattern) : Prop where
  nonneg : 0 ≤ pattern.id
  free : registry.serialOf? pattern.id = none
  unnamed : ∀ name, pattern.name = some name → registry.named? name = none
  fits : registry.Fits pattern.content
  names : registry.Names pattern.content.alternatives
  tabular : pattern.Tabular

theorem filed_empty : Filed {} where
  toConsistent := consistent_empty
  tabular := by simp [patterns, registered]
  legible := by simp [Legible, patterns, registered]
  owned := by simp [named?]

/-! ## Adding a pattern -/

theorem byId?_extend (horderly : registry.Orderly)
    (hextended : (registry.extend pattern).Coherent) {id : Int} {found : Pattern}
    (hfound : registry.byId? id = some found) :
    (registry.extend pattern).byId? id = some found := by
  obtain ⟨serial, hentry, hserial⟩ := horderly.coherent.byId?_eq_some_iff.mp hfound
  refine hextended.byId?_eq_some_iff.mpr ⟨serial, mem_entries_extend.mpr (.inl hentry), ?_⟩
  rw [horderly.coherent.pattern?_extend hentry, hserial]

theorem patterns_extend (horderly : registry.Orderly) :
    (registry.extend pattern).patterns = registry.patterns ++ [pattern] := by
  rw [patterns, horderly.coherent.registered_extend, List.map_append]
  rfl

theorem Admits.consistent_extend (hadmits : registry.Admits pattern)
    (hconsistent : registry.Consistent) : (registry.extend pattern).Consistent :=
  hconsistent.extend hadmits.fits hadmits.nonneg hadmits.free hadmits.unnamed

/-- A registry that a row has been added to is filed again. -/
theorem Filed.extend (hfiled : registry.Filed) (hadmits : registry.Admits pattern) :
    (registry.extend pattern).Filed := by
  have hconsistent := hadmits.consistent_extend hfiled.toConsistent
  have hpatterns : (registry.extend pattern).patterns = registry.patterns ++ [pattern] :=
    patterns_extend hfiled.toOrderly
  have hnames : ∀ alternatives, registry.Names alternatives →
      (registry.extend pattern).Names alternatives := by
    intro alternatives hnames id hid
    obtain ⟨found, hfound, hwritable⟩ := hnames id hid
    exact ⟨found, byId?_extend hfiled.toOrderly hconsistent.coherent hfound, hwritable⟩
  refine ⟨hconsistent, ?_, ?_, ?_⟩
  · rw [hpatterns]
    intro found hfound
    rcases List.mem_append.mp hfound with hfound | hfound
    · exact hfiled.tabular found hfound
    · obtain rfl := List.mem_singleton.mp hfound
      exact hadmits.tabular
  · unfold Legible
    rw [hpatterns]
    intro found hfound
    rcases List.mem_append.mp hfound with hfound | hfound
    · exact hnames _ (hfiled.legible found hfound)
    · obtain rfl := List.mem_singleton.mp hfound
      exact hnames _ hadmits.names
  · intro name serial hname
    rw [named?_extend] at hname
    split at hname
    next hgiven =>
      obtain rfl := Option.some.inj hname
      exact ⟨pattern, mem_entries_extend.mpr (.inr ⟨rfl, rfl⟩), pattern?_extend_size, hgiven⟩
    next =>
      obtain ⟨found, hentry, hfound, hnamed⟩ := hfiled.owned name serial hname
      refine ⟨found, mem_entries_extend.mpr (.inl hentry), ?_, hnamed⟩
      rw [hfiled.coherent.pattern?_extend hentry, hfound]

/-! ## Reading a row -/

theorem Filed.writable_of_name (hfiled : registry.Filed) {name : String} {id : Int}
    (hname : registry.scope.idOf name = some id) :
    ∃ found, registry.byId? id = some found ∧ found.Writable := by
  simp only [scope, Option.map_eq_some_iff, Option.bind_eq_some_iff] at hname
  obtain ⟨found, ⟨serial, hserial, hfound⟩, rfl⟩ := hname
  obtain ⟨owner, hentry, howner, hnamed⟩ := hfiled.owned name serial hserial
  obtain rfl : found = owner := Option.some.inj (hfound.symm.trans howner)
  have htabular := hfiled.tabular found (hfiled.coherent.mem_patterns_of_entry hentry hfound)
  refine ⟨found, hfiled.coherent.byId?_eq_some_iff.mpr ⟨serial, hentry, hfound⟩, ?_, ?_⟩
  · intro given hgiven
    exact ⟨(htabular.name given hgiven).1, htabular.ne_lineFeed hgiven⟩
  · intro hnone
    rw [hnamed] at hnone
    cases hnone

theorem Filed.writable_of_id (hfiled : registry.Filed) {id : Int} (hnonneg : 0 ≤ id)
    (hid : id < 10 ^ 9) (hknown : registry.scope.hasId id = true) :
    ∃ found, registry.byId? id = some found ∧ found.Writable := by
  obtain ⟨found, hfound⟩ := Option.isSome_iff_exists.mp hknown
  have htabular := hfiled.tabular found (hfiled.coherent.mem_patterns hfound)
  refine ⟨found, hfound, fun given hgiven => ?_, fun _ => ?_⟩
  · exact ⟨(htabular.name given hgiven).1, htabular.ne_lineFeed hgiven⟩
  · rw [hfiled.coherent.id_eq hfound]
    exact ⟨hnonneg, hid⟩

/-- Whatever a compiled text refers to in a filed registry, text can refer to it again. -/
theorem Filed.names_of_compileTree (hfiled : registry.Filed) {text : String} {name : Option String}
    {alternatives : List (List Node)}
    (hcompile : compileTree registry.scope text name = .ok (plainGroup alternatives)) :
    registry.Names alternatives := by
  obtain ⟨found, hfound, -, hknown⟩ := canonical_of_compileTree
    (fun id => ∃ found, registry.byId? id = some found ∧ found.Writable)
    (fun _ hnonneg hid hknown => hfiled.writable_of_id hnonneg hid hknown)
    (fun _ _ hname => hfiled.writable_of_name hname) hcompile
  exact hknown

theorem Filed.admits_of_free (hfiled : registry.Filed) {added : Pattern}
    (hfree : registry.Free added) (hfits : registry.Fits added.content)
    (hnames : registry.Names added.content.alternatives) (htabular : added.Tabular) :
    registry.Admits { added with id := registry.idFor added } where
  nonneg := hfiled.idFor_nonneg added
  free := hfiled.serialOf?_idFor hfree
  unnamed := hfree.name
  fits := hfits
  names := hnames
  tabular := ⟨htabular.name, htabular.literal, htabular.tree⟩

/-- What a row registers, the registry admits. -/
theorem Filed.admits_of_run_registerRow (hfiled : registry.Filed) {name : Option String}
    {kind : Kind} {id : Int} {description : String} {serial : Serial} {after : Registry}
    (hdescription : IsLine description.toList)
    (hname : ∀ given, name = some given →
      given ≠ "" ∧ IsLine given.toList ∧ ¬ Table.separator <:+: given.toList)
    (hrun : (Table.registerRow name kind id description).run registry = (.ok serial, after)) :
    ∃ pattern, registry.Admits pattern ∧ after = registry.extend pattern := by
  unfold Table.registerRow at hrun
  split at hrun
  next hliteral =>
    subst hliteral
    obtain ⟨hfree, rfl⟩ := exists_of_run_add hrun
    refine ⟨_, hfiled.admits_of_free hfree (.literal _) ?_ ⟨hname, ?_, by simp⟩, rfl⟩
    · intro id hid
      simp [Content.alternatives, Node.plainGroup] at hid
    · rintro text ⟨⟩
      exact ⟨rfl, hdescription.unquote⟩
  next hkind =>
    unfold register at hrun
    rw [run_read_bind, run_lift_bind] at hrun
    cases hcheck : registry.checkName name with
    | error fault =>
        rw [hcheck] at hrun
        cases hrun
    | ok checked =>
        rw [hcheck] at hrun
        dsimp only at hrun
        rw [run_lift_bind] at hrun
        cases hcompile : registry.compile description name kind with
        | error fault =>
            rw [hcompile] at hrun
            cases hrun
        | ok compiled =>
            rw [hcompile] at hrun
            obtain ⟨hfree, rfl⟩ := exists_of_run_add hrun
            have hfits := fits_of_compile hcompile
            obtain ⟨alternatives, penalty, htree, -, -, rfl⟩ := compile_eq_ok hcompile
            refine ⟨_, hfiled.admits_of_free hfree hfits (hfiled.names_of_compileTree htree)
              ⟨hname, by simp, fun _ _ => hkind⟩, rfl⟩

/-- A name that a field of a row gives stands on one line and has no separator in it. -/
theorem name_of_field {line : List Char} (hline : IsLine line)
    {rawId rawName rawKind rest : List Char}
    (hfields : Text.cutFields Table.separator 3 line = [rawId, rawName, rawKind, rest])
    {name : String} (hname : Pattern.givenName rawName = some name) :
    name ≠ "" ∧ IsLine name.toList ∧ ¬ Table.separator <:+: name.toList := by
  have hfield : IsLine rawName :=
    hline.of_infix (Text.infix_of_mem_cutFields (by rw [hfields]; simp))
  have hmem : rawName ∈ (Text.cutFields Table.separator 3 line).dropLast := by
    rw [hfields]
    simp
  have hwhole := Text.not_infix_of_mem_cutFields Table.separator_ne_nil hmem
  have htrim := Text.infix_trimWhere Text.isBlank rawName
  unfold Pattern.givenName at hname
  split at hname
  next => cases hname
  next hempty =>
    cases hname
    refine ⟨by simpa using hempty, Text.IsLine.unquote ?_, fun hinside => hwhole ?_⟩
    · rw [String.toList_ofList]
      exact hfield.of_infix htrim
    · have hinner := Text.infix_of_infix_unquote Table.quote_not_mem_separator
        Table.separator_ne_nil hinside
      rw [String.toList_ofList] at hinner
      exact hinner.trans htrim

/-- What a row adds to a filed registry, the registry admits. -/
theorem Filed.admits_of_run_readRow (hfiled : registry.Filed) {number : Nat} {line : String}
    (hline : IsLine line.toList) {after : Registry}
    (hrow : (Table.readRow number line).run registry = (.ok (), after)) :
    ∃ pattern, registry.Admits pattern ∧ after = registry.extend pattern := by
  obtain ⟨rawId, rawName, rawKind, description, id, kind, serial, hfields, hrun⟩ :=
    Table.exists_of_run_readRow hrow
  refine hfiled.admits_of_run_registerRow ?_
    (fun given hgiven => name_of_field hline hfields hgiven) hrun
  rw [String.toList_ofList]
  exact hline.of_infix (Text.infix_of_mem_cutFields (by rw [hfields]; simp))

/-! ## Reading a table -/

/-- Patterns added one after another lead from one registry to another. -/
inductive Filled : Registry → List Pattern → Registry → Prop where
  | nil (registry : Registry) : Filled registry [] registry
  | cons {registry after : Registry} {pattern : Pattern} {rest : List Pattern}
      (hadmits : registry.Admits pattern) (hrest : Filled (registry.extend pattern) rest after) :
      Filled registry (pattern :: rest) after

theorem Filled.filed {after : Registry} {added : List Pattern}
    (hfilled : Filled registry added after) (hfiled : registry.Filed) : after.Filed := by
  induction hfilled with
  | nil => exact hfiled
  | cons hadmits _ ih => exact ih (hfiled.extend hadmits)

theorem Filled.patterns {after : Registry} {added : List Pattern}
    (hfilled : Filled registry added after) (hfiled : registry.Filed) :
    after.patterns = registry.patterns ++ added := by
  induction hfilled with
  | nil => rw [List.append_nil]
  | cons hadmits _ ih =>
      rw [ih (hfiled.extend hadmits), patterns_extend hfiled.toOrderly, List.append_assoc]
      rfl

theorem filled_of_run_readRows (hfiled : registry.Filed) {rows : List String} {number : Nat}
    (hlines : ∀ row ∈ rows, IsLine row.toList) {after : Registry}
    (hrun : (Table.readRows number rows).run registry = (.ok (), after)) :
    ∃ added, Filled registry added after := by
  -- Each row files one pattern more, in a registry that is filed again.
  induction rows generalizing registry number with
  | nil =>
      cases hrun
      exact ⟨[], .nil _⟩
  | cons row rest ih =>
      rw [Table.readRows] at hrun
      obtain ⟨⟨⟩, between, hrow, hrest⟩ := run_bind_eq_ok_iff.mp hrun
      obtain ⟨pattern, hadmits, rfl⟩ :=
        hfiled.admits_of_run_readRow (hlines row List.mem_cons_self) hrow
      obtain ⟨added, hadded⟩ := ih (hfiled.extend hadmits)
        (fun other hother => hlines other (List.mem_cons_of_mem _ hother)) hrest
      exact ⟨pattern :: added, .cons hadmits hadded⟩

/-- A table that is read fills the registry. -/
theorem filled_of_run_read {text : String} {after : Registry}
    (hrun : (Table.read text).run {} = (.ok (), after)) : ∃ added, Filled {} added after := by
  unfold Table.read at hrun
  split at hrun
  next =>
    cases hrun
    exact ⟨[], .nil _⟩
  next first rest hlines =>
    split at hrun
    next =>
      refine filled_of_run_readRows filed_empty (fun row hrow => ?_) hrun
      have hmem := List.mem_cons_of_mem first hrow
      rw [← hlines] at hmem
      exact Text.isLine_of_mem_lines (List.mem_of_mem_filter hmem)
    next => cases hrun

end Motif.Registry
