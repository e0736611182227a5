import Motif.Proofs.Registry.Mirroring
import Motif.Proofs.Registry.Weighing

/-!
# Writing and reading tables

A table that is written from a registry that came from a table is read as a registry that mirrors
it, and is written as the same table again.
-/

namespace Motif

open Node (Canonical plainGroup)
open Phrase (treesOfAlternatives)

/-! ## Trees that are read from their descriptions -/

theorem Content.alike_pared {content : Content} (hcanonical : ∀ root, content = .tree root →
    ∃ alternatives, root = plainGroup alternatives ∧ Canonical alternatives) :
    content.Alike content.pared := by
  cases content with
  | literal text => exact ⟨rfl, fun _ _ _ => rfl⟩
  | tree root =>
      obtain ⟨alternatives, rfl, -⟩ := hcanonical root rfl
      refine ⟨rfl, fun leaf quantity look => ?_⟩
      have hspelled : Node.spellAlternatives leaf false (Node.paredAlternatives alternatives) =
          Node.spellAlternatives leaf false alternatives :=
        Node.spellAlternatives_paredAlternatives fun _ _ node _ => Node.spell_pared leaf false node
      rw [Content.pared, Node.pared_plainGroup]
      exact congrArg (Phrase.wrap · quantity look) hspelled

/-- The second pattern is what the row of the first one is read as. -/
structure Pattern.Recovers (first second : Pattern) : Prop where
  id : second.id = first.id
  name : second.name = first.name
  kind : second.kind = first.kind
  content : second.content = first.content.pared

theorem Pattern.Recovers.alike {first second : Pattern} (hrecovers : first.Recovers second)
    (hcanonical : first.IsCanonical) : first.Alike second where
  id := hrecovers.id
  name := hrecovers.name
  kind := hrecovers.kind
  content := by
    rw [hrecovers.content]
    exact Content.alike_pared hcanonical

namespace Registry

open Text (IsLine)

variable {registry first second : Registry}

/-- A tree that is written with ids is read as the pared tree. -/
theorem reduceRoot_phrases (hfiled : registry.Filed) {alternatives : List (List Node)}
    (hcanonical : Canonical alternatives) (hnames : registry.Names alternatives) :
    (plainGroup (treesOfAlternatives registry.scope.target
      (registry.phrases true alternatives))).reduceRoot = (plainGroup alternatives).pared := by
  have htrees : treesOfAlternatives registry.scope.target (registry.phrases true alternatives) =
      Node.paredAlternatives alternatives := by
    refine Node.treesOfAlternatives_spell hcanonical.tight (fun id hid behind => ?_) false
    obtain ⟨pattern, hpattern, hwritable⟩ := hnames id hid
    refine ⟨pattern.symbol, by simp [reference, hpattern], ?_⟩
    exact (resolve_scope hfiled.coherent hfiled.named hpattern hwritable none 0).2
  rw [htrees, Node.pared_plainGroup,
    Node.reduceRoot_paredAlternatives hcanonical.tight hcanonical.unwrapped]

theorem Mirrored.names_of_names (hmirrored : Mirrored first second)
    {alternatives : List (List Node)}
    (hnames : first.Names alternatives) : second.Names alternatives := by
  intro id hid
  obtain ⟨pattern, hpattern, hwritable⟩ := hnames id hid
  obtain ⟨other, hother, halike⟩ := hmirrored.byId? hpattern
  exact ⟨other, hother, halike.writable hwritable⟩

/-! ## Rows that are read in a mirrored registry -/

/-- A pattern with a free name and a free id of its own is registered as it is. -/
theorem run_add_of_short {pattern : Pattern} (hfree : registry.Free pattern) (hid : 0 ≤ pattern.id)
    (hshort : (Nat.toDigits 10 pattern.id.toNat).length ≤ Text.mostDigits) :
    (add pattern).run registry = (.ok registry.ledger.size, registry.extend pattern) := by
  have hkept : registry.idFor pattern = pattern.id := if_neg (by omega)
  have hidentity : ∃ text, pattern.identity = .ok text := by
    unfold Pattern.identity
    cases pattern.name with
    | some name => exact ⟨_, rfl⟩
    | none =>
        dsimp only
        rw [if_pos hid, Pattern.writeId_of_length hid hshort]
        exact ⟨_, rfl⟩
  obtain ⟨text, htext⟩ := hidentity
  have hself : { pattern with id := pattern.id } = pattern := rfl
  rw [run_add_of_free hfree, hkept, hself, htext]
  rfl

theorem Mirrored.free (hmirrored : Mirrored first second) {pattern other : Pattern}
    (hadmits : first.Admits pattern) (hname : other.name = pattern.name)
    (hid : other.id = pattern.id) :
    second.Free other where
  name := by
    intro name hgiven
    rw [hmirrored.named?]
    exact hadmits.unnamed name (hname ▸ hgiven)
  id := by
    intro _
    rw [hmirrored.serialOf?, hid]
    exact hadmits.free

/-- What the row of a pattern that the first registry admits is read as, the second one admits. -/
theorem Mirrored.admits (hmirrored : Mirrored first second) {pattern other : Pattern}
    (hadmits : first.Admits pattern) (hrecovers : pattern.Recovers other)
    (hfits : second.Fits other.content) (hnames : second.Names other.content.alternatives)
    (htabular : other.Tabular) : second.Admits other := by
  refine ⟨?_, ?_, ?_, hfits, hnames, htabular⟩
  · rw [hrecovers.id]
    exact hadmits.nonneg
  · rw [hrecovers.id, hmirrored.serialOf?]
    exact hadmits.free
  · intro name hgiven
    rw [hmirrored.named?]
    exact hadmits.unnamed name (hrecovers.name ▸ hgiven)

/-- Registries of which the second one has been read from rows of the first one. -/
inductive Reread : Registry → Registry → Prop where
  | empty : Reread {} {}
  | extend {first second : Registry} {pattern other : Pattern} (hreread : Reread first second)
      (hfirst : first.Admits pattern) (hsecond : second.Admits other)
      (hrecovers : pattern.Recovers other) (hweighs : second.Weighs other) :
      Reread (first.extend pattern) (second.extend other)

namespace Reread

theorem mirrored (hreread : Reread first second) : Mirrored first second := by
  induction hreread with
  | empty => exact .empty
  | extend _ hfirst hsecond hrecovers _ ih =>
      exact .extend ih hfirst hsecond (hrecovers.alike hfirst.fits.canonical)

theorem patterns (hreread : Reread first second) :
    List.Forall₂ Pattern.Recovers first.patterns second.patterns := by
  induction hreread with
  | empty => exact .nil
  | extend hreread _ _ hrecovers _ ih =>
      obtain ⟨hfirst, hsecond⟩ := hreread.mirrored.filed
      rw [patterns_extend hfirst.toOrderly, patterns_extend hsecond.toOrderly]
      exact List.rel_append ih (.cons hrecovers .nil)

theorem weighed (hreread : Reread first second) : second.Weighed := by
  induction hreread with
  | empty => exact weighed_empty
  | extend hreread _ hsecond _ hweighs ih =>
      obtain ⟨-, hfiled⟩ := hreread.mirrored.filed
      exact hfiled.toOrderly.weighed_extend ih hsecond.free hsecond.fits hweighs

end Reread

section Rows

variable (hreread : Reread first second) {pattern : Pattern} (hadmits : first.Admits pattern)
include hreread hadmits

/-- The description in the row of a tree is compiled to the pared tree. -/
theorem Reread.exists_compiled {alternatives : List (List Node)}
    (hcontent : pattern.content = .tree (plainGroup alternatives))
    (hcanonical : Canonical alternatives) :
    ∃ penalty, compileTree second.scope (first.tabulated (.tree (plainGroup alternatives)))
        pattern.name = .ok (plainGroup alternatives).pared ∧
      second.compile (first.tabulated (.tree (plainGroup alternatives))) pattern.name pattern.kind =
        .ok { kind := pattern.kind, name := pattern.name
              content := .tree (plainGroup alternatives).pared, penalty } := by
  have hsecond := hreread.mirrored.filed.2
  have hnamed : first.Names alternatives := by
    have hreferences := hadmits.names
    rwa [hcontent] at hreferences
  have hnames : second.Names alternatives := hreread.mirrored.names_of_names hnamed
  have htext : first.tabulated (.tree (plainGroup alternatives)) =
      Phrase.textOf (second.phrases true alternatives) := by
    rw [phrases_eq_of_sameSymbols hreread.mirrored.sameSymbols hnamed.knows]
    rfl
  have htree := compileTree_phrases hsecond.sound hsecond.named hsecond.legible true hcanonical
    hnames pattern.name
  have hknown := knows_recompiled hsecond.sound hsecond.named hsecond.legible true hcanonical hnames
  obtain ⟨penalty, hcompile⟩ := exists_compile htree hknown pattern.kind
  have hpared := reduceRoot_phrases hsecond hcanonical hnames
  rw [hpared] at htree hcompile
  rw [htext]
  exact ⟨penalty, htree, hcompile⟩

variable (hshort : (Nat.toDigits 10 pattern.id.toNat).length ≤ Text.mostDigits)
include hshort

theorem Reread.exists_registered_literal {text : String}
    (hcontent : pattern.content = .literal text) :
    ∃ other serial, Reread (first.extend pattern) (second.extend other) ∧
      (Table.registerRow pattern.name pattern.kind pattern.id
        (first.tabulated (.literal text))).run second = (.ok serial, second.extend other) := by
  have hmirrored := hreread.mirrored
  obtain ⟨hkind, -⟩ := hadmits.tabular.literal text hcontent
  have hrecovers : pattern.Recovers { pattern with penalty := 0 } := by
    refine ⟨rfl, rfl, rfl, ?_⟩
    rw [hcontent]
    rfl
  refine ⟨{ pattern with penalty := 0 }, second.ledger.size,
    .extend hreread hadmits (hmirrored.admits hadmits hrecovers ?_ ?_ ?_) hrecovers ?_, ?_⟩
  · dsimp only
    rw [hcontent]
    exact .literal text
  · exact hmirrored.names_of_names hadmits.names
  · exact ⟨hadmits.tabular.name, hadmits.tabular.literal, hadmits.tabular.tree⟩
  · rw [Weighs, hcontent]
    rfl
  · have hself : ({
        kind := pattern.kind
        name := pattern.name
        content := .literal text
        id := pattern.id } : Pattern) = { pattern with penalty := 0 } := by
      rw [← hcontent]
    rw [Table.registerRow, if_pos hkind, tabulated, Text.unquote_quote, addLiteral, hself]
    exact run_add_of_short (hmirrored.free hadmits rfl rfl) hadmits.nonneg hshort

theorem Reread.exists_registered_tree {alternatives : List (List Node)}
    (hcontent : pattern.content = .tree (plainGroup alternatives))
    (hcanonical : Canonical alternatives) :
    ∃ other serial, Reread (first.extend pattern) (second.extend other) ∧
      (Table.registerRow pattern.name pattern.kind pattern.id
        (first.tabulated (.tree (plainGroup alternatives)))).run second =
          (.ok serial, second.extend other) := by
  have hmirrored := hreread.mirrored
  have hkind := hadmits.tabular.tree _ hcontent
  obtain ⟨penalty, htree, hcompile⟩ := hreread.exists_compiled hadmits hcontent hcanonical
  have hfits := fits_of_compile hcompile
  have hweighs := weighs_of_compile hcompile
  have hrecovers : pattern.Recovers {
      kind := pattern.kind
      name := pattern.name
      content := .tree (plainGroup alternatives).pared
      penalty
      id := pattern.id } := by
    refine ⟨rfl, rfl, rfl, ?_⟩
    rw [hcontent]
    rfl
  refine ⟨_, second.ledger.size, .extend hreread hadmits
    (hmirrored.admits hadmits hrecovers hfits ?_ ?_) hrecovers hweighs, ?_⟩
  · rw [Node.pared_plainGroup] at htree ⊢
    exact hmirrored.filed.2.names_of_compileTree htree
  · exact ⟨hadmits.tabular.name, by simp, fun _ _ => hkind⟩
  · have hname : ∀ given, pattern.name = some given → second.named? given = none := by
      intro given hgiven
      rw [hmirrored.named?]
      exact hadmits.unnamed given hgiven
    rw [Table.registerRow, if_neg hkind, run_register hname hcompile]
    exact run_add_of_short (hmirrored.free hadmits rfl rfl) hadmits.nonneg hshort

/-- Where rows have been read, the row of a pattern that the registry of the rows admits is read as
well. -/
theorem Reread.exists_registered :
    ∃ other serial, Reread (first.extend pattern) (second.extend other) ∧
      (Table.registerRow pattern.name pattern.kind pattern.id
        (first.tabulated pattern.content)).run second = (.ok serial, second.extend other) := by
  cases hcontent : pattern.content with
  | literal text => exact hreread.exists_registered_literal hadmits hshort hcontent
  | tree root =>
      obtain ⟨alternatives, rfl, hcanonical⟩ := hadmits.fits.canonical root hcontent
      exact hreread.exists_registered_tree hadmits hshort hcontent hcanonical

end Rows

theorem tabulated_eq_of_sameSymbols (hsymbols : SameSymbols first second) {content : Content}
    (hknown : first.Knows content.alternatives) :
    second.tabulated content = first.tabulated content := by
  cases content with
  | literal text => rfl
  | tree root => exact congrArg Phrase.textOf (phrases_eq_of_sameSymbols hsymbols hknown)

/-- Rows of a registry that rows have filled are read again. -/
theorem Reread.exists_filled (hreread : Reread first second) {added : List Pattern}
    {after : Registry} (hfilled : Filled first added after)
    (hshort : ∀ pattern ∈ added, (Nat.toDigits 10 pattern.id.toNat).length ≤ Text.mostDigits)
    (number : Nat) :
    ∃ again, Reread after again ∧
      (Table.readRows number (added.map fun pattern =>
        pattern.rowText (after.tabulated pattern.content))).run second = (.ok (), again) := by
  induction hfilled generalizing second number with
  | nil => exact ⟨second, hreread, rfl⟩
  | @cons first after pattern rest hadmits hrest ih =>
      have hfirst := hreread.mirrored.filed.1
      have hwritten := hshort pattern List.mem_cons_self
      obtain ⟨other, serial, hextended, hrun⟩ := hreread.exists_registered hadmits hwritten
      have hsame : after.tabulated pattern.content = first.tabulated pattern.content :=
        tabulated_eq_of_sameSymbols ((Filled.cons hadmits hrest).sameSymbols hfirst)
          hadmits.names.knows
      obtain ⟨again, hagain, hrows⟩ := ih hextended
        (fun found hfound => hshort found (List.mem_cons_of_mem _ hfound)) (number + 1)
      refine ⟨again, hagain, ?_⟩
      rw [List.map_cons, Table.readRows, hsame]
      exact (run_bind_of_ok
        (Table.run_readRow_rowText hadmits.tabular hadmits.nonneg hwritten hrun)).trans hrows

/-! ## The whole table -/

/-- The text of a table. -/
def tableText (registry : Registry) : String :=
  "\n".intercalate (Table.header :: registry.patterns.map fun pattern =>
    pattern.rowText (registry.tabulated pattern.content)) ++ "\n"

theorem Filed.row_eq (hfiled : registry.Filed) {pattern : Pattern}
    (hpattern : pattern ∈ registry.patterns)
    (hshort : (Nat.toDigits 10 pattern.id.toNat).length ≤ Text.mostDigits) :
    Table.row registry pattern =
      .ok (pattern.rowText (registry.tabulated pattern.content)) := by
  obtain ⟨serial, hentry, -⟩ := hfiled.coherent.exists_entry hpattern
  have hnonneg := (hfiled.bounded _ _ hentry).1
  have hidentity : ∀ name, pattern.name = some name → pattern.identity = .ok pattern.nameField := by
    intro name hname
    rw [Pattern.identity, Pattern.nameField, hname]
  unfold Table.row
  cases hname : pattern.name with
  | some name =>
      dsimp only
      rw [hidentity name hname, hfiled.describe_eq hpattern,
        Pattern.writeId_of_length hnonneg hshort]
      rfl
  | none =>
      have hfield : pattern.nameField = "" := by rw [Pattern.nameField, hname]
      dsimp only
      rw [hfiled.describe_eq hpattern, Pattern.writeId_of_length hnonneg hshort, Pattern.rowText,
        hfield]
      rfl

/-- A filed registry whose ids can be written is written as its table. -/
theorem Filed.write_eq (hfiled : registry.Filed)
    (hshort : ∀ pattern ∈ registry.patterns,
      (Nat.toDigits 10 pattern.id.toNat).length ≤ Text.mostDigits) :
    Table.write registry = .ok registry.tableText := by
  have hrows : registry.patterns.mapM (Table.row registry) =
      .ok (registry.patterns.map fun pattern =>
      pattern.rowText (registry.tabulated pattern.content)) :=
    mapM_eq_ok fun pattern hpattern => hfiled.row_eq hpattern (hshort pattern hpattern)
  rw [Table.write, hrows]
  rfl

/-- What a row says of a pattern stands on one line. -/
theorem Filed.isLine_tabulated (hfiled : registry.Filed) {pattern : Pattern}
    (hpattern : pattern ∈ registry.patterns) :
    IsLine (registry.tabulated pattern.content).toList := by
  cases hcontent : pattern.content with
  | literal text => exact ((hfiled.tabular pattern hpattern).literal text hcontent).2.quote
  | tree root =>
      obtain ⟨-, hcanonical⟩ := hfiled.sound.alternatives_eq
        (hfiled.coherent.mem_patterns_iff.mp hpattern) hcontent
      have hrereads := rereads_phrases hfiled.sound hfiled.legible true hcanonical
        (hfiled.legible pattern hpattern)
      rw [hcontent] at hrereads
      refine Phrase.isLine_textOf fun sequence hsequence phrase hphrase symbol hmention => ?_
      obtain ⟨id, found, hfound, -, rfl⟩ :=
        hrereads.mentions sequence hsequence phrase hphrase symbol hmention
      exact (hfiled.tabular found (hfiled.coherent.mem_patterns hfound)).isLine_symbol

theorem Filed.nonneg (hfiled : registry.Filed) {pattern : Pattern}
    (hpattern : pattern ∈ registry.patterns) : 0 ≤ pattern.id := by
  obtain ⟨serial, hentry, -⟩ := hfiled.coherent.exists_entry hpattern
  exact (hfiled.bounded _ _ hentry).1

theorem Filed.lines_tableText (hfiled : registry.Filed) :
    (Text.lines registry.tableText).filter (fun line => !(line.toList.all Text.isBlank)) =
      Table.header :: registry.patterns.map fun pattern =>
        pattern.rowText (registry.tabulated pattern.content) := by
  have hlines : ∀ line ∈ Table.header :: registry.patterns.map (fun pattern =>
      pattern.rowText (registry.tabulated pattern.content)),
        IsLine line.toList ∧ (!(line.toList.all Text.isBlank)) = true := by
    intro line hline
    rcases List.mem_cons.mp hline with rfl | hline
    · decide
    · obtain ⟨pattern, hpattern, rfl⟩ := List.mem_map.mp hline
      refine ⟨(hfiled.tabular pattern hpattern).isLine_rowText (hfiled.isLine_tabulated hpattern),
        ?_⟩
      rw [Pattern.all_isBlank_rowText (hfiled.nonneg hpattern)]
      rfl
  rw [tableText, Text.lines_intercalate fun line hline => (hlines line hline).1,
    List.filter_eq_self.mpr fun line hline => (hlines line hline).2]

/-- The table of a registry is read as a registry with pared trees. -/
theorem Filled.exists_reread {added : List Pattern} (hfilled : Filled {} added registry)
    (hshort : ∀ pattern ∈ registry.patterns,
      (Nat.toDigits 10 pattern.id.toNat).length ≤ Text.mostDigits) :
    ∃ again, Reread registry again ∧
      (Table.read registry.tableText).run {} = (.ok (), again) := by
  have hfiled := hfilled.filed filed_empty
  have hpatterns : registry.patterns = added := hfilled.patterns filed_empty
  obtain ⟨again, hreread, hrows⟩ := Reread.empty.exists_filled hfilled
    (fun pattern hpattern => hshort pattern (hpatterns ▸ hpattern)) 2
  refine ⟨again, hreread, ?_⟩
  unfold Table.read
  rw [hfiled.lines_tableText, hpatterns]
  dsimp only
  rw [if_pos (by decide)]
  exact hrows

/-- The table of a registry is read as a registry that mirrors it. -/
theorem Filled.exists_read {added : List Pattern} (hfilled : Filled {} added registry)
    (hshort : ∀ pattern ∈ registry.patterns,
      (Nat.toDigits 10 pattern.id.toNat).length ≤ Text.mostDigits) :
    ∃ again, Mirrored registry again ∧
      (Table.read registry.tableText).run {} = (.ok (), again) := by
  obtain ⟨again, hreread, hrun⟩ := hfilled.exists_reread hshort
  exact ⟨again, hreread.mirrored, hrun⟩

theorem map_eq_of_forall₂ {α β γ : Type} {related : α → β → Prop} {xs : List α} {ys : List β}
    (hrelated : List.Forall₂ related xs ys) {f : α → γ} {g : β → γ}
    (hsame : ∀ x ∈ xs, ∀ y ∈ ys, related x y → g y = f x) : ys.map g = xs.map f := by
  induction hrelated with
  | nil => rfl
  | cons hhead _ ih =>
      rw [List.map_cons, List.map_cons, hsame _ List.mem_cons_self _ List.mem_cons_self hhead,
        ih fun x hx y hy => hsame x (List.mem_cons_of_mem _ hx) y (List.mem_cons_of_mem _ hy)]

theorem Mirrored.tableText_eq (hmirrored : Mirrored first second) :
    second.tableText = first.tableText := by
  have hrows : second.patterns.map (fun pattern =>
    pattern.rowText (second.tabulated pattern.content)) =
      first.patterns.map fun pattern => pattern.rowText (first.tabulated pattern.content) :=
    map_eq_of_forall₂ hmirrored.patterns fun pattern hpattern other hother halike => by
      rw [halike.rowText, hmirrored.tabulated_eq hpattern hother halike]
  rw [tableText, tableText, hrows]

theorem Mirrored.fullDescriptions_eq (hmirrored : Mirrored first second) :
    (fullDescriptions.run second).1 = (fullDescriptions.run first).1 := by
  obtain ⟨hfirst, hsecond⟩ := hmirrored.filed
  rw [hfirst.run_fullDescriptions, hsecond.run_fullDescriptions]
  refine congrArg Except.ok (map_eq_of_forall₂ hmirrored.registered ?_)
  rintro entry hentry other - ⟨-, halike⟩
  obtain ⟨-, hpattern⟩ := mem_registered hentry
  exact hmirrored.fullText_eq (hfirst.sound.closed _ hpattern) halike.content

namespace Table

/-- A registry that has been read from a table and has no id of more digits than may be written is
written as a table; that table is read again, as a registry with the same ids in the same order, the
same names, kinds, literal texts and full descriptions and the same next id, and is written again as
it stands. -/
theorem read_write {text : String} (hread : (read text).run {} = (.ok (), registry))
    (hids : ∀ pattern ∈ registry.patterns, pattern.id < 10 ^ Text.mostDigits) :
    ∃ table again full, write registry = .ok table ∧ (read table).run {} = (.ok (), again) ∧
      write again = .ok table ∧
        (again.patterns.map fun pattern =>
            (pattern.id, pattern.name, pattern.kind, pattern.literal?)) =
          (registry.patterns.map fun pattern =>
            (pattern.id, pattern.name, pattern.kind, pattern.literal?)) ∧
          again.nextId = registry.nextId ∧ (fullDescriptions.run registry).1 = .ok full ∧
            (fullDescriptions.run again).1 = .ok full := by
  obtain ⟨added, hfilled⟩ := filled_of_run_read hread
  have hfiled := hfilled.filed filed_empty
  have hshort : ∀ pattern ∈ registry.patterns,
      (Nat.toDigits 10 pattern.id.toNat).length ≤ Text.mostDigits := by
    intro pattern hpattern
    exact Pattern.length_toDigits_le_of_lt (by decide) (hfiled.nonneg hpattern)
      (hids pattern hpattern)
  obtain ⟨again, hmirrored, hagain⟩ := hfilled.exists_read hshort
  have hsummary : (again.patterns.map fun pattern =>
        (pattern.id, pattern.name, pattern.kind, pattern.literal?)) =
      registry.patterns.map fun pattern =>
        (pattern.id, pattern.name, pattern.kind, pattern.literal?) :=
    map_eq_of_forall₂ hmirrored.patterns fun pattern _ other _ halike => by
      rw [halike.id, halike.name, halike.kind]
      exact congrArg (pattern.id, pattern.name, pattern.kind, ·) halike.content.literal
  have hshortAgain : ∀ pattern ∈ again.patterns,
      (Nat.toDigits 10 pattern.id.toNat).length ≤ Text.mostDigits := by
    intro pattern hpattern
    have hids : again.patterns.map Pattern.id = registry.patterns.map Pattern.id :=
      map_eq_of_forall₂ hmirrored.patterns fun _ _ _ _ halike => halike.id
    have hmem : pattern.id ∈ registry.patterns.map Pattern.id := by
      rw [← hids]
      exact List.mem_map_of_mem hpattern
    obtain ⟨origin, horigin, hid⟩ := List.mem_map.mp hmem
    rw [← hid]
    exact hshort origin horigin
  refine ⟨registry.tableText, again, _, hfiled.write_eq hshort, hagain, ?_, hsummary,
    hmirrored.nextId, hfiled.run_fullDescriptions, ?_⟩
  · rw [hmirrored.filed.2.write_eq hshortAgain, hmirrored.tableText_eq]
  · rw [hmirrored.fullDescriptions_eq, hfiled.run_fullDescriptions]

/-- A table with a quoted name, a nameless pattern that is repeated, and a look behind. -/
def sample : String :=
  "Id | Name | Type | Pattern\n4 | 'a b' | Literal | a\n-1 |  | Basics | ('a b')+ | <'a b'\n9 | C | Derived | ([5])\x7b2-3\x7d\n"

theorem read_write_sample :
    ∃ registry, (read sample).run {} = (.ok (), registry) ∧
      (∀ pattern ∈ registry.patterns, pattern.id < 10 ^ Text.mostDigits) ∧
        ∃ table again full, write registry = .ok table ∧ (read table).run {} = (.ok (), again) ∧
          write again = .ok table ∧
            (again.patterns.map fun pattern =>
                (pattern.id, pattern.name, pattern.kind, pattern.literal?)) =
              (registry.patterns.map fun pattern =>
                (pattern.id, pattern.name, pattern.kind, pattern.literal?)) ∧
              again.nextId = registry.nextId ∧ (fullDescriptions.run registry).1 = .ok full ∧
                (fullDescriptions.run again).1 = .ok full := by
  have haccepted : ((read sample).run {}).1.toOption.isSome = true := by decide +kernel
  have hsmall :
      ((read sample).run {}).2.patterns.all (fun pattern => decide (pattern.id < 10)) = true := by
    decide +kernel
  rcases hrun : (read sample).run {} with ⟨result, registry⟩
  rw [hrun] at haccepted hsmall
  cases result with
  | error fault => cases haccepted
  | ok value =>
      have hids : ∀ pattern ∈ registry.patterns, pattern.id < 10 ^ Text.mostDigits := by
        intro pattern hpattern
        have hlt : pattern.id < 10 := by simpa using List.all_eq_true.mp hsmall pattern hpattern
        have hten : ∀ digits : Nat, 0 < digits → (10 : Int) ≤ 10 ^ digits := by
          intro digits hdigits
          have hpower : 10 ^ 1 ≤ 10 ^ digits := Nat.pow_le_pow_right (by decide) hdigits
          exact_mod_cast hpower
        exact Int.lt_of_lt_of_le hlt (hten _ (by decide))
      exact ⟨registry, rfl, hids, read_write hrun hids⟩

/-- The greatest id that can be written. -/
@[irreducible]
def greatestId : Int :=
  10 ^ Text.mostDigits - 1

theorem greatestId_succ : greatestId + 1 = ((10 ^ Text.mostDigits : Nat) : Int) := by
  have hpower : ∀ digits : Nat, (10 : Int) ^ digits - 1 + 1 = ((10 ^ digits : Nat) : Int) := by
    intro digits
    push_cast
    omega
  unfold greatestId
  exact hpower _

theorem greatestId_nonneg : 0 ≤ greatestId := by
  have hsucc := greatestId_succ
  have hpositive : 0 < 10 ^ Text.mostDigits := Nat.pow_pos (by decide)
  generalize 10 ^ Text.mostDigits = power at hsucc hpositive
  omega

theorem length_toDigits_greatestId :
    (Nat.toDigits 10 greatestId.toNat).length ≤ Text.mostDigits := by
  refine (Nat.length_toDigits_le_iff (by decide) (by decide)).mpr ?_
  have hsucc := greatestId_succ
  have hnonneg := greatestId_nonneg
  generalize 10 ^ Text.mostDigits = power at hsucc ⊢
  omega

theorem mostDigits_lt_length_succ :
    Text.mostDigits < (Nat.toDigits 10 (greatestId + 1).natAbs).length := by
  rw [greatestId_succ, Int.natAbs_natCast]
  by_contra hlength
  have hlt := (Nat.length_toDigits_le_iff (b := 10) (k := Text.mostDigits) (by decide)
    (by decide)).mp (Nat.le_of_not_lt hlength)
  exact Nat.lt_irrefl _ hlt

/-- A literal under an id. -/
def under (id : Int) : Pattern where
  kind := .literal
  name := some "A"
  content := .literal "a"
  id := id

theorem tabular_under (id : Int) : (under id).Tabular where
  name := by
    rintro name ⟨⟩
    decide
  literal := by
    rintro text ⟨⟩
    exact ⟨rfl, by decide⟩
  tree := by
    rintro root ⟨⟩

/-- A literal that gets its id from the counter. -/
def next : Pattern where
  kind := .literal
  name := some "B"
  content := .literal "b"

/-- A table of a literal under an id, and of another one after it. -/
def counting (id : Int) : String :=
  "\n".intercalate [header, (under id).rowText "a", "-1 | B | Literal | b"] ++ "\n"

/-- The registry of such a table. -/
def counted (id : Int) : Registry :=
  (Registry.extend {} (under id)).extend
    { next with id := (Registry.extend {} (under id)).idFor next }

section Counting

variable {id : Int} (hid : 0 ≤ id)

include hid

theorem lines_counting :
    (Text.lines (counting id)).filter (fun line => !(line.toList.all Text.isBlank)) =
      [header, (under id).rowText "a", "-1 | B | Literal | b"] := by
  have hlines : ∀ line ∈ [header, (under id).rowText "a", "-1 | B | Literal | b"],
      IsLine line.toList ∧ (!(line.toList.all Text.isBlank)) = true := by
    intro line hline
    simp only [List.mem_cons, List.not_mem_nil, or_false] at hline
    rcases hline with rfl | rfl | rfl
    · decide
    · refine ⟨(tabular_under id).isLine_rowText (by decide), ?_⟩
      rw [Pattern.all_isBlank_rowText hid]
      rfl
    · decide
  rw [counting, Text.lines_intercalate fun line hline => (hlines line hline).1,
    List.filter_eq_self.mpr fun line hline => (hlines line hline).2]

variable (hshort : (Nat.toDigits 10 id.toNat).length ≤ Text.mostDigits)

include hshort

theorem run_readRow_under :
    (readRow 2 ((under id).rowText "a")).run {} = (.ok (), Registry.extend {} (under id)) := by
  have hfree : Free {} (under id) := ⟨by simp [named?], by simp [serialOf?]⟩
  have hregister : (registerRow (under id).name (under id).kind (under id).id "a").run {} =
      (.ok 0, Registry.extend {} (under id)) := run_add_of_short hfree hid hshort
  exact run_readRow_rowText (tabular_under id) hid hshort hregister

omit hid hshort in
theorem run_readRow_next :
    (readRow 3 "-1 | B | Literal | b").run (Registry.extend {} (under id)) =
      (.ok (), counted id) := by
  have hfree : (Registry.extend {} (under id)).Free next :=
    ⟨by rintro name ⟨⟩; rfl, fun hid => absurd hid (by decide)⟩
  have hregister : (registerRow (some "B") .literal (-1) "b").run (Registry.extend {} (under id)) =
      (.ok 1, counted id) := run_add_of_free hfree
  have hfields : Text.cutFields separator 3 "-1 | B | Literal | b".toList =
      [['-', '1'], ['B'], "Literal".toList, ['b']] := by decide +kernel
  exact run_readRow hfields rfl rfl hregister

theorem run_read_counting : (read (counting id)).run {} = (.ok (), counted id) := by
  unfold read
  rw [lines_counting hid]
  dsimp only
  rw [if_pos (by decide), readRows, run_bind_of_ok (run_readRow_under hid hshort), readRows]
  exact (run_bind_of_ok run_readRow_next).trans rfl

end Counting

/-- A table is written only if all ids can be. -/
theorem length_toDigits_of_write {table : String} (hwrite : write registry = .ok table)
    {pattern : Pattern} (hpattern : pattern ∈ registry.patterns) :
    (Nat.toDigits 10 pattern.id.natAbs).length ≤ Text.mostDigits := by
  obtain ⟨rows, hrows, -⟩ := bind_eq_ok_iff.mp hwrite
  obtain ⟨text, hrow⟩ := exists_of_mapM_eq_ok hrows pattern hpattern
  have hid : ∃ written, Pattern.writeId pattern.id = .ok written := by
    unfold row at hrow
    split at hrow
    · obtain ⟨name, -, hrow⟩ := bind_eq_ok_iff.mp hrow
      obtain ⟨description, -, hrow⟩ := bind_eq_ok_iff.mp hrow
      obtain ⟨written, hwritten, -⟩ := bind_eq_ok_iff.mp hrow
      exact ⟨written, hwritten⟩
    · obtain ⟨name, -, hrow⟩ := bind_eq_ok_iff.mp hrow
      obtain ⟨description, -, hrow⟩ := bind_eq_ok_iff.mp hrow
      obtain ⟨written, hwritten, -⟩ := bind_eq_ok_iff.mp hrow
      exact ⟨written, hwritten⟩
  obtain ⟨written, hwritten⟩ := hid
  unfold Pattern.writeId at hwritten
  split at hwritten
  next hlength =>
    rw [← String.length_toList] at hlength
    simpa using hlength
  next => cases hwritten

/-- A table can be accepted although the registry that results cannot be written: the counter goes
on past the greatest id. -/
theorem exists_read_not_write :
    ∃ registry, (read (counting greatestId)).run {} = (.ok (), registry) ∧
      ∀ table, write registry ≠ .ok table := by
  have hrun := run_read_counting greatestId_nonneg length_toDigits_greatestId
  refine ⟨counted greatestId, hrun, fun table hwrite => ?_⟩
  obtain ⟨added, hfilled⟩ := filled_of_run_read hrun
  have hcoherent := (hfilled.filed filed_empty).coherent
  have hmem : { next with id := (Registry.extend {} (under greatestId)).idFor next } ∈
      (counted greatestId).patterns :=
    hcoherent.mem_patterns_of_entry (mem_entries_extend.mpr (.inr ⟨rfl, rfl⟩))
      (by rw [counted, pattern?_extend_size])
  have hlength := length_toDigits_of_write hwrite hmem
  have hid : (Registry.extend {} (under greatestId)).idFor next = greatestId + 1 := by
    have hnonneg : (0 : Int) ≤ greatestId + 1 := by
      have hnonneg := greatestId_nonneg
      omega
    exact max_eq_right hnonneg
  rw [hid] at hlength
  exact Nat.not_lt.mpr hlength mostDigits_lt_length_succ

end Table

end Registry

end Motif
