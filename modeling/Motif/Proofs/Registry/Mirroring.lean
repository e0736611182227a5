import Motif.Proofs.Registry.Filing

/-!
# Mirrored registries

Two registries mirror each other if they have been filled with patterns of which each is like its
counterpart: only its tree may differ, and no description tells the two trees apart. So mirrored
registries are written as the same table, and their full descriptions agree.
-/

namespace Motif

open Node (Canonical plainGroup spellAlternatives)
open Phrase (wrap)

/-- No way of writing references tells the two contents apart. -/
structure Content.Alike (first second : Content) : Prop where
  literal : second.literal? = first.literal?
  spelled : ∀ leaf quantity look,
    wrap (spellAlternatives leaf false second.alternatives) quantity look =
      wrap (spellAlternatives leaf false first.alternatives) quantity look

/-- Two patterns that differ only in how their trees are built. -/
structure Pattern.Alike (first second : Pattern) : Prop where
  id : second.id = first.id
  name : second.name = first.name
  kind : second.kind = first.kind
  content : first.content.Alike second.content

theorem Pattern.Alike.symbol {first second : Pattern} (halike : first.Alike second) :
    second.symbol = first.symbol := by
  rw [Pattern.symbol, Pattern.symbol, halike.name, halike.id]

theorem Pattern.Alike.nameField {first second : Pattern} (halike : first.Alike second) :
    second.nameField = first.nameField := by
  rw [Pattern.nameField, Pattern.nameField, halike.name]

theorem Pattern.Alike.rowText {first second : Pattern} (halike : first.Alike second)
    (description : String) : second.rowText description = first.rowText description := by
  rw [Pattern.rowText, Pattern.rowText, halike.nameField, halike.id, halike.kind]

theorem Pattern.Alike.writable {first second : Pattern} (halike : first.Alike second)
    (hfirst : first.Writable) : second.Writable where
  name := by
    rw [halike.name]
    exact hfirst.name
  id := by
    rw [halike.name, halike.id]
    exact hfirst.id

theorem Content.Alike.eq_literal {first second : Content} (halike : first.Alike second)
    {text : String} (htext : first = .literal text) : second = .literal text := by
  have hliteral := halike.literal
  subst htext
  cases second with
  | literal other =>
      cases hliteral
      rfl
  | tree root => cases hliteral

/-- Of two contents that are alike the one is a tree if the other is. -/
theorem Content.Alike.exists_root {first second : Content} (halike : first.Alike second)
    {root : Node} (hroot : first = .tree root) : ∃ other, second = .tree other := by
  have hliteral := halike.literal
  subst hroot
  cases second with
  | literal text => cases hliteral
  | tree other => exact ⟨other, rfl⟩

namespace Registry

variable {first second : Registry}

/-- Registries filled step by step with patterns that are alike. -/
inductive Mirrored : Registry → Registry → Prop where
  | empty : Mirrored {} {}
  | extend {first second : Registry} {pattern other : Pattern} (hmirrored : Mirrored first second)
      (hfirst : first.Admits pattern) (hsecond : second.Admits other)
      (halike : pattern.Alike other) : Mirrored (first.extend pattern) (second.extend other)

namespace Mirrored

theorem filed (hmirrored : Mirrored first second) : first.Filed ∧ second.Filed := by
  induction hmirrored with
  | empty => exact ⟨filed_empty, filed_empty⟩
  | extend _ hfirst hsecond _ ih => exact ⟨ih.1.extend hfirst, ih.2.extend hsecond⟩

theorem size (hmirrored : Mirrored first second) : second.ledger.size = first.ledger.size := by
  induction hmirrored with
  | empty => rfl
  | extend _ _ _ _ ih => simp [Registry.extend, ih]

theorem entries (hmirrored : Mirrored first second) : second.entries = first.entries := by
  induction hmirrored with
  | empty => rfl
  | extend hmirrored _ _ halike ih => simp [Registry.extend, ih, hmirrored.size, halike.id]

theorem nextId (hmirrored : Mirrored first second) : second.nextId = first.nextId := by
  induction hmirrored with
  | empty => rfl
  | extend _ _ _ halike ih => simp [Registry.extend, ih, halike.id]

theorem names (hmirrored : Mirrored first second) : second.names = first.names := by
  induction hmirrored with
  | empty => rfl
  | extend hmirrored _ _ halike ih => simp [Registry.extend, ih, hmirrored.size, halike.name]

theorem serialOf? (hmirrored : Mirrored first second) (id : Int) :
    second.serialOf? id = first.serialOf? id := by
  rw [Registry.serialOf?, Registry.serialOf?, hmirrored.entries]

theorem named? (hmirrored : Mirrored first second) (name : String) :
    second.named? name = first.named? name := by
  rw [Registry.named?, Registry.named?, hmirrored.names]

theorem pattern? (hmirrored : Mirrored first second) {serial : Serial} {pattern : Pattern}
    (hpattern : first.pattern? serial = some pattern) :
    ∃ other, second.pattern? serial = some other ∧ pattern.Alike other := by
  induction hmirrored with
  | empty => cases hpattern
  | @extend first second added other hmirrored _ _ halike ih =>
      rw [pattern?_extend] at hpattern
      rw [pattern?_extend, hmirrored.size]
      split at hpattern
      next hserial =>
        cases hpattern
        exact ⟨other, if_pos hserial, halike⟩
      next hserial =>
        obtain ⟨found, hfound, hlike⟩ := ih hpattern
        exact ⟨found, by rw [if_neg hserial, hfound], hlike⟩

theorem byId? (hmirrored : Mirrored first second) {id : Int} {pattern : Pattern}
    (hpattern : first.byId? id = some pattern) :
    ∃ other, second.byId? id = some other ∧ pattern.Alike other := by
  rw [Registry.byId?, Option.bind_eq_some_iff] at hpattern
  obtain ⟨serial, hserial, hpattern⟩ := hpattern
  obtain ⟨other, hother, halike⟩ := hmirrored.pattern? hpattern
  exact ⟨other, by simp [Registry.byId?, hmirrored.serialOf?, hserial, hother], halike⟩

theorem registered (hmirrored : Mirrored first second) :
    List.Forall₂ (fun entry other => other.1 = entry.1 ∧ entry.2.Alike other.2) first.registered
      second.registered := by
  unfold Registry.registered
  rw [hmirrored.entries]
  obtain ⟨hfiled, -⟩ := hmirrored.filed
  have hpatterns : ∀ entry ∈ first.entries, ∃ pattern, first.pattern? entry.2 = some pattern := by
    intro entry hentry
    obtain ⟨pattern, hpattern, -⟩ := hfiled.coherent.exists_pattern hentry
    exact ⟨pattern, hpattern⟩
  generalize first.entries = entries at hpatterns
  induction entries with
  | nil => exact .nil
  | cons entry rest ih =>
      obtain ⟨pattern, hpattern⟩ := hpatterns entry List.mem_cons_self
      obtain ⟨other, hother, halike⟩ := hmirrored.pattern? hpattern
      rw [List.filterMap_cons_some (by rw [hpattern]; rfl),
        List.filterMap_cons_some (by rw [hother]; rfl)]
      exact .cons ⟨rfl, halike⟩ (ih fun found hfound =>
        hpatterns found (List.mem_cons_of_mem _ hfound))

theorem patterns (hmirrored : Mirrored first second) :
    List.Forall₂ Pattern.Alike first.patterns second.patterns := by
  have hregistered := hmirrored.registered
  unfold Registry.patterns
  rw [List.forall₂_map_left_iff, List.forall₂_map_right_iff]
  exact hregistered.imp fun _ _ hentries => hentries.2

end Mirrored

/-! ## Descriptions with ids -/

/-- Every pattern of the first registry is referred to in the second by the same lexeme. -/
def SameSymbols (first second : Registry) : Prop :=
  ∀ id pattern, first.byId? id = some pattern →
    ∃ other, second.byId? id = some other ∧ other.symbol = pattern.symbol

theorem phrases_eq_of_sameSymbols (hsymbols : SameSymbols first second)
    {alternatives : List (List Node)} (hknown : first.Knows alternatives) :
    second.phrases true alternatives = first.phrases true alternatives := by
  refine Node.spellAlternatives_congr (fun id hid behind => ?_) false
  obtain ⟨pattern, hpattern⟩ := Option.isSome_iff_exists.mp (hknown id hid)
  obtain ⟨other, hother, hsymbol⟩ := hsymbols id pattern hpattern
  simp [reference, hpattern, hother, hsymbol]

theorem Mirrored.sameSymbols (hmirrored : Mirrored first second) : SameSymbols first second := by
  intro id pattern hpattern
  obtain ⟨other, hother, halike⟩ := hmirrored.byId? hpattern
  exact ⟨other, hother, halike.symbol⟩

theorem Filled.sameSymbols {added : List Pattern} (hfilled : Filled first added second)
    (hfiled : first.Filed) : SameSymbols first second := by
  induction hfilled with
  | nil => exact fun _ pattern hpattern => ⟨pattern, hpattern, rfl⟩
  | cons hadmits _ ih =>
      intro id pattern hpattern
      have hextended := hfiled.extend hadmits
      exact ih hextended id pattern (byId?_extend hfiled.toOrderly hextended.coherent hpattern)

variable {registry : Registry}

theorem writes_reference_useIds {inline : Pattern → Except Fault String}
    {inside : Int → List (List Phrase)} {id : Int} {pattern : Pattern}
    (hpattern : registry.byId? id = some pattern) (hwritable : pattern.Writable) :
    registry.Writes inline { useIds := true } (registry.reference true inside) id := by
  intro behind
  refine ⟨.atom pattern.symbol .once .here, by simp [reference, hpattern], ⟨rfl, rfl⟩, ?_⟩
  have htext : (Phrase.atom pattern.symbol .once .here).text = pattern.symbol.text := by
    simp [Phrase.text, Look.mark, Quantity.suffix_once]
  rw [referenceText_eq hpattern, Pattern.identity_eq hwritable, htext]
  cases pattern.content <;> simp

/-- A description with ids has no plain parentheses around all of it. -/
theorem unwrapped_phrases {alternatives : List (List Node)} (hcanonical : Canonical alternatives)
    (hnames : registry.Names alternatives) :
    Phrase.unwrapped (registry.phrases true alternatives) = registry.phrases true alternatives := by
  have hwrites : ∀ id ∈ (plainGroup alternatives).references,
      registry.Writes (fun _ => .error .endless) { useIds := true }
        (registry.reference true registry.inlined) id := by
    intro id hid
    obtain ⟨pattern, hpattern, hwritable⟩ := hnames id hid
    exact writes_reference_useIds hpattern hwritable
  refine unwrapped_spellAlternatives hcanonical.full hcanonical.tight hcanonical.unwrapped hwrites
    fun id hid behind => ?_
  obtain ⟨pattern, hpattern, -⟩ := hnames id hid
  exact ⟨pattern.symbol, by simp [reference, hpattern]⟩

/-- What a row of a table says of a content. -/
def tabulated (registry : Registry) : Content → String
  | .literal text => Text.quote text
  | .tree root => Phrase.textOf (registry.phrases true root.alternatives)

theorem Filed.describe_eq (hfiled : registry.Filed) {pattern : Pattern}
    (hpattern : pattern ∈ registry.patterns) :
    registry.describe pattern true = .ok (registry.tabulated pattern.content) := by
  cases hcontent : pattern.content with
  | literal text =>
      rw [describe, depthBound, describeWithin, hcontent]
      rfl
  | tree root =>
      have hfound := hfiled.coherent.mem_patterns_iff.mp hpattern
      obtain ⟨rfl, hcanonical⟩ := hfiled.sound.alternatives_eq hfound hcontent
      exact Registry.describe_eq hfiled.sound hfiled.legible true hcontent hcanonical
        (hfiled.legible pattern hpattern)

/-- Trees that are alike are described by the same phrases in mirrored registries. -/
theorem Mirrored.phrases_eq (hmirrored : Mirrored first second) {pattern other : Pattern}
    (hpattern : pattern ∈ first.patterns) (hother : other ∈ second.patterns)
    (halike : pattern.Alike other) {root again : Node} (hroot : pattern.content = .tree root)
    (hagain : other.content = .tree again) :
    second.phrases true other.content.alternatives =
      first.phrases true pattern.content.alternatives := by
  obtain ⟨hfirst, hsecond⟩ := hmirrored.filed
  obtain ⟨-, hcanonical⟩ := hfirst.sound.alternatives_eq
    (hfirst.coherent.mem_patterns_iff.mp hpattern) hroot
  obtain ⟨-, hcanonicalAgain⟩ := hsecond.sound.alternatives_eq
    (hsecond.coherent.mem_patterns_iff.mp hother) hagain
  have hnames := hfirst.legible pattern hpattern
  have hspelled := Phrase.unwrapped_eq_of_wrap_eq (halike.content.spelled
    (second.reference true second.inlined) .never .here)
  rw [← unwrapped_phrases hcanonicalAgain (hsecond.legible other hother),
    ← unwrapped_phrases hcanonical hnames,
    ← phrases_eq_of_sameSymbols hmirrored.sameSymbols hnames.knows]
  exact hspelled

/-- Contents that are alike are tabulated alike in mirrored registries. -/
theorem Mirrored.tabulated_eq (hmirrored : Mirrored first second) {pattern other : Pattern}
    (hpattern : pattern ∈ first.patterns) (hother : other ∈ second.patterns)
    (halike : pattern.Alike other) :
    second.tabulated other.content = first.tabulated pattern.content := by
  cases hcontent : pattern.content with
  | literal text =>
      rw [halike.content.eq_literal hcontent]
      rfl
  | tree root =>
      obtain ⟨again, hagain⟩ := halike.content.exists_root hcontent
      have hphrases := hmirrored.phrases_eq hpattern hother halike hcontent hagain
      rw [hcontent, hagain] at hphrases
      rw [hagain]
      exact congrArg Phrase.textOf hphrases

/-! ## Full descriptions -/

theorem Mirrored.spelling_eq (hmirrored : Mirrored first second) {id : Int}
    (hid : (first.byId? id).isSome) (quantity : Quantity) (look : Look) :
    wrap (second.spelling id) quantity look = wrap (first.spelling id) quantity look := by
  obtain ⟨hfirst, hsecond⟩ := hmirrored.filed
  refine hfirst.grounded.induction (motive := fun id => ∀ quantity look,
    wrap (second.spelling id) quantity look = wrap (first.spelling id) quantity look)
    (fun id pattern hpattern hbelow quantity look => ?_) hid quantity look
  obtain ⟨other, hother, halike⟩ := hmirrored.byId? hpattern
  rw [Registry.spelling_eq hfirst.grounded hpattern, Registry.spelling_eq hsecond.grounded hother]
  cases hcontent : pattern.content with
  | literal text =>
      rw [halike.content.eq_literal hcontent]
      rfl
  | tree root =>
      obtain ⟨again, hagain⟩ := halike.content.exists_root hcontent
      have hspelled := halike.content.spelled (fun _ => second.spelling) quantity look
      rw [hcontent, hagain] at hspelled
      rw [hagain, spellContent, spellContent]
      refine hspelled.trans (congrArg (wrap · quantity look) ?_)
      refine Node.spellAlternatives_congr_of_wrap (fun id hid _ quantity look => ?_) false
      have hreference : id ∈ pattern.content.references := by
        rw [hcontent]
        exact Content.mem_references (.tree root) hid
      exact (hbelow id hreference).2 quantity look

theorem Mirrored.fullText_eq (hmirrored : Mirrored first second) {content again : Content}
    (hknown : ∀ id ∈ content.references, (first.byId? id).isSome) (halike : content.Alike again) :
    second.fullText again = first.fullText content := by
  cases content with
  | literal text =>
      rw [halike.eq_literal rfl]
      rfl
  | tree root =>
      obtain ⟨other, rfl⟩ := halike.exists_root rfl
      have hspelled := Phrase.unwrapped_eq_of_wrap_eq
        (halike.spelled (fun _ => second.spelling) .never .here)
      have hsame : second.fullPhrases root.alternatives = first.fullPhrases root.alternatives := by
        refine Node.spellAlternatives_congr_of_wrap (fun id hid _ quantity look => ?_) false
        have hidKnown := hknown id (Content.mem_references (.tree root) hid)
        exact hmirrored.spelling_eq hidKnown quantity look
      rw [fullText, fullText, ← hsame]
      exact congrArg Phrase.textOf hspelled

end Registry

end Motif
