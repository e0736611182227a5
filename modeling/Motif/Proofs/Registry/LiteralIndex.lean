import Motif.Proofs.Registry.Rolls
import Motif.Proofs.Registry.Taming

/-!
# The index of literal texts

Several registered patterns may have the same literal text, and the index keeps one of them. What
it gives for a text is always a registered pattern with that text. When that pattern is removed,
though, none of the others takes its place, so the index misses them until another one is added.
-/

namespace Motif.Registry

variable {registry before middle after : Registry} {text : String}
  {serial other : Serial}

/-- The pattern of a serial is registered and has a literal text. -/
def HasLiteral (registry : Registry) (serial : Serial) (text : String) : Prop :=
  ∃ pattern, (serial, pattern) ∈ registry.registered ∧ pattern.literal? = some text

/-- Some registered pattern has a literal text. -/
def Covers (registry : Registry) (text : String) : Prop :=
  ∃ serial, registry.HasLiteral serial text

/-- The index gives a pattern for a text exactly if some registered pattern has that text. -/
def IsIndexed (registry : Registry) (text : String) : Prop :=
  (registry.literalFor? text).isSome ↔ registry.Covers text

theorem literalFor?_eq_none_iff :
    registry.literalFor? text = none ↔ ∀ serial, (text, serial) ∉ registry.literals := by
  rw [literalFor?, List.lookup_eq_none_iff]
  constructor
  · intro hnone serial hentry
    simpa using hnone _ hentry
  · rintro hnone ⟨other, serial⟩ hentry
    rw [bne_iff_ne]
    rintro rfl
    exact hnone serial hentry

theorem literalFor?_extend (registry : Registry) (pattern : Pattern) (text : String) :
    (registry.extend pattern).literalFor? text =
      if pattern.literal? = some text then
        some ((registry.literalFor? text).getD registry.ledger.size)
      else registry.literalFor? text := by
  unfold extend literalFor?
  dsimp only
  cases pattern.literal? with
  | none => simp
  | some given =>
      dsimp only
      by_cases hgiven : given = text
      · subst hgiven
        cases hfound : registry.literals.lookup given <;> simp [hfound]
      · have hbeq : (text == given) = false := by simpa using Ne.symm hgiven
        split <;> simp [List.lookup_cons, hgiven, hbeq]

/-! ## Changes that remove no pattern -/

/-- What the index gives is as before. Where it leads to other patterns these are new, and a new
pattern with a literal text makes sure that the index gives one for the text. -/
structure KeepsIndex (before after : Registry) : Prop where
  kept : ∀ text serial, before.literalFor? text = some serial →
    after.literalFor? text = some serial
  mem_literals : ∀ text serial, (text, serial) ∈ after.literals →
    (text, serial) ∈ before.literals ∨ before.ledger.size ≤ serial
  indexed : ∀ text serial, after.HasLiteral serial text →
    before.HasLiteral serial text ∨ (after.literalFor? text).isSome
  size_le : before.ledger.size ≤ after.ledger.size

namespace KeepsIndex

theorem refl (registry : Registry) : KeepsIndex registry registry where
  kept _ _ := id
  mem_literals _ _ := .inl
  indexed _ _ := .inl
  size_le := Nat.le_refl _

theorem trans (hfirst : KeepsIndex before middle) (hsecond : KeepsIndex middle after) :
    KeepsIndex before after where
  kept text serial hfound := hsecond.kept text serial (hfirst.kept text serial hfound)
  mem_literals text serial hentry := by
    rcases hsecond.mem_literals text serial hentry with hentry | hle
    · exact hfirst.mem_literals text serial hentry
    · exact .inr (hfirst.size_le.trans hle)
  indexed text serial hliteral := by
    rcases hsecond.indexed text serial hliteral with hliteral | hsome
    · apply (hfirst.indexed text serial hliteral).imp_right
      intro hsome
      obtain ⟨found, hfound⟩ := Option.isSome_iff_exists.mp hsome
      rw [hsecond.kept text found hfound, Option.isSome_some]
    · exact .inr hsome
  size_le := hfirst.size_le.trans hsecond.size_le

theorem recalled (hrecalls : registry.Recalls after) : KeepsIndex registry after := by
  rw [hrecalls.same]
  exact { refl registry with }

/-- The first pattern with a literal text enters the index. -/
theorem extend (hcoherent : registry.Coherent) (pattern : Pattern) :
    KeepsIndex registry (registry.extend pattern) where
  kept text serial hfound := by
    rw [literalFor?_extend, hfound]
    simp
  mem_literals text serial hentry := by
    unfold Registry.extend at hentry
    dsimp only at hentry
    split at hentry
    · split at hentry
      · exact .inl hentry
      · rcases List.mem_cons.mp hentry with heq | hentry
        · cases heq
          exact .inr (Nat.le_refl _)
        · exact .inl hentry
    · exact .inl hentry
  indexed := by
    rintro text serial ⟨found, hfound, htext⟩
    rw [hcoherent.registered_extend, List.mem_append, List.mem_singleton] at hfound
    apply hfound.imp
    · intro hfound
      exact ⟨found, hfound, htext⟩
    · rintro ⟨⟩
      rw [literalFor?_extend, if_pos htext, Option.isSome_some]
  size_le := by simp [Registry.extend]

theorem renamed {pattern : Pattern} (hpattern : registry.pattern? serial = some pattern)
    (name : String) (kind : Option Kind) :
    KeepsIndex registry (registry.renamed serial pattern name kind) where
  kept _ _ := id
  mem_literals _ _ := .inl
  indexed := by
    rintro text other ⟨found, hfound, htext⟩
    rw [registered_renamed hpattern] at hfound
    obtain ⟨⟨same, origin⟩, horigin, heq⟩ := List.mem_map.mp hfound
    dsimp only at heq
    split at heq
    next hserial =>
      cases heq
      subst hserial
      obtain rfl := Option.some.inj (hpattern.symm.trans (mem_registered horigin).1)
      exact .inl ⟨pattern, horigin, htext⟩
    next =>
      cases heq
      exact .inl ⟨found, horigin, htext⟩
  size_le := by simp [Registry.renamed]

end KeepsIndex

/-- The registry is tidy, and the index is as after additions to another registry. -/
def TidilyIndexed (before after : Registry) : Prop :=
  after.Tidy ∧ KeepsIndex before after

theorem TidilyIndexed.keeps_add (hindexed : TidilyIndexed before registry) {pattern : Pattern}
    (hfits : registry.Fits pattern.content) :
    KeepsFrom (TidilyIndexed before) registry (add pattern) := by
  refine keepsFrom_add hindexed fun hfree => ⟨lasting_tidy.extend hindexed.1 hfree hfits, ?_⟩
  exact hindexed.2.trans (.extend hindexed.1.coherent _)

theorem additive_tidilyIndexed (before : Registry) : Additive (TidilyIndexed before) where
  addLiteral hindexed text name id kind := hindexed.keeps_add (.literal text)
  register hindexed name kind text id := by
    refine keepsFrom_register hindexed fun pattern hpattern => ?_
    have hfits := fits_of_compile hpattern
    exact hindexed.keeps_add hfits

/-- Every operation keeps the index, except that one may remove a pattern. -/
theorem Operation.index_cases (htidy : registry.Tidy) (operation : Operation) :
    KeepsIndex registry (operation.applyTo registry) ∨
      ∃ serial pattern, operation = .unregister serial ∧
        registry.pattern? serial = some pattern ∧
        operation.applyTo registry = registry.without serial pattern := by
  have hindexed : TidilyIndexed registry registry := ⟨htidy, .refl registry⟩
  have hadditive := additive_tidilyIndexed registry
  cases operation with
  | registerBasics => exact .inl (hadditive.keeps_registerBasics hindexed).2
  | register name kind text id =>
      exact .inl (hadditive.register hindexed name kind text id).discard.2
  | addLiteral text name id kind =>
      exact .inl (hadditive.addLiteral hindexed text name id kind).discard.2
  | registerExperiment text =>
      have hkept : KeepsFrom (TidilyIndexed registry) registry (Registry.registerExperiment text) :=
        htidy.keepsFrom_registerExperiment
          (fun _ hrecalls => ⟨hrecalls.tidy htidy, .recalled hrecalls⟩)
          fun _ _ hcompile _ hrecalls =>
            TidilyIndexed.keeps_add ⟨hrecalls.tidy htidy, .recalled hrecalls⟩
              (hrecalls.fits (fits_of_compile hcompile))
      exact .inl hkept.discard.2
  | readTable text => exact .inl (hadditive.keeps_read hindexed text).2
  | rename id name kind =>
      left
      rw [applyTo, perform, run_read_bind]
      cases hfound : registry.registered.find? fun entry => entry.2.id = id with
      | none => exact .refl registry
      | some entry =>
          have hregistered := (mem_registered (List.mem_of_find?_eq_some hfound)).1
          have hkept : KeepsFrom (KeepsIndex registry) registry
              (Registry.rename entry.1 entry.2 name kind) :=
            keepsFrom_rename (.refl registry) fun _ => .renamed hregistered name kind
          exact hkept
  | unregister serial =>
      rw [applyTo, perform, run_read_bind]
      cases hpattern : registry.pattern? serial with
      | none => exact .inl (.refl registry)
      | some pattern =>
          dsimp only
          rcases unregister_cases registry serial pattern with ⟨fault, hrun⟩ | ⟨-, hrun⟩
          · rw [hrun]
            exact .inl (.refl registry)
          · rw [hrun]
            split
            · exact .inr ⟨serial, pattern, rfl, hpattern, rfl⟩
            · exact .inl (.refl registry)

/-! ## Removing a pattern -/

section Removing

variable {pattern : Pattern}

theorem hasLiteral_of_without (hliteral : (registry.without serial pattern).HasLiteral other text) :
    registry.HasLiteral other text := by
  obtain ⟨found, hfound, htext⟩ := hliteral
  rw [registered_without] at hfound
  exact ⟨found, List.mem_of_mem_filter hfound, htext⟩

/-- The index loses no pattern but the one that is removed. -/
theorem literalFor?_without (hfound : registry.literalFor? text = some other)
    (hother : other ≠ serial) :
    (registry.without serial pattern).literalFor? text = some other :=
  lookup_dropEntry hfound hother

end Removing

/-- In no operation does the index get an entry for a pattern that was there before. -/
theorem Operation.mem_literals_applyTo (htidy : registry.Tidy) (operation : Operation)
    (hentry : (text, serial) ∈ (operation.applyTo registry).literals) :
    (text, serial) ∈ registry.literals ∨ registry.ledger.size ≤ serial := by
  rcases operation.index_cases htidy with hkeeps | ⟨gone, pattern, -, -, happly⟩
  · exact hkeeps.mem_literals text serial hentry
  · rw [happly] at hentry
    exact .inl (mem_dropEntry.mp hentry).1

/-! ## Histories -/

theorem literalsLead_history (operations : List Operation) :
    (history operations).LiteralsLead := by
  suffices hboth : (history operations).Tidy ∧ (history operations).LiteralsLead from hboth.2
  induction operations using List.reverseRecOn with
  | nil => exact ⟨tidy_empty, fun _ _ hentry => absurd hentry List.not_mem_nil⟩
  | append_singleton earlier operation ih =>
      rw [history_append]
      exact lasting_literalsLead.applyTo ih operation

theorem HasLiteral.lt_size (hliteral : registry.HasLiteral serial text) :
    serial < registry.ledger.size := by
  obtain ⟨pattern, hpattern, -⟩ := hliteral
  exact lt_size_of_pattern? (mem_registered hpattern).1

/-- At some time the pattern that the index had for a text was removed, and the index was left
without one for the text. Some pattern has the text in the end, and all that have it had it then. -/
def Forsakes (operations : List Operation) (text : String) : Prop :=
  ∃ earlier serial later, operations = earlier ++ .unregister serial :: later ∧
    (history earlier).literalFor? text = some serial ∧
    (history (earlier ++ [.unregister serial])).literalFor? text = none ∧
    (history operations).Covers text ∧
    ∀ other, (history operations).HasLiteral other text → (history earlier).HasLiteral other text

/-- Where the index misses a pattern it has been left without one. -/
theorem forsakes_of_missed (operations : List Operation)
    (hcovers : (history operations).Covers text)
    (hnone : (history operations).literalFor? text = none) : Forsakes operations text := by
  induction operations using List.reverseRecOn with
  | nil =>
      obtain ⟨serial, hliteral⟩ := hcovers
      exact absurd hliteral.lt_size (Nat.not_lt_zero serial)
  | append_singleton earlier operation ih =>
      have htidy := tidy_history earlier
      rw [history_append] at hcovers hnone
      -- What the index misses had the text before the last operation already.
      have hbefore (other : Serial)
          (hliteral : (operation.applyTo (history earlier)).HasLiteral other text) :
          (history earlier).HasLiteral other text := by
        rcases operation.index_cases htidy with hkeeps | ⟨serial, pattern, -, -, happly⟩
        · apply (hkeeps.indexed text other hliteral).resolve_right
          simp [hnone]
        · rw [happly] at hliteral
          exact hasLiteral_of_without hliteral
      obtain ⟨other, hother⟩ := hcovers
      cases hfound : (history earlier).literalFor? text with
      | none =>
          obtain ⟨first, serial, later, rfl, hindexed, hleft, -, hthen⟩ :=
            ih ⟨other, hbefore other hother⟩ hfound
          refine ⟨first, serial, later ++ [operation], by simp, hindexed, hleft, ?_, ?_⟩
          · rw [history_append]
            exact ⟨other, hother⟩
          · intro last hlast
            rw [history_append] at hlast
            exact hthen last (hbefore last hlast)
      | some serial =>
          rcases operation.index_cases htidy with hkeeps | ⟨gone, pattern, rfl, -, happly⟩
          · rw [hkeeps.kept text serial hfound] at hnone
            cases hnone
          · obtain rfl : serial = gone := by
              by_contra hother
              rw [happly, literalFor?_without hfound hother] at hnone
              cases hnone
            refine ⟨earlier, serial, [], rfl, hfound, ?_, ?_, ?_⟩
            · rw [history_append, hnone]
            · rw [history_append]
              exact ⟨other, hother⟩
            · intro last hlast
              rw [history_append] at hlast
              exact hbefore last hlast

theorem size_ledger_le (earlier later : List Operation) :
    (history earlier).ledger.size ≤ (history (earlier ++ later)).ledger.size := by
  induction later using List.reverseRecOn with
  | nil => simp
  | append_singleton middle operation ih =>
      rw [← List.append_assoc, history_append]
      exact ih.trans (operation.tidilyFollows (tidy_history _)).2.size_le.1

/-- An index that has been left without a pattern for a text only gets new ones for it. -/
theorem le_of_mem_literals (earlier later : List Operation)
    (hnone : (history earlier).literalFor? text = none)
    (hentry : (text, serial) ∈ (history (earlier ++ later)).literals) :
    (history earlier).ledger.size ≤ serial := by
  induction later using List.reverseRecOn generalizing serial with
  | nil =>
      rw [List.append_nil] at hentry
      exact absurd hentry (literalFor?_eq_none_iff.mp hnone serial)
  | append_singleton middle operation ih =>
      rw [← List.append_assoc, history_append] at hentry
      rcases operation.mem_literals_applyTo (tidy_history _) hentry with hentry | hle
      · exact ih hentry
      · exact (size_ledger_le earlier middle).trans hle

/-- Where the index has been left without a pattern it misses those that were there then. -/
theorem missed_of_forsakes {operations : List Operation} (hforsakes : Forsakes operations text) :
    (history operations).Covers text ∧ (history operations).literalFor? text = none := by
  obtain ⟨earlier, serial, later, hsplit, -, hnone, hcovers, hthen⟩ := hforsakes
  have hoperations : operations = (earlier ++ [.unregister serial]) ++ later := by simp [hsplit]
  refine ⟨hcovers, ?_⟩
  rw [literalFor?_eq_none_iff]
  intro other hentry
  -- What the index gives in the end would be a new pattern, but all that have the text are old.
  have hold := (hthen other (literalsLead_history operations text other hentry)).lt_size
  rw [hoperations] at hentry
  have hnew := le_of_mem_literals _ later hnone hentry
  have hsize := size_ledger_le earlier [.unregister serial]
  exact Nat.not_lt.mpr (hsize.trans hnew) hold

theorem isIndexed_history_iff (operations : List Operation) (text : String) :
    (history operations).IsIndexed text ↔ ¬ Forsakes operations text := by
  have hcovers (hsome : ((history operations).literalFor? text).isSome) :
      (history operations).Covers text := by
    obtain ⟨serial, hserial⟩ := Option.isSome_iff_exists.mp hsome
    exact ⟨serial, literalsLead_history operations text serial
      (mem_of_lookup hserial)⟩
  constructor
  · intro hindexed hforsakes
    obtain ⟨hcovers, hnone⟩ := missed_of_forsakes hforsakes
    have hsome := hindexed.mpr hcovers
    rw [hnone] at hsome
    cases hsome
  · intro hforsakes
    refine ⟨hcovers, fun hcovers => ?_⟩
    by_contra hnone
    exact hforsakes (forsakes_of_missed operations hcovers (by simpa using hnone))

/-- A character is in the alphabet if the index gives a pattern for it. -/
theorem mem_alphabet_iff {c : Char} :
    c ∈ registry.alphabet ↔ (registry.literalFor? (single c)).isSome := by
  rw [alphabet, List.mem_filterMap]
  constructor
  · rintro ⟨⟨key, serial⟩, hentry, hletter⟩
    have hkey : key = single c := by
      apply String.toList_injective
      simp only [single, String.toList_ofList]
      split at hletter
      next other hlist =>
        cases hletter
        exact hlist
      next => cases hletter
    subst hkey
    by_contra hnone
    exact literalFor?_eq_none_iff.mp (by simpa using hnone) serial hentry
  · intro hsome
    obtain ⟨serial, hserial⟩ := Option.isSome_iff_exists.mp hsome
    apply Exists.intro
    exact ⟨mem_of_lookup hserial, by simp [single]⟩

/-- Whatever a registry has gone through, what the index gives for a text is a registered pattern
with that text. The index and the alphabet miss no registered pattern, unless the one that they had
was removed while there were others with its text and none has been added since. -/
theorem literalFor?_history (operations : List Operation) :
    (∀ text serial, (history operations).literalFor? text = some serial →
      (history operations).HasLiteral serial text) ∧
    (∀ text, (history operations).IsIndexed text ↔ ¬ Forsakes operations text) ∧
    ∀ c, (c ∈ (history operations).alphabet ↔ (history operations).Covers (single c)) ↔
      ¬ Forsakes operations (single c) := by
  refine ⟨?_, isIndexed_history_iff operations, fun c => ?_⟩
  · intro text serial hserial
    exact literalsLead_history operations text serial (mem_of_lookup hserial)
  · rw [mem_alphabet_iff]
    exact isIndexed_history_iff operations (single c)

/-- Two literals with one text, the first of which is removed again. -/
def twins : List Operation :=
  [.addLiteral "a" (some "x") (-1) .literal, .addLiteral "a" (some "y") (-1) .literal,
    .unregister 0]

/-- The index does not give the literal that is left. -/
theorem not_isIndexed_twins : (history twins).HasLiteral 1 "a" ∧
    ¬ (history twins).IsIndexed "a" ∧ 'a' ∉ (history twins).alphabet := by
  have hregistered : (history twins).registered =
      [(1, { kind := .literal, name := some "y", content := .literal "a", id := 1 })] := rfl
  have hindex : (history twins).literalFor? "a" = none := rfl
  have hliteral : (history twins).HasLiteral 1 "a" := by
    rw [HasLiteral, hregistered]
    exact ⟨_, List.mem_cons_self, rfl⟩
  refine ⟨hliteral, fun hindexed => ?_, ?_⟩
  · have hsome := hindexed.mpr ⟨1, hliteral⟩
    rw [hindex] at hsome
    cases hsome
  · rw [mem_alphabet_iff]
    exact ne_true_of_eq_false (congrArg Option.isSome hindex)

end Motif.Registry
