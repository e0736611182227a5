import Motif.Proofs.Registry.Christening
import Motif.Training.Trainer

/-!
# Experiments of a shape

To find the experiment of a shape the text of the shape is compiled, and the full descriptions of
the experiments are compared with that of what comes out. What is found is a function of the
registry, since it does not matter what has been stored; and what is not found in a registry is not
found in it later, where experiments have been given names that the text does not mention.
-/

namespace Motif

namespace Registry

variable {registry first second : Registry} {wanted text : String}

open Trainer (firstExperiment experimentOfShape)

/-! ## What is looked for -/

/-- The full description with which a registry answers for a pattern of a serial. -/
def descriptionOf (registry : Registry) (entry : Serial × Pattern) : Except Fault String :=
  ((fullDescription entry.1 entry.2).run registry).1

/-- The full description with which a registry answers for a pattern that is not registered. -/
def descriptionFor (registry : Registry) (shape : Pattern) : Except Fault String :=
  ((describeFully none shape).run registry).1

/-- The first experiment with the full description of the shape that a text tells. -/
def Matches (registry : Registry) (text : String) (entry : Serial × Pattern) : Prop :=
  ∃ shape description before behind, registry.compile text = .ok shape ∧
    registry.descriptionFor shape = .ok description ∧
    registry.registered = before ++ entry :: behind ∧ entry.2.kind = .experimental ∧
    registry.descriptionOf entry = .ok description ∧
    ∀ other ∈ before, other.2.kind = .experimental → registry.descriptionOf other ≠ .ok description

/-- The text of a shape is refused, or no experiment has the full description of the shape. -/
def Unmatched (registry : Registry) (text : String) : Prop :=
  (∃ cause, registry.compile text = .error (.pattern cause)) ∨
    ∃ shape description, registry.compile text = .ok shape ∧
      registry.descriptionFor shape = .ok description ∧
      ∀ entry ∈ registry.registered, entry.2.kind = .experimental →
        registry.descriptionOf entry ≠ .ok description

/-- The text of a shape cannot be compiled and is not to blame, or the full description of the shape
or of an experiment cannot be written. -/
def Untold (registry : Registry) (text : String) (fault : Fault) : Prop :=
  (registry.compile text = .error fault ∧ ∀ cause, fault ≠ .pattern cause) ∨
    ∃ shape, registry.compile text = .ok shape ∧
      (registry.descriptionFor shape = .error fault ∨
        ∃ entry ∈ registry.registered, entry.2.kind = .experimental ∧
          registry.descriptionOf entry = .error fault)

/-- The first experiment with a full description. -/
def candidate (registry : Registry) (wanted : String) :
    List (Serial × Pattern) → Except Fault (Option (Serial × Pattern))
  | [] => .ok none
  | entry :: rest =>
    if entry.2.kind ≠ .experimental then registry.candidate wanted rest
    else do
      let description ← registry.describeAnew entry.2
      if description = wanted then return some entry else registry.candidate wanted rest

/-- The experiment that has a shape, if the shape can be compiled. -/
def shaped (registry : Registry) (text : String) : Except Fault (Option (Serial × Pattern)) :=
  match registry.compile text with
  | .error (.pattern _) => .ok none
  | .error fault => .error fault
  | .ok shape => do
    let wanted ← registry.describeAnew shape
    registry.candidate wanted registry.registered

theorem candidate_eq_some {entries : List (Serial × Pattern)} {entry : Serial × Pattern}
    (hfound : registry.candidate wanted entries = .ok (some entry)) :
    ∃ left right, entries = left ++ entry :: right ∧ entry.2.kind = .experimental ∧
      registry.describeAnew entry.2 = .ok wanted ∧
      ∀ other ∈ left, other.2.kind = .experimental →
        registry.describeAnew other.2 ≠ .ok wanted := by
  induction entries with
  | nil => cases hfound
  | cons head rest ih =>
      rw [candidate] at hfound
      split at hfound
      next hkind =>
        obtain ⟨left, right, rfl, hexperiment, hdescribe, hleft⟩ := ih hfound
        refine ⟨head :: left, right, rfl, hexperiment, hdescribe, ?_⟩
        exact List.forall_mem_cons.mpr ⟨fun hhead => absurd hhead hkind, hleft⟩
      next hkind =>
        obtain ⟨description, hdescribe, hrest⟩ := bind_eq_ok_iff.mp hfound
        split at hrest
        next hwanted =>
          cases hrest
          rw [hwanted] at hdescribe
          exact ⟨[], rest, rfl, not_not.mp hkind, hdescribe, by simp⟩
        next hother =>
          obtain ⟨left, right, rfl, hexperiment, hagain, hleft⟩ := ih hrest
          refine ⟨head :: left, right, rfl, hexperiment, hagain, ?_⟩
          refine List.forall_mem_cons.mpr ⟨fun _ hsame => hother ?_, hleft⟩
          exact Except.ok.inj (hdescribe.symm.trans hsame)

theorem candidate_eq_none_iff {entries : List (Serial × Pattern)} :
    registry.candidate wanted entries = .ok none ↔
      ∀ entry ∈ entries, entry.2.kind = .experimental →
        ∃ description, registry.describeAnew entry.2 = .ok description ∧ description ≠ wanted := by
  induction entries with
  | nil => simp [candidate]
  | cons head rest ih =>
      rw [candidate, List.forall_mem_cons, ← ih]
      split
      next hkind => simp [hkind]
      next hkind =>
        rw [bind_eq_ok_iff]
        constructor
        · rintro ⟨description, hdescribe, hrest⟩
          split at hrest
          next => cases hrest
          next hother => exact ⟨fun _ => ⟨description, hdescribe, hother⟩, hrest⟩
        · rintro ⟨hhead, hrest⟩
          obtain ⟨description, hdescribe, hother⟩ := hhead (not_not.mp hkind)
          exact ⟨description, hdescribe, by rw [if_neg hother, hrest]⟩

/-- Looking for a candidate fails only at an experiment whose full description cannot be written. -/
theorem exists_of_candidate_eq_error {entries : List (Serial × Pattern)} {fault : Fault}
    (hfault : registry.candidate wanted entries = .error fault) :
    ∃ entry ∈ entries, entry.2.kind = .experimental ∧
      registry.describeAnew entry.2 = .error fault := by
  induction entries with
  | nil => cases hfault
  | cons head rest ih =>
      have hlater (hrest : registry.candidate wanted rest = .error fault) :
          ∃ entry ∈ head :: rest, entry.2.kind = .experimental ∧
            registry.describeAnew entry.2 = .error fault := by
        obtain ⟨entry, hentry, hfailed⟩ := ih hrest
        exact ⟨entry, List.mem_cons_of_mem _ hentry, hfailed⟩
      rw [candidate] at hfault
      split at hfault
      next => exact hlater hfault
      next hkind =>
        rcases bind_eq_error_iff.mp hfault with hdescribe | ⟨description, -, hrest⟩
        · exact ⟨head, List.mem_cons_self, not_not.mp hkind, hdescribe⟩
        · split at hrest
          next => cases hrest
          next => exact hlater hrest

theorem candidate_congr {entries : List (Serial × Pattern)}
    (hsame : ∀ entry ∈ entries, second.describeAnew entry.2 = first.describeAnew entry.2) :
    second.candidate wanted entries = first.candidate wanted entries := by
  induction entries with
  | nil => rfl
  | cons head rest ih =>
      obtain ⟨hhead, hrest⟩ := List.forall_mem_cons.mp hsame
      rw [candidate, candidate, hhead, ih hrest]

theorem shaped_eq_some {entry : Serial × Pattern} (hshaped : registry.shaped text = .ok (some entry)) :
    ∃ shape wanted, registry.compile text = .ok shape ∧ registry.describeAnew shape = .ok wanted ∧
      registry.candidate wanted registry.registered = .ok (some entry) := by
  unfold shaped at hshaped
  cases hcompile : registry.compile text with
  | ok shape =>
      rw [hcompile] at hshaped
      obtain ⟨wanted, hwanted, hcandidate⟩ := bind_eq_ok_iff.mp hshaped
      exact ⟨shape, wanted, rfl, hwanted, hcandidate⟩
  | error fault =>
      rw [hcompile] at hshaped
      cases fault <;> cases hshaped

theorem mem_registered_of_shaped {entry : Serial × Pattern}
    (hshaped : registry.shaped text = .ok (some entry)) :
    entry ∈ registry.registered ∧ entry.2.kind = .experimental := by
  obtain ⟨shape, wanted, -, -, hcandidate⟩ := shaped_eq_some hshaped
  obtain ⟨left, right, hregistered, hkind, -⟩ := candidate_eq_some hcandidate
  rw [hregistered]
  exact ⟨List.mem_append_right _ List.mem_cons_self, hkind⟩

theorem shaped_eq_error {fault : Fault} (hfault : registry.shaped text = .error fault) :
    (registry.compile text = .error fault ∧ ∀ cause, fault ≠ .pattern cause) ∨
      ∃ shape, registry.compile text = .ok shape ∧
        (registry.describeAnew shape = .error fault ∨
          ∃ entry ∈ registry.registered, entry.2.kind = .experimental ∧
            registry.describeAnew entry.2 = .error fault) := by
  unfold shaped at hfault
  split at hfault
  next => cases hfault
  next other hother hcompile =>
    obtain rfl : other = fault := Except.error.inj hfault
    exact .inl ⟨hcompile, hother⟩
  next shape hcompile =>
    refine .inr ⟨shape, hcompile, ?_⟩
    apply (bind_eq_error_iff.mp hfault).imp_right
    rintro ⟨wanted, -, hcandidate⟩
    exact exists_of_candidate_eq_error hcandidate

theorem shaped_eq_none_iff : registry.shaped text = .ok none ↔
    (∃ fault, registry.compile text = .error (.pattern fault)) ∨
      ∃ shape wanted, registry.compile text = .ok shape ∧
        registry.describeAnew shape = .ok wanted ∧
        registry.candidate wanted registry.registered = .ok none := by
  unfold shaped
  cases hcompile : registry.compile text with
  | ok shape => simp [bind_eq_ok_iff]
  | error fault => cases fault <;> simp

/-! ## Looking for it -/

section Asking

variable (hrooted : registry.Rooted)
include hrooted

theorem Remembers.shaped_eq {state : Registry} (hremembers : registry.Remembers state)
    (text : String) : state.shaped text = registry.shaped text := by
  have hanew {pattern : Pattern} (hsuits : registry.Suits pattern.content) :
      state.describeAnew pattern = registry.describeAnew pattern :=
    hremembers.agrees.describeAnew_eq hrooted (hremembers.same.sameContents.rooted hrooted) hsuits
  unfold shaped
  rw [hremembers.compile, hremembers.registered]
  cases hcompile : registry.compile text with
  | error fault => cases fault <;> rfl
  | ok shape =>
      dsimp only
      rw [hanew (fits_of_compile hcompile).suits]
      congr 1
      funext wanted
      exact candidate_congr fun entry hentry => hanew (hrooted.suits hentry)

theorem Rooted.gives_firstExperiment (wanted : String) {entries : List (Serial × Pattern)}
    (hentries : entries ⊆ registry.registered) :
    Gives registry.Remembers (firstExperiment wanted entries)
      (registry.candidate wanted entries) := by
  induction entries with
  | nil => exact fun state hstate => ⟨state, rfl, hstate⟩
  | cons entry rest ih =>
      have hrest := ih (List.subset_of_cons_subset hentries)
      intro state hstate
      unfold firstExperiment candidate
      split
      next => exact hrest state hstate
      next =>
        apply (hrooted.gives_fullDescription (hentries List.mem_cons_self) state hstate).bind
        intro description _
        split
        next => exact fun state hstate => ⟨state, rfl, hstate⟩
        next => exact hrest

theorem Rooted.gives_experimentOfShape (text : String) :
    Gives registry.Remembers (experimentOfShape text) (registry.shaped text) := by
  intro state hstate
  apply GivesFrom.read
  rw [hstate.compile, hstate.registered]
  unfold shaped
  cases hcompile : registry.compile text with
  | error fault => cases fault <;> exact ⟨state, rfl, hstate⟩
  | ok shape =>
      have hdescribed := hrooted.gives_describeFully (fits_of_compile hcompile).suits
        (standsAt_none _) state hstate
      apply hdescribed.bind
      intro wanted _
      exact hrooted.gives_firstExperiment wanted (List.Subset.refl _)

end Asking

namespace Regular

variable (hregular : registry.Regular)
include hregular

theorem descriptionOf_eq {entry : Serial × Pattern} (hentry : entry ∈ registry.registered) :
    registry.descriptionOf entry = registry.describeAnew entry.2 := by
  obtain ⟨after, hrun, -⟩ :=
    hregular.toRooted.gives_fullDescription hentry registry hregular.remembers
  rw [descriptionOf, hrun]

theorem descriptionFor_eq {shape : Pattern} (hcompile : registry.compile text = .ok shape) :
    registry.descriptionFor shape = registry.describeAnew shape := by
  obtain ⟨after, hrun, -⟩ := hregular.toRooted.gives_describeFully (fits_of_compile hcompile).suits
    (standsAt_none _) registry hregular.remembers
  rw [descriptionFor, hrun]

theorem matches_of_shaped {entry : Serial × Pattern}
    (hshaped : registry.shaped text = .ok (some entry)) : registry.Matches text entry := by
  have hentry := (mem_registered_of_shaped hshaped).1
  obtain ⟨shape, wanted, hcompile, hwanted, hcandidate⟩ := shaped_eq_some hshaped
  obtain ⟨before, behind, hregistered, hkind, hdescribe, hbefore⟩ := candidate_eq_some hcandidate
  refine ⟨shape, wanted, before, behind, hcompile,
    (hregular.descriptionFor_eq hcompile).trans hwanted, hregistered, hkind,
    (hregular.descriptionOf_eq hentry).trans hdescribe, ?_⟩
  intro other hother hexperiment
  have hmem : other ∈ registry.registered := by
    rw [hregistered]
    exact List.mem_append_left _ hother
  rw [hregular.descriptionOf_eq hmem]
  exact hbefore other hother hexperiment

theorem unmatched_of_shaped (hnone : registry.shaped text = .ok none) :
    registry.Unmatched text := by
  apply (shaped_eq_none_iff.mp hnone).imp_right
  rintro ⟨shape, wanted, hcompile, hwanted, hcandidate⟩
  refine ⟨shape, wanted, hcompile, (hregular.descriptionFor_eq hcompile).trans hwanted, ?_⟩
  intro entry hentry hkind hsame
  obtain ⟨description, hdescribe, hother⟩ :=
    candidate_eq_none_iff.mp hcandidate entry hentry hkind
  rw [hregular.descriptionOf_eq hentry, hdescribe] at hsame
  exact hother (Except.ok.inj hsame)

theorem untold_of_shaped {fault : Fault} (hfault : registry.shaped text = .error fault) :
    registry.Untold text fault := by
  apply (shaped_eq_error hfault).imp_right
  rintro ⟨shape, hcompile, hdescribe⟩
  refine ⟨shape, hcompile, hdescribe.imp (hregular.descriptionFor_eq hcompile).trans ?_⟩
  rintro ⟨entry, hentry, hkind, hdescribe⟩
  exact ⟨entry, hentry, hkind, (hregular.descriptionOf_eq hentry).trans hdescribe⟩

end Regular

/-! ## Where experiments have got names -/

section Christening

variable {granted : List (Serial × String)} (hchristens : first.Christens granted second)
  (hrooted : first.Rooted)
include hchristens hrooted

theorem Christens.describeAnew_eq {pattern : Pattern} (hsuits : first.Suits pattern.content) :
    second.describeAnew pattern = first.describeAnew pattern :=
  hchristens.sameContents.agrees.describeAnew_eq hrooted
    (hchristens.sameContents.rooted hrooted) hsuits

/-- A shape that is passed over because of what is known is passed over later, too, if the names that
are given do not matter for it. -/
theorem Christens.shaped_eq_none (hranges : Lexeme.ReadsRanges text)
    (hunmentioned : ∀ name ∈ granted.map Prod.snd, ¬ Lexeme.Mentions text name)
    (hnone : first.shaped text = .ok none) : second.shaped text = .ok none := by
  have hnames : ∀ name, Lexeme.Mentions text name → ∀ serial, second.named? name = some serial →
      first.named? name = some serial := by
    intro name hmentions serial hnamed
    apply (hchristens.origin name serial hnamed).resolve_left
    intro hentry
    exact hunmentioned name (List.mem_map_of_mem hentry) hmentions
  rcases hchristens.sameContents.compile_eq_or_refused hranges hnames with hsame | hrefused
  · rw [shaped_eq_none_iff] at hnone ⊢
    rw [hsame]
    apply hnone.imp_right
    rintro ⟨shape, wanted, hcompile, hwanted, hcandidate⟩
    have hsuits := (fits_of_compile hcompile).suits
    refine ⟨shape, wanted, hcompile, (hchristens.describeAnew_eq hrooted hsuits).trans hwanted,
      candidate_eq_none_iff.mpr ?_⟩
    intro entry hentry hkind
    have hbefore := (hchristens.mem_registered hentry hkind).1
    rw [hchristens.describeAnew_eq hrooted (hrooted.suits hbefore)]
    exact candidate_eq_none_iff.mp hcandidate entry hbefore hkind
  · exact shaped_eq_none_iff.mpr (.inl hrefused)

end Christening

end Registry

end Motif
