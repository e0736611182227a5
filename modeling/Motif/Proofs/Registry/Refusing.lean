import Motif.Proofs.Registry.Identity
import Motif.Proofs.Training.Storing

/-!
# Refused changes

A change of a registry that fails has changed nothing that the registry knows of its patterns. The
exception is a nameless pattern whose id has too many digits to be written: the fault comes up only
when the pattern has been registered.
-/

namespace Motif.Registry

variable {registry after : Registry}

/-- A change of a registry, with all that it is given. -/
inductive Change where
  | add (pattern : Pattern)
  | addKept (serial : Serial) (pattern : Pattern)
  | addLiteral (text : String) (name : Option String) (id : Int) (kind : Kind)
  | register (name : Option String) (kind : Kind) (text : String) (id : Int)
  | registerExperiment (text : String)
  | unregister (serial : Serial) (pattern : Pattern)
  | rename (serial : Serial) (pattern : Pattern) (name : String) (kind : Option Kind)

namespace Change

/-- What a change does. -/
def perform : Change → Action Unit
  | add pattern => discard (Registry.add pattern)
  | addKept serial pattern => discard (Registry.addKept serial pattern)
  | addLiteral text name id kind => discard (Registry.addLiteral text name id kind)
  | register name kind text id => discard (Registry.register name kind text id)
  | registerExperiment text => discard (Registry.registerExperiment text)
  | unregister serial pattern => Registry.unregister serial pattern
  | rename serial pattern name kind => Registry.rename serial pattern name kind

/-- The change would register a pattern. -/
def Registers : Change → Prop
  | unregister _ _ | rename _ _ _ _ => False
  | _ => True

end Change

/-- A nameless pattern has been registered, and then its identity could not be written. If the
counter is not negative, the id of the pattern has too many digits. -/
structure FailsLate (registry : Registry) (pattern : Pattern) (serial : Serial) (fault : Fault)
    (after : Registry) : Prop where
  name : pattern.name = none
  identity : pattern.identity = .error fault
  long : 0 ≤ registry.nextId →
    10 ^ Text.mostDigits ≤ pattern.id ∧ fault = .integerTooLong none
  entries : after.entries = registry.entries ++ [(pattern.id, serial)]
  names : after.names = registry.names
  nextId : after.nextId = max registry.nextId (pattern.id + 1)
  others : ∀ other, other ≠ serial → after.pattern? other = registry.pattern? other

/-- Only the identity of a nameless pattern may be impossible to write, because of its id. -/
theorem identity_eq_error {pattern : Pattern} {fault : Fault}
    (hidentity : pattern.identity = .error fault) :
    pattern.name = none ∧
      (0 ≤ pattern.id → 10 ^ Text.mostDigits ≤ pattern.id ∧ fault = .integerTooLong none) := by
  unfold Pattern.identity at hidentity
  split at hidentity
  next => cases hidentity
  next hname =>
    refine ⟨hname, fun hid => ?_⟩
    rw [if_pos hid] at hidentity
    by_cases hshort : pattern.id < 10 ^ Text.mostDigits
    · rw [Pattern.writeId_of_lt hid hshort] at hidentity
      cases hidentity
    · rw [Pattern.writeId_of_le hid (Int.not_lt.mp hshort)] at hidentity
      cases hidentity
      exact ⟨Int.not_lt.mp hshort, rfl⟩

/-- Where a pattern is put does not concern the tables, and no other pattern. -/
def Places (place : Pattern → Action Serial) : Prop :=
  ∀ registry pattern, ∃ serial ledger,
    (place pattern).run registry = (.ok serial, { registry with ledger }) ∧
      ∀ other : Nat, other ≠ serial → ledger[other]? = registry.ledger[other]?

theorem places_keep : Places keep := by
  refine fun registry pattern => ⟨_, _, run_keep pattern, fun other hother => ?_⟩
  rw [Array.getElem?_push, if_neg hother]

theorem places_revise (serial : Serial) : Places (revise serial) := by
  refine fun registry pattern => ⟨_, _, rfl, fun other hother => ?_⟩
  rw [Array.getElem?_setIfInBounds_ne (Ne.symm hother)]

/-- What comes of a refused registration. -/
def Refused (registry : Registry) (fault : Fault) (after : Registry) : Prop :=
  registry.OnlyStores after ∨ ∃ pattern serial, registry.FailsLate pattern serial fault after

/-- What has been stored before a refused registration does not matter. -/
theorem OnlyStores.refused {middle : Registry} {fault : Fault}
    (hstores : registry.OnlyStores middle) (hrefused : middle.Refused fault after) :
    registry.Refused fault after := by
  rcases hrefused with hafter | ⟨pattern, serial, hlate⟩
  · exact .inl (Growth.trans hstores hafter)
  · rw [hstores] at hlate
    exact .inr ⟨pattern, serial, hlate.name, hlate.identity, hlate.long, hlate.entries, hlate.names,
      hlate.nextId, hlate.others⟩

theorem refused_enroll {place : Pattern → Action Serial} (hplaces : Places place)
    {pattern : Pattern} {fault : Fault}
    (hrun : (enroll place pattern).run registry = (.error fault, after)) :
    registry.Refused fault after := by
  by_cases hfree : registry.Free pattern
  · obtain ⟨serial, ledger, hplace, hothers⟩ :=
      hplaces registry { pattern with id := registry.idFor pattern }
    rw [run_enroll_of_free hfree hplace] at hrun
    obtain ⟨hidentity, rfl⟩ := Prod.mk.inj hrun
    cases hwritten : ({ pattern with id := registry.idFor pattern } : Pattern).identity with
    | ok identity =>
        rw [hwritten] at hidentity
        cases hidentity
    | error found =>
        rw [hwritten] at hidentity
        obtain rfl : found = fault := Except.error.inj hidentity
        obtain ⟨hname, hlong⟩ := identity_eq_error hwritten
        refine .inr ⟨_, serial, hname, hwritten, fun hcounter => hlong ?_, rfl, ?_, rfl, hothers⟩
        · simp only [idFor]
          split <;> omega
        · have hnameless : pattern.name = none := hname
          simp only [enlist, hnameless]
  · obtain ⟨_, htaken⟩ := run_enroll_of_taken place hfree
    rw [htaken] at hrun
    cases hrun
    exact .inl rfl

theorem refused_register {name : Option String} {kind : Kind} {text : String} {id : Int}
    {fault : Fault} (hrun : (register name kind text id).run registry = (.error fault, after)) :
    registry.Refused fault after := by
  rw [register, run_read_bind, run_lift_bind] at hrun
  split at hrun
  next =>
    rw [run_lift_bind] at hrun
    split at hrun
    next => exact refused_enroll places_keep hrun
    next =>
      cases hrun
      exact .inl rfl
  next =>
    cases hrun
    exact .inl rfl

theorem refused_registerExperiment {text : String} {fault : Fault}
    (hrun : (registerExperiment text).run registry = (.error fault, after)) :
    registry.Refused fault after := by
  rw [registerExperiment, run_read_bind, run_lift_bind] at hrun
  split at hrun
  next pattern _ =>
    rcases hequivalent : (equivalent? pattern).run registry with ⟨found, middle⟩
    have hstores := (storing_equivalent? pattern none).onlyStores hequivalent
    cases found with
    | error found =>
        rw [run_bind_of_error hequivalent] at hrun
        cases hrun
        exact .inl hstores
    | ok found =>
        rw [run_bind_of_ok hequivalent] at hrun
        cases found with
        | none => exact hstores.refused (refused_enroll places_keep hrun)
        | some serial => cases hrun
  next =>
    cases hrun
    exact .inl rfl

theorem run_of_discard {α : Type} {action : Action α} {fault : Fault}
    (hrun : (discard action).run registry = (.error fault, after)) :
    action.run registry = (.error fault, after) := by
  rcases hresult : action.run registry with ⟨result, middle⟩
  cases result with
  | error found =>
      have hfailed : (discard action).run registry = (.error found, middle) :=
        run_bind_of_error hresult
      rw [hfailed] at hrun
      cases hrun
      rfl
  | ok value =>
      have hended : (discard action).run registry = (.ok ⟨⟩, middle) :=
        (run_bind_of_ok hresult).trans rfl
      rw [hended] at hrun
      cases hrun

/-- A change that fails has changed nothing but what is stored beside the patterns, unless it has
registered a nameless pattern whose identity could not be written then. -/
theorem refused_cases (registry : Registry) (change : Change) {fault : Fault} {after : Registry}
    (hrun : change.perform.run registry = (.error fault, after)) :
    registry.OnlyStores after ∨
      change.Registers ∧ ∃ pattern serial, registry.FailsLate pattern serial fault after := by
  have hregisters : change.Registers → registry.Refused fault after →
      registry.OnlyStores after ∨
        change.Registers ∧ ∃ pattern serial, registry.FailsLate pattern serial fault after :=
    fun hchange hrefused => hrefused.imp_right fun hlate => ⟨hchange, hlate⟩
  cases change with
  | add pattern => exact hregisters trivial (refused_enroll places_keep (run_of_discard hrun))
  | addKept serial pattern =>
      exact hregisters trivial (refused_enroll (places_revise serial) (run_of_discard hrun))
  | addLiteral text name id kind =>
      exact hregisters trivial (refused_enroll places_keep (run_of_discard hrun))
  | register name kind text id =>
      exact hregisters trivial (refused_register (run_of_discard hrun))
  | registerExperiment text =>
      exact hregisters trivial (refused_registerExperiment (run_of_discard hrun))
  | unregister serial pattern =>
      rcases unregister_cases registry serial pattern with ⟨_, hsame⟩ | ⟨-, hdone⟩
      · cases hsame.symm.trans hrun
        exact .inl rfl
      · cases hdone.symm.trans hrun
  | rename serial pattern name kind =>
      rcases rename_cases registry serial pattern name kind with ⟨_, hsame⟩ | ⟨-, hdone⟩
      · cases hsame.symm.trans hrun
        exact .inl rfl
      · cases hdone.symm.trans hrun

/-- A registry of one letter. -/
def firstLetter : Registry :=
  history [.addLiteral "a" (some "A") (-1) .literal]

theorem refused_cases_firstLetter : ∃ after : Registry,
    (Change.addLiteral "b" (some "A") (-1) .literal).perform.run firstLetter =
      (.error (.pattern { cause := .nameTaken, name := some "A" }), after) ∧
    firstLetter.OnlyStores after := by
  have hrun : (Change.addLiteral "b" (some "A") (-1) .literal).perform.run firstLetter =
      (.error (.pattern { cause := .nameTaken, name := some "A" }), firstLetter) := by rfl
  refine ⟨firstLetter, hrun, ?_⟩
  rcases refused_cases firstLetter _ hrun with hstores | ⟨-, pattern, serial, hlate⟩
  · exact hstores
  · exact absurd (hlate.long (by decide)).2 nofun

/-- A registry whose counter stands at the first id that cannot be written. -/
def brimming : Registry :=
  history [.addLiteral "a" (some "A") (10 ^ Text.mostDigits - 1) .literal]

theorem le_nextId_brimming : 10 ^ Text.mostDigits ≤ brimming.nextId := by
  let last : Pattern :=
    { kind := .literal, name := some "A", content := .literal "a", id := 10 ^ Text.mostDigits - 1 }
  have hfree : ({} : Registry).Free last := ⟨fun _ _ => rfl, fun _ => rfl⟩
  have hpos : (0 : Int) < 10 ^ Text.mostDigits := Int.pow_pos (by decide)
  have hid : ({} : Registry).idFor last = 10 ^ Text.mostDigits - 1 :=
    if_neg (Int.not_lt.mpr (Int.le_sub_one_of_lt hpos))
  have hbrimming : brimming =
      ({} : Registry).extend { last with id := ({} : Registry).idFor last } :=
    (run_discard _).trans (congrArg Prod.snd (run_add_of_free hfree))
  have hnext : brimming.nextId = max 0 (10 ^ Text.mostDigits - 1 + 1) := by
    rw [hbrimming, hid]
    rfl
  rw [hnext]
  omega

/-- A nameless pattern is refused there only when it has been registered. -/
theorem registers_nameless_brimming : ∃ fault after,
    (Change.addLiteral "b" none (-1) .literal).perform.run brimming = (.error fault, after) ∧
      after.size = brimming.size + 1 := by
  let nameless : Pattern := { kind := .literal, content := .literal "b" }
  have hlong := le_nextId_brimming
  have hpos : (0 : Int) < 10 ^ Text.mostDigits := Int.pow_pos (by decide)
  have hidentity : ({ nameless with id := brimming.nextId } : Pattern).identity =
      .error (.integerTooLong none) := by
    have hid : 0 ≤ brimming.nextId := by omega
    simp only [nameless, Pattern.identity, hid, if_pos, Pattern.writeId_of_le hid hlong]
    rfl
  have hfree : brimming.Free nameless :=
    ⟨fun name hname => absurd hname (Option.some_ne_none name).symm,
      fun hid => absurd hid (by decide)⟩
  have hrun := run_add_of_free hfree
  have hnext : brimming.idFor nameless = brimming.nextId := rfl
  rw [hnext, hidentity] at hrun
  refine ⟨.integerTooLong none, _, run_bind_of_error hrun, ?_⟩
  simp [size, extend]

end Motif.Registry
