import Motif.Proofs.Registry.Rolls
import Motif.Training.Trainer

/-!
# The journal of a training run

The events tell which ids have been given out, culled and named. They are replayed on a roll: an
experiment is new only under the next id, what is proposed again is on the roll, and only an
experiment is culled or named. Whatever events
can be replayed, in whichever order, the roll before them and the ids that they tell determine the
ids, the kinds and the names after them.
-/

namespace Motif

namespace Event

/-- The id of a pattern that is new. -/
def newId? : Event → Option Int
  | patternProposed _ _ _ id true => some id
  | _ => none

/-- The id of a pattern that is removed. -/
def culledId? : Event → Option Int
  | patternCulled id _ => some id
  | _ => none

/-- The id of a pattern that gets a name, and the name. -/
def naming? : Event → Option (Int × String)
  | patternNamed id name => some (id, name)
  | _ => none

/-- A proposal is refused. -/
def isRejection : Event → Bool
  | proposalRejected _ _ _ => true
  | _ => false

/-- The ids of the new patterns, in the order of the events. -/
def newIds (events : List Event) : List Int :=
  events.filterMap newId?

/-- The ids of the patterns that are removed. -/
def culledIds (events : List Event) : List Int :=
  events.filterMap culledId?

/-- The ids of the patterns that get names, with these. -/
def namings (events : List Event) : List (Int × String) :=
  events.filterMap naming?

/-- The number of proposals that are refused. -/
def rejections (events : List Event) : Nat :=
  events.countP isRejection

@[simp]
theorem newIds_append (events later : List Event) :
    newIds (events ++ later) = newIds events ++ newIds later :=
  List.filterMap_append

@[simp]
theorem culledIds_append (events later : List Event) :
    culledIds (events ++ later) = culledIds events ++ culledIds later :=
  List.filterMap_append

@[simp]
theorem rejections_append (events later : List Event) :
    rejections (events ++ later) = rejections events + rejections later :=
  List.countP_append

/-- The stage to which the event belongs. -/
def stage : Event → Stage
  | iterationStarted _ => .init
  | paragraphParsed _ _ _ => .parse
  | surveyCompleted _ _ => .survey
  | proposalRejected _ _ _ => .propose
  | patternProposed _ _ _ _ _ => .propose
  | patternCulled _ _ => .cull
  | patternNamed _ _ => .name
  | iterationFinished _ _ _ _ => .done

section Stages

variable {events : List Event}

theorem newIds_eq_nil (hstages : ∀ event ∈ events, event.stage ≠ .propose) : newIds events = [] :=
  List.filterMap_eq_nil_iff.mpr fun event hevent => by
    cases event with
    | patternProposed => exact absurd rfl (hstages _ hevent)
    | _ => rfl

theorem culledIds_eq_nil (hstages : ∀ event ∈ events, event.stage ≠ .cull) :
    culledIds events = [] :=
  List.filterMap_eq_nil_iff.mpr fun event hevent => by
    cases event with
    | patternCulled => exact absurd rfl (hstages _ hevent)
    | _ => rfl

theorem rejections_eq_zero (hstages : ∀ event ∈ events, event.stage ≠ .propose) :
    rejections events = 0 :=
  List.countP_eq_zero.mpr fun event hevent => by
    cases event with
    | proposalRejected => exact absurd rfl (hstages _ hevent)
    | _ => exact Bool.false_ne_true

end Stages

end Event

namespace Roll

open Event

/-- The roll after an event, if that can happen. -/
def note (roll : Roll) : Event → Option Roll
  | .patternProposed _ _ _ id true => if id = roll.nextId then some roll.added else none
  | .patternProposed _ _ _ id false => if id ∈ roll.ids then some roll else none
  | .patternCulled id _ => if roll.HasExperiment id then some (roll.removed id) else none
  | .patternNamed id name => if roll.HasExperiment id then some (roll.named id name) else none
  | _ => some roll

/-- The roll after events, if those can happen one after the other. -/
def replay (roll : Roll) (events : List Event) : Option Roll :=
  events.foldlM note roll

variable {roll middle after : Roll} {event : Event} {events later : List Event}

theorem replay_append (hevents : roll.replay events = some middle)
    (hlater : middle.replay later = some after) : roll.replay (events ++ later) = some after := by
  rw [replay, List.foldlM_append, ← replay, hevents]
  exact hlater

theorem replay_cons_iff : roll.replay (event :: events) = some after ↔
    ∃ middle, roll.note event = some middle ∧ middle.replay events = some after := by
  rw [replay, List.foldlM_cons]
  exact Option.bind_eq_some_iff

/-- What a roll and the events on it tell of the roll after them. -/
structure Balances (before : Roll) (events : List Event) (after : Roll) : Prop where
  newIds_eq : newIds events =
    (List.range (newIds events).length).map fun offset : Nat => before.nextId + offset
  nextId_eq : after.nextId = before.nextId + (newIds events).length
  ids_eq : after.ids = (before.ids ++ newIds events).filter fun id => id ∉ culledIds events
  culled : ∀ id ∈ culledIds events, before.HasExperiment id ∨ id ∈ newIds events
  named : ∀ id name, (id, name) ∈ namings events →
    (before.HasExperiment id ∨ id ∈ newIds events) ∧ ⟨id, .derived, some name⟩ ∈ after.standings
  /-- What is no experiment is neither culled nor named. -/
  settled : ∀ standing ∈ before.standings, standing.kind ≠ .experimental →
    standing ∈ after.standings
  kept : ∀ standing ∈ after.standings, (∀ name, (standing.id, name) ∉ namings events) →
    standing ∈ before.standings ∨ standing.id ∈ newIds events ∧ standing = .fresh standing.id

theorem balances_nil (roll : Roll) : roll.Balances [] roll where
  newIds_eq := rfl
  nextId_eq := (Int.add_zero _).symm
  ids_eq := by simp [newIds, culledIds]
  culled := by simp [culledIds]
  named := by simp [namings]
  settled _ hstanding _ := hstanding
  kept _ hstanding _ := .inl hstanding

namespace Balances

/-- An event that tells no id changes nothing. -/
theorem cons_notice (hrest : roll.Balances events after) (hnew : event.newId? = none)
    (hculled : event.culledId? = none) (hnaming : event.naming? = none) :
    roll.Balances (event :: events) after := by
  have hnews : newIds (event :: events) = newIds events := List.filterMap_cons_none hnew
  have hculls : culledIds (event :: events) = culledIds events := List.filterMap_cons_none hculled
  have hnamings : namings (event :: events) = namings events := List.filterMap_cons_none hnaming
  refine ⟨?_, ?_, ?_, ?_, ?_, hrest.settled, ?_⟩
  · rw [hnews]
    exact hrest.newIds_eq
  · rw [hnews]
    exact hrest.nextId_eq
  · rw [hnews, hculls]
    exact hrest.ids_eq
  · rw [hnews, hculls]
    exact hrest.culled
  · rw [hnews, hnamings]
    exact hrest.named
  · rw [hnews, hnamings]
    exact hrest.kept

theorem cons_added (hrest : roll.added.Balances events after) (text strategy reason : String) :
    roll.Balances (.patternProposed text strategy reason roll.nextId true :: events) after := by
  have hnews : newIds (.patternProposed text strategy reason roll.nextId true :: events) =
      roll.nextId :: newIds events := rfl
  have hnext : roll.added.nextId = roll.nextId + 1 := rfl
  have hexperiment (id : Int) (hid : roll.added.HasExperiment id ∨ id ∈ newIds events) :
      roll.HasExperiment id ∨ id ∈ roll.nextId :: newIds events := by
    rcases hid with ⟨standing, hstanding, rfl, hkind⟩ | hid
    · rcases List.mem_append.mp hstanding with hstanding | hstanding
      · exact .inl ⟨standing, hstanding, rfl, hkind⟩
      · rw [List.mem_singleton.mp hstanding]
        exact .inr List.mem_cons_self
    · exact .inr (List.mem_cons_of_mem _ hid)
  refine ⟨?_, ?_, ?_, ?_, ?_, ?_, ?_⟩
  · rw [hnews, List.length_cons, List.range_succ_eq_map, List.map_cons, List.map_map]
    refine List.cons_eq_cons.mpr ⟨(Int.add_zero _).symm, hrest.newIds_eq.trans ?_⟩
    refine List.map_congr_left fun offset _ => ?_
    rw [hnext, Function.comp_apply]
    omega
  · rw [hnews, hrest.nextId_eq, List.length_cons, hnext]
    omega
  · rw [hnews, hrest.ids_eq, ids_added, List.append_assoc]
    rfl
  · exact fun id hid => hexperiment id (hrest.culled id hid)
  · exact fun id name hid => (hrest.named id name hid).imp_left (hexperiment id)
  · exact fun standing hstanding => hrest.settled standing (List.mem_append_left _ hstanding)
  · intro standing hstanding hunnamed
    rcases hrest.kept standing hstanding hunnamed with hstanding | ⟨hid, hfresh⟩
    · rcases List.mem_append.mp hstanding with hstanding | hstanding
      · exact .inl hstanding
      · rw [List.mem_singleton.mp hstanding]
        exact .inr ⟨List.mem_cons_self, rfl⟩
    · exact .inr ⟨List.mem_cons_of_mem _ hid, hfresh⟩

section Experiment

variable {id : Int} (hsound : roll.Sound) (hexperiment : roll.HasExperiment id)
include hsound hexperiment

theorem cons_removed (hrest : (roll.removed id).Balances events after) (score : Int) :
    roll.Balances (.patternCulled id score :: events) after := by
  have hculls : culledIds (.patternCulled id score :: events) = id :: culledIds events := rfl
  have hweaken (other : Int) (hother : (roll.removed id).HasExperiment other) :
      roll.HasExperiment other := by
    obtain ⟨standing, hstanding, hkept⟩ := hother
    exact ⟨standing, List.mem_of_mem_filter hstanding, hkept⟩
  refine ⟨hrest.newIds_eq, hrest.nextId_eq, ?_, ?_, ?_, ?_, ?_⟩
  · -- The new ids are greater than the one that is removed.
    have hlater : (newIds events).filter (· ≠ id) = newIds events := by
      refine List.filter_eq_self.mpr fun other hother => ?_
      rw [hrest.newIds_eq] at hother
      obtain ⟨offset, -, rfl⟩ := List.mem_map.mp hother
      have hlt := hsound.lt_nextId id hexperiment.mem_ids
      have hnext : (roll.removed id).nextId = roll.nextId := rfl
      simp only [decide_eq_true_eq]
      omega
    rw [hculls, hrest.ids_eq, ids_removed]
    nth_rewrite 1 [← hlater]
    rw [← List.filter_append, List.filter_filter]
    refine List.filter_congr fun other _ => ?_
    simp [not_or, Bool.and_comm]
  · rw [hculls]
    refine List.forall_mem_cons.mpr ⟨.inl hexperiment, fun other hother => ?_⟩
    exact (hrest.culled other hother).imp_left (hweaken other)
  · exact fun other name hother => (hrest.named other name hother).imp_left
      (Or.imp_left (hweaken other))
  · intro standing hstanding hkind
    refine hrest.settled standing (List.mem_filter.mpr ⟨hstanding, ?_⟩) hkind
    obtain ⟨culled, hculled, rfl, hculledKind⟩ := hexperiment
    refine decide_eq_true fun hid => hkind ?_
    rw [hsound.eq_of_id_eq hstanding hculled hid, hculledKind]
  · exact fun standing hstanding hunnamed => (hrest.kept standing hstanding hunnamed).imp_left
      List.mem_of_mem_filter

theorem cons_named {name : String} (hrest : (roll.named id name).Balances events after) :
    roll.Balances (.patternNamed id name :: events) after := by
  have hnamings : namings (.patternNamed id name :: events) = (id, name) :: namings events := rfl
  have hweaken (other : Int) (hother : (roll.named id name).HasExperiment other) :
      roll.HasExperiment other := by
    obtain ⟨standing, hstanding, rfl, hkind⟩ := hother
    obtain ⟨origin, horigin, rfl⟩ := List.mem_map.mp hstanding
    by_cases hid : origin.id = id
    · rw [Standing.called_of_eq hid] at hkind
      cases hkind
    · rw [Standing.called_of_ne hid] at hkind ⊢
      exact ⟨origin, horigin, rfl, hkind⟩
  refine ⟨hrest.newIds_eq, hrest.nextId_eq, ?_, ?_, ?_, ?_, ?_⟩
  · rw [hrest.ids_eq, ids_named]
    rfl
  · exact fun other hother => (hrest.culled other hother).imp_left (hweaken other)
  · rw [hnamings]
    intro other given hother
    rcases List.mem_cons.mp hother with heq | hother
    · cases heq
      refine ⟨.inl hexperiment, hrest.settled _ ?_ Kind.noConfusion⟩
      obtain ⟨standing, hstanding, hid, -⟩ := hexperiment
      exact List.mem_map.mpr ⟨standing, hstanding, Standing.called_of_eq hid name⟩
    · exact (hrest.named other given hother).imp_left (Or.imp_left (hweaken other))
  · intro standing hstanding hkind
    refine hrest.settled standing (List.mem_map.mpr ⟨standing, hstanding, ?_⟩) hkind
    obtain ⟨found, hfound, rfl, hfoundKind⟩ := hexperiment
    refine Standing.called_of_ne (fun hid => hkind ?_) name
    rw [hsound.eq_of_id_eq hstanding hfound hid, hfoundKind]
  · rw [hnamings]
    intro standing hstanding hunnamed
    have hrestUnnamed : ∀ given, (standing.id, given) ∉ namings events := fun given hgiven =>
      hunnamed given (List.mem_cons_of_mem _ hgiven)
    rcases hrest.kept standing hstanding hrestUnnamed with hmiddle | hnew
    · obtain ⟨origin, horigin, rfl⟩ := List.mem_map.mp hmiddle
      have hid : origin.id ≠ id := by
        rintro rfl
        exact hunnamed name (by simp)
      rw [Standing.called_of_ne hid]
      exact .inl horigin
    · exact .inr hnew

end Experiment

end Balances

/-- Events that can be replayed balance, whatever they are. -/
theorem Sound.balances (hsound : roll.Sound) (hreplay : roll.replay events = some after) :
    roll.Balances events after := by
  induction events generalizing roll with
  | nil =>
      obtain rfl := Option.some.inj hreplay
      exact balances_nil roll
  | cons event rest ih =>
      obtain ⟨middle, hnote, hrest⟩ := replay_cons_iff.mp hreplay
      cases event with
      | patternCulled id score =>
          obtain ⟨hexperiment, ⟨⟩⟩ := Option.ite_none_right_eq_some.mp hnote
          exact .cons_removed hsound hexperiment (ih (hsound.removed id) hrest) score
      | patternNamed id name =>
          obtain ⟨hexperiment, ⟨⟩⟩ := Option.ite_none_right_eq_some.mp hnote
          exact .cons_named hsound hexperiment (ih (hsound.named id name) hrest)
      | patternProposed text strategy reason id new =>
          cases new with
          | true =>
              obtain ⟨rfl, ⟨⟩⟩ := Option.ite_none_right_eq_some.mp hnote
              exact .cons_added (ih hsound.added hrest) text strategy reason
          | false =>
              obtain ⟨-, ⟨⟩⟩ := Option.ite_none_right_eq_some.mp hnote
              exact (ih hsound hrest).cons_notice rfl rfl rfl
      | _ =>
          obtain rfl := Option.some.inj hnote
          exact (ih hsound hrest).cons_notice rfl rfl rfl

end Roll

end Motif
