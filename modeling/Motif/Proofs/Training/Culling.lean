import Motif.Proofs.Registry.Rolls
import Motif.Training.Trainer

/-!
# Culling

The experiments beyond the number to be kept are passed once, the latest first, and each is removed
to which no registered pattern refers any more. Since patterns refer to earlier ones only, whoever
refers to an experiment has been passed before it. So one pass leaves exactly those to which a
survivor refers.
-/

namespace Motif

namespace Registry

variable {registry : Registry}

/-- References lead to patterns of smaller ids, as the counter gives them. -/
def RefersBack (registry : Registry) : Prop :=
  ∀ pattern ∈ registry.patterns, ∀ other ∈ pattern.content.references, other < pattern.id

/-- The registry without the patterns of a list. -/
def withoutAll (registry : Registry) (gone : List (Serial × Pattern)) : Registry :=
  gone.foldl (fun registry entry => registry.without entry.1 entry.2) registry

/-- Those of the patterns of a list that are removed if each is to which no other one refers when
its turn comes. -/
def unused (registry : Registry) : List (Serial × Pattern) → List (Serial × Pattern)
  | [] => []
  | entry :: rest =>
    if (registry.dependents entry.1 entry.2.id).isEmpty then
      entry :: (registry.without entry.1 entry.2).unused rest
    else registry.unused rest

theorem mem_patterns_of_registered {entry : Serial × Pattern}
    (hentry : entry ∈ registry.registered) :
    entry.2 ∈ registry.patterns :=
  List.mem_map_of_mem hentry

theorem mem_registered_without {serial : Serial} {pattern : Pattern} {entry : Serial × Pattern} :
    entry ∈ (registry.without serial pattern).registered ↔
      entry ∈ registry.registered ∧ entry.1 ≠ serial := by
  rw [registered_without, List.mem_filter]
  simp

theorem RefersBack.without (hback : registry.RefersBack) (serial : Serial) (pattern : Pattern) :
    (registry.without serial pattern).RefersBack := by
  intro found hfound
  obtain ⟨entry, hentry, rfl⟩ := List.mem_map.mp hfound
  exact hback entry.2 (mem_patterns_of_registered (mem_registered_without.mp hentry).1)

/-- Removing a pattern to which no other one refers leaves no reference without its pattern. -/
theorem Closed.without (hclosed : registry.Closed) (hcoherent : registry.Coherent)
    {serial : Serial} {pattern : Pattern} (hpattern : (serial, pattern) ∈ registry.registered)
    (hunused : registry.dependents serial pattern.id = []) :
    (registry.without serial pattern).Closed := by
  intro found hfound id hid
  obtain ⟨⟨other, user⟩, hentry, rfl⟩ := List.mem_map.mp hfound
  obtain ⟨hregistered, hother⟩ := mem_registered_without.mp hentry
  have hsome := hclosed user (mem_patterns_of_registered hregistered) id hid
  obtain ⟨target, htarget⟩ := Option.isSome_iff_exists.mp hsome
  obtain ⟨place, hplace, hledger⟩ := hcoherent.byId?_eq_some_iff.mp htarget
  rw [(hcoherent.without serial pattern).byId?_isSome_iff]
  refine List.mem_map_of_mem (f := Prod.fst) (mem_entries_without.mpr ⟨hplace, ?_⟩)
  -- Otherwise the pattern that remains would be a user of the removed one.
  rintro rfl
  obtain ⟨hserial, -⟩ := mem_registered hpattern
  obtain rfl : target = pattern := Option.some.inj (hledger.symm.trans hserial)
  rw [← hcoherent.id_eq htarget] at hid
  have hdependent := mem_dependents_iff.mpr ⟨hregistered, hother, hid⟩
  rw [hunused] at hdependent
  cases hdependent

/-! ## Removing several patterns -/

theorem withoutAll_cons {entry : Serial × Pattern} {rest : List (Serial × Pattern)} :
    registry.withoutAll (entry :: rest) = (registry.without entry.1 entry.2).withoutAll rest :=
  rfl

section Removing

variable (gone : List (Serial × Pattern))

theorem registered_withoutAll : (registry.withoutAll gone).registered =
    registry.registered.filter fun entry => entry.1 ∉ gone.map Prod.fst := by
  induction gone generalizing registry with
  | nil => simp [withoutAll]
  | cons entry rest ih =>
      rw [withoutAll_cons, ih, registered_without, List.filter_filter]
      refine List.filter_congr fun other _ => ?_
      simp only [List.map_cons, List.mem_cons, not_or, ne_eq, Bool.decide_and, Bool.and_comm]

end Removing

theorem unused_sublist (registry : Registry) (todo : List (Serial × Pattern)) :
    (registry.unused todo).Sublist todo := by
  induction todo generalizing registry with
  | nil => exact .slnil
  | cons entry rest ih =>
      rw [unused]
      split
      · exact (ih _).cons_cons entry
      · exact (ih _).cons entry

/-- Patterns of smaller ids stay registered when a pattern is removed. -/
theorem mem_registered_without_of_lt {first : Serial × Pattern}
    (hfirst : first ∈ registry.registered) {rest : List (Serial × Pattern)}
    (hrest : ∀ other ∈ rest, other ∈ registry.registered)
    (hlt : ∀ other ∈ rest, other.2.id < first.2.id) :
    ∀ other ∈ rest, other ∈ (registry.without first.1 first.2).registered := by
  intro other hother
  refine mem_registered_without.mpr ⟨hrest other hother, fun hserial => ?_⟩
  obtain rfl := eq_of_mem_registered (hrest other hother) hfirst hserial
  exact lt_irrefl _ (hlt other hother)

theorem run_unregister (hcoherent : registry.Coherent) {entry : Serial × Pattern}
    (hentry : entry ∈ registry.registered)
    (hunused : (registry.dependents entry.1 entry.2.id).isEmpty) :
    (unregister entry.1 entry.2).run registry = (.ok (), registry.without entry.1 entry.2) := by
  have hregistered : registry.isRegistered entry.1 = true := by
    obtain ⟨hserial, -⟩ := mem_registered hentry
    rw [isRegistered, hserial]
    have hid := hcoherent.serialOf?_eq_some_iff.mpr (hcoherent.mem_entries_of_registered hentry)
    simp [hid]
  rw [run_unregister_of_unused (List.isEmpty_iff.mp hunused), if_pos hregistered]

end Registry

namespace Trainer

open Registry

theorem run_onRegistry {α : Type} {action : Registry.Action α} {trainer : Trainer}
    {result : Except Fault α} {registry : Registry}
    (haction : action.run trainer.registry = (result, registry)) :
    (onRegistry action).run trainer = (result, { trainer with registry }) := by
  have hrun : (onRegistry action).run trainer = ((action.run trainer.registry).1,
      { trainer with registry := (action.run trainer.registry).2 }) := rfl
  rw [hrun, haction]

/-- The trainer after the removal of patterns, each of which is an event. -/
def culled (trainer : Trainer) (gone : List (Serial × Pattern)) : Trainer :=
  { trainer with
    registry := trainer.registry.withoutAll gone
    events := (gone.map fun entry =>
      (trainer.iteration, Event.patternCulled entry.2.id (score trainer.survey entry.2))).reverse ++
        trainer.events }

/-- Removing what is not used cannot fail. -/
theorem run_removeUnused {trainer : Trainer} (hcoherent : trainer.registry.Coherent)
    {todo : List (Serial × Pattern)}
    (hlatest : todo.Pairwise fun first second => second.2.id < first.2.id)
    (htodo : ∀ entry ∈ todo, entry ∈ trainer.registry.registered) :
    (removeUnused todo).run trainer =
      (.ok ((trainer.registry.unused todo).map fun entry => entry.2.id),
        trainer.culled (trainer.registry.unused todo)) := by
  induction todo generalizing trainer with
  | nil => rfl
  | cons first rest ih =>
      rw [List.pairwise_cons] at hlatest
      have hfirst := htodo first List.mem_cons_self
      have hrest : ∀ other ∈ rest, other ∈ trainer.registry.registered := fun other hother =>
        htodo other (List.mem_cons_of_mem _ hother)
      rw [removeUnused, unused]
      refine (run_read_bind trainer).trans ?_
      by_cases hunused : (trainer.registry.dependents first.1 first.2.id).isEmpty
      · rw [if_pos hunused]
        simp only [hunused, Bool.not_true, Bool.false_eq_true, if_false]
        refine (run_bind_of_ok (run_onRegistry (run_unregister hcoherent hfirst hunused))).trans ?_
        refine (run_bind_of_ok rfl).trans ?_
        refine (run_bind_of_ok (ih (hcoherent.without _ _) hlatest.2
          (mem_registered_without_of_lt hfirst hrest hlatest.1))).trans ?_
        simp only [culled, List.map_cons, List.reverse_cons, List.append_assoc, withoutAll_cons]
        rfl
      · rw [if_neg hunused]
        simp only [hunused]
        exact ih hcoherent hlatest.2 hrest

/-! ## The experiments that are doomed -/

variable {trainer : Trainer}

/-- The registered experiments that have been surveyed; before the first survey these are all. -/
def surveyedExperiments (trainer : Trainer) : List (Serial × Pattern) :=
  trainer.registry.registered.filter fun entry => entry.2.kind = .experimental &&
    entry.2.id < if trainer.surveyedUntil = 0 then trainer.registry.nextId
      else trainer.surveyedUntil

theorem pairwise_id_ne (hcoherent : trainer.registry.Coherent) :
    trainer.surveyedExperiments.Pairwise fun first second => first.2.id ≠ second.2.id := by
  apply List.Pairwise.filter
  rw [← List.pairwise_map, hcoherent.map_id_registered]
  exact hcoherent.nodup_ids

theorem perm_rankedExperiments : trainer.rankedExperiments.Perm trainer.surveyedExperiments :=
  List.mergeSort_perm _ _

theorem perm_doomed (kept : Int) :
    (trainer.doomed kept).Perm (Text.dropTo kept trainer.rankedExperiments) :=
  List.mergeSort_perm _ _

theorem pairwise_doomed (hcoherent : trainer.registry.Coherent) (kept : Int) :
    (trainer.doomed kept).Pairwise fun first second => second.2.id < first.2.id := by
  have hranked := (perm_rankedExperiments.pairwise_iff Ne.symm).mpr (pairwise_id_ne hcoherent)
  have hne := ((perm_doomed kept).pairwise_iff Ne.symm).mpr
    (hranked.sublist (List.drop_sublist _ _))
  have hsorted : (trainer.doomed kept).Pairwise fun first second =>
      decide (second.2.id ≤ first.2.id) = true := by
    refine List.pairwise_mergeSort ?_ ?_ _
    · intro first second third
      simp only [decide_eq_true_eq]
      omega
    · intro first second
      simp only [Bool.or_eq_true, decide_eq_true_eq]
      omega
  refine (hsorted.and hne).imp fun {first second} hboth => ?_
  have hle := of_decide_eq_true hboth.1
  have hids := hboth.2
  omega

theorem mem_surveyed_of_mem_doomed {kept : Int} {entry : Serial × Pattern}
    (hentry : entry ∈ trainer.doomed kept) : entry ∈ trainer.surveyedExperiments :=
  perm_rankedExperiments.mem_iff.mp (List.mem_of_mem_drop ((perm_doomed kept).mem_iff.mp hentry))

end Trainer

end Motif
