import Mathlib.Algebra.Order.BigOperators.Group.List
import Mathlib.Data.ENat.Basic
import Motif.Proofs.Action
import Motif.Proposal

/-!
# How much is proposed

A strategy proposes at most two texts for each of the best pairs, and at most four for each chart.
-/

namespace Motif

open Registry (Action)

namespace Limit

variable {α : Type}

theorem length_cut_le (limit : Limit) (xs : List α) : (limit.cut xs).length ≤ xs.length := by
  cases limit with
  | none => exact Nat.le_refl _
  | some place => exact List.length_take_le' _ _

/-- A limit that counts from the front is not passed. -/
theorem length_cut_some_le {place : Int} (hplace : 0 ≤ place) (xs : List α) :
    (Limit.cut (some place) xs).length ≤ place.toNat := by
  apply Nat.le_trans (List.length_take_le _ _)
  unfold Text.place
  split <;> omega

end Limit

namespace Survey

/-- The survey with the keys of pairs retired. -/
def retireAll (survey : Survey) (entries : List (PairKey × Int)) : Survey :=
  entries.foldl (fun survey entry => survey.retire entry.1) survey

/-- Retiring pairs changes nothing else. -/
theorem exists_retireAll (survey : Survey) (entries : List (PairKey × Int)) :
    ∃ retired, survey.retireAll entries = { survey with retired } :=
  List.foldlRecOn (motive := fun later => ∃ retired, later = { survey with retired }) entries _
    ⟨_, rfl⟩ fun _ ⟨_, hlater⟩ entry _ => ⟨_, congrArg (retire · entry.1) hlater⟩

end Survey

namespace Proposal

variable {registry : Registry}

/-! ## Charts -/

theorem length_alternationTexts_le (first second : String) (stretches : List Stretch) :
    (alternationTexts first second stretches).length ≤ 2 := by
  unfold alternationTexts
  split <;> split <;> simp

theorem returns_keepWhere {α : Type} (check : α → Action Bool) (items : List α) :
    Returns (keepWhere check items) fun kept => kept.length ≤ items.length := by
  induction items with
  | nil => exact .pure (Nat.le_refl _)
  | cons item rest ih =>
      refine .andThen fun kept => ih.bind fun others hothers => .pure ?_
      split
      · exact Nat.succ_le_succ hothers
      · exact Nat.le_succ_of_le hothers

theorem returns_newAlternations (stretches : List Stretch) :
    Returns (newAlternations stretches) fun texts => texts.length ≤ 2 := by
  unfold newAlternations
  split
  next => exact .pure (Nat.zero_le _)
  next =>
    refine .andThen fun first => .andThen fun second state texts after hrun => ?_
    apply Nat.le_trans (returns_keepWhere _ _ state texts after hrun)
    exact length_alternationTexts_le first second stretches

theorem returns_ofRepetitions (chart : Chart) :
    Returns (ofRepetitions chart) fun proposals => proposals.length ≤ 1 := by
  refine .andThen fun candidates => ?_
  split
  · exact .pure (Nat.zero_le _)
  · exact .pure (Nat.le_refl _)

theorem mem_of_firstGreatest? {α : Type} {measure : α → Int} {items : List α} {item : α}
    (hitem : firstGreatest? measure items = some item) : item ∈ items := by
  cases items with
  | nil => cases hitem
  | cons first rest =>
      obtain rfl := Option.some.inj hitem
      refine List.foldlRecOn rest _ List.mem_cons_self fun best hbest other hother => ?_
      split
      · exact List.mem_cons_of_mem _ hother
      · exact hbest

theorem returns_ofAlternations (chart : Chart) (minAlternation : Int) :
    Returns (ofAlternations chart minAlternation) fun proposals => proposals.length ≤ 2 := by
  have hcandidates : Returns ((chart.alternations minAlternation).toList.mapM fun entry => do
      let texts ← newAlternations entry.2
      return (texts, entry.2)) fun candidates =>
        candidates.length = _ ∧ ∀ candidate ∈ candidates, candidate.1.length ≤ 2 :=
    Returns.mapM _ fun entry _ => (returns_newAlternations entry.2).bind fun texts htexts =>
      Returns.pure htexts
  refine hcandidates.bind fun candidates hcandidates => ?_
  dsimp only
  split
  next => exact .pure (Nat.zero_le _)
  next texts stretches hbest =>
    have hmem := (List.mem_filter.mp (mem_of_firstGreatest? hbest)).1
    refine .pure ?_
    rw [List.length_map]
    exact hcandidates.2 _ hmem

theorem returns_ofHoles (chart : Chart) :
    Returns (ofHoles chart) fun proposals => proposals.length ≤ 1 := by
  unfold ofHoles
  split
  next => exact .pure (Nat.zero_le _)
  next =>
    refine .read fun state => .andThen fun found => ?_
    split
    next => exact .pure (Nat.zero_le _)
    next =>
      refine .andThen fun fresh => .pure ?_
      split <;> simp

theorem returns_ofChart (minAlternation : Int) (chart : Chart) :
    Returns (ofChart minAlternation chart) fun proposals => proposals.length ≤ 4 := by
  refine (returns_ofRepetitions chart).bind fun repetitions hrepetitions =>
    (returns_ofAlternations chart minAlternation).bind fun alternations halternations =>
      (returns_ofHoles chart).bind fun holes hholes => .pure ?_
  simp only [List.length_append]
  omega

/-! ## Pairs -/

theorem length_le_of_ofPair {key : PairKey} {count : Int} {proposals : List Proposal}
    (hofPair : ofPair registry key count = .ok proposals) : proposals.length ≤ 2 := by
  unfold ofPair at hofPair
  split at hofPair
  next =>
    cases hofPair
    exact Nat.zero_le _
  next patterns hpatterns =>
    obtain ⟨identities, -, hofPair⟩ := bind_eq_ok_iff.mp hofPair
    cases hofPair
    rw [List.length_map]
    split <;> simp [pairTexts]

theorem length_flatten_le {α : Type} {most : Nat} (groups : List (List α))
    (hgroups : ∀ group ∈ groups, group.length ≤ most) :
    groups.flatten.length ≤ groups.length * most := by
  rw [List.length_flatten]
  have hsum := List.sum_le_card_nsmul (groups.map List.length) most (by simpa using hgroups)
  rw [List.length_map] at hsum
  exact hsum

theorem length_le_of_bestPairs {survey : Survey} {threshold : Setting Limit} {place : Int}
    {best : List (PairKey × Int)} (hplace : 0 ≤ place)
    (hbest : survey.bestPairs threshold (.ok (some place)) = .ok best) :
    best.length ≤ place.toNat := by
  unfold Survey.bestPairs at hbest
  split at hbest
  next =>
    obtain rfl := Except.ok.inj hbest
    exact Limit.length_cut_some_le hplace _
  next =>
    obtain ⟨used, -, hbest⟩ := bind_eq_ok_iff.mp hbest
    obtain rfl := Except.ok.inj hbest
    exact Limit.length_cut_some_le hplace _

/-- The pairs that are tried: all of them, or those up to the first whose identities cannot be
written. -/
def triedPairs (registry : Registry) : List (PairKey × Int) → List (PairKey × Int)
  | [] => []
  | entry :: rest =>
    match ofPair registry entry.1 entry.2 with
    | .ok _ => entry :: triedPairs registry rest
    | .error _ => [entry]

/-- What is proposed for pairs is told by the pairs alone, and those that are tried are retired. -/
theorem run_ofFresh (registry : Registry) (fresh : List (PairKey × Int)) (survey : Survey) :
    (ofFresh registry fresh).run survey =
      (List.flatten <$> fresh.mapM fun entry => ofPair registry entry.1 entry.2,
        survey.retireAll (triedPairs registry fresh)) := by
  induction fresh generalizing survey with
  | nil => rfl
  | cons first rest ih =>
      rw [List.mapM_cons, triedPairs]
      unfold ofFresh
      rw [run_modify_bind, run_lift_bind]
      cases ofPair registry first.1 first.2 with
      | error fault => rfl
      | ok proposals =>
          specialize ih (survey.retire first.1)
          dsimp only
          cases hrest : rest.mapM fun entry => ofPair registry entry.1 entry.2 with
          | error fault =>
              rw [hrest] at ih
              rw [run_bind_of_error ih]
              rfl
          | ok groups =>
              rw [hrest] at ih
              rw [run_bind_of_ok ih]
              rfl

/-- The best pairs not yet retired that are tried. -/
def tried (registry : Registry) (threshold limit : Setting Limit) (survey : Survey) :
    List (PairKey × Int) :=
  match freshPairs survey threshold limit with
  | .ok fresh => triedPairs registry fresh
  | .error _ => []

/-- The best pairs not yet retired are looked for, then each of them is tried. -/
theorem run_ofPairs (registry : Registry) (threshold limit : Setting Limit) (survey : Survey) :
    (ofPairs registry threshold limit).run survey =
      (freshPairs survey threshold limit >>= fun fresh =>
        List.flatten <$> fresh.mapM fun entry => ofPair registry entry.1 entry.2,
        survey.retireAll (tried registry threshold limit survey)) := by
  unfold ofPairs tried
  rw [run_read_bind, run_lift_bind]
  cases freshPairs survey threshold limit with
  | error fault => rfl
  | ok fresh => exact run_ofFresh registry fresh survey

theorem run_ofPairs_eq_ok_iff {registry : Registry} {threshold limit : Setting Limit}
    {survey : Survey} {proposals : List Proposal} :
    ((ofPairs registry threshold limit).run survey).1 = .ok proposals ↔
      ∃ fresh groups, freshPairs survey threshold limit = .ok fresh ∧
        (fresh.mapM fun entry => ofPair registry entry.1 entry.2) = .ok groups ∧
        proposals = groups.flatten := by
  rw [run_ofPairs]
  cases freshPairs survey threshold limit with
  | error fault => simp [bind, Except.bind]
  | ok fresh =>
      cases hgroups : fresh.mapM fun entry => ofPair registry entry.1 entry.2 with
      | error fault => simp [bind, Except.bind, hgroups]
      | ok groups => simp [bind, Except.bind, hgroups, eq_comm]

/-- If the best pairs are limited, so are the proposals for them. -/
theorem length_le_of_ofPairs {survey : Survey} {threshold : Setting Limit} {place : Int}
    {proposals : List Proposal} (hplace : 0 ≤ place)
    (hofPairs : ((ofPairs registry threshold (.ok (some place))).run survey).1 = .ok proposals) :
    proposals.length ≤ 2 * place.toNat := by
  obtain ⟨fresh, groups, hfresh, hgroups, rfl⟩ := run_ofPairs_eq_ok_iff.mp hofPairs
  obtain ⟨best, hbest, hfresh⟩ := bind_eq_ok_iff.mp hfresh
  cases hfresh
  obtain ⟨hlength, hgroups⟩ := forall_mem_of_mapM_eq_ok hgroups fun entry _ group hgroup =>
    length_le_of_ofPair hgroup
  have hflatten := length_flatten_le groups hgroups
  have hfilter := best.length_filter_le fun entry => !survey.retired.contains entry.1
  have hlimit := length_le_of_bestPairs hplace hbest
  omega

end Proposal

namespace Strategy

/-- What a strategy does not exceed if there are so many charts. Pairs that are not limited, or not
from the front, have no such number. -/
def room (charts : Nat) : Strategy → ℕ∞
  | pairs _ (.ok (some limit)) => if 0 ≤ limit then (2 * limit.toNat : Nat) else ⊤
  | pairs _ _ => ⊤
  | stretches _ => (charts * 4 : Nat)
  | fixed texts => texts.length

theorem length_le_room {strategy : Strategy} {survey : Survey} {charts : List Chart}
    {proposals : List Proposal} {registry after : Registry} {most : Nat}
    (hcharts : charts.length ≤ most)
    (hrun : (strategy.propose survey charts).run registry = (.ok proposals, after)) :
    (proposals.length : ℕ∞) ≤ strategy.room most := by
  unfold room
  split
  next threshold limit =>
    split
    next hlimit =>
      rw [propose, run_read_bind] at hrun
      have hofPairs : ((Proposal.ofPairs registry threshold (.ok (some limit))).run survey).1 =
          .ok proposals := (Prod.ext_iff.mp hrun).1
      exact Nat.cast_le.mpr (Proposal.length_le_of_ofPairs hlimit hofPairs)
    next => exact le_top
  next => exact le_top
  next minAlternation =>
    obtain ⟨groups, middle, hgroups, hrun⟩ := run_bind_eq_ok_iff.mp hrun
    cases hrun
    obtain ⟨hlength, hfour⟩ := Returns.mapM charts
      (fun chart _ => Proposal.returns_ofChart minAlternation chart) _ _ _ hgroups
    have hflatten := Proposal.length_flatten_le groups hfour
    exact Nat.cast_le.mpr (by omega)
  next texts =>
    cases hrun
    rw [List.length_map]

end Strategy

end Motif
