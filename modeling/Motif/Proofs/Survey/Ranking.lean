import Motif.Proofs.Survey.Retiring

/-!
# The best pairs

The pairs that are seen often enough are ranked by their counts and, where these are equal, by
their keys. A proposal takes the best pairs of the ranking up to a limit and leaves out those that
are retired, in this order: a retired pair that still has a count takes the place of another one.
After a clearing no retired pair has a count until a proposal retires it, and then the pairs that
are used are the best ones not yet retired.
-/

namespace Motif

/-- The beginning of a list, filtered, is the beginning of the filtered list in two cases: nothing
of the beginning is left out, or all behind it is. -/
theorem filter_take_eq_take_filter_iff {α : Type} {p : α → Bool} {xs : List α} {n : Nat} :
    (xs.take n).filter p = (xs.filter p).take n ↔
      (∀ x ∈ xs.take n, p x = true) ∨ ∀ x ∈ xs.drop n, p x = false := by
  have hsplit : xs.filter p = (xs.take n).filter p ++ (xs.drop n).filter p := by
    rw [← List.filter_append, List.take_append_drop]
  have hlength : ((xs.take n).filter p).length ≤ n :=
    (List.length_filter_le _ _).trans (List.length_take_le _ _)
  have htake : (xs.filter p).take n = (xs.take n).filter p ++
      ((xs.drop n).filter p).take (n - ((xs.take n).filter p).length) := by
    rw [hsplit, List.take_append, List.take_of_length_le hlength]
  rw [htake, List.self_eq_append_right, List.take_eq_nil_iff, List.filter_eq_nil_iff]
  simp only [Bool.not_eq_true]
  constructor
  · rintro (hfull | hnone)
    · -- As many are kept as are taken, so all of them.
      have hall : (xs.take n).filter p = xs.take n :=
        List.filter_sublist.eq_of_length_le (by have := List.length_take_le n xs; omega)
      exact .inl (List.filter_eq_self.mp hall)
    · exact .inr hnone
  · rintro (hall | hnone)
    · rw [List.filter_eq_self.mpr hall, List.length_take]
      by_cases hlong : n ≤ xs.length
      · exact .inl (by omega)
      · refine .inr fun x hx => ?_
        rw [List.drop_of_length_le (by omega)] at hx
        cases hx
    · exact .inr hnone

namespace Survey

variable {survey : Survey} {threshold : Int}

/-! ## Rankings -/

/-- A list ranks the pairs seen more often than the threshold: it has each of them with its count,
greater counts first and equal counts in the order of the keys. -/
structure Ranks (survey : Survey) (threshold : Int) (ranking : List (PairKey × Int)) : Prop where
  mem_iff : ∀ key count, (key, count) ∈ ranking ↔
    (survey.pairs.get? key).map PairStats.count = some count ∧ threshold < count
  descending : ranking.Pairwise fun first second =>
    second.2 < first.2 ∨ (first.2 = second.2 ∧ compare first.1 second.1 = .lt)

/-- The pairs seen more often than the threshold, the best first. -/
def ranking (survey : Survey) (threshold : Int) : List (PairKey × Int) :=
  survey.rankedPairs (some threshold) none

theorem rankedPairs_eq_mergeSort (survey : Survey) (threshold limit : Limit) :
    survey.rankedPairs threshold limit =
      limit.cut ((survey.pairCounts.filter fun entry =>
        threshold.isExceeded entry.2).mergeSort ranksBefore) :=
  rfl

theorem ranks_ranking (survey : Survey) (threshold : Int) :
    survey.Ranks threshold (survey.ranking threshold) := by
  rw [ranking, rankedPairs_eq_mergeSort]
  dsimp only [Limit.cut]
  constructor
  · intro key count
    rw [List.mem_mergeSort, List.mem_filter, mem_pairCounts]
    simp [Limit.isExceeded]
  · have hsorted := List.pairwise_mergeSort ranksBefore_trans ranksBefore_total
      (survey.pairCounts.filter fun entry => Limit.isExceeded (some threshold) entry.2)
    have hkeys : ((survey.pairCounts.filter fun entry =>
        Limit.isExceeded (some threshold) entry.2).mergeSort ranksBefore).Pairwise
          fun first second => first.1 ≠ second.1 := by
      apply ((List.mergeSort_perm _ _).pairwise_iff Ne.symm).mpr
      refine List.Pairwise.filter _ ?_
      rw [pairCounts, List.pairwise_map]
      exact survey.pairs.pairwise_toList
    refine (hsorted.and hkeys).imp fun {first second} hboth => ?_
    obtain ⟨hbefore, hne⟩ := hboth
    rcases ranksBefore_iff.mp hbefore with hcount | ⟨hcount, hle⟩
    · exact .inl hcount
    · refine .inr ⟨hcount, ?_⟩
      cases hcompare : compare first.1 second.1 with
      | lt => rfl
      | eq => exact absurd (Std.LawfulEqCmp.eq_of_compare hcompare) hne
      | gt => rw [hcompare] at hle; cases hle

/-- A limit cuts the ranking. -/
theorem rankedPairs_eq_take (survey : Survey) (threshold : Int) (limit : Nat) :
    survey.rankedPairs (some threshold) (some (limit : Int)) =
      (survey.ranking threshold).take limit := by
  have hcut : ∀ entries : List (PairKey × Int),
      Limit.cut (some (limit : Int)) entries = entries.take limit := by
    intro entries
    rw [Limit.cut, Text.takeTo, Text.place, if_neg (by omega), Int.toNat_natCast]
    exact List.take_eq_take_min.symm
  rw [ranking, rankedPairs_eq_mergeSort, rankedPairs_eq_mergeSort, hcut]
  rfl

/-! ## The pairs that are used -/

/-- The pair has not been retired. -/
def isFresh (survey : Survey) (entry : PairKey × Int) : Bool :=
  !survey.retired.contains entry.1

theorem isFresh_eq_true_iff {entry : PairKey × Int} :
    survey.isFresh entry = true ↔ entry.1 ∉ survey.retired := by
  rw [isFresh, Bool.not_eq_true', ← Bool.not_eq_true, Std.TreeSet.contains_iff_mem]

theorem isFresh_eq_false_iff {entry : PairKey × Int} :
    survey.isFresh entry = false ↔ entry.1 ∈ survey.retired := by
  rw [isFresh, Bool.not_eq_false', Std.TreeSet.contains_iff_mem]

/-- What a proposal uses: of the best pairs up to the limit those not yet retired. -/
def used (survey : Survey) (threshold : Int) (limit : Nat) : List (PairKey × Int) :=
  ((survey.ranking threshold).take limit).filter survey.isFresh

/-- The best of the pairs not yet retired, up to the limit. -/
def best (survey : Survey) (threshold : Int) (limit : Nat) : List (PairKey × Int) :=
  ((survey.ranking threshold).filter survey.isFresh).take limit

theorem pairCounts_eq_nil (hnone : survey.pairs.size = 0) : survey.pairCounts = [] := by
  have htable : survey.pairs.table.toList = [] :=
    List.length_eq_zero_iff.mp (Std.TreeMap.length_toList.trans hnone)
  simp [pairCounts, ArrivalMap.toList, htable]

theorem bestPairs_eq (survey : Survey) (threshold : Int) (limit : Nat) :
    survey.bestPairs (.ok (some threshold)) (.ok (some (limit : Int))) =
      .ok ((survey.ranking threshold).take limit) := by
  rw [← rankedPairs_eq_take]
  unfold bestPairs
  split
  next hnone =>
    -- Without pairs the threshold is not looked at, and any ranking is empty.
    have hempty : survey.rankedPairs none (some (limit : Int)) =
        survey.rankedPairs (some threshold) (some (limit : Int)) := by
      rw [rankedPairs_eq_mergeSort, rankedPairs_eq_mergeSort, pairCounts_eq_nil hnone]
      rfl
    exact congrArg Except.ok hempty
  next => rfl

theorem freshPairs_eq (survey : Survey) (threshold : Int) (limit : Nat) :
    Proposal.freshPairs survey (.ok (some threshold)) (.ok (some (limit : Int))) =
      .ok (survey.used threshold limit) := by
  rw [Proposal.freshPairs, bestPairs_eq]
  rfl

/-- The ranking is told by the counts, whatever is retired. -/
theorem ranking_retireAll (survey : Survey) (entries : List (PairKey × Int)) (threshold : Int) :
    (survey.retireAll entries).ranking threshold = survey.ranking threshold := by
  obtain ⟨retired, hlater⟩ := survey.exists_retireAll entries
  rw [hlater]
  rfl

theorem run_ofPairs_used (survey : Survey) (registry : Registry) (threshold : Int) (limit : Nat) :
    (Proposal.ofPairs registry (.ok (some threshold)) (.ok (some (limit : Int)))).run survey =
      (List.flatten <$> (survey.used threshold limit).mapM
          fun entry => Proposal.ofPair registry entry.1 entry.2,
        survey.retireAll (Proposal.triedPairs registry (survey.used threshold limit))) := by
  rw [Proposal.run_ofPairs, Proposal.tried, freshPairs_eq]
  rfl

theorem used_eq_best_iff {limit : Nat} :
    survey.used threshold limit = survey.best threshold limit ↔
      (∀ entry ∈ (survey.ranking threshold).take limit, entry.1 ∉ survey.retired) ∨
        ∀ entry ∈ (survey.ranking threshold).drop limit, entry.1 ∈ survey.retired := by
  rw [used, best, filter_take_eq_take_filter_iff]
  simp only [isFresh_eq_true_iff, isFresh_eq_false_iff]

/-! ## After a clearing -/

/-- No retired pair has a count. -/
def CountsFresh (survey : Survey) : Prop :=
  ∀ key ∈ survey.retired, survey.pairs.get? key = none

theorem countsFresh_clear (survey : Survey) : survey.clear.CountsFresh := by
  intro key _
  simp [clear, ArrivalMap.get?]

theorem CountsFresh.observe (hcounts : survey.CountsFresh) (registry : Registry) (chart : Chart) :
    ((Call.observe registry chart).perform survey).CountsFresh := by
  obtain ⟨hretired, hpairs⟩ := leavesRetired_record registry.grammar chart survey
  intro key hkey
  have hbefore : key ∈ survey.retired := hretired ▸ hkey
  exact (hpairs key hbefore).trans (hcounts key hbefore)

theorem CountsFresh.after_observe (hcounts : survey.CountsFresh)
    (charts : List (Registry × Chart)) :
    (survey.after (charts.map fun (registry, chart) => .observe registry chart)).CountsFresh := by
  induction charts generalizing survey with
  | nil => exact hcounts
  | cons first rest ih => exact ih (hcounts.observe first.1 first.2)

/-- As long as only pairs with counts of their own stand in the ranking, the best are used. -/
theorem CountsFresh.used_eq_best (hcounts : survey.CountsFresh) (threshold : Int) (limit : Nat) :
    survey.used threshold limit = survey.best threshold limit := by
  refine used_eq_best_iff.mpr (.inl fun entry hentry hretired => ?_)
  obtain ⟨hcount, -⟩ :=
    ((survey.ranks_ranking threshold).mem_iff entry.1 entry.2).mp (List.mem_of_mem_take hentry)
  rw [hcounts entry.1 hretired] at hcount
  cases hcount

end Survey

/-! ## What is proposed -/

namespace Proposal

variable {registry : Registry} {survey : Survey}

/-- All patterns of the pair are registered. -/
def isKnown (registry : Registry) (entry : PairKey × Int) : Bool :=
  entry.1.all fun id => (registry.byId? id).isSome

theorem ofPair_of_not_isKnown {entry : PairKey × Int} (hunknown : isKnown registry entry = false) :
    ofPair registry entry.1 entry.2 = .ok [] := by
  have hmissing : ∀ key : PairKey, (key.all fun id => (registry.byId? id).isSome) = false →
      key.mapM registry.byId? = none := by
    intro key hkey
    induction key with
    | nil => cases hkey
    | cons id rest ih =>
        rw [List.mapM_cons]
        cases hid : registry.byId? id with
        | none => rfl
        | some pattern =>
            rw [List.all_cons, hid, Option.isSome_some, Bool.true_and] at hkey
            rw [ih hkey]
            rfl
  rw [ofPair, hmissing entry.1 hunknown]
  rfl

/-- Pairs with patterns that are gone bring no proposals. -/
theorem flatten_mapM_ofPair (registry : Registry) (entries : List (PairKey × Int)) :
    (List.flatten <$> entries.mapM fun entry => ofPair registry entry.1 entry.2) =
      List.flatten <$> (entries.filter (isKnown registry)).mapM
        fun entry => ofPair registry entry.1 entry.2 := by
  have hcons : ∀ (first : PairKey × Int) (rest : List (PairKey × Int)),
      (List.flatten <$> (first :: rest).mapM fun entry => ofPair registry entry.1 entry.2) = do
        let proposals ← ofPair registry first.1 first.2
        let others ← List.flatten <$> rest.mapM fun entry => ofPair registry entry.1 entry.2
        return proposals ++ others := by
    intro first rest
    rw [List.mapM_cons]
    simp only [map_bind, bind_map_left, map_pure, List.flatten_cons]
  induction entries with
  | nil => rfl
  | cons first rest ih =>
      rw [hcons, ih, List.filter_cons]
      split
      next => rw [hcons]
      next hunknown =>
        rw [ofPair_of_not_isKnown (Bool.not_eq_true _ ▸ hunknown)]
        exact bind_pure (List.flatten <$> (rest.filter (isKnown registry)).mapM
          fun entry => ofPair registry entry.1 entry.2)

/-- Whatever a survey has been through, a proposal looks at the best pairs up to the limit and uses
those of them that are not retired. It proposes for those whose patterns are registered, in the
order of the ranking, and retires what it has used, up to the first pair with an identity that
cannot be written. These are the best pairs not yet retired exactly if no retired one stands within
the limit or none but retired ones stand behind it; so they are if the survey has only observed
charts since it was cleared. -/
theorem uses_ranking (survey : Survey) (registry : Registry) (threshold : Int) (limit : Nat) :
    survey.Ranks threshold (survey.ranking threshold) ∧
    (ofPairs registry (.ok (some threshold)) (.ok (some (limit : Int)))).run survey =
      (List.flatten <$> ((survey.used threshold limit).filter (isKnown registry)).mapM
          fun entry => ofPair registry entry.1 entry.2,
        survey.retireAll (triedPairs registry (survey.used threshold limit))) ∧
    (∀ proposals, ((ofPairs registry (.ok (some threshold)) (.ok (some (limit : Int)))).run
        survey).1 = .ok proposals →
      triedPairs registry (survey.used threshold limit) = survey.used threshold limit) ∧
    (survey.used threshold limit = survey.best threshold limit ↔
      (∀ entry ∈ (survey.ranking threshold).take limit, entry.1 ∉ survey.retired) ∨
        ∀ entry ∈ (survey.ranking threshold).drop limit, entry.1 ∈ survey.retired) ∧
    ∀ charts : List (Registry × Chart),
      let observed := survey.after
        (.clear :: charts.map fun (registry, chart) => .observe registry chart)
      observed.used threshold limit = observed.best threshold limit := by
  refine ⟨survey.ranks_ranking threshold, ?_, fun proposals hrun => ?_, Survey.used_eq_best_iff,
    fun charts => ?_⟩
  · rw [survey.run_ofPairs_used, flatten_mapM_ofPair]
  · obtain ⟨fresh, groups, hfresh, hgroups, -⟩ := run_ofPairs_eq_ok_iff.mp hrun
    cases (survey.freshPairs_eq threshold limit).symm.trans hfresh
    exact triedPairs_eq_self hgroups
  · exact (survey.countsFresh_clear.after_observe charts).used_eq_best threshold limit

end Proposal

/-- Two letters. -/
def Registry.twoLetters : Registry where
  ledger := #[{ kind := .literal, name := "a", content := .literal "a", id := 0 },
    { kind := .literal, name := "b", content := .literal "b", id := 1 }]
  entries := [(0, 0), (1, 1)]
  names := [("a", 0), ("b", 1)]
  literals := [("a", 0), ("b", 1)]
  nextId := 2

namespace Proposal

open Registry (twoLetters)

/-- In a text of three letters each of two pairs is seen once. -/
theorem ranking_twoLetters : ∃ chart, twoLetters.parse "aab" 256 = .ok chart ∧
    (({} : Survey).after [.observe twoLetters chart]).retired = {} ∧
      (({} : Survey).after [.observe twoLetters chart]).ranking 0 = [([0], 1), ([0, 1], 1)] := by
  have hrun : (match twoLetters.parse "aab" 256 with
      | .ok chart =>
        decide ((({} : Survey).after [.observe twoLetters chart]).pairs.table.toList =
          [([0], 0, ⟨1, ["aa"]⟩), ([0, 1], 1, ⟨1, ["ab"]⟩)])
      | .error _ => false) = true := by
    decide +kernel
  cases hparse : twoLetters.parse "aab" 256 with
  | error fault =>
      rw [hparse] at hrun
      cases hrun
  | ok chart =>
      rw [hparse] at hrun
      refine ⟨chart, rfl, (Survey.leavesRetired_record twoLetters.grammar chart {}).1, ?_⟩
      have hcounts : (({} : Survey).after [.observe twoLetters chart]).pairCounts =
          [([0], 1), ([0, 1], 1)] := by
        rw [Survey.pairCounts, ArrivalMap.toList, of_decide_eq_true hrun,
          List.mergeSort_of_pairwise (by decide)]
        rfl
      rw [Survey.ranking, Survey.rankedPairs_eq_mergeSort, hcounts]
      exact List.mergeSort_of_pairwise (by decide)

/-- The first proposal with a limit of one uses the first of the two pairs. The second proposal
could use the other one, which is the best not yet retired, but the retired pair still stands first
in the ranking, so that nothing is proposed and nothing is retired. -/
theorem not_uses_best_twoLetters : ∃ chart, twoLetters.parse "aab" 256 = .ok chart ∧
    let survey := ({} : Survey).after
      [.observe twoLetters chart, .propose twoLetters (.ok (some 0)) (.ok (some 1))]
    let again := (ofPairs twoLetters (.ok (some 0)) (.ok (some 1))).run survey
    survey.best 0 1 = [([0, 1], 1)] ∧ isKnown twoLetters ([0, 1], 1) = true ∧
      again.1 = .ok [] ∧ [0, 1] ∉ again.2.retired := by
  obtain ⟨chart, hparse, hretired, hranking⟩ := ranking_twoLetters
  have hafter := Survey.after_append {} [.observe twoLetters chart]
    [.propose twoLetters (.ok (some 0)) (.ok (some 1))]
  rw [List.singleton_append] at hafter
  refine ⟨chart, hparse, ?_⟩
  generalize ({} : Survey).after [.observe twoLetters chart] = observed at *
  have hused : observed.used 0 1 = [([0], 1)] := by
    have hfresh : observed.isFresh ([0], 1) = true := by
      rw [Survey.isFresh, hretired]
      decide
    rw [Survey.used, hranking]
    exact List.filter_cons_of_pos hfresh
  have hstate : observed.after [.propose twoLetters (.ok (some 0)) (.ok (some 1))] =
      observed.retire [0] := by
    have hrun := observed.run_ofPairs_used twoLetters 0 1
    rw [hused] at hrun
    exact congrArg Prod.snd hrun
  have hagain : (observed.retire [0]).ranking 0 = [([0], 1), ([0, 1], 1)] :=
    (Survey.ranking_retireAll observed [([0], 1)] 0).trans hranking
  have hretiredAgain : (observed.retire [0]).retired =
      ({} : Std.TreeSet PairKey compare).insert [0] :=
    congrArg (·.insert [0]) hretired
  have hstale : (observed.retire [0]).isFresh ([0], 1) = false := by
    rw [Survey.isFresh, hretiredAgain]
    decide
  have hfresh : (observed.retire [0]).isFresh ([0, 1], 1) = true := by
    rw [Survey.isFresh, hretiredAgain]
    decide
  have hnone : (observed.retire [0]).used 0 1 = [] := by
    rw [Survey.used, hagain]
    exact List.filter_cons_of_neg (Bool.eq_false_iff.mp hstale)
  have hbest : (observed.retire [0]).best 0 1 = [([0, 1], 1)] := by
    rw [Survey.best, hagain, List.filter_cons_of_neg (Bool.eq_false_iff.mp hstale),
      List.filter_cons_of_pos hfresh]
    rfl
  have hrun : (ofPairs twoLetters (.ok (some 0)) (.ok (some 1))).run (observed.retire [0]) =
      (.ok [], observed.retire [0]) := by
    have hrun := (observed.retire [0]).run_ofPairs_used twoLetters 0 1
    rw [hnone] at hrun
    exact hrun
  rw [hafter, hstate]
  intro survey again
  have hrun : again = (.ok [], survey) := hrun
  rw [hrun]
  exact ⟨hbest, rfl, rfl, Survey.isFresh_eq_true_iff.mp hfresh⟩

end Proposal

end Motif
