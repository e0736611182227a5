import Motif.Proofs.Survey.Statistics
import Motif.Proofs.Training.Counting

/-!
# Retired pairs

Between two times that everything is forgotten a survey goes through observations, proposals and
clearings in any order, with registries that change in between. A pair is retired before its
patterns are looked up, and it stays retired. So no pair is tried twice; it is not counted any
more, and once the survey has been cleared it has no count.
-/

namespace Motif

/-! ## The pairs that are tried -/

namespace Limit

theorem cut_sublist {α : Type} (limit : Limit) (xs : List α) : (limit.cut xs).Sublist xs := by
  cases limit with
  | none => exact .refl _
  | some place => exact List.take_sublist _ _

end Limit

namespace Proposal

variable {registry : Registry} {survey : Survey} {threshold limit : Setting Limit}

/-- The best pairs have different keys, since the keys of a map are different. -/
theorem pairwise_bestPairs {best : List (PairKey × Int)}
    (hbest : survey.bestPairs threshold limit = .ok best) :
    best.Pairwise fun first second => first.1 ≠ second.1 := by
  obtain ⟨used, place, rfl⟩ : ∃ used place, best = survey.rankedPairs used place := by
    unfold Survey.bestPairs at hbest
    split at hbest
    all_goals
      obtain ⟨used, -, hbest⟩ := bind_eq_ok_iff.mp hbest
      obtain ⟨place, -, hbest⟩ := bind_eq_ok_iff.mp hbest
      exact ⟨used, place, (Except.ok.inj hbest).symm⟩
  have hpairs : (survey.pairs.toList.map fun entry => (entry.1, entry.2.count)).Pairwise
      fun first second => first.1 ≠ second.1 := by
    rw [List.pairwise_map]
    exact survey.pairs.pairwise_toList
  unfold Survey.rankedPairs
  apply List.Pairwise.sublist (Limit.cut_sublist _ _)
  apply ((List.mergeSort_perm _ _).pairwise_iff Ne.symm).mpr
  exact hpairs.filter _

theorem triedPairs_sublist (registry : Registry) (fresh : List (PairKey × Int)) :
    (triedPairs registry fresh).Sublist fresh := by
  induction fresh with
  | nil => exact .refl _
  | cons first rest ih =>
      unfold triedPairs
      split
      · exact ih.cons_cons first
      · exact (List.nil_sublist rest).cons_cons first

/-- No pair is tried twice in one go, and none that is retired. -/
theorem tried_fresh (registry : Registry) (threshold limit : Setting Limit) (survey : Survey) :
    (tried registry threshold limit survey).Pairwise (fun first second => first.1 ≠ second.1) ∧
      ∀ entry ∈ tried registry threshold limit survey, entry.1 ∉ survey.retired := by
  unfold tried
  split
  next fresh hfresh =>
    obtain ⟨best, hbest, hfresh⟩ := bind_eq_ok_iff.mp hfresh
    cases hfresh
    have htried := triedPairs_sublist registry
      (best.filter fun entry => !survey.retired.contains entry.1)
    constructor
    · exact ((pairwise_bestPairs hbest).filter _).sublist htried
    · intro entry hentry
      obtain ⟨-, hcontains⟩ := List.mem_filter.mp (htried.subset hentry)
      rw [Std.TreeSet.mem_iff_contains, Bool.not_eq_true]
      exact Bool.not_inj hcontains
  next => simp

/-- Where all goes well no pair is left out. -/
theorem triedPairs_eq_self {fresh : List (PairKey × Int)} {groups : List (List Proposal)}
    (hgroups : (fresh.mapM fun entry => ofPair registry entry.1 entry.2) = .ok groups) :
    triedPairs registry fresh = fresh := by
  induction fresh generalizing groups with
  | nil => rfl
  | cons first rest ih =>
      rw [List.mapM_cons] at hgroups
      obtain ⟨group, hgroup, hgroups⟩ := bind_eq_ok_iff.mp hgroups
      obtain ⟨others, hothers, -⟩ := bind_eq_ok_iff.mp hgroups
      rw [triedPairs, hgroup]
      exact congrArg (first :: ·) (ih hothers)

/-- What is proposed comes from the pairs that are tried, in their order. -/
theorem proposals_of_tried {proposals : List Proposal}
    (hrun : ((ofPairs registry threshold limit).run survey).1 = .ok proposals) :
    ∃ groups, ((tried registry threshold limit survey).mapM fun entry =>
      ofPair registry entry.1 entry.2) = .ok groups ∧ proposals = groups.flatten := by
  obtain ⟨fresh, groups, hfresh, hgroups, rfl⟩ := run_ofPairs_eq_ok_iff.mp hrun
  refine ⟨groups, ?_, rfl⟩
  rw [tried, hfresh]
  dsimp only
  rwa [triedPairs_eq_self hgroups]

end Proposal

namespace Survey

variable {survey : Survey} {key : PairKey}

theorem mem_retired_retireAll (survey : Survey) (entries : List (PairKey × Int)) (key : PairKey) :
    key ∈ (survey.retireAll entries).retired ↔
      key ∈ survey.retired ∨ key ∈ entries.map Prod.fst := by
  induction entries generalizing survey with
  | nil => simp [retireAll]
  | cons first rest ih =>
      have hfirst : key ∈ (survey.retire first.1).retired ↔ key = first.1 ∨ key ∈ survey.retired := by
        rw [retire, Std.TreeSet.mem_insert, Std.LawfulEqCmp.compare_eq_iff_eq,
          eq_comm (a := first.1)]
      change key ∈ ((survey.retire first.1).retireAll rest).retired ↔ _
      rw [ih, hfirst, List.map_cons, List.mem_cons, or_comm (a := key = first.1), or_assoc]

/-! ## Observing -/

/-- No pair has been retired, and what is known of the retired ones is as before. -/
def LeavesRetired (before after : Survey) : Prop :=
  after.retired = before.retired ∧
    ∀ key ∈ before.retired, after.pairs.get? key = before.pairs.get? key

theorem LeavesRetired.trans {first second third : Survey} (hsecond : first.LeavesRetired second)
    (hthird : second.LeavesRetired third) : first.LeavesRetired third := by
  constructor
  · exact hthird.1.trans hsecond.1
  · intro key hkey
    rw [hthird.2 key (hsecond.1 ▸ hkey), hsecond.2 key hkey]

theorem leavesRetired_foldl {α : Type} {change : Survey → α → Survey}
    (hchange : ∀ survey item, LeavesRetired survey (change survey item)) (items : List α)
    (survey : Survey) : survey.LeavesRetired (items.foldl change survey) := by
  induction items generalizing survey with
  | nil => exact ⟨rfl, fun _ _ => rfl⟩
  | cons first rest ih => exact (hchange survey first).trans (ih _)

theorem leavesRetired_countPair (survey : Survey) (first second : Token) :
    survey.LeavesRetired (survey.countPair first second) := by
  unfold countPair
  dsimp only
  split
  next => exact ⟨rfl, fun _ _ => rfl⟩
  next hcounted =>
    refine ⟨rfl, fun key hkey => ?_⟩
    rw [ArrivalMap.get?_update, if_neg]
    rw [Std.LawfulEqCmp.compare_eq_iff_eq]
    rintro rfl
    exact hcounted (Std.TreeSet.mem_iff_contains.mp hkey)

theorem leavesRetired_countPairs (chart : Chart) (counts : Token → Bool) (survey : Survey)
    (first : Token) : survey.LeavesRetired (countPairs chart counts survey first) := by
  unfold countPairs
  split
  · exact leavesRetired_foldl (fun survey second => leavesRetired_countPair survey first second) _ _
  · exact ⟨rfl, fun _ _ => rfl⟩

/-- Observing a chart does not touch the retired pairs, also if it fails. -/
theorem leavesRetired_record (grammar : Grammar) (chart : Chart) (survey : Survey) :
    survey.LeavesRetired ((record grammar chart).run survey).2 := by
  have hobserve : survey.LeavesRetired (survey.observe grammar chart) := by
    refine LeavesRetired.trans ?_ (leavesRetired_foldl (leavesRetired_countPairs chart _) _ _)
    exact ⟨rfl, fun _ _ => rfl⟩
  unfold record
  rw [run_read_bind]
  split
  next => exact hobserve
  next =>
    split
    next => exact hobserve
    next => exact ⟨rfl, fun _ _ => rfl⟩

/-! ## Calls -/

/-- What may be done to a survey short of forgetting everything. -/
inductive Call where
  | clear
  | observe (registry : Registry) (chart : Chart)
  | propose (registry : Registry) (threshold limit : Setting Limit)

/-- The survey after a call, also if that has failed. -/
def Call.perform (survey : Survey) : Call → Survey
  | clear => survey.clear
  | observe registry chart => ((record registry.grammar chart).run survey).2
  | propose registry threshold limit => ((Proposal.ofPairs registry threshold limit).run survey).2

/-- The keys of the pairs that a call tries. -/
def Call.keys (survey : Survey) : Call → List PairKey
  | propose registry threshold limit =>
    (Proposal.tried registry threshold limit survey).map Prod.fst
  | clear | observe _ _ => []

/-- The survey after calls, one after the other. -/
def after (survey : Survey) (calls : List Call) : Survey :=
  calls.foldl Call.perform survey

/-- The keys of the pairs that are tried by calls, one after the other. -/
def keysTried (survey : Survey) : List Call → List PairKey
  | [] => []
  | call :: rest => call.keys survey ++ (call.perform survey).keysTried rest

theorem mem_retired_perform (survey : Survey) (call : Call) (key : PairKey) :
    key ∈ (call.perform survey).retired ↔ key ∈ survey.retired ∨ key ∈ call.keys survey := by
  cases call with
  | clear => simp [Call.perform, Call.keys, clear]
  | observe registry chart =>
      simp [Call.perform, Call.keys, (leavesRetired_record registry.grammar chart survey).1]
  | propose registry threshold limit =>
      rw [Call.perform, Proposal.run_ofPairs]
      exact mem_retired_retireAll survey _ key

theorem get?_perform (hretired : key ∈ survey.retired) (hnone : survey.pairs.get? key = none)
    (call : Call) : (call.perform survey).pairs.get? key = none := by
  cases call with
  | clear => simp [Call.perform, clear, ArrivalMap.get?]
  | observe registry chart =>
      exact ((leavesRetired_record registry.grammar chart survey).2 key hretired).trans hnone
  | propose registry threshold limit =>
      rw [Call.perform, Proposal.run_ofPairs]
      obtain ⟨retired, hlater⟩ :=
        survey.exists_retireAll (Proposal.tried registry threshold limit survey)
      rw [hlater]
      exact hnone

theorem nodup_keys (survey : Survey) (call : Call) :
    (call.keys survey).Nodup ∧ ∀ key ∈ call.keys survey, key ∉ survey.retired := by
  cases call with
  | clear => simp [Call.keys]
  | observe registry chart => simp [Call.keys]
  | propose registry threshold limit =>
      obtain ⟨hdifferent, hfresh⟩ := Proposal.tried_fresh registry threshold limit survey
      constructor
      · rw [Call.keys, List.Nodup, List.pairwise_map]
        exact hdifferent
      · simpa only [Call.keys, List.forall_mem_map] using hfresh

theorem after_append (survey : Survey) (first second : List Call) :
    survey.after (first ++ second) = (survey.after first).after second :=
  List.foldl_append

/-- What calls retire is what they try. -/
theorem mem_retired_after (survey : Survey) (calls : List Call) (key : PairKey) :
    key ∈ (survey.after calls).retired ↔ key ∈ survey.retired ∨ key ∈ survey.keysTried calls := by
  induction calls generalizing survey with
  | nil => simp [after, keysTried]
  | cons call rest ih =>
      change key ∈ ((call.perform survey).after rest).retired ↔ _
      rw [ih, mem_retired_perform, keysTried, List.mem_append, or_assoc]

theorem get?_after (hretired : key ∈ survey.retired) (hnone : survey.pairs.get? key = none)
    (calls : List Call) : (survey.after calls).pairs.get? key = none := by
  induction calls generalizing survey with
  | nil => exact hnone
  | cons call rest ih =>
      apply ih
      · exact (mem_retired_perform survey call key).mpr (.inl hretired)
      · exact get?_perform hretired hnone call

/-- A key is tried once, since it is retired then. -/
theorem nodup_keysTried (survey : Survey) (calls : List Call) :
    (survey.keysTried calls).Nodup ∧ ∀ key ∈ survey.keysTried calls, key ∉ survey.retired := by
  induction calls generalizing survey with
  | nil => simp [keysTried]
  | cons call rest ih =>
      obtain ⟨hnodup, hfresh⟩ := nodup_keys survey call
      obtain ⟨hrestNodup, hrestFresh⟩ := ih (call.perform survey)
      have hrest (key : PairKey) (hkey : key ∈ (call.perform survey).keysTried rest) :
          key ∉ survey.retired ∧ key ∉ call.keys survey := by
        apply not_or.mp
        rw [← mem_retired_perform]
        exact hrestFresh key hkey
      constructor
      · apply hnodup.append hrestNodup
        intro key hkey hlater
        exact (hrest key hlater).2 hkey
      · intro key hkey
        rcases List.mem_append.mp hkey with hkey | hkey
        · exact hfresh key hkey
        · exact (hrest key hkey).1

/-- However a survey is used until everything is forgotten, no key is tried twice, and what is
proposed comes from the keys that are tried. A key that has been tried is retired. A retired key
stays retired, observing leaves its count as it is, and after a clearing it has none. -/
theorem pairs_tried_once (survey : Survey) (calls : List Call) :
    (survey.keysTried calls).Nodup ∧
    (∀ registry threshold limit proposals,
      ((Proposal.ofPairs registry threshold limit).run (survey.after calls)).1 = .ok proposals →
      ∃ groups, ((Proposal.tried registry threshold limit (survey.after calls)).mapM fun entry =>
        Proposal.ofPair registry entry.1 entry.2) = .ok groups ∧ proposals = groups.flatten) ∧
    (∀ key ∈ survey.keysTried calls, key ∉ survey.retired ∧ key ∈ (survey.after calls).retired) ∧
    ∀ key ∈ (survey.after calls).retired, ∀ later,
      key ∈ (survey.after (calls ++ later)).retired ∧
      (∀ registry chart,
        (survey.after (calls ++ later ++ [.observe registry chart])).pairs.get? key =
          (survey.after (calls ++ later)).pairs.get? key) ∧
      (survey.after (calls ++ .clear :: later)).pairs.get? key = none := by
  obtain ⟨hnodup, hfresh⟩ := nodup_keysTried survey calls
  refine ⟨hnodup, fun registry threshold limit proposals => Proposal.proposals_of_tried, ?_, ?_⟩
  · intro key hkey
    exact ⟨hfresh key hkey, (mem_retired_after survey calls key).mpr (.inr hkey)⟩
  · intro key hkey later
    have hlater : key ∈ (survey.after (calls ++ later)).retired := by
      rw [after_append, mem_retired_after]
      exact .inl hkey
    refine ⟨hlater, ?_, ?_⟩
    · intro registry chart
      rw [after_append _ (calls ++ later)]
      exact (leavesRetired_record registry.grammar chart _).2 key hlater
    · have hcleared : (survey.after calls).clear.pairs.get? key = none := by
        simp [clear, ArrivalMap.get?]
      have hkept : key ∈ (survey.after calls).clear.retired := hkey
      rw [after_append]
      exact get?_after hkept hcleared later

end Survey

end Motif
