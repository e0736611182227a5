import Mathlib
import Motif.Proofs.Matching.Calls
import Motif.Proofs.Matching.Ends
import Motif.Proofs.Survey.Coverage
import Motif.Proofs.Survey.Stretches
import Motif.Proofs.Training.Observing

/-!
# Statistics of a survey

After charts have been observed the figures of a survey are what they are meant to be: sums over the
charts, for each pattern over its tokens and for each pair of patterns over the pairs of tokens next
to each other. So the order of the charts does not matter, except for the examples.
-/

namespace Motif

/-! ## Changes of a map under several keys -/

namespace ArrivalMap

variable {α κ ν : Type} {cmp : κ → κ → Ordering} [Std.TransCmp cmp] [Std.LawfulEqCmp cmp]

/-- Of changes one after another those under a key make its value. -/
theorem getD_foldl_update [DecidableEq κ] (key : α → κ) (fallback : ν) (change : α → ν → ν)
    (items : List α) (map : ArrivalMap κ ν cmp) (other : κ) :
    (items.foldl (fun map item => map.update (key item) fallback (change item)) map).getD other
        fallback =
      (items.filter fun item => key item = other).foldl (fun value item => change item value)
        (map.getD other fallback) := by
  induction items generalizing map with
  | nil => rfl
  | cons first rest ih =>
      rw [List.foldl_cons, ih, getD_update, List.filter_cons]
      by_cases hkey : key first = other
      · rw [if_pos hkey, if_pos (decide_eq_true hkey), List.foldl_cons]
      · rw [if_neg hkey, if_neg (by simpa using hkey)]

omit [Std.LawfulEqCmp cmp] in
/-- No key is listed twice. -/
theorem pairwise_toList (map : ArrivalMap κ ν cmp) :
    map.toList.Pairwise fun first second => first.1 ≠ second.1 := by
  have hdistinct : map.table.toList.Pairwise fun first second => first.1 ≠ second.1 := by
    refine Std.TreeMap.distinct_keys_toList.imp fun {first second} hne heq => hne ?_
    rw [heq]
    exact Std.ReflCmp.compare_self
  rw [toList, List.pairwise_map]
  exact ((List.mergeSort_perm _ _).pairwise_iff Ne.symm).mpr hdistinct

end ArrivalMap

/-- What a map has under a key is the only entry of that key in its list. -/
theorem filter_toList_eq {κ ν : Type} {cmp : κ → κ → Ordering} [Std.TransCmp cmp]
    [Std.LawfulEqCmp cmp] [DecidableEq κ] (map : Std.TreeMap κ ν cmp) (key : κ) :
    (map.toList.filter fun entry => entry.1 = key) =
      map[key]?.toList.map fun value => (key, value) := by
  have hmem : ∀ entry : κ × ν, (entry ∈ map.toList.filter fun entry => entry.1 = key) ↔
      entry.1 = key ∧ map[key]? = some entry.2 := by
    rintro ⟨other, value⟩
    simp only [List.mem_filter, decide_eq_true_eq, Std.TreeMap.mem_toList_iff_getElem?_eq_some]
    constructor
    · rintro ⟨hvalue, rfl⟩
      exact ⟨rfl, hvalue⟩
    · rintro ⟨rfl, hvalue⟩
      exact ⟨hvalue, rfl⟩
  cases hvalue : map[key]? with
  | none =>
      refine List.eq_nil_iff_forall_not_mem.mpr fun entry hentry => ?_
      have hsome := ((hmem entry).mp hentry).2
      rw [hvalue] at hsome
      cases hsome
  | some value =>
      have hnodup : map.toList.Nodup := by
        refine Std.TreeMap.distinct_keys_toList.imp fun {first second} hne heq => hne ?_
        rw [heq]
        exact Std.ReflCmp.compare_self
      refine List.perm_singleton.mp ?_
      rw [List.perm_ext_iff_of_nodup (hnodup.filter _) (List.nodup_singleton _)]
      intro entry
      rw [hmem, hvalue, List.mem_singleton, Option.some_inj]
      constructor
      · rintro ⟨rfl, rfl⟩
        rfl
      · rintro rfl
        exact ⟨rfl, rfl⟩

/-! ## Examples -/

namespace Limit

variable {α : Type}

/-- The first elements, as many as the limit allows. -/
def first (limit : Limit) (xs : List α) : List α :=
  match limit with
  | none => xs
  | some bound => xs.take bound.toNat

/-- Where there is room left all elements are among the first ones, and one more is too. -/
theorem first_of_leavesRoom {limit : Limit} {xs : List α}
    (hroom : limit.leavesRoom (limit.first xs).length = true) (x : α) :
    limit.first xs = xs ∧ limit.first (xs ++ [x]) = xs ++ [x] := by
  cases limit with
  | none => exact ⟨rfl, rfl⟩
  | some bound =>
      simp only [leavesRoom, first, Option.all_some, decide_eq_true_eq, List.length_take] at hroom
      have hlength : xs.length < bound.toNat := by omega
      refine ⟨List.take_of_length_le hlength.le, List.take_of_length_le ?_⟩
      rw [List.length_append, List.length_singleton]
      exact hlength

/-- Where there is none one more element changes nothing. -/
theorem first_append_of_full {limit : Limit} {xs : List α}
    (hfull : limit.leavesRoom (limit.first xs).length = false) (more : List α) :
    limit.first (xs ++ more) = limit.first xs := by
  cases limit with
  | none => cases hfull
  | some bound =>
      simp only [leavesRoom, first, Option.all_some, decide_eq_false_iff_not, List.length_take]
        at hfull
      exact List.take_append_of_le_length (by omega)

/-- An example is added if it is new and there is room for it. -/
theorem first_eraseDups_concat [BEq α] [LawfulBEq α] (limit : Limit) (xs : List α) (x : α) :
    limit.first (xs ++ [x]).eraseDups =
      if limit.leavesRoom (limit.first xs.eraseDups).length &&
          !(limit.first xs.eraseDups).contains x then
        limit.first xs.eraseDups ++ [x]
      else limit.first xs.eraseDups := by
  rw [List.eraseDups_append]
  cases hroom : limit.leavesRoom (limit.first xs.eraseDups).length with
  | false => rw [first_append_of_full hroom, Bool.false_and, if_neg Bool.false_ne_true]
  | true =>
      obtain ⟨hfirst, hmore⟩ := first_of_leavesRoom hroom x
      rw [hfirst, Bool.true_and]
      by_cases hmem : x ∈ xs
      · have hcontains : xs.eraseDups.contains x = true := by simpa using hmem
        have hnone : [x].removeAll xs = [] := by simpa [List.removeAll] using hmem
        rw [hcontains, hnone, Bool.not_true, if_neg Bool.false_ne_true, List.eraseDups_nil,
          List.append_nil, hfirst]
      · have hcontains : xs.eraseDups.contains x = false := by simpa using hmem
        have hone : [x].removeAll xs = [x] := by simpa [List.removeAll] using hmem
        rw [hcontains, hone, Bool.not_false, if_pos rfl]
        exact hmore

end Limit

/-! ## The figures of a pattern -/

/-- The statistics of a pattern, except for the coverage, are those of a list of its tokens. -/
structure PatternStats.Counts (limit : Limit) (tokens : List Token) (stats : PatternStats) : Prop
    where
  matchCount_eq : stats.matchCount = tokens.length
  longest_eq : stats.longest = (tokens.map Token.length).foldl max 0
  leading_eq : stats.leading =
    ((tokens.filter fun token => token.start = 0).map Token.length).sum
  examples_eq : stats.examples = limit.first (tokens.map Token.text).eraseDups

namespace Survey

theorem counts_nil (limit : Limit) : PatternStats.Counts limit [] {} := by
  refine ⟨rfl, rfl, rfl, ?_⟩
  cases limit <;> simp [Limit.first]

section Tokens

variable {limit : Limit} {tokens : List Token} {stats : PatternStats}

theorem counts_countToken (hcounts : stats.Counts limit tokens) (token : Token) :
    (countToken limit stats token).Counts limit (tokens ++ [token]) where
  matchCount_eq := by
    rw [countToken, hcounts.matchCount_eq, List.length_append]
    rfl
  longest_eq := by
    rw [countToken, hcounts.longest_eq, List.map_append, List.foldl_append]
    rfl
  leading_eq := by
    rw [countToken, List.filter_append, List.map_append, List.sum_append, ← hcounts.leading_eq]
    by_cases hstart : token.start = 0 <;> simp [hstart]
  examples_eq := by
    rw [List.map_append, List.map_singleton, Limit.first_eraseDups_concat, countToken,
      ← hcounts.examples_eq]

theorem counts_foldl (hcounts : stats.Counts limit tokens) (more : List Token) :
    (more.foldl (countToken limit) stats).Counts limit (tokens ++ more) := by
  induction more generalizing tokens stats with
  | nil => rwa [List.append_nil]
  | cons first rest ih =>
      rw [List.foldl_cons, List.append_cons]
      exact ih (counts_countToken hcounts first)

theorem coverage_foldl (more : List Token) :
    (more.foldl (countToken limit) stats).coverage = stats.coverage := by
  induction more generalizing stats with
  | nil => rfl
  | cons first rest ih => exact ih

end Tokens

/-- The statistics of a pattern after the spans of its tokens in a chart have been counted. -/
def cover (stats : PatternStats) (positions : Int) : PatternStats :=
  { stats with coverage := stats.coverage + positions }

theorem counts_cover {limit : Limit} {tokens : List Token} {stats : PatternStats}
    (hcounts : stats.Counts limit tokens) (positions : Int) :
    (cover stats positions).Counts limit tokens :=
  ⟨hcounts.matchCount_eq, hcounts.longest_eq, hcounts.leading_eq, hcounts.examples_eq⟩

theorem getD_foldl_cover (spans : Std.TreeMap Int (List (Int × Int)))
    (stats : ArrivalMap Int PatternStats compare) (id : Int) :
    (spans.foldl (fun stats id spans =>
        stats.update id {} fun old => cover old (countPositions spans)) stats).getD id {} =
      cover (stats.getD id {}) (countPositions (spans.getD id [])) := by
  rw [Std.TreeMap.foldl_eq_foldl_toList, ArrivalMap.getD_foldl_update Prod.fst {}
    (fun entry old => cover old (countPositions entry.2)), filter_toList_eq,
    Std.TreeMap.getD_eq_getD_getElem?]
  cases spans[id]? with
  | none => simp [cover, countPositions]
  | some spans => rfl

/-- What the tokens of a chart add to the statistics of a pattern. -/
theorem statsFor_countTokens (survey : Survey) (tokens : List Token) (id : Int) :
    (survey.countTokens tokens).statsFor id =
      cover ((tokens.filter fun token => token.id = id).foldl (countToken survey.exampleLimit)
        (survey.statsFor id)) (positionsIn (spansWith id tokens)).card := by
  have hcounted := ArrivalMap.getD_foldl_update Token.id {}
    (fun token old => countToken survey.exampleLimit old token) tokens survey.stats id
  have hcovered := getD_foldl_cover (spansOf tokens)
    (tokens.foldl (fun stats token =>
      stats.update token.id {} fun old => countToken survey.exampleLimit old token) survey.stats) id
  rw [hcounted, countPositions_getD_spansOf] at hcovered
  exact hcovered

/-! ## The pairs of a chart -/

/-- A token and one that starts where it ends, both of registered patterns that count, are a pair
with a key that is not retired. -/
def joins (survey : Survey) (grammar : Grammar) (key : PairKey) (pair : Token × Token) : Bool :=
  pair.2.start = pair.1.stop && pair.1.reaches grammar survey.minKind &&
    pair.2.reaches grammar survey.minKind && pairKey pair.1.id pair.2.id = key &&
    !survey.retired.contains key

/-- The number of token pairs of a chart with a key. -/
def pairCount (survey : Survey) (grammar : Grammar) (key : PairKey) (chart : Chart) : Nat :=
  (chart.tokens ×ˢ chart.tokens).countP (survey.joins grammar key)

/-- So many pairs with a key have been counted. Where there are none the key is absent. -/
def HasPairs (survey : Survey) (key : PairKey) (count : Nat) : Prop :=
  (survey.pairs.get? key).map PairStats.count = if count = 0 then none else some (count : Int)

/-- All but the pairs is as before. -/
def OnlyPairs (before after : Survey) : Prop :=
  ∃ pairs, after = { before with pairs }

theorem OnlyPairs.trans {first second third : Survey} (hsecond : first.OnlyPairs second)
    (hthird : second.OnlyPairs third) : first.OnlyPairs third := by
  obtain ⟨_, rfl⟩ := hsecond
  obtain ⟨pairs, rfl⟩ := hthird
  exact ⟨pairs, rfl⟩

theorem onlyPairs_countPair (survey : Survey) (first second : Token) :
    survey.OnlyPairs (survey.countPair first second) := by
  unfold countPair
  dsimp only
  split <;> exact ⟨_, rfl⟩

theorem onlyPairs_foldl {α : Type} {change : Survey → α → Survey}
    (hchange : ∀ survey item, OnlyPairs survey (change survey item)) (items : List α)
    (survey : Survey) : survey.OnlyPairs (items.foldl change survey) := by
  induction items generalizing survey with
  | nil => exact ⟨_, rfl⟩
  | cons first rest ih => exact (hchange survey first).trans (ih _)

theorem onlyPairs_countPairs (chart : Chart) (counts : Token → Bool) (survey : Survey)
    (first : Token) : survey.OnlyPairs (countPairs chart counts survey first) := by
  unfold countPairs
  split
  · exact onlyPairs_foldl (fun survey second => onlyPairs_countPair survey first second) _ _
  · exact ⟨_, rfl⟩

/-- Observing a chart changes what is counted, and nothing else. -/
theorem onlyPairs_observe (survey : Survey) (grammar : Grammar) (chart : Chart) :
    (({ survey with charts := survey.charts + 1 } : Survey).countTokens chart.tokens).OnlyPairs
      (survey.observe grammar chart) :=
  onlyPairs_foldl (onlyPairs_countPairs chart _) _ _

section Pairs

variable {survey base : Survey} {grammar : Grammar} {key : PairKey} {count : Nat}

theorem map_count_countPair (survey : Survey) (first second : Token) (key : PairKey) :
    ((survey.countPair first second).pairs.get? key).map PairStats.count =
      if pairKey first.id second.id = key && !survey.retired.contains key then
        some ((survey.pairs.getD key {}).count + 1)
      else (survey.pairs.get? key).map PairStats.count := by
  unfold countPair
  dsimp only
  by_cases hkey : pairKey first.id second.id = key
  · rw [hkey]
    cases survey.retired.contains key with
    | true => simp
    | false =>
        simp [ArrivalMap.get?_update]
  · rw [decide_eq_false hkey, Bool.false_and, if_neg Bool.false_ne_true]
    split
    · rfl
    · rw [ArrivalMap.get?_update, if_neg fun heq => hkey (Std.LawfulEqCmp.eq_of_compare heq)]

theorem HasPairs.count_getD (hpairs : survey.HasPairs key count) :
    (survey.pairs.getD key {}).count = count := by
  unfold HasPairs at hpairs
  rw [ArrivalMap.getD]
  cases hget : survey.pairs.get? key with
  | none =>
      rw [hget] at hpairs
      split at hpairs
      next hzero =>
        rw [hzero]
        rfl
      next => cases hpairs
  | some stats =>
      rw [hget] at hpairs
      split at hpairs
      next => cases hpairs
      next => exact Option.some.inj hpairs

/-- One more pair is counted if it has the key, unless the key is retired. -/
theorem HasPairs.countPair (hpairs : survey.HasPairs key count) (first second : Token) :
    (survey.countPair first second).HasPairs key
      (count + if pairKey first.id second.id = key && !survey.retired.contains key then 1
        else 0) := by
  rw [HasPairs, map_count_countPair, hpairs.count_getD]
  split
  · rw [if_neg (Nat.succ_ne_zero count)]
    rfl
  · exact hpairs

/-- The pairs of one token are counted. -/
theorem HasPairs.foldl_countPair (hpairs : survey.HasPairs key count)
    (first : Token) (seconds : List Token) :
    (seconds.foldl (fun survey => survey.countPair first) survey).HasPairs key
      (count + seconds.countP fun second =>
        pairKey first.id second.id = key && !survey.retired.contains key) := by
  induction seconds generalizing survey count with
  | nil => exact hpairs
  | cons second rest ih =>
      obtain ⟨pairs, hpair⟩ := onlyPairs_countPair survey first second
      have hretired : (survey.countPair first second).retired = survey.retired := by rw [hpair]
      have hrest := ih (hpairs.countPair first second)
      rw [hretired, Nat.add_assoc, Nat.add_comm (ite _ _ _), ← List.countP_cons] at hrest
      exact hrest

section Chart

variable {text : Array Char} {active : List Cell} {chart : Chart}
  (hchart : Chart.Indexed text active chart)
include hchart

/-- The tokens that pair with a token are those at the place where it ends. -/
theorem countP_joins {first : Token} (hfirst : first ∈ chart.tokens) :
    (chart.tokens.countP fun second => base.joins grammar key (first, second)) =
      if first.reaches grammar base.minKind && first.stop < chart.size then
        ((chart.startingAt first.stop).filter fun token =>
          token.reaches grammar base.minKind).countP fun second =>
            pairKey first.id second.id = key && !base.retired.contains key
      else 0 := by
  have hhead := hchart.mem_tokens_iff.mp hfirst
  have hnonneg := (hchart.fits (hchart.head?_eq_some_iff.mp hhead).1).start_nonneg
  have hstop := (hchart.stop_of_head? hhead).1
  split
  next hcounts =>
    obtain ⟨hcounts, -⟩ := Bool.and_eq_true_iff.mp hcounts
    rw [((hchart.perm_startingAt (by omega)).filter _).countP_eq, List.countP_filter,
      List.countP_filter]
    refine List.countP_congr fun second _ => ?_
    simp only [joins, hcounts, Bool.and_eq_true, decide_eq_true_eq]
    tauto
  next hcounts =>
    rw [List.countP_eq_zero]
    intro second hsecond hjoins
    simp only [joins, Bool.and_eq_true, decide_eq_true_eq] at hjoins
    have hsize := (hchart.stop_of_head? (hchart.mem_tokens_iff.mp hsecond))
    refine hcounts (Bool.and_eq_true_iff.mpr ⟨hjoins.1.1.1.2, decide_eq_true ?_⟩)
    omega

/-- The pairs of a chart are counted, one first token after another. -/
theorem HasPairs.foldl_countPairs (grammar : Grammar) (hpairs : survey.HasPairs key count)
    (hretired : survey.retired = base.retired) {firsts : List Token}
    (hfirsts : ∀ first ∈ firsts, first ∈ chart.tokens) :
    (firsts.foldl (countPairs chart fun token => token.reaches grammar base.minKind)
        survey).HasPairs key
      (count + (firsts ×ˢ chart.tokens).countP (base.joins grammar key)) := by
  induction firsts generalizing survey count with
  | nil => exact hpairs
  | cons first rest ih =>
      obtain ⟨pairs, hpair⟩ := onlyPairs_countPairs chart
        (fun token => token.reaches grammar base.minKind) survey first
      obtain ⟨hfirst, hrest⟩ := List.forall_mem_cons.mp hfirsts
      rw [List.product_cons, List.countP_append, List.countP_map, ← Nat.add_assoc]
      refine ih ?_ ((congrArg retired hpair).trans hretired) hrest
      have hcount : (chart.tokens.countP (base.joins grammar key ∘ fun second => (first, second))) =
        _ := countP_joins hchart hfirst
      rw [hcount, countPairs]
      split
      · rw [← hretired]
        exact hpairs.foldl_countPair first _
      · exact hpairs

end Chart

end Pairs

/-! ## Several charts -/

/-- The tokens of a pattern in several charts. -/
def tokensWith (id : Int) (charts : List Chart) : List Token :=
  charts.flatMap fun chart => chart.tokens.filter fun token => token.id = id

/-- A survey that was like `base`, but without figures, has observed charts. The figures of each
pattern are those of its tokens in all charts, and its coverage is the number of different positions
of its tokens, chart by chart. Each key that is not retired has the number of its pairs. -/
structure Reflects (base : Survey) (grammar : Grammar) (limit : Limit) (charts : List Chart)
    (survey : Survey) : Prop where
  maxExamples_eq : survey.maxExamples = base.maxExamples
  minKind_eq : survey.minKind = base.minKind
  retired_eq : survey.retired = base.retired
  counts : ∀ id, (survey.statsFor id).Counts limit (tokensWith id charts)
  coverage_eq : ∀ id, (survey.statsFor id).coverage =
    (charts.map fun chart => ((positionsIn (spansWith id chart.tokens)).card : Int)).sum
  hasPairs : ∀ key, survey.HasPairs key (charts.map (base.pairCount grammar key)).sum

theorem reflects_clear (base : Survey) (grammar : Grammar) (limit : Limit) :
    base.Reflects grammar limit [] base.clear where
  maxExamples_eq := rfl
  minKind_eq := rfl
  retired_eq := rfl
  counts id := by
    rw [statsFor, clear, ArrivalMap.getD_empty]
    exact counts_nil limit
  coverage_eq id := by
    rw [statsFor, clear, ArrivalMap.getD_empty]
    rfl
  hasPairs key := by
    rw [HasPairs, clear, ArrivalMap.get?_empty]
    rfl

section Observing

variable {base survey : Survey} {grammar : Grammar} {limit : Limit} {charts : List Chart}

/-- What is observed in a chart is added to what has been observed before. -/
theorem Reflects.observe (hreflects : base.Reflects grammar limit charts survey)
    (hexamples : base.maxExamples = .ok limit) {text : Array Char} {active : List Cell}
    {chart : Chart} (hchart : Chart.Indexed text active chart) :
    base.Reflects grammar limit (charts ++ [chart]) (survey.observe grammar chart) := by
  obtain ⟨pairs, honly⟩ := onlyPairs_observe survey grammar chart
  have hlimit : survey.exampleLimit = limit := by
    rw [exampleLimit, hreflects.maxExamples_eq, hexamples]
    rfl
  have hstats : ∀ id, (survey.observe grammar chart).statsFor id =
      cover ((chart.tokens.filter fun token => token.id = id).foldl (countToken limit)
        (survey.statsFor id)) (positionsIn (spansWith id chart.tokens)).card := by
    intro id
    rw [honly, ← hlimit]
    exact statsFor_countTokens { survey with charts := survey.charts + 1 } chart.tokens id
  refine ⟨?_, ?_, ?_, fun id => ?_, fun id => ?_, fun key => ?_⟩
  · rw [maxExamples_observe, hreflects.maxExamples_eq]
  · rw [honly]
    exact hreflects.minKind_eq
  · rw [honly]
    exact hreflects.retired_eq
  · rw [hstats, tokensWith, List.flatMap_append, List.flatMap_singleton]
    exact counts_cover (counts_foldl (hreflects.counts id) _) _
  · rw [hstats, cover, coverage_foldl, hreflects.coverage_eq, List.map_append, List.sum_append,
      List.map_singleton, List.sum_singleton]
  · have hpairs : (({ survey with charts := survey.charts + 1 } : Survey).countTokens
        chart.tokens).HasPairs key (charts.map (base.pairCount grammar key)).sum :=
      hreflects.hasPairs key
    have hadded := hpairs.foldl_countPairs hchart grammar hreflects.retired_eq fun _ => id
    rw [← hreflects.minKind_eq] at hadded
    rw [List.map_append, List.sum_append, List.map_singleton, List.sum_singleton]
    exact hadded

/-- Charts are observed one after another. -/
theorem Reflects.foldl_observe (hreflects : base.Reflects grammar limit charts survey)
    (hexamples : base.maxExamples = .ok limit) {more : List Chart}
    (hmore : ∀ chart ∈ more, ∃ text active, Chart.Indexed text active chart) :
    base.Reflects grammar limit (charts ++ more)
      (more.foldl (fun survey chart => survey.observe grammar chart) survey) := by
  induction more generalizing charts survey with
  | nil => rwa [List.append_nil]
  | cons first rest ih =>
      obtain ⟨⟨text, active, hfirst⟩, hrest⟩ := List.forall_mem_cons.mp hmore
      rw [List.foldl_cons, List.append_cons]
      exact ih (hreflects.observe hexamples hfirst) hrest

theorem run_forM_record (hexamples : survey.maxExamples = .ok limit) (grammar : Grammar)
    (charts : List Chart) :
    (charts.forM (record grammar)).run survey =
      (.ok ⟨⟩, charts.foldl (fun survey chart => survey.observe grammar chart) survey) := by
  induction charts generalizing survey with
  | nil => rfl
  | cons first rest ih =>
      change (record grammar first >>= fun _ => rest.forM (record grammar)).run survey = _
      rw [run_bind_of_ok (run_record hexamples grammar first), List.foldl_cons]
      exact ih ((maxExamples_observe survey grammar first).trans hexamples)

end Observing

end Survey

/-- A chart that a parse has given. -/
def Chart.IsParsed (chart : Chart) : Prop :=
  ∃ (registry : Registry) (text : String) (maxDepth : Int),
    registry.parse text maxDepth = .ok chart

theorem Chart.IsParsed.exists_indexed {chart : Chart} (hchart : chart.IsParsed) :
    ∃ text active, Chart.Indexed text active chart := by
  obtain ⟨registry, text, maxDepth, hparse⟩ := hchart
  exact ⟨_, _, (Chart.Opened.parsed hparse).idle.indexed⟩

namespace Survey

/-! ## The order of the charts -/

/-- Two surveys have the same figures, whatever their examples are, and rank their pairs alike. -/
structure SameFigures (one other : Survey) : Prop where
  stats : ∀ id, { one.statsFor id with examples := [] } = { other.statsFor id with examples := [] }
  pairs : ∀ key, (one.pairs.get? key).map PairStats.count =
    (other.pairs.get? key).map PairStats.count
  ranked : ∀ threshold limit, one.rankedPairs threshold limit = other.rankedPairs threshold limit

/-- The keys with their counts. -/
def pairCounts (survey : Survey) : List (PairKey × Int) :=
  survey.pairs.toList.map fun entry => (entry.1, entry.2.count)

theorem mem_pairCounts {survey : Survey} {key : PairKey} {count : Int} :
    (key, count) ∈ survey.pairCounts ↔
      (survey.pairs.get? key).map PairStats.count = some count := by
  rw [pairCounts, List.mem_map, Option.map_eq_some_iff]
  constructor
  · rintro ⟨⟨other, stats⟩, hentry, hpair⟩
    cases hpair
    exact ⟨stats, ArrivalMap.mem_toList_iff.mp hentry, rfl⟩
  · rintro ⟨stats, hstats, rfl⟩
    exact ⟨(key, stats), ArrivalMap.mem_toList_iff.mpr hstats, rfl⟩

theorem nodup_pairCounts (survey : Survey) : survey.pairCounts.Nodup := by
  rw [pairCounts, List.Nodup, List.pairwise_map]
  exact survey.pairs.pairwise_toList.imp fun hne heq => hne (Prod.mk.inj heq).1

/-- A pair with its count is not ranked after another one. -/
def ranksBefore (first second : PairKey × Int) : Bool :=
  second.2 < first.2 || (first.2 = second.2 && (compare first.1 second.1).isLE)

theorem ranksBefore_iff {first second : PairKey × Int} :
    ranksBefore first second = true ↔
      second.2 < first.2 ∨ (first.2 = second.2 ∧ (compare first.1 second.1).isLE = true) := by
  simp [ranksBefore]

theorem ranksBefore_trans (first second third : PairKey × Int)
    (hfirst : ranksBefore first second = true) (hsecond : ranksBefore second third = true) :
    ranksBefore first third = true := by
  rw [ranksBefore_iff] at *
  rcases hfirst with hfirst | ⟨hfirst, hkeys⟩
  · exact .inl (by omega)
  · rcases hsecond with hsecond | ⟨hsecond, hmore⟩
    · exact .inl (by omega)
    · exact .inr ⟨by omega, Std.TransCmp.isLE_trans hkeys hmore⟩

theorem ranksBefore_total (first second : PairKey × Int) :
    (ranksBefore first second || ranksBefore second first) = true := by
  rw [Bool.or_eq_true, ranksBefore_iff, ranksBefore_iff]
  rcases lt_trichotomy first.2 second.2 with hlt | heq | hgt
  · exact .inr (.inl hlt)
  · cases hkeys : compare first.1 second.1 with
    | lt => exact .inl (.inr ⟨heq, rfl⟩)
    | eq => exact .inl (.inr ⟨heq, rfl⟩)
    | gt =>
        refine .inr (.inr ⟨heq.symm, ?_⟩)
        rw [Std.OrientedCmp.gt_iff_lt.mp hkeys]
        rfl
  · exact .inl (.inl hgt)

theorem ranksBefore_antisymm {first second : PairKey × Int}
    (hfirst : ranksBefore first second = true) (hsecond : ranksBefore second first = true) :
    first = second := by
  rw [ranksBefore_iff] at hfirst hsecond
  have hcount : first.2 = second.2 := by omega
  have hkeys : first.1 = second.1 := by
    have hone := (hfirst.resolve_left (by omega)).2
    have hother := (hsecond.resolve_left (by omega)).2
    exact Std.LawfulEqCmp.eq_of_compare (Std.OrientedCmp.isLE_antisymm hone hother)
  exact Prod.ext hkeys hcount

/-- The ranking is made of the counts alone: no two keys are equal, so no two places in it are. -/
theorem rankedPairs_congr {one other : Survey}
    (hpairs : ∀ key, (one.pairs.get? key).map PairStats.count =
      (other.pairs.get? key).map PairStats.count) (threshold limit : Limit) :
    one.rankedPairs threshold limit = other.rankedPairs threshold limit := by
  have hperm : one.pairCounts.Perm other.pairCounts := by
    rw [List.perm_ext_iff_of_nodup one.nodup_pairCounts other.nodup_pairCounts]
    rintro ⟨key, count⟩
    rw [mem_pairCounts, mem_pairCounts, hpairs]
  have hsorted : ∀ entries : List (PairKey × Int), (entries.mergeSort ranksBefore).Pairwise
      fun first second => ranksBefore first second = true :=
    List.pairwise_mergeSort ranksBefore_trans ranksBefore_total
  have hfrequent := hperm.filter fun entry => threshold.isExceeded entry.2
  exact congrArg limit.cut (List.Perm.eq_of_pairwise (fun _ _ _ _ => ranksBefore_antisymm)
    (hsorted _) (hsorted _)
    ((List.mergeSort_perm _ _).trans (hfrequent.trans (List.mergeSort_perm _ _).symm)))

section Order

variable {base one other : Survey} {grammar : Grammar} {limit : Limit} {charts others : List Chart}

/-- The figures do not depend on the order of the charts. -/
theorem Reflects.sameFigures (hone : base.Reflects grammar limit charts one)
    (hother : base.Reflects grammar limit others other) (hperm : charts.Perm others) :
    SameFigures one other := by
  have hpairs : ∀ key, (one.pairs.get? key).map PairStats.count =
      (other.pairs.get? key).map PairStats.count := by
    intro key
    have hcounted := hother.hasPairs key
    rw [HasPairs, ← (hperm.map (base.pairCount grammar key)).sum_eq] at hcounted
    exact (hone.hasPairs key).trans hcounted.symm
  refine ⟨fun id => ?_, hpairs, rankedPairs_congr hpairs⟩
  have htokens : (tokensWith id charts).Perm (tokensWith id others) := hperm.flatMap_right _
  have hcounts := hone.counts id
  have hothers := hother.counts id
  rw [PatternStats.mk.injEq, hcounts.matchCount_eq, hcounts.longest_eq, hcounts.leading_eq,
    hone.coverage_eq, hothers.matchCount_eq, hothers.longest_eq, hothers.leading_eq,
    hother.coverage_eq]
  refine ⟨congrArg Nat.cast htokens.length_eq, (hperm.map _).sum_eq, ?_, ?_, rfl⟩
  · exact (htokens.map Token.length).foldl_eq 0
  · exact ((htokens.filter _).map Token.length).sum_eq

/-- From a survey without figures charts of parses are observed without a fault, whatever is
retired. The figures of the survey are then what they are meant to be, and the same charts in
another order give the same figures and the same rankings. -/
theorem reflects_of_parsed (survey : Survey) {limit : Limit}
    (hexamples : survey.maxExamples = .ok limit) (registry : Registry) {charts : List Chart}
    (hcharts : ∀ chart ∈ charts, chart.IsParsed) :
    ∃ after, (charts.forM (record registry.grammar)).run survey.clear = (.ok ⟨⟩, after) ∧
      survey.Reflects registry.grammar limit charts after ∧
      ∀ others, charts.Perm others →
        ∃ other, (others.forM (record registry.grammar)).run survey.clear = (.ok ⟨⟩, other) ∧
          SameFigures after other := by
  have hreflects : ∀ others, charts.Perm others →
      survey.Reflects registry.grammar limit others
        (others.foldl (fun survey chart => survey.observe registry.grammar chart) survey.clear) :=
    fun others hperm => (survey.reflects_clear registry.grammar limit).foldl_observe hexamples
      fun chart hchart => (hcharts chart (hperm.mem_iff.mpr hchart)).exists_indexed
  have hclear : survey.clear.maxExamples = .ok limit := hexamples
  have hrun := fun others => run_forM_record hclear registry.grammar others
  refine ⟨_, hrun charts, hreflects charts (List.Perm.refl _), fun others hperm => ?_⟩
  exact ⟨_, hrun others, (hreflects charts (List.Perm.refl _)).sameFigures
    (hreflects others hperm) hperm⟩

end Order

/-- A survey that keeps one example, with a pair that is retired. -/
def retiringPair : Survey :=
  ({ maxExamples := .ok (some 1) } : Survey).retire [1, 0]

/-- Of the runs of the letter in two texts the overlapping ones cover three characters together. A
run is twice followed by the other letter, and the retired pair is not counted. -/
theorem retiringPair_reflects : ∃ first second after,
    Registry.runsOfA.parse "aab" 256 = .ok first ∧ Registry.runsOfA.parse "ba" 256 = .ok second ∧
    ([first, second].forM (record Registry.runsOfA.grammar)).run retiringPair.clear =
      (.ok ⟨⟩, after) ∧
    retiringPair.Reflects Registry.runsOfA.grammar (some 1) [first, second] after ∧
    (after.statsFor 2).coverage = 3 ∧
    (after.pairs.get? [2, 1]).map PairStats.count = some 2 ∧
    (after.pairs.get? [1, 0]).map PairStats.count = none := by
  obtain ⟨first, hfirst, -⟩ := Registry.runsOfA_closed.exists_parse "aab" 256
  obtain ⟨second, hsecond, -⟩ := Registry.runsOfA_closed.exists_parse "ba" 256
  have hparsed : ∀ chart ∈ [first, second], chart.IsParsed :=
    List.forall_mem_cons.mpr ⟨⟨_, _, _, hfirst⟩, List.forall_mem_singleton.mpr ⟨_, _, _, hsecond⟩⟩
  have hexamples : retiringPair.maxExamples = .ok (some 1) := rfl
  obtain ⟨after, hrun, hreflects, -⟩ :=
    reflects_of_parsed retiringPair hexamples Registry.runsOfA hparsed
  have hcounted : ((Registry.runsOfA.parse "aab" 256).toOption.bind fun first =>
      (Registry.runsOfA.parse "ba" 256).toOption.map fun second =>
        decide ((positionsIn (spansWith 2 first.tokens)).card = 2 ∧
          (positionsIn (spansWith 2 second.tokens)).card = 1 ∧
          retiringPair.pairCount Registry.runsOfA.grammar [2, 1] first = 2 ∧
          retiringPair.pairCount Registry.runsOfA.grammar [2, 1] second = 0 ∧
          retiringPair.pairCount Registry.runsOfA.grammar [1, 0] first = 0 ∧
          retiringPair.pairCount Registry.runsOfA.grammar [1, 0] second = 0)) = some true := by
    decide +kernel
  rw [hfirst, hsecond] at hcounted
  obtain ⟨hspans, hothers, hpairs, hnone, hretired, hnever⟩ :=
    of_decide_eq_true (Option.some.inj hcounted)
  have hcoverage := hreflects.coverage_eq 2
  have hruns := hreflects.hasPairs [2, 1]
  have hkey := hreflects.hasPairs [1, 0]
  simp only [HasPairs, List.map_cons, List.map_nil, List.sum_cons, List.sum_nil, hspans, hothers,
    hpairs, hnone, hretired, hnever] at hcoverage hruns hkey
  exact ⟨first, second, after, hfirst, hsecond, hrun, hreflects, hcoverage, hruns, hkey⟩

end Survey

end Motif
