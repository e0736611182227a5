import Motif.Proofs.Survey.Repetitions

/-!
# Alternations of a chart

In an alternation the tokens of two patterns take turns. Alternations are looked for from every pair
of tokens next to each other, the first of which is not followed by another one of its pattern, and
both orders of the patterns share a key. However tokens overlap, no such run that is long enough is
lost: where one begins, exactly one of those found is under way.
-/

namespace Motif

namespace Chart

variable {text : Array Char} {active : List Cell} {chart : Chart}

/-- A stretch of at least two tokens in which two patterns take turns, that cannot be continued, and
whose first token is not followed by another one of its pattern. -/
structure Alternation (chart : Chart) (next other : Int) (stretch : Stretch) : Prop
    extends chart.InTurn next other stretch where
  two_le : 2 ≤ stretch.count
  maximal : ∀ token ∈ chart.tokens, token.id = turn next other stretch.count →
    token.start ≠ stretch.stop
  not_isRepeated : ∀ first ∈ stretch.tokens.head?, ¬ chart.IsRepeated first

/-- The stretches of a list are alternations of the two patterns of a key, with at least so many
tokens, in ascending order and apart from each other. Wherever the two patterns take turns in so
many tokens, the first of which is not repeated, exactly one of the stretches is under way. -/
structure AreAlternations (chart : Chart) (least : Int) (key : Cell)
    (stretches : List Stretch) : Prop where
  alternation : ∀ stretch ∈ stretches, least ≤ stretch.count ∧
    (chart.Alternation key.1 key.2 stretch ∨ chart.Alternation key.2 key.1 stretch)
  apart : stretches.Pairwise fun first second => first.stop ≤ second.start
  existsUnique : ∀ next other run, key = (min next other, max next other) →
    chart.InTurn next other run → 2 ≤ run.count → least ≤ run.count →
      (∀ first ∈ run.tokens.head?, ¬ chart.IsRepeated first) →
        ∃! stretch, stretch ∈ stretches ∧ stretch.start ≤ run.start ∧ run.start < stretch.stop

/-! ## Pairs with which alternations begin -/

/-- The tokens that start where a token ends, none if one of its own pattern is among them. -/
def followers (chart : Chart) (first : Token) : List Token :=
  if (ofPattern? first.id (chart.startingAt first.stop)).isSome then []
  else chart.startingAt first.stop

/-- The pairs of tokens next to each other, the first of which is not repeated. -/
def openings (chart : Chart) : List (Token × Token) :=
  chart.tokens.flatMap fun first => (chart.followers first).map (first, ·)

/-- The search for alternations of at least so many tokens. -/
def alternationSearch (chart : Chart) (least : Int) : Search (Token × Token) Cell where
  first := Prod.fst
  key pair := (min pair.1.id pair.2.id, max pair.1.id pair.2.id)
  stretch? pair :=
    let stretch : Stretch :=
      ⟨pair.1 :: pair.2 :: chart.followFrom pair.1.id pair.2.id pair.2.stop⟩
    if least ≤ stretch.count then some stretch else none

section Openings

variable (hchart : Indexed text active chart)
include hchart

theorem Indexed.stop_nonneg {token : Token} (hmem : token ∈ chart.tokens) : 0 ≤ token.stop := by
  obtain ⟨hhead, hstart⟩ := hchart.head?_eq_some_of_mem hmem
  have hstop := (hchart.stop_of_head? hhead).1
  omega

theorem Indexed.mem_followers_iff {first second : Token} (hfirst : first ∈ chart.tokens) :
    second ∈ chart.followers first ↔
      ¬ chart.IsRepeated first ∧ second ∈ chart.tokens ∧ second.start = first.stop := by
  have hnonneg := hchart.stop_nonneg hfirst
  rw [followers, hchart.isRepeated_iff, ← ofPattern?_startingAt hnonneg, ← hchart.mem_heads_iff,
    ← startingAt_eq_slotAt hnonneg]
  split
  next hrepeated => simp [hrepeated]
  next hrepeated => simp [hrepeated]

theorem Indexed.mem_openings_iff {first second : Token} :
    (first, second) ∈ chart.openings ↔ first ∈ chart.tokens ∧ ¬ chart.IsRepeated first ∧
      second ∈ chart.tokens ∧ second.start = first.stop := by
  rw [openings, List.mem_flatMap]
  constructor
  · rintro ⟨token, htoken, hpair⟩
    obtain ⟨follower, hfollower, hpair⟩ := List.mem_map.mp hpair
    obtain ⟨rfl, rfl⟩ := Prod.mk.inj hpair
    exact ⟨htoken, (hchart.mem_followers_iff htoken).mp hfollower⟩
  · rintro ⟨hfirst, hrest⟩
    exact ⟨first, hfirst, List.mem_map_of_mem ((hchart.mem_followers_iff hfirst).mpr hrest)⟩

/-- Openings stand in the order in which they begin. -/
theorem Indexed.pairwise_openings :
    chart.openings.Pairwise fun first second => first.1.start ≤ second.1.start := by
  rw [openings, List.pairwise_flatMap]
  refine ⟨fun token _ => ?_, hchart.pairwise_start_tokens.imp fun hle pair hpair other hother => ?_⟩
  · exact List.pairwise_map.mpr (List.pairwise_of_forall fun _ _ => le_refl _)
  · obtain ⟨_, -, rfl⟩ := List.mem_map.mp hpair
    obtain ⟨_, -, rfl⟩ := List.mem_map.mp hother
    exact hle

/-- Looking for alternations is looking at the openings one after another. -/
theorem Indexed.alternations_eq (least : Int) :
    chart.alternations least = chart.openings.foldl (chart.alternationSearch least).add {} := by
  rw [openings, List.foldl_flatMap, alternations]
  refine List.foldl_ext _ _ _ fun found first hfirst => ?_
  have hnone : chart.size ≤ first.stop → chart.startingAt first.stop = [] := by
    intro hbeyond
    refine List.eq_nil_iff_forall_not_mem.mpr fun second hsecond => ?_
    rw [startingAt_eq_slotAt (hchart.stop_nonneg hfirst), hchart.mem_heads_iff] at hsecond
    have hstop := hchart.stop_of_head? (hchart.head?_eq_some_of_mem hsecond.1).1
    omega
  rw [List.foldl_map, addAlternations, followers]
  dsimp only
  split
  next hbeyond => simp [hnone hbeyond]
  next =>
    split
    · rfl
    · refine List.foldl_ext _ _ _ fun found second _ => ?_
      unfold addAlternation Search.add alternationSearch
      dsimp only
      split
      · rfl
      · split <;> rfl

/-- A stretch that is searched for is all that follows in turn from its first token. -/
theorem Indexed.leads_of_opening {least : Int} {first second : Token} {stretch : Stretch}
    (hpair : (first, second) ∈ chart.openings)
    (hstretch : (chart.alternationSearch least).stretch? (first, second) = some stretch) :
    chart.Leads first second.id stretch ∧ least ≤ stretch.count ∧ 2 ≤ stretch.count := by
  obtain ⟨hfirst, -, hsecond, hnext⟩ := hchart.mem_openings_iff.mp hpair
  obtain ⟨hleast, ⟨⟩⟩ := Option.ite_none_right_eq_some.mp hstretch
  refine ⟨⟨hfirst, ?_⟩, hleast, by simp [Stretch.count]⟩
  rw [hchart.followFrom_of_mem hfirst, ← hnext, hchart.followFrom_of_mem hsecond]

/-- What is found from an opening is an alternation of the patterns of its tokens. -/
theorem Indexed.alternation_of_opening {least : Int} {first second : Token} {stretch : Stretch}
    (hpair : (first, second) ∈ chart.openings)
    (hstretch : (chart.alternationSearch least).stretch? (first, second) = some stretch) :
    least ≤ stretch.count ∧ chart.Alternation first.id second.id stretch := by
  obtain ⟨hleads, hleast, htwo⟩ := hchart.leads_of_opening hpair hstretch
  obtain ⟨hturn, hmaximal⟩ := hleads.inTurn hchart
  refine ⟨hleast, hturn, htwo, hmaximal, fun token htoken => ?_⟩
  rw [hleads.exists_tokens hchart] at htoken
  obtain rfl := Option.some.inj htoken
  exact (hchart.mem_openings_iff.mp hpair).2.1

/-- Two patterns that take turns in a long enough run, the first token of which is not repeated,
take turns from an opening from which a stretch is wanted. -/
theorem Indexed.exists_opening {least next other : Int} {run : Stretch}
    (hrun : chart.InTurn next other run) (htwo : 2 ≤ run.count) (hleast : least ≤ run.count)
    (hsingle : ∀ first ∈ run.tokens.head?, ¬ chart.IsRepeated first) :
    ∃ first second, (first, second) ∈ chart.openings ∧ first.id = next ∧ second.id = other ∧
      first.start = run.start ∧
        ((chart.alternationSearch least).stretch? (first, second)).isSome := by
  obtain ⟨tokens⟩ := run
  match tokens, htwo with
  | first :: second :: rest, _ =>
    obtain ⟨hfirst, -, hstart, hsecond, -, hnext, hrest⟩ := hrun.tiles
    obtain rfl : first.id = next := hrun.id_eq 0 first rfl
    obtain rfl : second.id = other := hrun.id_eq 1 second rfl
    have hpair : (first, second) ∈ chart.openings :=
      hchart.mem_openings_iff.mpr ⟨hfirst, hsingle first rfl, hsecond, hnext⟩
    have hprefix := hchart.prefix_followFrom hrest fun place => hrun.id_eq (place + 2)
    have hlength := hprefix.length_le
    refine ⟨first, second, hpair, rfl, rfl, hstart, ?_⟩
    rw [alternationSearch]
    dsimp only
    rw [if_pos, Option.isSome_some]
    simp only [Stretch.count, List.length_cons] at hleast ⊢
    omega

theorem Indexed.areAlternations (least : Int) (key : Cell) :
    chart.AreAlternations least key ((chart.alternations least).getD key []) := by
  have hgathers : (chart.alternationSearch least).Gathers chart.openings
      (chart.alternations least) := by
    rw [hchart.alternations_eq]
    refine Search.gathers_foldl (fun pair hpair stretch hstretch => ?_) hchart.pairwise_openings
    have hleads := (hchart.leads_of_opening hpair hstretch).1
    exact ⟨hleads.start_eq hchart, hleads.start_lt_stop hchart⟩
  refine ⟨fun stretch hstretch => ?_, hgathers.apart key, ?_⟩
  · obtain ⟨⟨first, second⟩, hpair, rfl, hwanted⟩ := hgathers.exists_item key stretch hstretch
    obtain ⟨hleast, halternation⟩ := hchart.alternation_of_opening hpair hwanted
    refine ⟨hleast, ?_⟩
    rcases le_total first.id second.id with hle | hle
    · exact .inl (by simpa [alternationSearch, hle] using halternation)
    · exact .inr (by simpa [alternationSearch, hle] using halternation)
  · rintro next other run rfl hrun htwo hleast hsingle
    obtain ⟨first, second, hpair, rfl, rfl, hstart, hwanted⟩ :=
      hchart.exists_opening hrun htwo hleast hsingle
    obtain ⟨stretch, hstretch, hinside⟩ := hgathers.covers _ hpair hwanted
    have hunder : stretch.start ≤ run.start ∧ run.start < stretch.stop := hstart ▸ hinside
    refine ⟨stretch, ⟨hstretch, hunder⟩, fun found hfound => ?_⟩
    exact eq_of_inside (hgathers.apart _) hfound.1 hstretch hfound.2 hunder

/-- The ids of a key are two in ascending order. -/
theorem Indexed.lt_of_key {least : Int} {key : Cell} {stretches : List Stretch}
    (hget : (chart.alternations least).get? key = some stretches) : key.1 < key.2 := by
  have hsome : FindsSome (chart.alternations least) := by
    rw [hchart.alternations_eq]
    exact Search.findsSome_foldl _ _
  obtain ⟨stretch, hstretch⟩ := List.exists_mem_of_ne_nil _ (hsome key stretches hget)
  obtain ⟨first, second, halternates⟩ :=
    hchart.alternations_alternate least key stretches hget stretch hstretch
  have hother := halternates.other
  rw [halternates.key_eq]
  dsimp only
  omega

end Openings

end Chart

namespace Registry

/-- After every parse, whatever the patterns are and however little depth there is, the alternations
under each key are maximal runs in which its two patterns take turns, in ascending order and apart
from each other, and wherever the two patterns take turns for long enough, one of them is under
way. -/
theorem areAlternations_of_parse {registry : Registry} {text : String} {maxDepth : Int}
    {chart : Chart} (hparse : registry.parse text maxDepth = .ok chart) (least : Int) :
    (∀ key ∈ (chart.alternations least).toList.map Prod.fst, key.1 < key.2) ∧
      ∀ key, chart.AreAlternations least key ((chart.alternations least).getD key []) := by
  have hchart := (Chart.Opened.parsed hparse).idle.indexed
  refine ⟨fun key hkey => ?_, hchart.areAlternations least⟩
  obtain ⟨⟨_, stretches⟩, hentry, rfl⟩ := List.mem_map.mp hkey
  exact hchart.lt_of_key (ArrivalMap.mem_toList_iff.mp hentry)

/-- Two letters, and a pattern in which the second is followed by the first. -/
def turningLetters : Registry where
  ledger := #[{ kind := .literal, content := .literal "a", id := 0 },
    { kind := .literal, content := .literal "b", id := 1 },
    { kind := .derived
      content := .tree (.plainGroup [[.plainRef 1, .plainRef 0]])
      id := 2 }]
  entries := [(0, 0), (1, 1), (2, 2)]
  nextId := 3

/-- The letters take turns in both orders, with a letter in between that no pattern matches; one key
has both runs. -/
theorem areAlternations_turningLetters :
    ∃ chart, turningLetters.parse "ababxbaba" 256 = .ok chart ∧
      ((chart.alternations 4).getD (0, 1) []).map (fun stretch => (stretch.start, stretch.stop)) =
        [(0, 4), (5, 9)] ∧
      (∀ key ∈ (chart.alternations 4).toList.map Prod.fst, key.1 < key.2) ∧
      chart.AreAlternations 4 (0, 1) ((chart.alternations 4).getD (0, 1) []) := by
  have hrun : (match turningLetters.parse "ababxbaba" 256 with
      | .ok chart => decide (((chart.alternations 4).getD (0, 1) []).map
          (fun stretch => (stretch.start, stretch.stop)) = [(0, 4), (5, 9)])
      | .error _ => false) = true := by
    decide +kernel
  cases hparse : turningLetters.parse "ababxbaba" 256 with
  | error fault =>
      rw [hparse] at hrun
      cases hrun
  | ok chart =>
      rw [hparse] at hrun
      obtain ⟨hkeys, halternations⟩ := areAlternations_of_parse hparse 4
      exact ⟨chart, rfl, of_decide_eq_true hrun, hkeys, halternations (0, 1)⟩

end Registry

end Motif
