import Motif.Proofs.Matching.Calls
import Motif.Proofs.Survey.Searching

/-!
# Repetitions of a chart

The repetitions of a pattern are the longest runs of its tokens next to each other. They are looked
for from left to right, and a token that starts inside one found before is passed over. The tokens
of a pattern may overlap, but of two that are next to each other none is lost in this way: the first
of them starts inside exactly one of the runs.
-/

namespace Motif

namespace Chart

variable {text : Array Char} {active : List Cell} {chart : Chart}

/-- A stretch is a longest run of at least two tokens of a pattern. -/
structure Repeats (chart : Chart) (id : Int) (stretch : Stretch) : Prop where
  two_le : 2 ≤ stretch.count
  id_eq : ∀ token ∈ stretch.tokens, token.id = id
  tiles : Tiles chart stretch.start stretch.tokens stretch.stop
  maximal : ∀ token ∈ chart.tokens, token.id = id → token.start ≠ stretch.stop

/-- Some token of the same pattern starts where a token ends. -/
def IsRepeated (chart : Chart) (token : Token) : Prop :=
  ∃ next ∈ chart.tokens, next.id = token.id ∧ next.start = token.stop

/-- The stretches of a list are longest runs of a pattern, in ascending order and apart from each
other, and every token that is repeated starts inside exactly one of them. -/
structure AreRuns (chart : Chart) (id : Int) (stretches : List Stretch) : Prop where
  repeats : ∀ stretch ∈ stretches, chart.Repeats id stretch
  apart : stretches.Pairwise fun first second => first.stop ≤ second.start
  existsUnique : ∀ token ∈ chart.tokens, token.id = id → chart.IsRepeated token →
    ∃! stretch, stretch ∈ stretches ∧ stretch.start ≤ token.start ∧ token.start < stretch.stop

/-- The search for repetitions: a token begins one unless it is a single one. -/
def repetitionSearch (chart : Chart) : Search Token Int where
  first := id
  key := Token.id
  stretch? first :=
    match chart.followFrom first.id first.id first.stop with
    | [] => none
    | rest => some ⟨first :: rest⟩

theorem repetitions_eq (chart : Chart) :
    chart.repetitions = chart.tokens.foldl chart.repetitionSearch.add {} := by
  refine List.foldl_ext _ _ _ fun found first _ => ?_
  unfold addRepetition Search.add repetitionSearch
  dsimp only [id]
  cases chart.followFrom first.id first.id first.stop <;> rfl

section Searching

variable (hchart : Indexed text active chart)
include hchart

theorem Indexed.isRepeated_iff {token : Token} :
    chart.IsRepeated token ↔ (chart.head? token.stop token.id).isSome := by
  rw [Option.isSome_iff_exists]
  constructor
  · rintro ⟨next, hnext, hid, hstart⟩
    rw [hchart.mem_tokens_iff, hid, hstart] at hnext
    exact ⟨next, hnext⟩
  · rintro ⟨next, hnext⟩
    have hfits := hchart.fits (hchart.head?_eq_some_iff.mp hnext).1
    refine ⟨next, ?_, hfits.id_eq, hfits.start_eq⟩
    rwa [hchart.mem_tokens_iff, hfits.id_eq, hfits.start_eq]

/-- All that follows from a token that is repeated is a longest run. -/
theorem Leads.repeats {first : Token} {stretch : Stretch}
    (hleads : chart.Leads first first.id stretch) (hrest : 2 ≤ stretch.count) :
    chart.Repeats first.id stretch := by
  obtain ⟨hturn, hmaximal⟩ := hleads.inTurn hchart
  simp only [turn_self] at hmaximal
  refine ⟨hrest, fun token htoken => ?_, hturn.tiles, hmaximal⟩
  obtain ⟨place, hplace⟩ := List.getElem?_of_mem htoken
  rw [hturn.id_eq place token hplace, turn_self]

/-- A stretch that is searched for is all that follows from its token, and that is repeated. -/
theorem Indexed.stretch?_repetitionSearch {first : Token} (hmem : first ∈ chart.tokens) :
    ((chart.repetitionSearch.stretch? first).isSome ↔ chart.IsRepeated first) ∧
      ∀ stretch, chart.repetitionSearch.stretch? first = some stretch →
        chart.Leads first first.id stretch ∧ 2 ≤ stretch.count := by
  have hfollow := hchart.followFrom_of_mem hmem first.id
  have hnonneg : 0 ≤ first.stop := by
    obtain ⟨hhead, hstart⟩ := hchart.head?_eq_some_of_mem hmem
    have hstop := (hchart.stop_of_head? hhead).1
    omega
  rw [hchart.isRepeated_iff]
  unfold repetitionSearch
  dsimp only
  rw [hchart.followFrom_eq hnonneg] at hfollow ⊢
  cases hnext : chart.head? first.stop first.id with
  | none => simp
  | some next =>
      rw [hnext] at hfollow
      refine ⟨by simp, ?_⟩
      rintro stretch ⟨⟩
      exact ⟨⟨hmem, hfollow.symm⟩, by simp [Stretch.count]⟩

theorem Indexed.areRuns_repetitions (id : Int) :
    chart.AreRuns id (chart.repetitions.getD id []) := by
  have hgathers : chart.repetitionSearch.Gathers chart.tokens chart.repetitions := by
    rw [repetitions_eq]
    refine Search.gathers_foldl (fun first hfirst stretch hstretch => ?_)
      hchart.pairwise_start_tokens
    have hleads := ((hchart.stretch?_repetitionSearch hfirst).2 stretch hstretch).1
    exact ⟨hleads.start_eq hchart, hleads.start_lt_stop hchart⟩
  refine ⟨fun stretch hstretch => ?_, hgathers.apart id, ?_⟩
  · obtain ⟨first, hfirst, rfl, hwanted⟩ := hgathers.exists_item id stretch hstretch
    obtain ⟨hleads, htwo⟩ := (hchart.stretch?_repetitionSearch hfirst).2 stretch hwanted
    exact hleads.repeats hchart htwo
  · rintro token htoken rfl hrepeated
    obtain ⟨stretch, hstretch, hinside⟩ := hgathers.covers token htoken
      ((hchart.stretch?_repetitionSearch htoken).1.mpr hrepeated)
    refine ⟨stretch, ⟨hstretch, hinside⟩, fun other hother => ?_⟩
    exact eq_of_inside (hgathers.apart token.id) hother.1 hstretch hother.2 hinside

end Searching

end Chart

namespace Registry

/-- After every parse, whatever the patterns are and however little depth there is, the repetitions
of each pattern are longest runs of its tokens, in ascending order and apart from each other, and
every token next to another one of its pattern starts inside exactly one of them. -/
theorem areRuns_of_parse {registry : Registry} {text : String} {maxDepth : Int} {chart : Chart}
    (hparse : registry.parse text maxDepth = .ok chart) (id : Int) :
    chart.AreRuns id (chart.repetitions.getD id []) :=
  (Chart.Opened.parsed hparse).idle.indexed.areRuns_repetitions id

/-- A letter, and the same letter twice. -/
def twinsOfA : Registry where
  ledger := #[{ kind := .literal, content := .literal "a", id := 0 },
    { kind := .derived
      content := .tree (.plainGroup [[.ref 0 ⟨2, 2⟩ .here]])
      id := 1 }]
  entries := [(0, 0), (1, 1)]
  nextId := 2

/-- Of the twins in a text of five letters, those at the second letter are next to others, but they
start inside the run that has been found from the first letter on. -/
theorem areRuns_twinsOfA : ∃ chart, twinsOfA.parse "aaaaa" 256 = .ok chart ∧
    (chart.repetitions.getD 1 []).map (fun stretch => (stretch.start, stretch.stop)) = [(0, 4)] ∧
    chart.AreRuns 1 (chart.repetitions.getD 1 []) := by
  have hrun : (match twinsOfA.parse "aaaaa" 256 with
      | .ok chart => decide ((chart.repetitions.getD 1 []).map
          (fun stretch => (stretch.start, stretch.stop)) = [(0, 4)])
      | .error _ => false) = true := by
    decide +kernel
  cases hparse : twinsOfA.parse "aaaaa" 256 with
  | error fault =>
      rw [hparse] at hrun
      cases hrun
  | ok chart =>
      rw [hparse] at hrun
      exact ⟨chart, rfl, of_decide_eq_true hrun, areRuns_of_parse hparse 1⟩

end Registry

end Motif
