import Motif.Proofs.Matching.Trials

/-!
# Tokens that end together

A chart holds every token of positive length in the slot of its start. The slot of a last position
has a place for one token of each pattern: of several tokens of one pattern that end together it
holds one. So the two kinds of slots hold the same tokens exactly where no two tokens of one pattern
end together.
-/

namespace Motif

namespace Chart

variable {text : Array Char} {active : List Cell} {chart : Chart}

/-- A token of the chart has a place in the slot of its last position. -/
def Closes (chart : Chart) (token : Token) : Prop :=
  chart.tail? token.last token.id = some token

/-- No two tokens of one pattern end together. -/
def EndApart (chart : Chart) : Prop :=
  ∀ token ∈ chart.tokens, ∀ other ∈ chart.tokens, token.id = other.id →
    token.last = other.last → token = other

/-- What is in the slot of its last position is in the slot of its start. -/
theorem Indexed.head_of_tail (hchart : Indexed text active chart) {last id : Int} {token : Token}
    (htail : chart.tail? last id = some token) :
    chart.head? token.start id = some token ∧ token.last = last :=
  have hremembered := hchart.outcome_of_tail htail
  ⟨hchart.head?_eq_some_iff.mpr ⟨hremembered.1, hremembered.2.2⟩, hremembered.2.1⟩

/-- Where a token ends, there is a token of its pattern in the slot, though it may be another. -/
theorem Indexed.exists_tail_of_head (hchart : Indexed text active chart) {start id : Int}
    {token : Token} (hhead : chart.head? start id = some token) :
    ∃ other, chart.tail? token.last id = some other ∧ other.last = token.last ∧
      chart.head? other.start id = some other := by
  obtain ⟨houtcome, hlength⟩ := hchart.head?_eq_some_iff.mp hhead
  obtain ⟨other, hother⟩ :=
    Option.isSome_iff_exists.mp (hchart.tail_of_outcome houtcome hlength)
  obtain ⟨hstarts, hlast⟩ := hchart.head_of_tail hother
  exact ⟨other, hother, hlast, hstarts⟩

/-- The slots of both ends hold the same tokens exactly if no two tokens of one pattern end
together. -/
theorem Indexed.heads_iff_tails_iff (hchart : Indexed text active chart) :
    (∀ token, chart.head? token.start token.id = some token ↔
      chart.tail? token.last token.id = some token) ↔ chart.EndApart := by
  constructor
  · intro hsame token htoken other hother hid hlast
    -- Both are in the slot where they end, and that has one place for their pattern.
    have hfirst := (hsame token).mp (hchart.mem_tokens_iff.mp htoken)
    have hsecond := (hsame other).mp (hchart.mem_tokens_iff.mp hother)
    rw [hid, hlast, hsecond] at hfirst
    exact (Option.some.inj hfirst).symm
  · intro hapart token
    refine ⟨fun hhead => ?_, fun htail => (hchart.head_of_tail htail).1⟩
    obtain ⟨other, htail, hlast, hother⟩ := hchart.exists_tail_of_head hhead
    have hid := (hchart.fits (hchart.head?_eq_some_iff.mp hother).1).id_eq
    have heq : token = other := by
      refine hapart token (hchart.mem_tokens_iff.mpr hhead) other ?_ hid.symm hlast.symm
      rw [hchart.mem_tokens_iff, hid]
      exact hother
    rw [← heq] at htail
    exact htail

end Chart

namespace Registry

/-- Where all references lead to registered patterns, a parse ends with a chart whose slots of last
positions hold only tokens that are in the slots of their starts and, wherever a token ends, one of
those of its pattern. They hold all of them if and only if no two tokens of one pattern end
together. -/
theorem Closed.heads_iff_tails {registry : Registry} (hclosed : registry.Closed) (text : String)
    (maxDepth : Int) :
    ∃ chart, registry.parse text maxDepth = .ok chart ∧
      (∀ token, chart.tail? token.last token.id = some token →
        chart.head? token.start token.id = some token) ∧
      (∀ token, chart.head? token.start token.id = some token →
        ∃ other, chart.tail? token.last token.id = some other ∧ other.last = token.last ∧
          chart.head? other.start token.id = some other) ∧
      ((∀ token, chart.head? token.start token.id = some token ↔
        chart.tail? token.last token.id = some token) ↔ chart.EndApart) := by
  obtain ⟨chart, hparse, hchart⟩ := hclosed.exists_parse text maxDepth
  exact ⟨chart, hparse, fun token htail => (hchart.head_of_tail htail).1,
    fun token => hchart.exists_tail_of_head, hchart.heads_iff_tails_iff⟩

/-- Two letters, and the runs of the first of them. -/
def runsOfA : Registry where
  ledger := #[{ kind := .literal, content := .literal "a", id := 0 },
    { kind := .literal, content := .literal "b", id := 1 },
    { kind := .derived
      content := .tree (.plainGroup [[.ref 0 ⟨1, Quantity.unlimited⟩ .here]])
      id := 2 }]
  entries := [(0, 0), (1, 1), (2, 2)]
  nextId := 3

theorem runsOfA_closed : runsOfA.Closed := by
  unfold Closed
  decide

/-- After one letter the slots of both ends hold the same tokens. -/
theorem heads_iff_tails_runsOfA : runsOfA.Closed ∧ ∃ chart, runsOfA.parse "ba" 256 = .ok chart ∧
    ∀ token, chart.head? token.start token.id = some token ↔
      chart.tail? token.last token.id = some token := by
  obtain ⟨chart, hparse, -, -, hsame⟩ := runsOfA_closed.heads_iff_tails "ba" 256
  obtain ⟨same, hagain, hchart⟩ := runsOfA_closed.exists_parse "ba" 256
  rw [hparse] at hagain
  cases hagain
  have hrun : (match runsOfA.parse "ba" 256 with
      | .ok chart => decide (∀ token ∈ chart.tokens, ∀ other ∈ chart.tokens,
          token.id = other.id → token.last = other.last → token.start = other.start)
      | .error _ => false) = true := by
    decide +kernel
  rw [hparse] at hrun
  refine ⟨runsOfA_closed, chart, hparse, hsame.mpr ?_⟩
  intro token htoken other hother hid hlast
  have hstart := of_decide_eq_true hrun token htoken other hother hid hlast
  exact hchart.eq_of_mem_tokens htoken hother hstart hid

/-- Of the two runs of the letter in a text of two letters, which end together, one is lost where
they end. -/
theorem not_heads_iff_tails_runsOfA : ∃ chart, runsOfA.parse "aa" 256 = .ok chart ∧
    ∃ token, chart.head? token.start token.id = some token ∧
      chart.tail? token.last token.id ≠ some token := by
  obtain ⟨chart, hparse, hchart⟩ := runsOfA_closed.exists_parse "aa" 256
  have hrun : (match runsOfA.parse "aa" 256 with
      | .ok chart => (chart.head? 0 2).any (fun token => token.length = 2) &&
          (chart.tail? 1 2).any (fun token => token.start = 1)
      | .error _ => false) = true := by
    decide +kernel
  rw [hparse] at hrun
  obtain ⟨⟨token, htoken, hlength⟩, ⟨other, hother, hstart⟩⟩ :
      (∃ token, chart.head? 0 2 = some token ∧ token.length = 2) ∧
        ∃ other, chart.tail? 1 2 = some other ∧ other.start = 1 := by
    simpa [Option.any_eq_true] using hrun
  have hfits := hchart.fits (hchart.head?_eq_some_iff.mp htoken).1
  refine ⟨chart, hparse, token, ?_, ?_⟩
  · rw [hfits.start_eq, hfits.id_eq]
    exact htoken
  · have hlast : token.last = 1 := by
      rw [Token.last, hfits.start_eq, hlength]
      rfl
    rw [hlast, hfits.id_eq, hother]
    rintro ⟨⟩
    rw [hfits.start_eq] at hstart
    cases hstart

end Registry

end Motif
