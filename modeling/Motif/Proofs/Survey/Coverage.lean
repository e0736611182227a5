import Mathlib.Data.Finset.Card
import Mathlib.Data.Finset.Union
import Motif.Survey.Basic

/-!
# Covered positions

The positions covered by the tokens of a pattern are counted in one sweep over their spans in
ascending order of starts. The spans may overlap; the sweep counts each position once.
-/

namespace Motif

namespace Survey

/-- The positions in a span, given by start and end. -/
def positionsOf (span : Int × Int) : Finset Int :=
  (Finset.range (span.2 - span.1).toNat).image fun offset : Nat => span.1 + offset

/-- The positions in a list of spans. -/
def positionsIn (spans : List (Int × Int)) : Finset Int :=
  spans.toFinset.biUnion positionsOf

theorem mem_positionsOf {span : Int × Int} {position : Int} :
    position ∈ positionsOf span ↔ span.1 ≤ position ∧ position < span.2 := by
  simp only [positionsOf, Finset.mem_image, Finset.mem_range]
  constructor
  · rintro ⟨offset, hoffset, rfl⟩
    omega
  · rintro ⟨hlow, hhigh⟩
    exact ⟨(position - span.1).toNat, by omega, by omega⟩

theorem card_positionsOf (span : Int × Int) :
    (positionsOf span).card = (span.2 - span.1).toNat := by
  rw [positionsOf, Finset.card_image_of_injective, Finset.card_range]
  intro first second hsame
  dsimp only at hsame
  omega

theorem mem_positionsIn {spans : List (Int × Int)} {position : Int} :
    position ∈ positionsIn spans ↔ ∃ span ∈ spans, span.1 ≤ position ∧ position < span.2 := by
  simp [positionsIn, mem_positionsOf]

/-- Only which spans there are matters. -/
theorem positionsIn_congr {spans other : List (Int × Int)}
    (hsame : ∀ span, span ∈ spans ↔ span ∈ other) : positionsIn spans = positionsIn other := by
  ext position
  simp only [mem_positionsIn, hsame]

/-- The spans stand in ascending order of their starts. -/
def Ascends (spans : List (Int × Int)) : Prop :=
  spans.Pairwise fun first second => first.1 ≤ second.1

/-- What is not before `covered` in spans in ascending order is what the first of them adds and what
is after it in the others. -/
theorem Ascends.filter_positionsIn_cons {start stop : Int} {rest : List (Int × Int)}
    (hascends : Ascends ((start, stop) :: rest)) (covered : Int) :
    {position ∈ positionsIn ((start, stop) :: rest) | covered ≤ position} =
      positionsOf (max start covered, stop) ∪
        {position ∈ positionsIn rest | max covered stop ≤ position} := by
  obtain ⟨hfirst, -⟩ := List.pairwise_cons.mp hascends
  ext position
  simp only [Finset.mem_filter, Finset.mem_union, mem_positionsOf, mem_positionsIn, List.mem_cons]
  constructor
  · rintro ⟨⟨span, rfl | hspan, hlow, hhigh⟩, hcovered⟩
    · exact .inl ⟨max_le hlow hcovered, hhigh⟩
    · -- What another span has before the end of the first one is in the first one too.
      have hstart := hfirst span hspan
      by_cases hstop : position < stop
      · exact .inl ⟨max_le (hstart.trans hlow) hcovered, hstop⟩
      · exact .inr ⟨⟨span, hspan, hlow, hhigh⟩, max_le hcovered (not_lt.mp hstop)⟩
  · rintro (⟨hlow, hhigh⟩ | ⟨⟨span, hspan, hlow, hhigh⟩, hcovered⟩)
    · exact ⟨⟨(start, stop), .inl rfl, (le_max_left _ _).trans hlow, hhigh⟩,
        (le_max_right _ _).trans hlow⟩
    · exact ⟨⟨span, .inr hspan, hlow, hhigh⟩, (le_max_left _ _).trans hcovered⟩

/-- The sweep counts the positions that are not before `covered`. -/
theorem Ascends.countFrom_eq_card {spans : List (Int × Int)} (hascends : Ascends spans)
    (covered : Int) :
    countFrom covered spans = ({position ∈ positionsIn spans | covered ≤ position}).card := by
  induction spans generalizing covered with
  | nil => rfl
  | cons first rest ih =>
      obtain ⟨start, stop⟩ := first
      have hdisjoint : Disjoint (positionsOf (max start covered, stop))
          {position ∈ positionsIn rest | max covered stop ≤ position} := by
        rw [Finset.disjoint_left]
        intro position hposition hother
        have hlow := (Finset.mem_filter.mp hother).2
        have hhigh := (mem_positionsOf.mp hposition).2
        omega
      rw [countFrom, ih (List.pairwise_cons.mp hascends).2, hascends.filter_positionsIn_cons,
        Finset.card_union_of_disjoint hdisjoint, card_positionsOf]
      omega

/-- The number of different positions in a list of spans, in whatever order they are given. -/
theorem countPositions_eq_card (spans : List (Int × Int)) :
    countPositions spans = (positionsIn spans).card := by
  have hsorted : Ascends (spans.mergeSort fun a b => a.1 ≤ b.1) := by
    have hpairwise : (spans.mergeSort fun a b => a.1 ≤ b.1).Pairwise
        fun a b => decide (a.1 ≤ b.1) = true := by
      refine List.pairwise_mergeSort (fun a b c hab hbc => ?_) (fun a b => ?_) spans
      · exact decide_eq_true ((of_decide_eq_true hab).trans (of_decide_eq_true hbc))
      · simpa using le_total a.1 b.1
    exact hpairwise.imp of_decide_eq_true
  have hpositions : positionsIn (spans.mergeSort fun a b => a.1 ≤ b.1) = positionsIn spans :=
    positionsIn_congr fun span => List.mem_mergeSort
  unfold countPositions
  rw [← hpositions]
  cases hspans : spans.mergeSort fun a b => a.1 ≤ b.1 with
  | nil => rfl
  | cons first rest =>
      obtain ⟨start, stop⟩ := first
      rw [hspans] at hsorted
      dsimp only
      rw [hsorted.countFrom_eq_card, Finset.filter_true_of_mem]
      intro position hposition
      obtain ⟨span, hspan, hlow, -⟩ := mem_positionsIn.mp hposition
      rcases List.mem_cons.mp hspan with rfl | hrest
      · exact hlow
      · exact ((List.pairwise_cons.mp hsorted).1 span hrest).trans hlow

/-! ## The spans of each pattern -/

/-- The spans of the tokens of a pattern. -/
def spansWith (id : Int) (tokens : List Token) : List (Int × Int) :=
  (tokens.filter fun token => token.id = id).map fun token => (token.start, token.stop)

theorem getD_foldl_insert_span (tokens : List Token) (spans : Std.TreeMap Int (List (Int × Int)))
    (id : Int) :
    (tokens.foldl (fun spans token =>
      spans.insert token.id ((token.start, token.stop) :: spans.getD token.id [])) spans).getD id
        [] = (spansWith id tokens).reverse ++ spans.getD id [] := by
  induction tokens generalizing spans with
  | nil => rfl
  | cons first rest ih =>
      rw [List.foldl_cons, ih, Std.TreeMap.getD_insert, spansWith, spansWith, List.filter_cons]
      by_cases hid : first.id = id
      · rw [if_pos (Std.LawfulEqCmp.compare_eq_iff_eq.mpr hid), if_pos (decide_eq_true hid), hid]
        simp
      · rw [if_neg fun heq => hid (Std.LawfulEqCmp.eq_of_compare heq), if_neg (by simpa using hid)]

/-- Under each pattern its spans are gathered, the last one first. -/
theorem getD_spansOf (tokens : List Token) (id : Int) :
    (spansOf tokens).getD id [] = (spansWith id tokens).reverse := by
  rw [spansOf, getD_foldl_insert_span, Std.TreeMap.getD_emptyc, List.append_nil]

theorem countPositions_getD_spansOf (tokens : List Token) (id : Int) :
    countPositions ((spansOf tokens).getD id []) = (positionsIn (spansWith id tokens)).card := by
  rw [countPositions_eq_card, getD_spansOf, positionsIn_congr fun span => List.mem_reverse]

end Survey

end Motif
