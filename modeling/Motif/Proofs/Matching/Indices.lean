import Motif.Proofs.Matching.Memory

/-!
# Indices of a chart

Whatever is tried on a chart, in which order and with how little room, its indices agree with the
outcomes that it remembers: an outcome is written once and belongs to its pattern and position, the
slot of a start holds exactly the tokens of positive length that start there, and the slot of a last
position holds, of each pattern, one of the tokens that end there.
-/

namespace Motif.Chart

open Evaluation (Fits)

/-- The indices of a chart agree with the outcomes that it remembers, and exactly the trials of a
list are under way, none of which has an outcome yet. -/
structure Indexed (text : Array Char) (active : List Cell) (chart : Chart) : Prop where
  text_eq : chart.text = text
  active_eq : chart.active = active
  size_heads : chart.heads.size = text.size
  size_tails : chart.tails.size = text.size
  outcome_of_active : ∀ {position id}, (position, id) ∈ active → chart.outcome? position id = none
  fits : ∀ {position id found}, chart.outcome? position id = some (some found) →
    Fits text id position found
  nodup_heads : ∀ position, ((slotAt chart.heads position).map Token.id).Nodup
  nodup_tails : ∀ position, ((slotAt chart.tails position).map Token.id).Nodup
  head?_eq_some_iff : ∀ {position id found}, chart.head? position id = some found ↔
    chart.outcome? position id = some (some found) ∧ 0 < found.length
  tail_of_outcome : ∀ {position id found}, chart.outcome? position id = some (some found) →
    0 < found.length → (chart.tail? found.last id).isSome
  outcome_of_tail : ∀ {last id found}, chart.tail? last id = some found →
    chart.outcome? found.start id = some (some found) ∧ found.last = last ∧ 0 < found.length

section Slots

theorem mem_map_id_put {token : Token} {slot : List Token} {id : Int} :
    id ∈ (put token slot).map Token.id ↔ id = token.id ∨ id ∈ slot.map Token.id := by
  induction slot with
  | nil => simp [put]
  | cons first rest ih =>
      by_cases hfirst : first.id = token.id
      · simp [put, hfirst]
      · rw [put, if_neg hfirst, List.map_cons, List.mem_cons, ih, List.map_cons, List.mem_cons]
        exact or_left_comm

/-- A slot has one token of each pattern, also after another one has been put there. -/
theorem nodup_put {token : Token} {slot : List Token} (hslot : (slot.map Token.id).Nodup) :
    ((put token slot).map Token.id).Nodup := by
  induction slot with
  | nil => simp [put]
  | cons first rest ih =>
      rw [List.map_cons, List.nodup_cons] at hslot
      by_cases hfirst : first.id = token.id
      · rw [put, if_pos hfirst, List.map_cons, List.nodup_cons, ← hfirst]
        exact hslot
      · rw [put, if_neg hfirst, List.map_cons, List.nodup_cons, mem_map_id_put]
        refine ⟨?_, ih hslot.2⟩
        rintro (hid | hmem)
        · exact hfirst hid
        · exact hslot.1 hmem

/-- Looking up the pattern of a token finds the tokens that are in a slot. -/
theorem mem_slot_iff {slot : List Token} (hslot : (slot.map Token.id).Nodup) {token : Token} :
    token ∈ slot ↔ ofPattern? token.id slot = some token := by
  unfold ofPattern?
  induction slot with
  | nil => simp
  | cons first rest ih =>
      rw [List.map_cons, List.nodup_cons] at hslot
      rw [List.mem_cons, List.find?_cons]
      by_cases hfirst : first.id = token.id
      · simp only [hfirst, decide_true]
        constructor
        · rintro (rfl | hmem)
          · rfl
          · exact absurd (hfirst ▸ List.mem_map_of_mem hmem) hslot.1
        · intro heq
          exact .inl (Option.some.inj heq).symm
      · simp only [hfirst, decide_false, ← ih hslot.2]
        refine ⟨fun hmem => hmem.resolve_left ?_, .inr⟩
        rintro rfl
        exact hfirst rfl

/-- Putting a token into one slot leaves every slot with one token of each pattern. -/
theorem nodup_slotAt_modify {slots : Array (List Token)} {position : Int}
    (hposition : 0 ≤ position ∧ position < slots.size) (token : Token)
    (hslots : ∀ place, ((slotAt slots place).map Token.id).Nodup) (place : Int) :
    ((slotAt (slots.modify position.toNat (put token)) place).map Token.id).Nodup := by
  have hslot : position.toNat < slots.size := by omega
  rw [slotAt_modify hslot]
  split
  · exact nodup_put (hslots place)
  · exact hslots place

theorem slotAt_eq_getElem {slots : Array (List Token)} {place : Nat} (hplace : place < slots.size) :
    slotAt slots place = slots[place] := by
  simp [slotAt, hplace]

end Slots

variable {text : Array Char} {active : List Cell} {chart : Chart}

theorem indexed_ofText (text : String) : Indexed text.toList.toArray [] (ofText text) := by
  have hslot (position : Int) :
      slotAt (Array.replicate text.toList.length ([] : List Token)) position = [] := by
    simp only [slotAt, Array.getD_eq_getD_getElem?, Array.getElem?_replicate]
    split
    · split <;> rfl
    · rfl
  refine ⟨rfl, rfl, by simp [ofText], by simp [ofText], ?_, ?_, ?_, ?_, ?_, ?_, ?_⟩
  · simp
  · simp [outcome?, ofText]
  · simp [ofText, hslot]
  · simp [ofText, hslot]
  · simp [head?, outcome?, ofText, hslot, ofPattern?]
  · simp [outcome?, ofText]
  · simp [tail?, ofText, hslot, ofPattern?]

/-- Entering and leaving trials without outcome changes nothing but the list of those under way. -/
theorem Indexed.withActive (hchart : Indexed text active chart) {others : List Cell}
    (hothers : ∀ {position id}, (position, id) ∈ others → chart.outcome? position id = none) :
    Indexed text others { chart with active := others } :=
  ⟨hchart.text_eq, rfl, hchart.size_heads, hchart.size_tails, hothers, hchart.fits,
    hchart.nodup_heads, hchart.nodup_tails, hchart.head?_eq_some_iff, hchart.tail_of_outcome,
    hchart.outcome_of_tail⟩

/-- A trial without outcome may be under way. -/
theorem Indexed.enter (hchart : Indexed text active chart) {start id : Int}
    (hnew : chart.outcome? start id = none) :
    Indexed text ((start, id) :: active) { chart with active := (start, id) :: chart.active } := by
  rw [hchart.active_eq]
  refine hchart.withActive fun hmem => ?_
  rcases List.mem_cons.mp hmem with hcell | hmem
  · cases hcell
    exact hnew
  · exact hchart.outcome_of_active hmem

theorem Indexed.markScanned (hchart : Indexed text active chart) (id position : Int) :
    Indexed text active (chart.markScanned id position) := by
  unfold Chart.markScanned
  split
  · exact ⟨hchart.text_eq, hchart.active_eq, hchart.size_heads, hchart.size_tails,
      hchart.outcome_of_active, hchart.fits, hchart.nodup_heads, hchart.nodup_tails,
      hchart.head?_eq_some_iff, hchart.tail_of_outcome, hchart.outcome_of_tail⟩
  · exact hchart

/-- An outcome without a token of positive length only enters the outcomes. -/
theorem Indexed.withOutcome (hchart : Indexed text active chart) {position id : Int}
    (hnew : chart.outcome? position id = none) (hended : (position, id) ∉ active)
    {outcome : Option Token} (hfits : ∀ found, outcome = some found → Fits text id position found)
    (hempty : ∀ found, outcome = some found → ¬ 0 < found.length) :
    Indexed text active (chart.withOutcome position id outcome) := by
  refine ⟨hchart.text_eq, hchart.active_eq, hchart.size_heads, hchart.size_tails, ?_, ?_,
    hchart.nodup_heads, hchart.nodup_tails, ?_, ?_, ?_⟩
  · intro place other hactive
    rw [outcome?_withOutcome, if_neg]
    · exact hchart.outcome_of_active hactive
    · rintro ⟨rfl, rfl⟩
      exact hended hactive
  · intro place other found hfound
    rw [outcome?_withOutcome] at hfound
    split at hfound
    next hcell =>
      obtain ⟨rfl, rfl⟩ := hcell
      exact hfits found (Option.some.inj hfound)
    next => exact hchart.fits hfound
  · intro place other found
    rw [outcome?_withOutcome]
    split
    next hcell =>
      obtain ⟨rfl, rfl⟩ := hcell
      -- The cell was not tried before, so no token starts there; nor does one now.
      refine ⟨fun hhead => ?_, fun hfound => ?_⟩
      · have hold := (hchart.head?_eq_some_iff.mp hhead).1
        rw [hnew] at hold
        cases hold
      · exact absurd hfound.2 (hempty found (Option.some.inj hfound.1))
    next => exact hchart.head?_eq_some_iff
  · intro place other found hfound hlength
    rw [outcome?_withOutcome] at hfound
    split at hfound
    next => exact absurd hlength (hempty found (Option.some.inj hfound))
    next => exact hchart.tail_of_outcome hfound hlength
  · intro last other found htail
    obtain ⟨hold, hlast, hlength⟩ := hchart.outcome_of_tail htail
    refine ⟨?_, hlast, hlength⟩
    rw [outcome?_withOutcome, if_neg]
    · exact hold
    · rintro ⟨rfl, rfl⟩
      rw [hnew] at hold
      cases hold

section Entering

variable (hchart : Indexed text active chart) {found : Token}
  (hnew : chart.outcome? found.start found.id = none)
  (hfits : Fits text found.id found.start found) (hlength : 0 < found.length)
include hchart hfits hlength

theorem Indexed.head?_withToken_eq_some_iff {position id : Int} {token : Token} :
    (chart.withToken found).head? position id = some token ↔
      (chart.withToken found).outcome? position id = some (some token) ∧ 0 < token.length := by
  have hstart := hfits.start_inside hlength
  rw [← hchart.size_heads] at hstart
  rw [head?_withToken hstart, outcome?_withToken]
  split
  next hcell =>
    rw [Option.some_inj, Option.some_inj, Option.some_inj]
    refine ⟨?_, And.left⟩
    rintro rfl
    exact ⟨rfl, hlength⟩
  next => exact hchart.head?_eq_some_iff

theorem Indexed.isSome_tail?_withToken {position id : Int} {token : Token}
    (htoken : (chart.withToken found).outcome? position id = some (some token))
    (hpositive : 0 < token.length) : ((chart.withToken found).tail? token.last id).isSome := by
  have hlast := hfits.last_inside hlength
  rw [← hchart.size_tails] at hlast
  rw [outcome?_withToken] at htoken
  rw [tail?_withToken hlast]
  split at htoken
  next hcell =>
    obtain ⟨rfl, rfl⟩ := hcell
    obtain rfl := Option.some.inj (Option.some.inj htoken)
    simp
  next =>
    split
    · rfl
    · exact hchart.tail_of_outcome htoken hpositive

include hnew

/-- In the slot of its last position a token takes the place of another one of its pattern that ends
there. -/
theorem Indexed.outcome?_of_tail?_withToken {last id : Int} {token : Token}
    (htoken : (chart.withToken found).tail? last id = some token) :
    (chart.withToken found).outcome? token.start id = some (some token) ∧ token.last = last ∧
      0 < token.length := by
  have hlast := hfits.last_inside hlength
  rw [← hchart.size_tails] at hlast
  rw [tail?_withToken hlast] at htoken
  rw [outcome?_withToken]
  split at htoken
  next hplace =>
    obtain ⟨rfl, rfl⟩ := hplace
    obtain rfl := Option.some.inj htoken
    simp [hlength]
  next =>
    obtain ⟨hold, hends, hpositive⟩ := hchart.outcome_of_tail htoken
    refine ⟨?_, hends, hpositive⟩
    -- A token that ended here before the new one has another cell: the cell of the new one had
    -- no outcome.
    rw [if_neg]
    · exact hold
    · rintro ⟨hsame, rfl⟩
      rw [← hsame, hnew] at hold
      cases hold

/-- A token of positive length also enters the slots of its ends. -/
theorem Indexed.withToken (hended : (found.start, found.id) ∉ active) :
    Indexed text active (chart.withToken found) := by
  have hstart := hfits.start_inside hlength
  rw [← hchart.size_heads] at hstart
  have hlast := hfits.last_inside hlength
  rw [← hchart.size_tails] at hlast
  refine ⟨hchart.text_eq, hchart.active_eq, ?_, ?_, ?_, ?_, nodup_slotAt_modify hstart found
    hchart.nodup_heads, nodup_slotAt_modify hlast found hchart.nodup_tails,
    hchart.head?_withToken_eq_some_iff hfits hlength, hchart.isSome_tail?_withToken hfits hlength,
    hchart.outcome?_of_tail?_withToken hnew hfits hlength⟩
  · simpa [Chart.withToken] using hchart.size_heads
  · simpa [Chart.withToken] using hchart.size_tails
  · intro place other hactive
    rw [outcome?_withToken, if_neg]
    · exact hchart.outcome_of_active hactive
    · rintro ⟨rfl, rfl⟩
      exact hended hactive
  · intro place other token htoken
    rw [outcome?_withToken] at htoken
    split at htoken
    next hcell =>
      obtain ⟨rfl, rfl⟩ := hcell
      obtain rfl := Option.some.inj (Option.some.inj htoken)
      exact hfits
    next => exact hchart.fits htoken

end Entering

section Tokens

variable (hchart : Indexed text active chart)
include hchart

/-- The tokens of a chart are the outcomes of positive length. -/
theorem Indexed.mem_tokens_iff {token : Token} :
    token ∈ chart.tokens ↔ chart.head? token.start token.id = some token := by
  rw [tokens, List.mem_flatten]
  constructor
  · rintro ⟨slot, hslot, hmem⟩
    obtain ⟨place, hplace, rfl⟩ := List.getElem_of_mem hslot
    have hinside : place < chart.heads.size := by simpa using hplace
    rw [Array.getElem_toList, ← slotAt_eq_getElem hinside, mem_slot_iff (hchart.nodup_heads _)]
      at hmem
    have hstart := (hchart.fits (hchart.head?_eq_some_iff.mp hmem).1).start_eq
    rwa [hstart]
  · intro hhead
    have hfits := hchart.fits (hchart.head?_eq_some_iff.mp hhead).1
    have hlength := (hchart.head?_eq_some_iff.mp hhead).2
    have hstart := hfits.start_nonneg
    have hinside : token.start.toNat < chart.heads.size := by
      have hstop := hfits.stop_le
      unfold Token.stop at hstop
      rw [hchart.size_heads]
      omega
    refine ⟨chart.heads[token.start.toNat], by simp, ?_⟩
    rw [← slotAt_eq_getElem hinside, mem_slot_iff (hchart.nodup_heads _),
      Int.toNat_of_nonneg hstart]
    exact hhead

/-- A chart has one token of a pattern at a start. -/
theorem Indexed.eq_of_mem_tokens {token other : Token} (htoken : token ∈ chart.tokens)
    (hother : other ∈ chart.tokens) (hstart : token.start = other.start)
    (hid : token.id = other.id) : token = other := by
  rw [hchart.mem_tokens_iff] at htoken hother
  rw [hstart, hid, hother] at htoken
  exact (Option.some.inj htoken).symm

theorem Indexed.mem_heads_iff {position : Int} {token : Token} :
    token ∈ slotAt chart.heads position ↔ token ∈ chart.tokens ∧ token.start = position := by
  rw [mem_slot_iff (hchart.nodup_heads position), hchart.mem_tokens_iff]
  constructor
  · intro hhead
    have hstart := (hchart.fits (hchart.head?_eq_some_iff.mp hhead).1).start_eq
    exact ⟨hstart ▸ hhead, hstart⟩
  · rintro ⟨hhead, rfl⟩
    exact hhead

theorem Indexed.mem_tails_iff {position : Int} {token : Token} :
    token ∈ slotAt chart.tails position ↔ token ∈ chart.tokens ∧ token.last = position ∧
      chart.tail? token.last token.id = some token := by
  rw [mem_slot_iff (hchart.nodup_tails position), hchart.mem_tokens_iff,
    hchart.head?_eq_some_iff]
  constructor
  · intro htail
    obtain ⟨houtcome, rfl, hlength⟩ := hchart.outcome_of_tail htail
    exact ⟨⟨houtcome, hlength⟩, rfl, htail⟩
  · rintro ⟨-, rfl, htail⟩
    exact htail

end Tokens

end Motif.Chart
