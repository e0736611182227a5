import Motif.Proofs.Action
import Motif.Proofs.Matching.Bounds

/-!
# What a chart remembers

A chart is faithful to the tokens of the patterns of a grammar if all that it remembers agrees with
them: the outcomes, the tokens by their last positions, and the positions up to which each pattern
has been tried. Remembering a true outcome, moving a frontier over a tried position and marking
trials keep a chart faithful.
-/

namespace Motif

instance : Std.TransCmp Cell.order :=
  letI : Ord (Int × Int) := lexOrd
  inferInstanceAs (Std.TransOrd (Int × Int))

instance : Std.LawfulEqCmp Cell.order :=
  letI : Ord (Int × Int) := lexOrd
  inferInstanceAs (Std.LawfulEqOrd (Int × Int))

namespace Chart

open Evaluation (Fits)

theorem getElem?_insert_memo (memo : Std.TreeMap Cell (Option Token) Cell.order) (cell other : Cell)
    (outcome : Option Token) :
    (memo.insert cell outcome)[other]? = if cell = other then some outcome else memo[other]? := by
  rw [Std.TreeMap.getElem?_insert]
  simp only [Std.LawfulEqCmp.compare_eq_iff_eq]

theorem ofPattern?_put (token : Token) (id : Int) (slot : List Token) :
    ofPattern? id (put token slot) = if token.id = id then some token else ofPattern? id slot := by
  induction slot with
  | nil => simp [put, ofPattern?]
  | cons first rest ih =>
      by_cases hfirst : first.id = token.id
      · by_cases hid : token.id = id
        · simp [put, ofPattern?, hfirst, hid]
        · simp [put, ofPattern?, hfirst, hid]
      · unfold ofPattern? at ih ⊢
        rw [put, if_neg hfirst, List.find?_cons, List.find?_cons, ih]
        by_cases hid : token.id = id
        · rw [hid] at hfirst
          simp [hid, hfirst]
        · simp [hid]

theorem slotAt_modify {slots : Array (List Token)} {index : Nat} (hindex : index < slots.size)
    (change : List Token → List Token) (position : Int) :
    slotAt (slots.modify index change) position =
      if position = index then change (slotAt slots position) else slotAt slots position := by
  by_cases hposition : 0 ≤ position
  · obtain ⟨place, rfl⟩ := Int.eq_ofNat_of_zero_le hposition
    by_cases hplace : index = place
    · subst hplace
      simp [slotAt, Array.getElem_modify, hindex]
    · have hne : ((place : Nat) : Int) ≠ index := by omega
      simp [slotAt, Array.getD_eq_getD_getElem?, Array.getElem?_modify, hplace, hne]
  · have hne : position ≠ index := by omega
    simp [slotAt, hposition, hne]

/-- A trial that is not under way is entered. -/
theorem run_enter {chart : Chart} {position id : Int} (hfree : (position, id) ∉ chart.active) :
    (enter position id).run chart =
      (.ok true, { chart with active := (position, id) :: chart.active }) := by
  have hnew : chart.active.contains (position, id) = false := by simpa using hfree
  unfold enter
  refine (run_read_bind chart).trans ?_
  rw [hnew]
  rfl

/-- The trial that was entered last is left. -/
theorem leave_eq {chart : Chart} {position id : Int} {active : List Cell}
    (hactive : chart.active = (position, id) :: active) :
    chart.leave position id = { chart with active := active } := by
  unfold leave
  rw [hactive, List.erase_cons_head]

/-- A chart with one more outcome, which enters no slot. -/
def withOutcome (chart : Chart) (position id : Int) (outcome : Option Token) : Chart :=
  { chart with memo := chart.memo.insert (position, id) outcome }

/-- A chart with one more token, among its outcomes and in the slots of both ends. -/
def withToken (chart : Chart) (token : Token) : Chart :=
  { chart with
    heads := chart.heads.modify token.start.toNat (put token)
    tails := chart.tails.modify token.last.toNat (put token)
    memo := chart.memo.insert (token.start, token.id) token }

theorem outcome?_withOutcome (chart : Chart) (position id : Int) (outcome : Option Token)
    (place other : Int) :
    (chart.withOutcome position id outcome).outcome? place other =
      if position = place ∧ id = other then some outcome else chart.outcome? place other := by
  simp only [outcome?, withOutcome, getElem?_insert_memo, Prod.mk.injEq]

theorem outcome?_withToken (chart : Chart) (token : Token) (place other : Int) :
    (chart.withToken token).outcome? place other =
      if token.start = place ∧ token.id = other then some (some token)
      else chart.outcome? place other := by
  simp only [outcome?, withToken, getElem?_insert_memo, Prod.mk.injEq]

/-- The token that was put into a slot is the one of its pattern there; nothing else moves. -/
theorem ofPattern?_slotAt_modify {slots : Array (List Token)} {position : Int}
    (hposition : 0 ≤ position ∧ position < slots.size) (token : Token) (place other : Int) :
    ofPattern? other (slotAt (slots.modify position.toNat (put token)) place) =
      if position = place ∧ token.id = other then some token
      else ofPattern? other (slotAt slots place) := by
  have hslot : position.toNat < slots.size := by omega
  rw [slotAt_modify hslot, Int.toNat_of_nonneg hposition.1]
  by_cases hplace : place = position
  · simp [hplace, ofPattern?_put]
  · simp [hplace, Ne.symm hplace]

theorem head?_withToken {chart : Chart} {token : Token}
    (hstart : 0 ≤ token.start ∧ token.start < chart.heads.size) (place other : Int) :
    (chart.withToken token).head? place other =
      if token.start = place ∧ token.id = other then some token else chart.head? place other :=
  ofPattern?_slotAt_modify hstart token place other

theorem tail?_withToken {chart : Chart} {token : Token}
    (hlast : 0 ≤ token.last ∧ token.last < chart.tails.size) (last other : Int) :
    (chart.withToken token).tail? last other =
      if token.last = last ∧ token.id = other then some token else chart.tail? last other :=
  ofPattern?_slotAt_modify hlast token last other

/-- Entering a token that lies inside the text cannot fail. -/
theorem run_add {chart : Chart} {token : Token}
    (hfits : Fits chart.text token.id token.start token) (hlength : 0 < token.length) :
    (add token).run chart = (.ok (), chart.withToken token) := by
  obtain ⟨hstart, hinside⟩ := hfits.start_inside hlength
  obtain ⟨hlast, hends⟩ := hfits.last_inside hlength
  have hhead : slot? chart.text.size token.start = some token.start.toNat := by
    rw [slot?, if_pos hstart, if_pos hinside]
  have htail : slot? chart.text.size token.last = some token.last.toNat := by
    rw [slot?, if_pos hlast, if_pos hends]
  unfold add
  refine (run_bind_of_ok (rfl : (getThe Chart : Action Chart).run chart = _)).trans ?_
  simp only [hhead, htail]
  rfl

/-- Remembering an outcome that fits cannot fail. Only a token of positive length enters the
slots. -/
theorem run_remember {chart : Chart} {position id : Int} {outcome : Option Token}
    (hfits : ∀ found, outcome = some found → Fits chart.text id position found) :
    (remember position id outcome).run chart = (.ok (), chart.withOutcome position id outcome) ∧
        (∀ found, outcome = some found → ¬ 0 < found.length) ∨
      ∃ found, outcome = some found ∧ 0 < found.length ∧
        (remember position id outcome).run chart = (.ok (), chart.withToken found) := by
  cases outcome with
  | none => exact .inl ⟨rfl, by simp⟩
  | some found =>
      by_cases hlength : 0 < found.length
      · obtain rfl := (hfits found rfl).id_eq
        obtain rfl := (hfits found rfl).start_eq
        refine .inr ⟨found, rfl, hlength, ?_⟩
        rw [remember, if_pos hlength]
        exact run_add (hfits found rfl) hlength
      · refine .inl ⟨?_, ?_⟩
        · rw [remember, if_neg hlength]
          rfl
        · rintro other ⟨⟩
          exact hlength

/-- All that a chart remembers of the patterns of a grammar agrees with their tokens, the trials
`done` are among what it remembers, and exactly the trials of a list are under way. -/
structure Faithful (grammar : Grammar) (text : Array Char) (token : Int → Int → Option Token)
    (active : List Cell) (done : Int → Int → Prop) (chart : Chart) : Prop where
  text_eq : chart.text = text
  active_eq : chart.active = active
  size_tails : chart.tails.size = text.size
  outcome_eq : ∀ {position id outcome}, (grammar.find? id).isSome →
    chart.outcome? position id = some outcome → outcome = token id position
  tail_of_outcome : ∀ {position id found}, (grammar.find? id).isSome →
    chart.outcome? position id = some (some found) → 0 < found.length →
      (chart.tail? found.last id).isSome
  token_of_tail : ∀ {last id found}, (grammar.find? id).isSome →
    chart.tail? last id = some found →
      token id found.start = some found ∧ found.last = last ∧ 0 < found.length
  outcome_of_scanned : ∀ {position id}, (grammar.find? id).isSome → 0 ≤ position →
    position < chart.scannedUntil id → position < text.size →
      (chart.outcome? position id).isSome
  outcome_of_done : ∀ {position id}, done position id → (chart.outcome? position id).isSome

variable {grammar : Grammar} {text : Array Char} {token : Int → Int → Option Token}
  {active : List Cell} {done : Int → Int → Prop} {chart : Chart}

/-- A fresh chart remembers nothing. -/
@[simp]
theorem outcome?_ofText (text : String) (position id : Int) :
    (ofText text).outcome? position id = none := by
  simp [outcome?, ofText]

theorem faithful_ofText (text : String) :
    Faithful grammar text.toList.toArray token [] (fun _ _ => False) (ofText text) where
  text_eq := rfl
  active_eq := rfl
  size_tails := by simp [ofText]
  outcome_eq _ houtcome := by simp at houtcome
  tail_of_outcome _ houtcome := by simp at houtcome
  token_of_tail {last id found} _ htail := by
    have hslot : slotAt (ofText text).tails last = [] := by
      simp only [slotAt, ofText, Array.getD_eq_getD_getElem?, Array.getElem?_replicate]
      split
      · split <;> rfl
      · rfl
    simp [tail?, hslot, ofPattern?] at htail
  outcome_of_scanned {position id} _ hnonneg hscanned := by
    have hzero : (ofText text).scannedUntil id = 0 := by simp [scannedUntil, ofText]
    omega
  outcome_of_done := False.elim

/-- A true outcome without a token of positive length only enters the outcomes. -/
theorem Faithful.withOutcome (hchart : Faithful grammar text token active done chart)
    {position id : Int} {outcome : Option Token}
    (hvalue : (grammar.find? id).isSome → outcome = token id position)
    (hempty : ∀ found, outcome = some found → ¬ 0 < found.length) :
    Faithful grammar text token active done (chart.withOutcome position id outcome) where
  text_eq := hchart.text_eq
  active_eq := hchart.active_eq
  size_tails := hchart.size_tails
  outcome_eq {place other result} hknown hresult := by
    rw [outcome?_withOutcome] at hresult
    split at hresult
    next hcell =>
      obtain ⟨rfl, rfl⟩ := hcell
      exact (Option.some.inj hresult).symm.trans (hvalue hknown)
    next => exact hchart.outcome_eq hknown hresult
  tail_of_outcome {place other found} hknown hresult hlength := by
    rw [outcome?_withOutcome] at hresult
    split at hresult
    next => exact absurd hlength (hempty found (Option.some.inj hresult))
    next => exact hchart.tail_of_outcome hknown hresult hlength
  token_of_tail := hchart.token_of_tail
  outcome_of_scanned {place other} hknown hnonneg hscanned hsize := by
    rw [outcome?_withOutcome]
    split
    · rfl
    · exact hchart.outcome_of_scanned hknown hnonneg hscanned hsize
  outcome_of_done {place other} hdone := by
    rw [outcome?_withOutcome]
    split
    · rfl
    · exact hchart.outcome_of_done hdone

/-- A true token of positive length also enters the slots of its ends. -/
theorem Faithful.withToken (hchart : Faithful grammar text token active done chart)
    {found : Token} (hfits : Fits text found.id found.start found)
    (hvalue : (grammar.find? found.id).isSome → some found = token found.id found.start)
    (hlength : 0 < found.length) :
    Faithful grammar text token active done (chart.withToken found) := by
  have hlast := hfits.last_inside hlength
  rw [← hchart.size_tails] at hlast
  have htail := tail?_withToken hlast
  refine ⟨hchart.text_eq, hchart.active_eq, ?_, ?_, ?_, ?_, ?_, ?_⟩
  · simpa [Chart.withToken] using hchart.size_tails
  · intro place other result hknown hresult
    rw [outcome?_withToken] at hresult
    split at hresult
    next hcell =>
      obtain ⟨rfl, rfl⟩ := hcell
      exact (Option.some.inj hresult).symm.trans (hvalue hknown)
    next => exact hchart.outcome_eq hknown hresult
  · intro place other result hknown hresult hpositive
    rw [outcome?_withToken] at hresult
    rw [htail]
    split at hresult
    next hcell =>
      obtain ⟨rfl, rfl⟩ := hcell
      obtain rfl := Option.some.inj (Option.some.inj hresult)
      simp
    next =>
      split
      · rfl
      · exact hchart.tail_of_outcome hknown hresult hpositive
  · intro last other result hknown hresult
    rw [htail] at hresult
    split at hresult
    next hplace =>
      obtain ⟨rfl, rfl⟩ := hplace
      obtain rfl := Option.some.inj hresult
      exact ⟨(hvalue hknown).symm, rfl, hlength⟩
    next => exact hchart.token_of_tail hknown hresult
  · intro place other hknown hnonneg hscanned hsize
    rw [outcome?_withToken]
    split
    · rfl
    · exact hchart.outcome_of_scanned hknown hnonneg hscanned hsize
  · intro place other hdone
    rw [outcome?_withToken]
    split
    · rfl
    · exact hchart.outcome_of_done hdone

/-- Remembering a true outcome cannot fail and keeps the chart faithful; the outcome is there
afterwards. -/
theorem Faithful.remember (hchart : Faithful grammar text token active done chart)
    {position id : Int} {outcome : Option Token}
    (hfits : ∀ found, outcome = some found → Fits text id position found)
    (hvalue : (grammar.find? id).isSome → outcome = token id position) :
    SettlesFrom (fun after => Faithful grammar text token active done after ∧
      after.outcome? position id = some outcome) chart (remember position id outcome) () := by
  obtain rfl := hchart.text_eq
  rcases run_remember hfits with ⟨hrun, hempty⟩ | ⟨found, rfl, hlength, hrun⟩
  · refine ⟨_, hrun, hchart.withOutcome hvalue hempty, ?_⟩
    rw [outcome?_withOutcome, if_pos ⟨rfl, rfl⟩]
  · have hfound := hfits found rfl
    obtain rfl := hfound.id_eq
    obtain rfl := hfound.start_eq
    refine ⟨_, hrun, hchart.withToken hfound hvalue hlength, ?_⟩
    rw [outcome?_withToken, if_pos ⟨rfl, rfl⟩]

/-- A frontier may pass a position that has been tried or lies outside the text. -/
theorem Faithful.markScanned (hchart : Faithful grammar text token active done chart)
    {id position : Int} (htried : (grammar.find? id).isSome → 0 ≤ position →
      position < text.size → (chart.outcome? position id).isSome) :
    Faithful grammar text token active done (chart.markScanned id position) := by
  unfold Chart.markScanned
  split
  next hfrontier =>
    refine ⟨hchart.text_eq, hchart.active_eq, hchart.size_tails, hchart.outcome_eq,
      hchart.tail_of_outcome, hchart.token_of_tail, ?_, hchart.outcome_of_done⟩
    intro place other hknown hnonneg hscanned hsize
    rw [scannedUntil, Std.TreeMap.getD_insert] at hscanned
    split at hscanned
    next hother =>
      obtain rfl := Std.LawfulEqCmp.eq_of_compare hother
      by_cases hplace : place < position
      · exact hchart.outcome_of_scanned hknown hnonneg (hfrontier ▸ hplace) hsize
      · have heq : place = position := by omega
        exact heq ▸ htried hknown (heq ▸ hnonneg) (heq ▸ hsize)
    next => exact hchart.outcome_of_scanned hknown hnonneg hscanned hsize
  next => exact hchart

/-- Entering and leaving trials changes nothing but the list of those under way. -/
theorem Faithful.withActive (hchart : Faithful grammar text token active done chart)
    (others : List Cell) :
    Faithful grammar text token others done { chart with active := others } :=
  ⟨hchart.text_eq, rfl, hchart.size_tails, hchart.outcome_eq, hchart.tail_of_outcome,
    hchart.token_of_tail, hchart.outcome_of_scanned, hchart.outcome_of_done⟩

/-- A trial that is remembered may be counted among those that are done. -/
theorem Faithful.withDone (hchart : Faithful grammar text token active done chart)
    {others : Int → Int → Prop}
    (hothers : ∀ position id, others position id → (chart.outcome? position id).isSome) :
    Faithful grammar text token active others chart :=
  ⟨hchart.text_eq, hchart.active_eq, hchart.size_tails, hchart.outcome_eq,
    hchart.tail_of_outcome, hchart.token_of_tail, hchart.outcome_of_scanned,
    fun hdone => hothers _ _ hdone⟩

theorem Faithful.weaken (hchart : Faithful grammar text token active done chart)
    {others : Int → Int → Prop} (hothers : ∀ position id, others position id → done position id) :
    Faithful grammar text token active others chart :=
  hchart.withDone fun position id hother => hchart.outcome_of_done (hothers position id hother)

/-- A trial that has just been made and marked counts among those that are done. -/
theorem Faithful.tried (hchart : Faithful grammar text token active done chart) {id position : Int}
    (houtcome : 0 ≤ position → position < text.size → (chart.outcome? position id).isSome) :
    Faithful grammar text token active
      (fun place other => done place other ∨
        other = id ∧ place = position ∧ 0 ≤ place ∧ place < text.size)
      (chart.markScanned id position) := by
  have hmarked : Faithful grammar text token active done (chart.markScanned id position) :=
    hchart.markScanned fun _ => houtcome
  refine hmarked.withDone ?_
  rintro place other (hplace | ⟨rfl, rfl, hnonneg, hsize⟩)
  · exact hmarked.outcome_of_done hplace
  · have hsome := houtcome hnonneg hsize
    unfold Chart.markScanned
    split <;> exact hsome

end Chart

end Motif
