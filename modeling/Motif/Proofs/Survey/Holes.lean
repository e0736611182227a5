import Mathlib.Data.List.Pairwise
import Motif.Proofs.Matching.Ends
import Motif.Survey.Holes

/-!
# The holes of a parse

The sweep keeps a token open until it meets the token in the slot of its last position. In such a
slot only one token of each pattern has a place, so where two tokens of one pattern end together the
other is never closed, and no hole is found from there on. Short of that the sweep finds exactly the
longest stretches without a covered position.
-/

namespace Motif

/-- A longest stretch of the text without a covered position. -/
structure Hole.IsGap (text : Array Char) (covered : Int → Prop) (hole : Hole) : Prop where
  start_nonneg : 0 ≤ hole.start
  length_pos : 0 < hole.length
  stop_le : hole.stop ≤ text.size
  text_eq : hole.text =
    String.ofList ((text.toList.drop hole.start.toNat).take hole.length.toNat)
  uncovered : ∀ position, hole.start ≤ position → position < hole.stop → ¬ covered position
  left : hole.start = 0 ∨ covered (hole.start - 1)
  right : hole.stop = text.size ∨ covered hole.stop

/-- The stretches of a list are, in ascending order, exactly the longest ones without a covered
position, and every position that is not covered lies in exactly one of them. -/
structure AreGaps (text : Array Char) (covered : Int → Prop) (holes : List Hole) : Prop where
  mem_iff : ∀ hole, hole ∈ holes ↔ hole.IsGap text covered
  ascending : holes.Pairwise fun first second => first.stop < second.start
  existsUnique : ∀ position : Int, 0 ≤ position → position < text.size → ¬ covered position →
    ∃! hole, hole ∈ holes ∧ hole.start ≤ position ∧ position < hole.stop

theorem Hole.IsGap.start_lt_stop {text : Array Char} {covered : Int → Prop} {hole : Hole}
    (hgap : hole.IsGap text covered) : hole.start < hole.stop := by
  have hlength := hgap.length_pos
  unfold Hole.stop
  omega

section Congruence

variable {text : Array Char} {covered other : Int → Prop}

theorem Hole.IsGap.congr {hole : Hole} (hgap : hole.IsGap text covered)
    (hother : ∀ position : Int, position < text.size → (covered position ↔ other position)) :
    hole.IsGap text other := by
  have hstop := hgap.stop_le
  have hlength := hgap.length_pos
  refine ⟨hgap.start_nonneg, hlength, hstop, hgap.text_eq, ?_, ?_, ?_⟩
  · intro position hlow hhigh hposition
    exact hgap.uncovered position hlow hhigh ((hother position (by omega)).mpr hposition)
  · refine hgap.left.imp_right (hother _ ?_).mp
    unfold Hole.stop at hstop
    omega
  · by_cases hend : hole.stop = text.size
    · exact .inl hend
    · exact .inr ((hother _ (by omega)).mp (hgap.right.resolve_left hend))

/-- Only what is covered inside the text matters. -/
theorem AreGaps.congr {holes : List Hole} (hgaps : AreGaps text covered holes)
    (hother : ∀ position : Int, position < text.size → (covered position ↔ other position)) :
    AreGaps text other holes := by
  refine ⟨fun hole => ?_, hgaps.ascending, ?_⟩
  · rw [hgaps.mem_iff]
    refine ⟨fun hgap => hgap.congr hother, fun hgap => hgap.congr fun position hposition => ?_⟩
    exact (hother position hposition).symm
  · intro position hnonneg hsize huncovered
    apply hgaps.existsUnique position hnonneg hsize
    exact fun hcovered => huncovered ((hother position hsize).mp hcovered)

end Congruence

namespace Chart

section Runs

variable {text : Array Char} {covered : Int → Prop}

@[simp]
theorem stop_holeBetween (text : Array Char) (start stop : Nat) :
    (holeBetween text start stop).stop = stop := by
  simp [Hole.stop, holeBetween]

theorem isGap_holeBetween_iff {start stop : Nat} (hstop : stop ≤ text.size) :
    (holeBetween text start stop).IsGap text covered ↔
      start < stop ∧ (∀ position : Nat, start ≤ position → position < stop → ¬ covered position) ∧
        (start = 0 ∨ covered (start - 1 : Int)) ∧ (stop = text.size ∨ covered stop) := by
  have hends := stop_holeBetween text start stop
  constructor
  · intro hgap
    have hlength : (0 : Int) < stop - start := hgap.length_pos
    refine ⟨by omega, ?_, ?_, ?_⟩
    · intro position hlow hhigh
      exact hgap.uncovered position (Int.ofNat_le.mpr hlow) (hends ▸ Int.ofNat_lt.mpr hhigh)
    · exact hgap.left.imp_left Int.ofNat_eq_zero.mp
    · have hright := hgap.right
      rw [hends] at hright
      exact hright.imp_left Int.ofNat_inj.mp
  · rintro ⟨hlt, huncovered, hleft, hright⟩
    refine ⟨Int.natCast_nonneg _, ?_, ?_, ?_, ?_, ?_, ?_⟩
    · change (0 : Int) < stop - start
      omega
    · rw [hends]
      exact Int.ofNat_le.mpr hstop
    · have hlength : ((stop : Int) - start).toNat = stop - start := by omega
      simp [holeBetween, List.extract_eq_take_drop, hlength]
    · intro position hlow hhigh
      rw [hends] at hhigh
      have hnonneg : 0 ≤ position := (Int.natCast_nonneg start).trans hlow
      obtain ⟨place, rfl⟩ := Int.eq_ofNat_of_zero_le hnonneg
      exact huncovered place (Int.ofNat_le.mp hlow) (Int.ofNat_lt.mp hhigh)
    · exact hleft.imp_left Int.ofNat_eq_zero.mpr
    · rw [hends]
      exact hright.imp_left Int.ofNat_inj.mpr

/-- Every gap is a stretch between two positions. -/
theorem exists_eq_holeBetween {hole : Hole} (hgap : hole.IsGap text covered) :
    ∃ start stop : Nat, hole = holeBetween text start stop ∧ stop ≤ text.size := by
  obtain ⟨start, length, word⟩ := hole
  obtain ⟨first, rfl⟩ : ∃ first : Nat, start = first :=
    Int.eq_ofNat_of_zero_le hgap.start_nonneg
  obtain ⟨count, rfl⟩ : ∃ count : Nat, length = count :=
    Int.eq_ofNat_of_zero_le (le_of_lt hgap.length_pos)
  have hstop : (first : Int) + count ≤ text.size := hgap.stop_le
  have htext : word = String.ofList ((text.toList.drop first).take count) := hgap.text_eq
  refine ⟨first, first + count, ?_, by omega⟩
  simp [holeBetween, htext, List.extract_eq_take_drop]

/-- What has been found out about the run that may have begun before a position. -/
def Begun (covered : Int → Prop) (position : Nat) : Option Nat → Prop
  | none => position = 0 ∨ covered (position - 1 : Int)
  | some start => start < position ∧
    (∀ place : Nat, start ≤ place → place < position → ¬ covered place) ∧
      (start = 0 ∨ covered (start - 1 : Int))

theorem Begun.le {position : Nat} {begun : Option Nat} (hbegun : Begun covered position begun) :
    begun.getD position ≤ position := by
  cases begun with
  | none => exact le_refl _
  | some start => exact hbegun.1.le

theorem Begun.next_covered {position : Nat} (hcovered : covered position) :
    Begun covered (position + 1) none := by
  refine .inr ?_
  simpa using hcovered

theorem Begun.next_uncovered {position : Nat} {begun : Option Nat}
    (hbegun : Begun covered position begun) (huncovered : ¬ covered position) :
    Begun covered (position + 1) (some (begun.getD position)) := by
  cases begun with
  | none =>
      refine ⟨Nat.lt_succ_self _, ?_, hbegun⟩
      intro place hlow hhigh
      rwa [Nat.le_antisymm (Nat.le_of_lt_succ hhigh) hlow]
  | some start =>
      refine ⟨Nat.lt_succ_of_lt hbegun.1, ?_, hbegun.2.2⟩
      intro place hlow hhigh
      by_cases hplace : place = position
      · rwa [hplace]
      · exact hbegun.2.1 place hlow (by omega)

/-- A gap that starts inside the run that has begun is this run, if it ends here. -/
theorem Begun.eq_of_isGap {position start stop first : Nat}
    (hbegun : Begun covered position (some first))
    (hends : position = text.size ∨ covered position) (hposition : position ≤ text.size)
    (hstop : stop ≤ text.size) (hgap : (holeBetween text start stop).IsGap text covered)
    (hstart : first ≤ start) (hbefore : start < position) : start = first ∧ stop = position := by
  obtain ⟨hlt, huncovered, hleft, hright⟩ := (isGap_holeBetween_iff hstop).mp hgap
  obtain ⟨hfirst, hrun, -⟩ := hbegun
  have heq : start = first := by
    by_contra hne
    rcases hleft with hzero | hcovered
    · omega
    · have hcast : (start - 1 : Int) = ((start - 1 : Nat) : Int) := by omega
      rw [hcast] at hcovered
      exact hrun (start - 1) (by omega) (by omega) hcovered
  refine ⟨heq, ?_⟩
  rcases Nat.lt_trichotomy stop position with hshort | hsame | hlong
  · rcases hright with hsize | hcovered
    · omega
    · exact absurd hcovered (hrun stop (by omega) hshort)
  · exact hsame
  · rcases hends with hsize | hcovered
    · omega
    · exact absurd hcovered (huncovered position hbefore.le hlong)

/-- The hole of the run that ends at a position, if one has begun. -/
def ended (text : Array Char) (begun : Option Nat) (position : Nat) : List Hole :=
  (begun.map fun start => holeBetween text start position).toList

variable {position : Nat} {begun : Option Nat} {flags : List Bool}

theorem stop_of_mem_ended {hole : Hole} (hmem : hole ∈ ended text begun position) :
    hole.stop = position := by
  cases begun with
  | none => cases hmem
  | some start =>
      obtain rfl := List.mem_singleton.mp hmem
      exact stop_holeBetween text start position

/-- Where a run must end, its hole is the gap that starts before. -/
theorem Begun.mem_ended_iff (hbegun : Begun covered position begun)
    (hends : position = text.size ∨ covered position) (hposition : position ≤ text.size)
    {hole : Hole} : hole ∈ ended text begun position ↔
      hole.IsGap text covered ∧ ((begun.getD position : Nat) : Int) ≤ hole.start ∧
        hole.start < position := by
  cases begun with
  | none =>
      refine iff_of_false List.not_mem_nil ?_
      rintro ⟨-, hlow, hhigh⟩
      exact absurd hhigh (not_lt_of_ge hlow)
  | some first =>
      refine List.mem_singleton.trans ⟨?_, ?_⟩
      · rintro rfl
        exact ⟨(isGap_holeBetween_iff hposition).mpr ⟨hbegun.1, hbegun.2.1, hbegun.2.2, hends⟩,
          le_refl _, Int.ofNat_lt.mpr hbegun.1⟩
      · rintro ⟨hgap, hlow, hhigh⟩
        obtain ⟨start, stop, rfl, hstop⟩ := exists_eq_holeBetween hgap
        obtain ⟨rfl, rfl⟩ := hbegun.eq_of_isGap hends hposition hstop hgap (Int.ofNat_le.mp hlow)
          (Int.ofNat_lt.mp hhigh)
        rfl

/-- The positions of the run that ends lie in its hole. -/
theorem exists_mem_ended {place : Nat} (hlow : begun.getD position ≤ place)
    (hhigh : place < position) :
    ∃ hole ∈ ended text begun position, hole.start ≤ place ∧ (place : Int) < hole.stop := by
  cases begun with
  | none => exact absurd hhigh (not_lt_of_ge hlow)
  | some first =>
      refine ⟨holeBetween text first position, List.mem_singleton_self _, Int.ofNat_le.mpr hlow, ?_⟩
      rw [stop_holeBetween]
      exact Int.ofNat_lt.mpr hhigh

/-- The flags from a position on tell which positions are covered. -/
def Tells (covered : Int → Prop) : Nat → List Bool → Prop
  | _, [] => True
  | position, flag :: rest => (flag = true ↔ covered position) ∧ Tells covered (position + 1) rest

theorem holesFrom_nil : holesFrom text begun position [] = ended text begun position :=
  rfl

theorem holesFrom_true :
    holesFrom text begun position (true :: flags) =
      ended text begun position ++ holesFrom text none (position + 1) flags :=
  rfl

/-- From a position on, the gaps are found that have begun there or begin later. -/
theorem mem_holesFrom_iff (hbegun : Begun covered position begun)
    (hflags : Tells covered position flags) (hsize : position + flags.length = text.size)
    {hole : Hole} :
    hole ∈ holesFrom text begun position flags ↔
      hole.IsGap text covered ∧ ((begun.getD position : Nat) : Int) ≤ hole.start := by
  induction flags generalizing position begun with
  | nil =>
      have hposition : position = text.size := hsize
      rw [holesFrom_nil, hbegun.mem_ended_iff (.inl hposition) hposition.le]
      refine and_congr_right fun hgap => and_iff_left ?_
      have hlt := hgap.start_lt_stop
      have hstop := hgap.stop_le
      omega
  | cons flag rest ih =>
      obtain ⟨hflag, hrest⟩ := hflags
      have hmore : position + 1 + rest.length = text.size := by
        rw [← hsize, List.length_cons]
        omega
      cases flag with
      | false =>
          have huncovered : ¬ covered position := fun hcovered => by
            cases hflag.mpr hcovered
          rw [holesFrom]
          exact ih (hbegun.next_uncovered huncovered) hrest hmore
      | true =>
          have hcovered := hflag.mp rfl
          rw [holesFrom_true, List.mem_append, ih (Begun.next_covered hcovered) hrest hmore,
            hbegun.mem_ended_iff (.inr hcovered) (by omega), Option.getD_none]
          have hle := hbegun.le
          constructor
          · rintro (⟨hgap, hlow, -⟩ | ⟨hgap, hlow⟩)
            · exact ⟨hgap, hlow⟩
            · exact ⟨hgap, by omega⟩
          · rintro ⟨hgap, hlow⟩
            -- No gap starts at a covered position, so it starts before or after this one.
            have hne : hole.start ≠ position := fun hstart =>
              hgap.uncovered position hstart.le (hstart ▸ hgap.start_lt_stop) hcovered
            by_cases hbefore : hole.start < position
            · exact .inl ⟨hgap, hlow, hbefore⟩
            · exact .inr ⟨hgap, by omega⟩

theorem ascending_holesFrom (hbegun : Begun covered position begun)
    (hflags : Tells covered position flags) (hsize : position + flags.length = text.size) :
    (holesFrom text begun position flags).Pairwise fun first second =>
      first.stop < second.start := by
  have hended : (ended text begun position).Pairwise fun first second =>
      first.stop < second.start := by
    cases begun with
    | none => exact .nil
    | some first => exact List.pairwise_singleton _ _
  induction flags generalizing position begun with
  | nil => exact hended
  | cons flag rest ih =>
      obtain ⟨hflag, hrest⟩ := hflags
      have hmore : position + 1 + rest.length = text.size := by
        rw [← hsize, List.length_cons]
        omega
      cases flag with
      | false =>
          have huncovered : ¬ covered position := fun hcovered => by
            cases hflag.mpr hcovered
          exact ih (hbegun.next_uncovered huncovered) hrest hmore (List.pairwise_singleton _ _)
      | true =>
          have hnext : Begun covered (position + 1) none := Begun.next_covered (hflag.mp rfl)
          rw [holesFrom_true, List.pairwise_append]
          refine ⟨hended, ih hnext hrest hmore .nil, ?_⟩
          intro first hfirst second hsecond
          have hstart := ((mem_holesFrom_iff hnext hrest hmore).mp hsecond).2
          rw [Option.getD_none] at hstart
          rw [stop_of_mem_ended hfirst]
          omega

/-- Every position from here on that is not covered lies in a hole. -/
theorem exists_mem_holesFrom (hbegun : Begun covered position begun)
    (hflags : Tells covered position flags) (hsize : position + flags.length = text.size)
    {place : Nat} (hlow : begun.getD position ≤ place) (hhigh : place < text.size)
    (hplace : ¬ covered place) :
    ∃ hole ∈ holesFrom text begun position flags,
      hole.start ≤ place ∧ (place : Int) < hole.stop := by
  induction flags generalizing position begun with
  | nil =>
      have hposition : position = text.size := hsize
      exact exists_mem_ended hlow (hposition ▸ hhigh)
  | cons flag rest ih =>
      obtain ⟨hflag, hrest⟩ := hflags
      have hmore : position + 1 + rest.length = text.size := by
        rw [← hsize, List.length_cons]
        omega
      cases flag with
      | false =>
          have huncovered : ¬ covered position := fun hcovered => by
            cases hflag.mpr hcovered
          exact ih (hbegun.next_uncovered huncovered) hrest hmore hlow
      | true =>
          have hcovered := hflag.mp rfl
          rw [holesFrom_true]
          by_cases hbefore : place < position
          · obtain ⟨hole, hmem, hinside⟩ := exists_mem_ended hlow hbefore
            exact ⟨hole, List.mem_append_left _ hmem, hinside⟩
          · have hne : place ≠ position := by
              rintro rfl
              exact hplace hcovered
            obtain ⟨hole, hmem, hinside⟩ := ih (Begun.next_covered hcovered) hrest hmore
              (by rw [Option.getD_none]; omega)
            exact ⟨hole, List.mem_append_right _ hmem, hinside⟩

/-- The holes read off the flags of all positions are exactly the gaps. -/
theorem areGaps_holesFrom (hflags : Tells covered 0 flags) (hsize : flags.length = text.size) :
    AreGaps text covered (holesFrom text none 0 flags) := by
  have hbegun : Begun covered 0 none := .inl rfl
  have hlength : 0 + flags.length = text.size := by rw [Nat.zero_add, hsize]
  have hascending := ascending_holesFrom hbegun hflags hlength
  refine ⟨?_, hascending, ?_⟩
  · intro hole
    rw [mem_holesFrom_iff hbegun hflags hlength]
    exact ⟨And.left, fun hgap => ⟨hgap, hgap.start_nonneg⟩⟩
  · intro position hnonneg hposition huncovered
    obtain ⟨place, rfl⟩ := Int.eq_ofNat_of_zero_le hnonneg
    obtain ⟨hole, hmem, hlow, hhigh⟩ := exists_mem_holesFrom hbegun hflags hlength
      (Nat.zero_le place) (Int.ofNat_lt.mp hposition) huncovered
    refine ⟨hole, ⟨hmem, hlow, hhigh⟩, ?_⟩
    rintro other ⟨hother, hbelow, habove⟩
    -- Different holes of the list do not touch, so the position cannot lie in both.
    by_contra hne
    have : Std.Symm fun first second : Hole =>
      first.stop < second.start ∨ second.stop < first.start := ⟨fun _ _ => Or.symm⟩
    have hapart : (holesFrom text none 0 flags).Pairwise fun first second =>
        first.stop < second.start ∨ second.stop < first.start :=
      hascending.imp Or.inl
    rcases hapart.forall hother hmem hne with hlt | hlt
    · omega
    · omega

end Runs

section Sweep

/-- A position of the text is covered by a token of the chart that counts. -/
def IsCovered (chart : Chart) (counts : Token → Bool) (position : Int) : Prop :=
  ∃ token ∈ chart.tokens, counts token ∧ token.start ≤ position ∧ position < token.stop

/-- A token that counts is open at a position, as far as the slots of the last positions before it
tell. -/
def IsOpen (chart : Chart) (counts : Token → Bool) (position : Int) (token : Token) : Prop :=
  token ∈ chart.tokens ∧ counts token ∧ token.start ≤ position ∧
    (chart.Closes token → position ≤ token.last)

theorem mem_foldl_insert {cells : List Cell} {set : Std.TreeSet Cell Cell.order} {cell : Cell} :
    cell ∈ cells.foldl (fun set cell => set.insert cell) set ↔ cell ∈ set ∨ cell ∈ cells := by
  induction cells generalizing set with
  | nil => simp
  | cons first rest ih =>
      rw [List.foldl_cons, ih, Std.TreeSet.mem_insert, Std.LawfulEqCmp.compare_eq_iff_eq,
        List.mem_cons, eq_comm (a := first)]
      tauto

theorem mem_foldl_erase {tokens : List Token} {set : Std.TreeSet Cell Cell.order} {cell : Cell} :
    cell ∈ tokens.foldl (fun set token => set.erase (cellOf token)) set ↔
      cell ∈ set ∧ ∀ token ∈ tokens, cellOf token ≠ cell := by
  induction tokens generalizing set with
  | nil => simp
  | cons first rest ih =>
      rw [List.foldl_cons, ih, Std.TreeSet.mem_erase, Ne, Std.LawfulEqCmp.compare_eq_iff_eq,
        List.forall_mem_cons]
      tauto

variable {text : Array Char} {active : List Cell} {chart : Chart} {counts : Token → Bool}

/-- The slots at the positions from one on. -/
def slotsFrom (chart : Chart) (position count : Nat) : List (List Token × List Token) :=
  (List.range' position count).map fun (place : Nat) =>
    (slotAt chart.heads place, slotAt chart.tails place)

theorem Indexed.slotsFrom_zero (hchart : Indexed text active chart) :
    chart.heads.toList.zip chart.tails.toList = slotsFrom chart 0 text.size := by
  apply List.ext_getElem
  · simp [slotsFrom, hchart.size_heads, hchart.size_tails]
  · intro place hzip hslots
    have hplace : place < text.size := by simpa [slotsFrom] using hslots
    have hhead : place < chart.heads.size := by rwa [hchart.size_heads]
    have htail : place < chart.tails.size := by rwa [hchart.size_tails]
    simp [slotsFrom, slotAt_eq_getElem hhead, slotAt_eq_getElem htail]

/-- A token that counts starts before a position and is still open, as far as the slots of the last
positions before it tell. -/
def IsPending (chart : Chart) (counts : Token → Bool) (position : Int) (token : Token) : Prop :=
  token ∈ chart.tokens ∧ counts token ∧ token.start < position ∧
    (chart.Closes token → position ≤ token.last)

variable {running : Std.TreeSet Cell Cell.order} {position : Int}

/-- The tokens that start at a position are opened there. -/
theorem Indexed.mem_opened_iff (hchart : Indexed text active chart)
    (hrunning : ∀ cell, cell ∈ running ↔
      ∃ token, chart.IsPending counts position token ∧ cellOf token = cell) {cell : Cell} :
    cell ∈ (((slotAt chart.heads position).filter counts).map cellOf).foldl
        (fun cells cell => cells.insert cell) running ↔
      ∃ token, chart.IsOpen counts position token ∧ cellOf token = cell := by
  rw [mem_foldl_insert, hrunning]
  simp only [List.mem_map, List.mem_filter, hchart.mem_heads_iff]
  constructor
  · rintro (⟨token, ⟨hmem, hcounts, hstart, hends⟩, rfl⟩ | ⟨token, ⟨⟨hmem, rfl⟩, hcounts⟩, rfl⟩)
    · exact ⟨token, ⟨hmem, hcounts, hstart.le, hends⟩, rfl⟩
    · have hlength := (hchart.head?_eq_some_iff.mp (hchart.mem_tokens_iff.mp hmem)).2
      refine ⟨token, ⟨hmem, hcounts, le_refl _, fun _ => ?_⟩, rfl⟩
      unfold Token.last
      omega
  · rintro ⟨token, ⟨hmem, hcounts, hstart, hends⟩, rfl⟩
    rcases lt_or_eq_of_le hstart with hlt | heq
    · exact .inl ⟨token, ⟨hmem, hcounts, hlt, hends⟩, rfl⟩
    · exact .inr ⟨token, ⟨⟨hmem, heq⟩, hcounts⟩, rfl⟩

/-- The tokens in the slot of a last position are closed there, and no others. -/
theorem Indexed.mem_closed_iff (hchart : Indexed text active chart)
    (hrunning : ∀ cell, cell ∈ running ↔
      ∃ token, chart.IsOpen counts position token ∧ cellOf token = cell) {cell : Cell} :
    cell ∈ (slotAt chart.tails position).foldl (fun cells token => cells.erase (cellOf token))
        running ↔
      ∃ token, chart.IsPending counts (position + 1) token ∧ cellOf token = cell := by
  rw [mem_foldl_erase, hrunning]
  constructor
  · rintro ⟨⟨token, ⟨hmem, hcounts, hstart, hends⟩, rfl⟩, hkept⟩
    refine ⟨token, ⟨hmem, hcounts, Int.lt_add_one_of_le hstart, fun hcloses => ?_⟩, rfl⟩
    have hne : token.last ≠ position := fun heq =>
      hkept token (hchart.mem_tails_iff.mpr ⟨hmem, heq, hcloses⟩) rfl
    have hle := hends hcloses
    omega
  · rintro ⟨token, ⟨hmem, hcounts, hstart, hends⟩, rfl⟩
    refine ⟨⟨token, ⟨hmem, hcounts, Int.le_of_lt_add_one hstart, fun hcloses => ?_⟩, rfl⟩, ?_⟩
    · have hle := hends hcloses
      omega
    · -- A token of the same cell that closes here would be this one, which stays open.
      intro other hother hcell
      obtain ⟨hmemOther, hlast, hcloses⟩ := hchart.mem_tails_iff.mp hother
      obtain ⟨hsame, hid⟩ := Prod.mk.inj hcell
      obtain rfl := hchart.eq_of_mem_tokens hmemOther hmem hsame hid
      have hle := hends hcloses
      omega

/-- If the sweep has kept the tokens that are open before a position, its flags tell from there on
where a token is open. -/
theorem Indexed.tells_sweep (hchart : Indexed text active chart) {position count : Nat}
    (hrunning : ∀ cell, cell ∈ running ↔
      ∃ token, chart.IsPending counts position token ∧ cellOf token = cell) :
    Tells (fun place => ∃ token, chart.IsOpen counts place token) position
      (sweep counts running (slotsFrom chart position count)) := by
  -- The invariant of the sweep: the running cells are those of the tokens that are pending.
  induction count generalizing position running with
  | zero => exact trivial
  | succ count ih =>
      have hslots : slotsFrom chart position (count + 1) =
          (slotAt chart.heads position, slotAt chart.tails position) ::
            slotsFrom chart (position + 1) count := rfl
      rw [hslots, sweep]
      refine ⟨?_, ih fun cell => ?_⟩
      · rw [Bool.not_eq_true', Std.TreeSet.isEmpty_eq_false_iff_exists_mem]
        constructor
        · rintro ⟨cell, hcell⟩
          obtain ⟨token, hopen, -⟩ := (hchart.mem_opened_iff hrunning).mp hcell
          exact ⟨token, hopen⟩
        · rintro ⟨token, hopen⟩
          exact ⟨cellOf token, (hchart.mem_opened_iff hrunning).mpr ⟨token, hopen, rfl⟩⟩
      · exact hchart.mem_closed_iff fun _ => hchart.mem_opened_iff hrunning

theorem length_sweep (slots : List (List Token × List Token)) :
    (sweep counts running slots).length = slots.length := by
  induction slots generalizing running with
  | nil => rfl
  | cons slot rest ih => rw [sweep, List.length_cons, List.length_cons, ih]

/-- The holes of a chart are exactly the gaps between the positions at which a token is open. -/
theorem Indexed.areGaps_findHoles (hchart : Indexed text active chart) (grammar : Grammar)
    (kind : Kind) :
    AreGaps text
      (fun place => ∃ token, chart.IsOpen (fun token => token.reaches grammar kind) place token)
      (chart.findHoles grammar kind) := by
  unfold findHoles
  rw [hchart.slotsFrom_zero, hchart.text_eq]
  apply areGaps_holesFrom
  · apply hchart.tells_sweep
    intro cell
    constructor
    · intro hcell
      exact absurd hcell Std.TreeSet.not_mem_emptyc
    · -- No token starts before the text.
      rintro ⟨token, ⟨hmem, -, hstart, -⟩, -⟩
      have houtcome := (hchart.head?_eq_some_iff.mp (hchart.mem_tokens_iff.mp hmem)).1
      have hnonneg := (hchart.fits houtcome).start_nonneg
      omega
  · rw [length_sweep, slotsFrom, List.length_map, List.length_range']

/-- A covered position is one at which a token is open; the converse may fail after a token that has
no place in the slot of its last position. -/
theorem Indexed.areGaps_iff (hchart : Indexed text active chart) (grammar : Grammar) (kind : Kind) :
    AreGaps text (chart.IsCovered fun token => token.reaches grammar kind)
        (chart.findHoles grammar kind) ↔
      ∀ token ∈ chart.tokens, token.reaches grammar kind → ¬ chart.Closes token →
        ∀ position : Int, token.stop ≤ position → position < text.size →
          chart.IsCovered (fun token => token.reaches grammar kind) position := by
  have hopen := hchart.areGaps_findHoles grammar kind
  have hcovered {position : Int}
      (hposition : chart.IsCovered (fun token => token.reaches grammar kind) position) :
      ∃ token, chart.IsOpen (fun token => token.reaches grammar kind) position token := by
    obtain ⟨token, hmem, hcounts, hstart, hstop⟩ := hposition
    refine ⟨token, hmem, hcounts, hstart, fun _ => ?_⟩
    unfold Token.stop at hstop
    unfold Token.last
    omega
  constructor
  · intro hgaps token hmem hcounts hlost position hstop hsize
    by_contra huncovered
    have houtcome := (hchart.head?_eq_some_iff.mp (hchart.mem_tokens_iff.mp hmem)).1
    have hnonneg := (hchart.fits houtcome).start_nonneg
    have hlength := (hchart.fits houtcome).length_nonneg
    unfold Token.stop at hstop
    obtain ⟨hole, ⟨hhole, hlow, hhigh⟩, -⟩ :=
      hgaps.existsUnique position (by omega) hsize huncovered
    refine ((hopen.mem_iff hole).mp hhole).uncovered position hlow hhigh ?_
    exact ⟨token, hmem, hcounts, by omega, fun hcloses => absurd hcloses hlost⟩
  · intro hlost
    have hsame : ∀ position : Int, position < text.size →
        ((∃ token, chart.IsOpen (fun token => token.reaches grammar kind) position token) ↔
          chart.IsCovered (fun token => token.reaches grammar kind) position) := by
      intro position hsize
      refine ⟨?_, hcovered⟩
      rintro ⟨token, hmem, hcounts, hstart, hends⟩
      by_cases hstop : position < token.stop
      · exact ⟨token, hmem, hcounts, hstart, hstop⟩
      · refine hlost token hmem hcounts (fun hcloses => ?_) position (by omega) hsize
        have hlast := hends hcloses
        unfold Token.last at hlast
        unfold Token.stop at hstop
        omega
    exact hopen.congr hsame

end Sweep

end Chart

namespace Registry

/-- Where all references lead to registered patterns, a parse ends with a chart whose holes are
exactly the longest stretches that no token of a pattern of at least a kind covers, if and only if
all positions after such a token are covered that has no place in the slot of its last position. -/
theorem holes_areGaps_iff {registry : Registry} (hclosed : registry.Closed) (text : String)
    (maxDepth : Int) (kind : Kind) :
    ∃ chart, registry.parse text maxDepth = .ok chart ∧
      (AreGaps text.toList.toArray
          (chart.IsCovered fun token => token.reaches registry.grammar kind)
          (chart.findHoles registry.grammar kind) ↔
        ∀ token ∈ chart.tokens, token.reaches registry.grammar kind → ¬ chart.Closes token →
          ∀ position : Int, token.stop ≤ position → position < text.toList.toArray.size →
            chart.IsCovered (fun token => token.reaches registry.grammar kind) position) := by
  obtain ⟨chart, hparse, hchart⟩ := hclosed.exists_parse text maxDepth
  exact ⟨chart, hparse, hchart.areGaps_iff registry.grammar kind⟩

/-- Two runs that end together at the end of the text do no harm. -/
theorem areGaps_runsOfA : runsOfA.Closed ∧ ∃ chart, runsOfA.parse "baa" 256 = .ok chart ∧
    AreGaps "baa".toList.toArray
      (chart.IsCovered fun token => token.reaches runsOfA.grammar .derived)
      (chart.findHoles runsOfA.grammar .derived) := by
  obtain ⟨chart, hparse, hgaps⟩ := holes_areGaps_iff runsOfA_closed "baa" 256 .derived
  have hrun : (match runsOfA.parse "baa" 256 with
      | .ok chart => decide (∀ token ∈ chart.tokens,
          token.reaches runsOfA.grammar .derived → 3 ≤ token.stop)
      | .error _ => false) = true := by
    decide +kernel
  rw [hparse] at hrun
  refine ⟨runsOfA_closed, chart, hparse, hgaps.mpr ?_⟩
  intro token hmem hcounts _ position hstop hsize
  have hend := of_decide_eq_true hrun token hmem hcounts
  have hthree : ("baa".toList.toArray.size : Int) = 3 := rfl
  omega

/-- Two runs that end together before the end of the text hide the hole after them. -/
theorem not_areGaps_runsOfA : ∃ chart, runsOfA.parse "aab" 256 = .ok chart ∧
    chart.findHoles runsOfA.grammar .derived = [] ∧
    ¬ AreGaps "aab".toList.toArray
      (chart.IsCovered fun token => token.reaches runsOfA.grammar .derived)
      (chart.findHoles runsOfA.grammar .derived) := by
  obtain ⟨chart, hparse, -⟩ := runsOfA_closed.exists_parse "aab" 256
  have hrun : (match runsOfA.parse "aab" 256 with
      | .ok chart => decide (chart.findHoles runsOfA.grammar .derived = [] ∧
          ∀ token ∈ chart.tokens, token.reaches runsOfA.grammar .derived → token.stop ≤ 2)
      | .error _ => false) = true := by
    decide +kernel
  rw [hparse] at hrun
  obtain ⟨hholes, hstops⟩ := of_decide_eq_true hrun
  refine ⟨chart, hparse, hholes, fun hgaps => ?_⟩
  have huncovered : ¬ chart.IsCovered (fun token => token.reaches runsOfA.grammar .derived) 2 := by
    rintro ⟨token, hmem, hcounts, -, hstop⟩
    have hend := hstops token hmem hcounts
    omega
  obtain ⟨hole, ⟨hmem, -⟩, -⟩ := hgaps.existsUnique 2 (by decide) (by decide) huncovered
  rw [hholes] at hmem
  cases hmem

end Registry

end Motif
