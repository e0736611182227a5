import Motif.Proofs.Lexeme.Ranges

/-!
# Blanks in ranges

A range may have blanks of any kind around its numbers, and digits without end. When it is read as a
quantity only some blanks are skipped, and a number may be too long: what is a range to the lexer is
a quantity exactly if all its blanks are skipped and its numbers are short.
-/

namespace Motif

open Text (isBlank isDigit isMargin mostDigits)

/-- A number in digits of any script, with blanks around it. -/
def Padded (cs : List Char) : Prop :=
  ∃ front digits back, cs = front ++ (digits ++ back) ∧ (∀ c ∈ front, isBlank c = true) ∧
    (∀ c ∈ digits, isDigit c = true) ∧ digits ≠ [] ∧ ∀ c ∈ back, isBlank c = true

/-- What may stand between the braces of a range: a number, a number and a plus, or two numbers with
a dash between them. -/
inductive RangeForm : List Char → Prop where
  | exact {number : List Char} (hnumber : Padded number) : RangeForm number
  | orMore {number blanks : List Char} (hnumber : Padded number)
      (hblanks : ∀ c ∈ blanks, isBlank c = true) : RangeForm (number ++ '+' :: blanks)
  | upTo {low high : List Char} (hlow : Padded low) (hhigh : Padded high) :
      RangeForm (low ++ '-' :: high)

/-- What stands between the braces of a range. -/
def rangeContent (range : String) : List Char :=
  (range.toList.drop 1).dropLast

/-- A text without its spaces and tabs. -/
def unspaced (cs : List Char) : List Char :=
  cs.filter fun c => c ≠ ' ' && c ≠ '\t'

theorem mem_unspaced {c : Char} {cs : List Char} :
    c ∈ unspaced cs ↔ c ∈ cs ∧ c ≠ ' ' ∧ c ≠ '\t' := by
  simp [unspaced]

theorem unspaced_append (first second : List Char) :
    unspaced (first ++ second) = unspaced first ++ unspaced second :=
  List.filter_append first second

theorem unspaced_cons {c : Char} (hspace : c ≠ ' ') (htab : c ≠ '\t') (cs : List Char) :
    unspaced (c :: cs) = c :: unspaced cs :=
  List.filter_cons_of_pos (by simp [hspace, htab])

/-- All the blanks between the braces are skipped when the range is read: they are no information
separators, and behind a plus there are only spaces and tabs. -/
def SkipsBlanks (content : List Char) : Prop :=
  (∀ c ∈ content, isBlank c = true → isMargin c = true) ∧
    ∀ c ∈ (content.dropWhile (· ≠ '+')).drop 1, c = ' ' ∨ c = '\t'

/-- Neither the number before the dash nor that behind it has more digits than may be read. -/
def HasShortNumbers (content : List Char) : Prop :=
  (content.takeWhile (· ≠ '-')).countP isDigit ≤ mostDigits ∧
    (content.dropWhile (· ≠ '-')).countP isDigit ≤ mostDigits

instance (content : List Char) : Decidable (SkipsBlanks content) :=
  inferInstanceAs (Decidable (_ ∧ _))

instance (content : List Char) : Decidable (HasShortNumbers content) :=
  inferInstanceAs (Decidable (_ ∧ _))

section Cutting

variable {mark : Char} {front : List Char}

theorem takeWhile_ne_of_not_mem (hmark : mark ∉ front) :
    front.takeWhile (fun c => decide (c ≠ mark)) = front := by
  rw [List.takeWhile_eq_self_iff]
  intro c hc
  simpa using ne_of_mem_of_not_mem hc hmark

theorem dropWhile_ne_of_not_mem (hmark : mark ∉ front) :
    front.dropWhile (fun c => decide (c ≠ mark)) = [] := by
  rw [List.dropWhile_eq_nil_iff]
  intro c hc
  simpa using ne_of_mem_of_not_mem hc hmark

theorem takeWhile_ne_append (hmark : mark ∉ front) (back : List Char) :
    (front ++ mark :: back).takeWhile (fun c => decide (c ≠ mark)) = front := by
  rw [List.takeWhile_append_of_pos fun c hc => by simpa using ne_of_mem_of_not_mem hc hmark]
  simp

theorem dropWhile_ne_append (hmark : mark ∉ front) (back : List Char) :
    (front ++ mark :: back).dropWhile (fun c => decide (c ≠ mark)) = mark :: back := by
  rw [List.dropWhile_append_of_pos fun c hc => by simpa using ne_of_mem_of_not_mem hc hmark]
  simp

end Cutting

namespace Padded

variable {cs : List Char}

theorem not_mem (hcs : Padded cs) (mark : Char) (hblank : isBlank mark = false)
    (hdigit : isDigit mark = false) : mark ∉ cs := by
  obtain ⟨front, digits, back, rfl, hfront, hdigits, -, hback⟩ := hcs
  have hcase : ∀ c, isBlank c = true ∨ isDigit c = true → mark ≠ c := by
    rintro c hc rfl
    simp [hblank, hdigit] at hc
  simp only [List.mem_append, not_or]
  exact ⟨fun hmem => hcase mark (.inl (hfront mark hmem)) rfl,
    fun hmem => hcase mark (.inr (hdigits mark hmem)) rfl,
    fun hmem => hcase mark (.inl (hback mark hmem)) rfl⟩

theorem exists_isDigit (hcs : Padded cs) : ∃ c ∈ cs, isDigit c = true := by
  obtain ⟨front, digits, back, rfl, -, hdigits, hne, -⟩ := hcs
  obtain ⟨c, hc⟩ := List.exists_mem_of_ne_nil digits hne
  exact ⟨c, by simp [hc], hdigits c hc⟩

/-- Spaces and tabs do not matter to a padded number. -/
theorem unspaced (hcs : Padded cs) : Padded (unspaced cs) := by
  obtain ⟨front, digits, back, rfl, hfront, hdigits, hne, hback⟩ := hcs
  have hkeep : Motif.unspaced digits = digits := by
    rw [Motif.unspaced, List.filter_eq_self]
    intro c hc
    have hdigit := hdigits c hc
    have hspace : c ≠ ' ' := by rintro rfl; cases hdigit
    have htab : c ≠ '\t' := by rintro rfl; cases hdigit
    simp [hspace, htab]
  refine ⟨Motif.unspaced front, digits, Motif.unspaced back, ?_, ?_, hdigits, hne, ?_⟩
  · rw [unspaced_append, unspaced_append, hkeep]
  · exact fun c hc => hfront c (mem_unspaced.mp hc).1
  · exact fun c hc => hback c (mem_unspaced.mp hc).1

theorem exists_readInt_iff (hcs : Padded cs) : (∃ value, Text.readInt cs = .ok value) ↔
    (∀ c ∈ cs, isBlank c = true → isMargin c = true) ∧ cs.countP isDigit ≤ mostDigits := by
  obtain ⟨front, digits, back, rfl, hfront, hdigits, hne, hback⟩ := hcs
  have hcount : (front ++ (digits ++ back)).countP isDigit = digits.length := by
    rw [List.countP_append, List.countP_append, Lexeme.countP_isDigit_eq_zero hfront,
      Lexeme.countP_isDigit_eq_zero hback, List.countP_eq_length.mpr hdigits]
    omega
  have hmargins : (∀ c ∈ front ++ (digits ++ back), isBlank c = true → isMargin c = true) ↔
      (∀ c ∈ front, isMargin c = true) ∧ ∀ c ∈ back, isMargin c = true := by
    simp only [List.mem_append]
    constructor
    · exact fun hall => ⟨fun c hc => hall c (.inl hc) (hfront c hc),
        fun c hc => hall c (.inr (.inr hc)) (hback c hc)⟩
    · rintro ⟨hfirst, hlast⟩ c (hc | hc | hc) hblank
      · exact hfirst c hc
      · rw [Text.isBlank_eq_false_of_digit (hdigits c hc)] at hblank
        cases hblank
      · exact hlast c hc
  rw [Text.exists_readInt_padded_iff hfront hdigits hne hback, hcount, hmargins]

end Padded

namespace Quantity

theorem exists_readBound_iff {cs : List Char} :
    (∃ value, readBound cs = .ok value) ↔ ∃ value, Text.readInt cs = .ok value := by
  unfold readBound
  split <;> simp_all

/-- What is left of a padded number without spaces and tabs is read exactly if its other blanks are
skipped and it is short. -/
theorem exists_readBound_unspaced_iff {cs : List Char} (hcs : Padded cs) :
    (∃ value, readBound (unspaced cs) = .ok value) ↔
      (∀ c ∈ cs, isBlank c = true → isMargin c = true) ∧ cs.countP isDigit ≤ mostDigits := by
  have hspaces : ∀ c, isMargin c = false → c ≠ ' ' ∧ c ≠ '\t' := by
    intro c hc
    constructor <;> rintro rfl <;> cases hc
  have hdigits : ∀ c, (isDigit c && (decide (c ≠ ' ') && decide (c ≠ '\t'))) = isDigit c := by
    intro c
    by_cases hspace : c = ' '
    · subst hspace; rfl
    · by_cases htab : c = '\t'
      · subst htab; rfl
      · simp [hspace, htab]
  rw [exists_readBound_iff, hcs.unspaced.exists_readInt_iff, unspaced, List.countP_filter]
  simp only [hdigits]
  refine and_congr_left' ⟨fun hall c hc hblank => ?_,
    fun hall c hc => hall c (List.mem_filter.mp hc).1⟩
  rw [← Bool.not_eq_false]
  intro hmargin
  have hkept := hspaces c hmargin
  rw [hall c (List.mem_filter.mpr ⟨hc, by simp [hkept]⟩) hblank] at hmargin
  cases hmargin

variable {range : String}

/-- A range without a dash is one number, and a plus behind it stands for no upper bound. -/
theorem ofRange_of_not_mem (hdash : '-' ∉ rangeContent range) :
    ofRange range =
      if (unspaced (rangeContent range)).getLast? = some '+' then do
        let least ← readBound (unspaced (rangeContent range)).dropLast
        return ⟨least, unlimited⟩
      else do
        let count ← readBound (unspaced (rangeContent range))
        return ⟨count, count⟩ := by
  have hsplit : splitAtDash? (unspaced (rangeContent range)) = none :=
    splitAtDash?_eq_none_iff.mpr fun hmem => hdash (mem_unspaced.mp hmem).1
  unfold unspaced rangeContent at hsplit ⊢
  unfold ofRange
  simp only [hsplit]

theorem exists_ofRange_exact_iff (hnumber : Padded (rangeContent range)) :
    (∃ quantity, ofRange range = .ok quantity) ↔
      SkipsBlanks (rangeContent range) ∧ HasShortNumbers (rangeContent range) := by
  have hdash : '-' ∉ rangeContent range := hnumber.not_mem '-' rfl rfl
  have hplus : '+' ∉ rangeContent range := hnumber.not_mem '+' rfl rfl
  have hlast : (unspaced (rangeContent range)).getLast? ≠ some '+' :=
    fun hlast => hplus (mem_unspaced.mp (List.mem_of_getLast? hlast)).1
  have hread : (∃ quantity, ofRange range = .ok quantity) ↔
      ∃ value, readBound (unspaced (rangeContent range)) = .ok value := by
    rw [ofRange_of_not_mem hdash, if_neg hlast]
    simp only [bind_eq_ok_iff]
    exact ⟨fun ⟨_, value, hvalue, _⟩ => ⟨value, hvalue⟩,
      fun ⟨value, hvalue⟩ => ⟨_, value, hvalue, rfl⟩⟩
  rw [hread, exists_readBound_unspaced_iff hnumber, SkipsBlanks, HasShortNumbers,
    dropWhile_ne_of_not_mem hplus, takeWhile_ne_of_not_mem hdash, dropWhile_ne_of_not_mem hdash]
  simp

theorem exists_ofRange_upTo_iff {low high : List Char}
    (hcontent : rangeContent range = low ++ '-' :: high) (hlow : Padded low) (hhigh : Padded high) :
    (∃ quantity, ofRange range = .ok quantity) ↔
      SkipsBlanks (rangeContent range) ∧ HasShortNumbers (rangeContent range) := by
  have hdash : '-' ∉ low := hlow.not_mem '-' rfl rfl
  have hplus : '+' ∉ low ++ '-' :: high := by
    simp [hlow.not_mem '+' rfl rfl, hhigh.not_mem '+' rfl rfl]
  have hsplit : splitAtDash? (unspaced (rangeContent range)) =
      some (unspaced low, unspaced high) := by
    have hkept : '-' ∉ unspaced low := fun hmem => hdash (mem_unspaced.mp hmem).1
    have hcut : unspaced (rangeContent range) = unspaced low ++ '-' :: unspaced high := by
      rw [hcontent, unspaced_append, unspaced_cons (by decide) (by decide)]
    rw [hcut, splitAtDash?, takeWhile_ne_append hkept, dropWhile_ne_append hkept]
    simp
  have hread : (∃ quantity, ofRange range = .ok quantity) ↔
      (∃ least, readBound (unspaced low) = .ok least) ∧
        ∃ most, readBound (unspaced high) = .ok most := by
    unfold unspaced rangeContent at hsplit
    unfold ofRange
    simp only [hsplit, bind_eq_ok_iff]
    constructor
    · rintro ⟨_, least, hleast, most, hmost, -⟩
      exact ⟨⟨least, hleast⟩, most, hmost⟩
    · rintro ⟨⟨least, hleast⟩, most, hmost⟩
      exact ⟨_, least, hleast, most, hmost, rfl⟩
  have hnodigit : isDigit '-' = false := rfl
  have hnoblank : isBlank '-' = false := rfl
  rw [hread, exists_readBound_unspaced_iff hlow, exists_readBound_unspaced_iff hhigh, hcontent,
    SkipsBlanks, HasShortNumbers, dropWhile_ne_of_not_mem hplus, takeWhile_ne_append hdash,
    dropWhile_ne_append hdash, List.countP_cons_of_neg (by simp [hnodigit])]
  simp [or_imp, forall_and, hnoblank, and_and_and_comm]

/-- Behind a plus nothing may be left but what is skipped, or the plus would have to be a sign. -/
theorem exists_ofRange_plus_iff {number blanks : List Char}
    (hcontent : rangeContent range = number ++ '+' :: blanks) (hnumber : Padded number)
    (hblanks : ∀ c ∈ blanks, isBlank c = true) :
    (∃ quantity, ofRange range = .ok quantity) ↔
      (∃ least, readBound (unspaced number) = .ok least) ∧ unspaced blanks = [] := by
  have hdash : '-' ∉ rangeContent range := by
    have hnone : '-' ∉ blanks := fun hmem => by cases hblanks _ hmem
    simp [hcontent, hnumber.not_mem '-' rfl rfl, hnone]
  have hcut : unspaced (rangeContent range) = unspaced number ++ '+' :: unspaced blanks := by
    rw [hcontent, unspaced_append, unspaced_cons (by decide) (by decide)]
  rw [ofRange_of_not_mem hdash, hcut]
  by_cases hempty : unspaced blanks = []
  · rw [hempty, List.getLast?_concat, if_pos rfl, List.dropLast_concat]
    simp only [bind_eq_ok_iff, and_true]
    exact ⟨fun ⟨_, least, hleast, _⟩ => ⟨least, hleast⟩,
      fun ⟨least, hleast⟩ => ⟨_, least, hleast, rfl⟩⟩
  · obtain ⟨last, hlast⟩ :=
      Option.ne_none_iff_exists'.mp (List.getLast?_eq_none_iff.not.mpr hempty)
    have hne : last ≠ '+' := by
      rintro rfl
      cases hblanks _ (mem_unspaced.mp (List.mem_of_getLast? hlast)).1
    rw [if_neg (by simp [List.getLast?_append, List.getLast?_cons, hlast, hne])]
    simp only [bind_eq_ok_iff, hempty, and_false, iff_false]
    rintro ⟨_, count, hcount, -⟩
    obtain ⟨value, hvalue⟩ := exists_readBound_iff.mp ⟨count, hcount⟩
    obtain ⟨c, hc, hdigit⟩ := hnumber.unspaced.exists_isDigit
    have hmargin := Text.isMargin_of_readInt_plus hvalue c hc
    simp [isMargin, Text.isBlank_eq_false_of_digit hdigit] at hmargin

theorem exists_ofRange_orMore_iff {number blanks : List Char}
    (hcontent : rangeContent range = number ++ '+' :: blanks) (hnumber : Padded number)
    (hblanks : ∀ c ∈ blanks, isBlank c = true) :
    (∃ quantity, ofRange range = .ok quantity) ↔
      SkipsBlanks (rangeContent range) ∧ HasShortNumbers (rangeContent range) := by
  have hplus : '+' ∉ number := hnumber.not_mem '+' rfl rfl
  have hdash : '-' ∉ number ++ '+' :: blanks := by
    have hnone : '-' ∉ blanks := fun hmem => by cases hblanks _ hmem
    simp [hnumber.not_mem '-' rfl rfl, hnone]
  have hempty : unspaced blanks = [] ↔ ∀ c ∈ blanks, c = ' ' ∨ c = '\t' := by
    simp only [unspaced, List.filter_eq_nil_iff, Bool.and_eq_true, decide_eq_true_eq, not_and_or,
      not_not]
  have hspaces : (∀ c ∈ number ++ '+' :: blanks, isBlank c = true → isMargin c = true) ∧
      (∀ c ∈ blanks, c = ' ' ∨ c = '\t') ↔
      (∀ c ∈ number, isBlank c = true → isMargin c = true) ∧ ∀ c ∈ blanks, c = ' ' ∨ c = '\t' := by
    have hnoblank : isBlank '+' = false := rfl
    have hmargin : ∀ c, c = ' ' ∨ c = '\t' → isMargin c = true := by
      rintro c (rfl | rfl) <;> rfl
    simp only [List.mem_append, List.mem_cons, or_imp, forall_and, forall_eq, hnoblank]
    grind
  rw [exists_ofRange_plus_iff hcontent hnumber hblanks, exists_readBound_unspaced_iff hnumber,
    hempty, hcontent, SkipsBlanks, HasShortNumbers, dropWhile_ne_append hplus,
    takeWhile_ne_of_not_mem hdash, dropWhile_ne_of_not_mem hdash, List.countP_append,
    List.countP_cons_of_neg (by decide),
    Lexeme.countP_isDigit_eq_zero hblanks, List.drop_succ_cons, List.drop_zero, hspaces]
  simp [and_right_comm]

/-- A range is a quantity exactly if all its blanks are skipped and its numbers are short. -/
theorem exists_ofRange_iff (hform : RangeForm (rangeContent range)) :
    (∃ quantity, ofRange range = .ok quantity) ↔
      SkipsBlanks (rangeContent range) ∧ HasShortNumbers (rangeContent range) := by
  generalize hcontent : rangeContent range = content at hform
  cases hform with
  | exact hnumber => exact hcontent ▸ exists_ofRange_exact_iff (hcontent ▸ hnumber)
  | orMore hnumber hblanks => exact hcontent ▸ exists_ofRange_orMore_iff hcontent hnumber hblanks
  | upTo hlow hhigh => exact hcontent ▸ exists_ofRange_upTo_iff hcontent hlow hhigh

end Quantity

namespace Lexeme

theorem exists_padded_of_numberLength? {cs : List Char} {length : Nat}
    (hlength : numberLength? cs = some length) :
    ∃ number rest, cs = number ++ rest ∧ number.length = length ∧
      ∀ back, (∀ c ∈ back, isBlank c = true) → Padded (number ++ back) := by
  obtain ⟨blanks, digits, rest, rfl, hblanks, hdigits, hne, -, rfl⟩ := exists_numberLength? hlength
  refine ⟨blanks ++ digits, rest, by simp, by simp, fun back hback => ?_⟩
  exact ⟨blanks, digits, back, by simp, hblanks, hdigits, hne, hback⟩

theorem dropLast_take_append {front tail : List Char} {close : Char} {length : Nat}
    (hlength : length = front.length + 1) :
    ((front ++ close :: tail).take length).dropLast = front := by
  rw [hlength, List.take_length_add_append, List.take_succ_cons, List.take_zero,
    List.dropLast_concat]

/-- How far a range reaches after its opening brace decides its form. -/
theorem rangeForm_of_rangeLength? {cs : List Char} {length : Nat}
    (hlength : rangeLength? cs = some length) : RangeForm (cs.take length).dropLast := by
  simp only [rangeLength?, Option.bind_eq_bind, Option.bind_eq_some_iff] at hlength
  obtain ⟨low, hlow, high, hhigh, close, hclose, htotal⟩ := hlength
  cases htotal
  obtain ⟨number, others, rfl, rfl, hnumber⟩ := exists_padded_of_numberLength? hlow
  rw [List.drop_left] at hhigh
  obtain ⟨blanks, rest, rfl, hblanks, hfront⟩ := exists_spanLength isBlank others
  rw [← List.drop_drop, List.drop_left] at hclose
  unfold boundLength? at hhigh
  dsimp only at hhigh
  rw [← hfront, List.drop_left] at hhigh
  split at hhigh
  next tail =>
    obtain ⟨second, hsecond, rfl⟩ := Option.map_eq_some_iff.mp hhigh
    obtain ⟨upper, more, rfl, rfl, hupper⟩ := exists_padded_of_numberLength? hsecond
    have hcut : blanks ++ '-' :: (upper ++ more) = (blanks ++ '-' :: upper) ++ more := by simp
    rw [hcut, List.drop_left' (by simp; omega)] at hclose
    obtain ⟨last, tail, rfl, hlast, rfl⟩ := exists_closedLength? hclose
    have hwhole : number ++ (blanks ++ '-' :: (upper ++ (last ++ '}' :: tail))) =
        ((number ++ blanks) ++ '-' :: (upper ++ last)) ++ '}' :: tail := by simp
    rw [hwhole, dropLast_take_append (by simp; omega)]
    exact .upTo (hnumber blanks hblanks) (hupper last hlast)
  next tail =>
    cases hhigh
    have hcut : blanks ++ '+' :: tail = (blanks ++ ['+']) ++ tail := by simp
    rw [hcut, List.drop_left' (by simp)] at hclose
    obtain ⟨last, tail, rfl, hlast, rfl⟩ := exists_closedLength? hclose
    have hwhole : number ++ (blanks ++ '+' :: (last ++ '}' :: tail)) =
        ((number ++ blanks) ++ '+' :: last) ++ '}' :: tail := by simp
    rw [hwhole, dropLast_take_append (by simp; omega)]
    exact .orMore (hnumber blanks hblanks) hlast
  next =>
    cases hhigh
    rw [List.drop_zero] at hclose
    obtain ⟨last, tail, htail, hlast, rfl⟩ := exists_closedLength? hclose
    have hwhole : number ++ (last ++ '}' :: tail) = (number ++ last) ++ '}' :: tail := by simp
    rw [htail, hwhole, dropLast_take_append (by simp; omega)]
    exact .exact (hnumber last hlast)

/-- The range of a lexeme is a quantity exactly if all its blanks are skipped and its numbers are
short. -/
theorem IsWritten.exists_ofRange_iff {range : String} (hwritten : IsWritten (.range range)) :
    (∃ quantity, Quantity.ofRange range = .ok quantity) ↔
      SkipsBlanks (rangeContent range) ∧ HasShortNumbers (rangeContent range) := by
  obtain ⟨c, rest, length, hlexes⟩ := hwritten.exists_lexes
  apply Quantity.exists_ofRange_iff
  cases hlexes with
  | range _ hlength =>
      rw [rangeContent, String.toList_ofList, List.drop_succ_cons, List.drop_zero]
      exact rangeForm_of_rangeLength? hlength
  | mark hmark => exact absurd rfl (ne_of_mark? hmark range).1

end Lexeme

end Motif
