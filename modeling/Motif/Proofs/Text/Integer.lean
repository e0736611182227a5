import Mathlib.Algebra.Group.Int.Defs
import Mathlib.Algebra.Group.Nat.Defs
import Mathlib.Data.List.Induction
import Mathlib.Data.List.TakeWhile
import Motif.Lexeme.Range
import Motif.Proofs.Action

/-!
# Written and read integers

A number that is written with no more digits than may be read is read back as it is, and every
number that has been read can be written.
-/

namespace Motif.Text

theorem toNat_bounds_of_isDigit {c : Char} (hc : c.isDigit = true) :
    48 ≤ c.toNat ∧ c.toNat < 58 := by
  simp only [Char.isDigit, Bool.and_eq_true, decide_eq_true_eq] at hc
  have hlow : (48 : UInt32).toNat ≤ c.val.toNat := hc.1
  have hhigh : c.val.toNat ≤ (57 : UInt32).toNat := hc.2
  exact ⟨hlow, Nat.lt_succ_of_le hhigh⟩

theorem digitValue?_of_isDigit {c : Char} (hc : c.isDigit = true) :
    digitValue? c = some (c.toNat - 48) := by
  have hrange := toNat_bounds_of_isDigit hc
  simp [digitValue?, zeros, List.find?_cons_of_pos, hrange.1, hrange.2]

theorem spanDigitValues_of_isDigit {cs : List Char} (hcs : ∀ c ∈ cs, c.isDigit = true) :
    spanDigitValues cs = some (cs.map fun c => c.toNat - 48, []) := by
  induction cs with
  | nil => rfl
  | cons c rest ih =>
      have hvalue := digitValue?_of_isDigit (hcs c List.mem_cons_self)
      have hne : c ≠ '_' := by
        rintro rfl
        have hdigit := hcs '_' List.mem_cons_self
        revert hdigit
        decide
      rw [spanDigitValues, hvalue]
      · simp [ih fun c hc => hcs c (List.mem_cons_of_mem _ hc)]
      · intro other tail hother
        exact absurd hother hne

theorem ofDigitValues_toDigits (n : Nat) :
    ofDigitValues ((Nat.toDigits 10 n).map fun c => c.toNat - 48) = n := by
  have hfold : ofDigitValues ((Nat.toDigits 10 n).map fun c => c.toNat - 48) =
      Nat.ofDigitChars 10 (Nat.toDigits 10 n) 0 := by
    rw [ofDigitValues, List.foldl_map, Nat.ofDigitChars_eq_foldl]
    congr 1
    funext number c
    rw [Nat.mul_comm]
    rfl
  rw [hfold, Nat.ofDigitChars_ten_toDigits]

theorem isDigit_of_mem_toDigits {n : Nat} {c : Char} (hc : c ∈ Nat.toDigits 10 n) :
    c.isDigit = true :=
  Nat.isDigit_of_mem_toDigits (by decide) (by decide) hc

theorem readNat_toDigits {n : Nat} (hdigits : (Nat.toDigits 10 n).length ≤ mostDigits) :
    readNat (Nat.toDigits 10 n) = .ok n := by
  have hhead : (Nat.toDigits 10 n).head? ≠ some '_' := by
    intro hhead
    exact Nat.underscore_not_in_toDigits (List.mem_of_head? hhead)
  have hne : ((Nat.toDigits 10 n).map fun c => c.toNat - 48).isEmpty = false := by
    simp [Nat.toDigits_ne_nil]
  unfold readNat
  rw [if_neg hhead, spanDigitValues_of_isDigit fun c hc => isDigit_of_mem_toDigits hc]
  dsimp only
  rw [List.length_map, if_neg (by omega), hne, ofDigitValues_toDigits]
  rfl

theorem isBlank_eq_false_of_ascii {c : Char} (hlow : 32 < c.toNat) (hhigh : c.toNat < 128) :
    isBlank c = false := by
  simp only [isBlank, Bool.or_eq_false_iff, Bool.and_eq_false_iff, decide_eq_false_iff_not]
  omega

theorem isBlank_eq_false_of_isDigit {c : Char} (hc : c.isDigit = true) : isBlank c = false := by
  obtain ⟨hlow, hhigh⟩ := toNat_bounds_of_isDigit hc
  exact isBlank_eq_false_of_ascii (by omega) (by omega)

/-- Nothing is trimmed off a text whose two ends are not to be dropped. -/
theorem trimWhere_eq_self {drop : Char → Bool} {cs : List Char}
    (hfirst : ∀ c, cs.head? = some c → drop c = false)
    (hlast : ∀ c, cs.getLast? = some c → drop c = false) : trimWhere drop cs = cs := by
  have hkeep : ∀ text : List Char, (∀ c, text.head? = some c → drop c = false) →
      text.dropWhile drop = text := by
    intro text hhead
    cases text with
    | nil => rfl
    | cons c rest => exact List.dropWhile_cons_of_neg (by simp [hhead c rfl])
  unfold trimWhere
  rw [hkeep cs hfirst, hkeep cs.reverse, List.reverse_reverse]
  intro c hc
  exact hlast c (by rwa [List.head?_reverse] at hc)

theorem readInt_toDigits {n : Nat} (hdigits : (Nat.toDigits 10 n).length ≤ mostDigits) :
    readInt (Nat.toDigits 10 n) = .ok (n : Int) := by
  have hmargin : ∀ c ∈ Nat.toDigits 10 n, isMargin c = false := by
    intro c hc
    simp [isMargin, isBlank_eq_false_of_isDigit (isDigit_of_mem_toDigits hc)]
  have htrim : trimWhere isMargin (Nat.toDigits 10 n) = Nat.toDigits 10 n :=
    trimWhere_eq_self (fun c hc => hmargin c (List.mem_of_head? hc))
      fun c hc => hmargin c (List.mem_of_getLast? hc)
  have hsign : ∀ c, ¬ c.isDigit = true → ∀ rest, Nat.toDigits 10 n ≠ c :: rest := by
    intro c hc rest heq
    exact hc (isDigit_of_mem_toDigits (n := n) (by simp [heq]))
  unfold readInt
  rw [htrim]
  split
  next rest heq => exact absurd heq (hsign '-' (by decide) rest)
  next rest heq => exact absurd heq (hsign '+' (by decide) rest)
  next =>
    rw [readNat_toDigits hdigits]
    rfl

/-! ## What has been read -/

theorem lt_of_digitValue? {c : Char} {value : Nat} (hvalue : digitValue? c = some value) :
    value < 10 := by
  rw [digitValue?, Option.map_eq_some_iff] at hvalue
  obtain ⟨start, hstart, rfl⟩ := hvalue
  have hrange := List.find?_some hstart
  simp only [Bool.and_eq_true, decide_eq_true_eq] at hrange
  omega

/-- What is read are values of digits of the text, in their order. -/
theorem sublist_of_spanDigitValues {cs : List Char} {values : List Nat} {rest : List Char}
    (hspan : spanDigitValues cs = some (values, rest)) :
    values.Sublist (cs.filterMap digitValue?) := by
  induction cs using spanDigitValues.induct generalizing values with
  | case1 =>
      cases hspan
      exact List.Sublist.refl _
  | case2 c tail ih =>
      simp only [spanDigitValues, Option.bind_eq_bind, Option.bind_eq_some_iff] at hspan
      obtain ⟨value, hvalue, ⟨others, rest⟩, hothers, hpure⟩ := hspan
      cases hpure
      refine List.Sublist.trans ?_ ((List.sublist_cons_self _ _).filterMap digitValue?)
      rw [List.filterMap_cons_some hvalue]
      exact (ih hothers).cons_cons value
  | case3 c tail hfirst value hvalue ih =>
      rw [spanDigitValues.eq_3 _ _ hfirst, hvalue] at hspan
      simp only [Option.bind_eq_bind, Option.bind_eq_some_iff] at hspan
      obtain ⟨⟨others, rest⟩, hothers, hpure⟩ := hspan
      cases hpure
      rw [List.filterMap_cons_some hvalue]
      exact (ih hothers).cons_cons value
  | case4 tail hfirst hnone =>
      rw [spanDigitValues.eq_3 _ _ hfirst, hnone] at hspan
      cases hspan
  | case5 c tail hfirst hnone hother =>
      rw [spanDigitValues.eq_3 _ _ hfirst, hnone] at hspan
      dsimp only at hspan
      rw [if_neg hother] at hspan
      cases hspan
      exact List.nil_sublist _

theorem lt_of_mem_spanDigitValues {cs : List Char} {values : List Nat} {rest : List Char}
    (hspan : spanDigitValues cs = some (values, rest)) : ∀ value ∈ values, value < 10 := by
  intro value hvalue
  obtain ⟨c, -, hdigit⟩ :=
    List.mem_filterMap.mp ((sublist_of_spanDigitValues hspan).subset hvalue)
  exact lt_of_digitValue? hdigit

theorem length_le_of_spanDigitValues {cs : List Char} {values : List Nat} {rest : List Char}
    (hspan : spanDigitValues cs = some (values, rest)) : values.length ≤ cs.countP isDigit := by
  have hlength := (sublist_of_spanDigitValues hspan).length_le
  rwa [List.length_filterMap_eq_countP] at hlength

theorem ofDigitValues_lt {values : List Nat} (hvalues : ∀ value ∈ values, value < 10) :
    ofDigitValues values < 10 ^ values.length := by
  induction values using List.reverseRecOn with
  | nil => decide
  | append_singleton front last ih =>
      have hfront := ih fun value hvalue => hvalues value (List.mem_append_left _ hvalue)
      have hlast := hvalues last (by simp)
      rw [ofDigitValues, List.foldl_append, List.length_append, List.length_singleton, Nat.pow_succ]
      change ofDigitValues front * 10 + last < _
      omega

/-- A number that has been read has no more digits than may be written, and not more than its
text. -/
theorem lt_of_readNat {cs : List Char} {n : Nat} (hread : readNat cs = .ok n) :
    n < 10 ^ mostDigits ∧ n < 10 ^ cs.countP isDigit := by
  unfold readNat at hread
  split at hread
  next => cases hread
  next =>
    split at hread
    next => cases hread
    next values rest hspan =>
      split at hread
      next => cases hread
      next hshort =>
        split at hread
        next => cases hread
        next =>
          cases hread
          have hbound := ofDigitValues_lt (lt_of_mem_spanDigitValues hspan)
          exact ⟨Nat.lt_of_lt_of_le hbound (Nat.pow_le_pow_right (by decide) (by omega)),
            Nat.lt_of_lt_of_le hbound (Nat.pow_le_pow_right (by decide)
              (length_le_of_spanDigitValues hspan))⟩

theorem infix_trimWhere (drop : Char → Bool) (cs : List Char) : trimWhere drop cs <:+: cs := by
  have hinner := List.reverse_prefix.mpr
    (List.dropWhile_suffix (l := (cs.dropWhile drop).reverse) drop)
  rw [List.reverse_reverse] at hinner
  exact hinner.isInfix.trans (List.dropWhile_suffix drop).isInfix

/-- An integer that has been read without a sign is not negative, and small enough to be written. -/
theorem readInt_of_not_mem {cs : List Char} {value : Int} (hread : readInt cs = .ok value)
    (hsign : '-' ∉ cs) :
    ∃ n : Nat, value = n ∧ n < 10 ^ mostDigits ∧ n < 10 ^ cs.countP isDigit := by
  have hcount : ∀ {digits : List Char}, digits.Sublist (trimWhere isMargin cs) →
      ∀ {n : Nat}, readNat digits = .ok n → n < 10 ^ mostDigits ∧ n < 10 ^ cs.countP isDigit := by
    intro digits hdigits n hn
    obtain ⟨hmost, hlt⟩ := lt_of_readNat hn
    refine ⟨hmost, Nat.lt_of_lt_of_le hlt (Nat.pow_le_pow_right (by decide) ?_)⟩
    exact (hdigits.trans (infix_trimWhere isMargin cs).sublist).countP_le
  unfold readInt at hread
  split at hread
  next digits htrim =>
    have hmem : '-' ∈ trimWhere isMargin cs := by
      rw [htrim]
      exact List.mem_cons_self
    exact absurd ((infix_trimWhere isMargin cs).sublist.mem hmem) hsign
  next digits htrim =>
    obtain ⟨n, hn, hvalue⟩ := bind_eq_ok_iff.mp hread
    cases hvalue
    exact ⟨n, rfl, hcount (by rw [htrim]; exact List.sublist_cons_self _ _) hn⟩
  next =>
    obtain ⟨n, hn, hvalue⟩ := bind_eq_ok_iff.mp hread
    cases hvalue
    exact ⟨n, rfl, hcount (List.Sublist.refl _) hn⟩

/-! ## Blanks and digits -/

theorem exists_zero_of_isDigit {c : Char} (hc : isDigit c = true) :
    ∃ start ∈ zeros, start ≤ c.toNat ∧ c.toNat < start + 10 := by
  rw [isDigit, digitValue?, Option.isSome_map, Option.isSome_iff_exists] at hc
  obtain ⟨start, hstart⟩ := hc
  have hrange := List.find?_some hstart
  simp only [Bool.and_eq_true, decide_eq_true_eq] at hrange
  exact ⟨start, List.mem_of_find?_eq_some hstart, hrange⟩

/-- No blank is a digit of any script. -/
theorem isDigit_eq_false_of_isBlank {c : Char} (hc : isBlank c = true) : isDigit c = false := by
  rw [Bool.eq_false_iff]
  intro hdigit
  obtain ⟨start, hstart, hlow, hhigh⟩ := exists_zero_of_isDigit hdigit
  simp only [isBlank, Bool.or_eq_true, Bool.and_eq_true, decide_eq_true_eq] at hc
  simp only [zeros, List.mem_cons, List.not_mem_nil, or_false] at hstart
  omega

theorem isBlank_eq_false_of_digit {c : Char} (hc : isDigit c = true) : isBlank c = false := by
  rw [Bool.eq_false_iff]
  intro hblank
  rw [isDigit_eq_false_of_isBlank hblank] at hc
  cases hc

theorem exists_spanDigitValues {cs : List Char} (hcs : ∀ c ∈ cs, isDigit c = true) :
    ∃ values, spanDigitValues cs = some (values, []) ∧ values.length = cs.length := by
  induction cs with
  | nil => exact ⟨[], rfl, rfl⟩
  | cons c rest ih =>
      have hdigit := hcs c List.mem_cons_self
      have hne : c ≠ '_' := by
        rintro rfl
        cases hdigit
      obtain ⟨value, hvalue⟩ := Option.isSome_iff_exists.mp hdigit
      obtain ⟨values, hvalues, hlength⟩ := ih fun c hc => hcs c (List.mem_cons_of_mem _ hc)
      refine ⟨value :: values, ?_, by simp [hlength]⟩
      rw [spanDigitValues, hvalue]
      · simp [hvalues]
      · intro other tail hother
        exact absurd hother hne

/-- Digits are read as they are: there is nothing to trim off, and no sign. -/
theorem readInt_of_isDigit {cs : List Char} (hcs : ∀ c ∈ cs, isDigit c = true) :
    readInt cs = (do return (← readNat cs)) := by
  have hmargin : ∀ c ∈ cs, isMargin c = false := fun c hc => by
    simp [isMargin, isBlank_eq_false_of_digit (hcs c hc)]
  have htrim : trimWhere isMargin cs = cs :=
    trimWhere_eq_self (fun c hc => hmargin c (List.mem_of_head? hc))
      fun c hc => hmargin c (List.mem_of_getLast? hc)
  have hsign : ∀ c, isDigit c = false → ∀ rest, cs ≠ c :: rest := by
    rintro c hc rest rfl
    rw [hcs c List.mem_cons_self] at hc
    cases hc
  unfold readInt
  rw [htrim]
  split
  next rest => exact absurd rfl (hsign '-' rfl rest)
  next rest => exact absurd rfl (hsign '+' rfl rest)
  next => rfl

/-- A run of digits of any script is an integer exactly if it is not too long. -/
theorem exists_readInt_iff {cs : List Char} (hcs : ∀ c ∈ cs, isDigit c = true) (hne : cs ≠ []) :
    (∃ value, readInt cs = .ok value) ↔ cs.length ≤ mostDigits := by
  obtain ⟨values, hvalues, hsame⟩ := exists_spanDigitValues hcs
  have hhead : cs.head? ≠ some '_' := by
    intro hhead
    cases hcs '_' (List.mem_of_head? hhead)
  have hvalue : values.isEmpty = false := by
    rw [List.isEmpty_eq_false_iff, ← List.length_pos_iff, hsame]
    exact List.length_pos_iff.mpr hne
  have hread : readNat cs =
      if mostDigits < cs.length then .error (.tooLong cs.length)
      else .ok (ofDigitValues values) := by
    unfold readNat
    simp [if_neg hhead, hvalues, hsame, hvalue]
  rw [readInt_of_isDigit hcs, hread]
  split
  next hlong =>
    constructor
    · rintro ⟨_, ⟨⟩⟩
    · exact fun hshort => absurd hlong (by omega)
  next hshort => exact ⟨fun _ => by omega, fun _ => ⟨_, rfl⟩⟩

/-- What may be dropped around a text that keeps all its characters is trimmed off. -/
theorem trimWhere_append {drop : Char → Bool} {front middle back : List Char}
    (hfront : ∀ c ∈ front, drop c = true) (hmiddle : ∀ c ∈ middle, drop c = false)
    (hne : middle ≠ []) (hback : ∀ c ∈ back, drop c = true) :
    trimWhere drop (front ++ (middle ++ back)) = middle := by
  have hkeep : ∀ text other : List Char, text ≠ [] → (∀ c ∈ text, drop c = false) →
      (text ++ other).dropWhile drop = text ++ other := by
    intro text other hne htext
    obtain ⟨c, rest, rfl⟩ := List.exists_cons_of_ne_nil hne
    exact List.dropWhile_cons_of_neg (by simp [htext c List.mem_cons_self])
  have hreverse : (middle ++ back).reverse = back.reverse ++ (middle.reverse ++ []) := by simp
  unfold trimWhere
  rw [List.dropWhile_append_of_pos hfront, hkeep middle back hne hmiddle, hreverse,
    List.dropWhile_append_of_pos fun c hc => hback c (List.mem_reverse.mp hc),
    hkeep middle.reverse [] (by simpa using hne) fun c hc => hmiddle c (List.mem_reverse.mp hc)]
  simp

/-- Blanks around a text without blanks are trimmed off. -/
theorem trim_append {front middle back : List Char} (hfront : ∀ c ∈ front, isBlank c = true)
    (hmiddle : ∀ c ∈ middle, isBlank c = false) (hne : middle ≠ [])
    (hback : ∀ c ∈ back, isBlank c = true) : trim (front ++ (middle ++ back)) = middle :=
  trimWhere_append hfront hmiddle hne hback

/-! ## What is no integer -/

/-- A character that is not to be dropped stays, wherever it stands. -/
theorem mem_trimWhere {drop : Char → Bool} {cs : List Char} {c : Char} (hc : c ∈ cs)
    (hkeep : drop c = false) : c ∈ trimWhere drop cs := by
  have hstays : ∀ {text : List Char}, c ∈ text → c ∈ text.dropWhile drop := by
    intro text hmem
    rw [← List.takeWhile_append_dropWhile (p := drop) (l := text), List.mem_append] at hmem
    rcases hmem with hfront | hback
    · rw [List.mem_takeWhile_imp hfront] at hkeep
      cases hkeep
    · exact hback
  simp only [trimWhere, List.mem_reverse]
  exact hstays (List.mem_reverse.mpr (hstays hc))

/-- Only digits and underscores are read as digits. -/
theorem mem_of_spanDigitValues {cs : List Char} {values : List Nat} {rest : List Char}
    (hspan : spanDigitValues cs = some (values, rest)) :
    ∀ c ∈ cs, isDigit c = false → c ≠ '_' → c ∈ rest := by
  have hdigit : ∀ {c : Char} {value : Nat}, digitValue? c = some value → isDigit c = true := by
    intro c value hvalue
    simp [isDigit, hvalue]
  induction cs using spanDigitValues.induct generalizing values with
  | case1 => simp
  | case2 first tail ih =>
      simp only [spanDigitValues, Option.bind_eq_bind, Option.bind_eq_some_iff] at hspan
      obtain ⟨value, hvalue, ⟨others, rest⟩, hothers, hpure⟩ := hspan
      cases hpure
      intro c hc hother hne
      simp only [List.mem_cons] at hc
      obtain rfl | rfl | hc := hc
      · exact absurd rfl hne
      · simp [hdigit hvalue] at hother
      · exact ih hothers c hc hother hne
  | case3 first tail hfirst value hvalue ih =>
      rw [spanDigitValues.eq_3 _ _ hfirst, hvalue] at hspan
      simp only [Option.bind_eq_bind, Option.bind_eq_some_iff] at hspan
      obtain ⟨⟨others, rest⟩, hothers, hpure⟩ := hspan
      cases hpure
      intro c hc hother hne
      obtain rfl | hc := List.mem_cons.mp hc
      · simp [hdigit hvalue] at hother
      · exact ih hothers c hc hother hne
  | case4 tail hfirst hnone =>
      rw [spanDigitValues.eq_3 _ _ hfirst, hnone] at hspan
      cases hspan
  | case5 first tail hfirst hnone hother =>
      rw [spanDigitValues.eq_3 _ _ hfirst, hnone] at hspan
      dsimp only at hspan
      rw [if_neg hother] at hspan
      cases hspan
      exact fun c hc _ _ => hc

theorem isDigit_of_readNat {cs : List Char} {n : Nat} (hread : readNat cs = .ok n) {c : Char}
    (hc : c ∈ cs) (hne : c ≠ '_') : isDigit c = true := by
  rw [← Bool.not_eq_false]
  intro hother
  unfold readNat at hread
  split at hread
  next => cases hread
  next =>
    split at hread
    next => cases hread
    next values rest hspan =>
      have hrest := mem_of_spanDigitValues hspan c hc hother hne
      split at hread
      next => cases hread
      next =>
        split at hread
        next => cases hread
        next hwhole =>
          simp only [Bool.or_eq_true, Bool.not_eq_true', List.isEmpty_eq_false_iff] at hwhole
          exact hwhole (.inr (List.ne_nil_of_mem hrest))

/-- An integer is a number with a sign before it or none, and margins around it. -/
theorem exists_readNat_of_readInt {cs : List Char} {value : Int} (hread : readInt cs = .ok value) :
    ∃ (sign : Option Char) (digits : List Char) (n : Nat),
      trimWhere isMargin cs = sign.toList ++ digits ∧
      (∀ c, sign = some c → c = '-' ∨ c = '+') ∧ readNat digits = .ok n := by
  unfold readInt at hread
  split at hread
  next digits htrim =>
    obtain ⟨n, hn, -⟩ := bind_eq_ok_iff.mp hread
    exact ⟨some '-', digits, n, htrim, by simp, hn⟩
  next digits htrim =>
    obtain ⟨n, hn, -⟩ := bind_eq_ok_iff.mp hread
    exact ⟨some '+', digits, n, htrim, by simp, hn⟩
  next =>
    obtain ⟨n, hn, -⟩ := bind_eq_ok_iff.mp hread
    exact ⟨none, _, n, rfl, by simp, hn⟩

/-- An integer has no blanks but those that are trimmed off. -/
theorem isMargin_of_readInt {cs : List Char} {value : Int} (hread : readInt cs = .ok value)
    {c : Char} (hc : c ∈ cs) (hblank : isBlank c = true) : isMargin c = true := by
  obtain ⟨sign, digits, n, htrim, hsign, hn⟩ := exists_readNat_of_readInt hread
  rw [← Bool.not_eq_false]
  intro hkeep
  have hmem := mem_trimWhere hc hkeep
  rw [htrim, List.mem_append] at hmem
  obtain hmem | hmem := hmem
  · obtain rfl | rfl := hsign c (Option.mem_toList.mp hmem) <;> cases hblank
  · have hdigit := isDigit_of_readNat hn hmem (by rintro rfl; cases hblank)
    rw [isDigit_eq_false_of_isBlank hblank] at hdigit
    cases hdigit

theorem trimWhere_append_cons {drop : Char → Bool} (front : List Char) {c : Char}
    (back : List Char) (hkeep : drop c = false) :
    ∃ rest, trimWhere drop (front ++ c :: back) = front.dropWhile drop ++ c :: rest := by
  have hstops : ∀ text other : List Char,
      (text ++ c :: other).dropWhile drop = text.dropWhile drop ++ c :: other := by
    intro text other
    induction text with
    | nil => simp [hkeep]
    | cons first tail ih =>
        rw [List.cons_append, List.dropWhile_cons, List.dropWhile_cons, ih]
        split <;> rfl
  refine ⟨(back.reverse.dropWhile drop).reverse, ?_⟩
  rw [trimWhere, hstops, List.reverse_append, List.reverse_cons, List.append_assoc,
    List.singleton_append, hstops]
  simp

/-- A plus is the sign of an integer, so that nothing but margins stands before it. -/
theorem isMargin_of_readInt_plus {front back : List Char} {value : Int}
    (hread : readInt (front ++ '+' :: back) = .ok value) : ∀ c ∈ front, isMargin c = true := by
  obtain ⟨sign, digits, n, htrim, hsign, hn⟩ := exists_readNat_of_readInt hread
  obtain ⟨rest, hrest⟩ := trimWhere_append_cons front back (show isMargin '+' = false from rfl)
  rw [← List.dropWhile_eq_nil_iff]
  have hplus : '+' ∉ digits := fun hmem => by cases isDigit_of_readNat hn hmem (by decide)
  rw [hrest] at htrim
  cases hfront : front.dropWhile isMargin with
  | nil => rfl
  | cons first others =>
      -- The plus would stand among the digits.
      rw [hfront] at htrim
      refine absurd ?_ hplus
      cases sign with
      | none =>
          rw [← show first :: others ++ '+' :: rest = digits from htrim]
          simp
      | some mark =>
          rw [← show others ++ '+' :: rest = digits from (List.cons.inj htrim).2]
          simp

/-- Digits with blanks around them are an integer exactly if all the blanks may stand around one,
and there are not too many digits. -/
theorem exists_readInt_padded_iff {front digits back : List Char}
    (hfront : ∀ c ∈ front, isBlank c = true) (hdigits : ∀ c ∈ digits, isDigit c = true)
    (hne : digits ≠ []) (hback : ∀ c ∈ back, isBlank c = true) :
    (∃ value, readInt (front ++ (digits ++ back)) = .ok value) ↔
      ((∀ c ∈ front, isMargin c = true) ∧ ∀ c ∈ back, isMargin c = true) ∧
        digits.length ≤ mostDigits := by
  have hnotmargin : ∀ c ∈ digits, isMargin c = false := fun c hc => by
    simp [isMargin, isBlank_eq_false_of_digit (hdigits c hc)]
  have hread : (∀ c ∈ front, isMargin c = true) → (∀ c ∈ back, isMargin c = true) →
      readInt (front ++ (digits ++ back)) = readInt digits := by
    intro hfront hback
    have hself : trimWhere isMargin digits = digits :=
      trimWhere_eq_self (fun c hc => hnotmargin c (List.mem_of_head? hc))
        fun c hc => hnotmargin c (List.mem_of_getLast? hc)
    unfold readInt
    rw [trimWhere_append hfront hnotmargin hne hback, hself]
  rw [← exists_readInt_iff hdigits hne]
  constructor
  · rintro ⟨value, hvalue⟩
    have hmargins : (∀ c ∈ front, isMargin c = true) ∧ ∀ c ∈ back, isMargin c = true :=
      ⟨fun c hc => isMargin_of_readInt hvalue (by simp [hc]) (hfront c hc),
        fun c hc => isMargin_of_readInt hvalue (by simp [hc]) (hback c hc)⟩
    exact ⟨hmargins, value, hread hmargins.1 hmargins.2 ▸ hvalue⟩
  · rintro ⟨⟨hfront, hback⟩, hvalue⟩
    rwa [hread hfront hback]

end Motif.Text

namespace Motif.Quantity

/-- A bound is read back as it is written. -/
theorem readBound_toDigits {n : Nat} (hdigits : (Nat.toDigits 10 n).length ≤ Text.mostDigits) :
    readBound (Nat.toDigits 10 n) = .ok (n : Int) := by
  rw [readBound, Text.readInt_toDigits hdigits]

end Motif.Quantity
