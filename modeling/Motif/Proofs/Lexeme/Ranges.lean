import Mathlib.Data.List.TakeWhile
import Motif.Proofs.Lexeme.Symbols

/-!
# Numbers in lexemes

A range that has been read as a lexeme has at most one dash, so neither of its bounds has a sign: it
stands for a quantity that can be written. An id has no sign at all and at most nine digits.
-/

namespace Motif

namespace Lexeme

open Motif.Text (isBlank isDigit)

/-! ## What the lengths measure -/

theorem exists_spanLength (accepts : Char → Bool) (cs : List Char) :
    ∃ front rest, cs = front ++ rest ∧ (∀ c ∈ front, accepts c = true) ∧
      front.length = spanLength accepts cs :=
  ⟨cs.takeWhile accepts, cs.dropWhile accepts, List.takeWhile_append_dropWhile.symm,
    fun _ hc => List.mem_takeWhile_imp hc, rfl⟩

theorem exists_numberLength? {cs : List Char} {length : Nat}
    (hlength : numberLength? cs = some length) :
    ∃ blanks digits rest, cs = blanks ++ (digits ++ rest) ∧ (∀ c ∈ blanks, isBlank c = true) ∧
      (∀ c ∈ digits, isDigit c = true) ∧ digits ≠ [] ∧ blanks.length = spanLength isBlank cs ∧
      length = blanks.length + digits.length := by
  obtain ⟨blanks, others, rfl, hblanks, hfront⟩ := exists_spanLength isBlank cs
  obtain ⟨digits, rest, rfl, hdigits, hnumber⟩ := exists_spanLength isDigit others
  unfold numberLength? at hlength
  dsimp only at hlength
  rw [← hfront, List.drop_left, ← hnumber] at hlength
  split at hlength
  next => cases hlength
  next hne =>
    cases hlength
    refine ⟨blanks, digits, rest, rfl, hblanks, hdigits, ?_, hfront, rfl⟩
    exact fun hempty => hne (by simp [hempty])

theorem exists_closedLength? {close : Char} {cs : List Char} {length : Nat}
    (hlength : closedLength? close cs = some length) :
    ∃ blanks rest, cs = blanks ++ close :: rest ∧ (∀ c ∈ blanks, isBlank c = true) ∧
      length = blanks.length + 1 := by
  obtain ⟨blanks, others, rfl, hblanks, hfront⟩ := exists_spanLength isBlank cs
  unfold closedLength? at hlength
  dsimp only at hlength
  rw [← hfront, List.drop_left] at hlength
  split at hlength
  next hhead =>
    cases hlength
    obtain ⟨rest, rfl⟩ := List.head?_eq_some_iff.mp hhead
    exact ⟨blanks, rest, rfl, hblanks, rfl⟩
  next => cases hlength

/-- An id is a number of at most nine digits with blanks around it. -/
theorem exists_idLength? {cs : List Char} {length : Nat} (hlength : idLength? cs = some length) :
    ∃ blanks digits others, cs.take length = blanks ++ (digits ++ others) ++ [']'] ∧
      (∀ c ∈ blanks, isBlank c = true) ∧ (∀ c ∈ digits, isDigit c = true) ∧
      (∀ c ∈ others, isBlank c = true) ∧ digits ≠ [] ∧ digits.length ≤ 9 := by
  simp only [idLength?, Option.bind_eq_bind, Option.bind_eq_some_iff] at hlength
  obtain ⟨number, hnumber, hlength⟩ := hlength
  obtain ⟨blanks, digits, rest, rfl, hblanks, hdigits, hne, hfront, rfl⟩ :=
    exists_numberLength? hnumber
  split at hlength
  next hfew =>
    obtain ⟨close, hclose, htotal⟩ := Option.bind_eq_some_iff.mp hlength
    cases htotal
    rw [← List.append_assoc, ← List.length_append, List.drop_left] at hclose
    obtain ⟨others, tail, rfl, hothers, rfl⟩ := exists_closedLength? hclose
    refine ⟨blanks, digits, others, ?_, hblanks, hdigits, hothers, hne, by omega⟩
    have hsplit : blanks ++ (digits ++ (others ++ ']' :: tail)) =
        (blanks ++ (digits ++ others) ++ [']']) ++ tail := by simp
    rw [hsplit]
    refine List.take_left' ?_
    simp only [List.length_append, List.length_cons, List.length_nil]
    omega
  next => cases hlength

/-! ## Dashes and digits -/

theorem count_eq_zero_of_forall {accepts : Char → Bool} {cs : List Char}
    (hcs : ∀ c ∈ cs, accepts c = true) {mark : Char} (hmark : accepts mark = false) :
    cs.count mark = 0 := by
  rw [List.count_eq_zero]
  intro hmem
  rw [hcs mark hmem] at hmark
  cases hmark

theorem count_take_add {c : Char} {cs : List Char} (first second : Nat) :
    (cs.take (first + second)).count c =
      (cs.take first).count c + ((cs.drop first).take second).count c := by
  rw [List.take_add, List.count_append]

theorem count_numberLength? {cs : List Char} {length : Nat}
    (hlength : numberLength? cs = some length) : (cs.take length).count '-' = 0 := by
  obtain ⟨blanks, digits, rest, rfl, hblanks, hdigits, -, -, rfl⟩ := exists_numberLength? hlength
  rw [← List.append_assoc, List.take_left' List.length_append, List.count_append,
    count_eq_zero_of_forall hblanks (by decide), count_eq_zero_of_forall hdigits (by decide)]

theorem count_boundLength? {cs : List Char} {length : Nat}
    (hlength : boundLength? cs = some length) : (cs.take length).count '-' ≤ 1 := by
  obtain ⟨blanks, others, rfl, hblanks, hfront⟩ := exists_spanLength isBlank cs
  have hnone : blanks.count '-' = 0 := count_eq_zero_of_forall hblanks (by decide)
  unfold boundLength? at hlength
  dsimp only at hlength
  rw [← hfront, List.drop_left] at hlength
  split at hlength
  next rest =>
    obtain ⟨number, hnumber, rfl⟩ := Option.map_eq_some_iff.mp hlength
    rw [Nat.add_assoc, List.take_length_add_append, List.count_append, hnone, Nat.add_comm 1,
      List.take_succ_cons, List.count_cons, count_numberLength? hnumber]
    decide
  next rest =>
    cases hlength
    rw [List.take_length_add_append, List.count_append, hnone, List.take_succ_cons, List.take_zero]
    decide
  next =>
    cases hlength
    simp

theorem count_closedLength? {close : Char} (hclose : close ≠ '-') {cs : List Char} {length : Nat}
    (hlength : closedLength? close cs = some length) : (cs.take length).count '-' = 0 := by
  obtain ⟨blanks, rest, rfl, hblanks, rfl⟩ := exists_closedLength? hlength
  rw [List.take_length_add_append, List.count_append, List.take_succ_cons, List.take_zero,
    count_eq_zero_of_forall hblanks (by decide), List.count_singleton]
  simp [hclose]

theorem count_rangeLength? {cs : List Char} {length : Nat}
    (hlength : rangeLength? cs = some length) : (cs.take length).count '-' ≤ 1 := by
  simp only [rangeLength?, Option.bind_eq_bind, Option.bind_eq_some_iff] at hlength
  obtain ⟨low, hlow, high, hhigh, close, hclose, htotal⟩ := hlength
  cases htotal
  have hfirst := count_numberLength? hlow
  have hsecond := count_boundLength? hhigh
  have hthird := count_closedLength? (by decide) hclose
  rw [count_take_add, count_take_add, hfirst, hthird]
  omega

theorem countP_isDigit_eq_zero {cs : List Char} (hcs : ∀ c ∈ cs, isBlank c = true) :
    cs.countP isDigit = 0 := by
  rw [List.countP_eq_zero]
  intro c hc
  rw [Text.isDigit_eq_false_of_isBlank (hcs c hc)]
  exact Bool.false_ne_true

theorem idLength?_limits {cs : List Char} {length : Nat} (hlength : idLength? cs = some length) :
    (cs.take length).count '-' = 0 ∧ (cs.take length).countP isDigit ≤ 9 := by
  obtain ⟨blanks, digits, others, htake, hblanks, hdigits, hothers, -, hfew⟩ :=
    exists_idLength? hlength
  rw [htake]
  constructor
  · rw [List.count_append, List.count_append, List.count_append,
      count_eq_zero_of_forall hblanks (by decide), count_eq_zero_of_forall hdigits (by decide),
      count_eq_zero_of_forall hothers (by decide)]
    decide
  · rw [List.countP_append, List.countP_append, List.countP_append, countP_isDigit_eq_zero hblanks,
      countP_isDigit_eq_zero hothers]
    have hclose : [']'].countP isDigit = 0 := rfl
    have hle := digits.countP_le_length (p := isDigit)
    omega

/-! ## Single lexemes -/

/-- The lexeme of a single character is neither a range nor an id. -/
theorem ne_of_mark? {c : Char} {symbol : Symbol} (hmark : mark? c = some symbol) (text : String) :
    symbol ≠ .range text ∧ symbol ≠ .id text := by
  unfold mark? at hmark
  split at hmark <;> cases hmark <;> simp

/-- The text of a range has at most one dash, that of an id none and at most nine digits. -/
structure IsModest (symbol : Symbol) : Prop where
  range : ∀ text, symbol = .range text → text.toList.count '-' ≤ 1
  id : ∀ text, symbol = .id text → text.toList.count '-' = 0 ∧ text.toList.countP isDigit ≤ 9

theorem Lexes.isModest {c : Char} {rest : List Char} {symbol : Symbol} {length : Nat}
    (hlexes : Lexes c rest symbol length) : IsModest symbol := by
  cases hlexes with
  | range hc hlength =>
      refine ⟨?_, by rintro _ ⟨⟩⟩
      rintro text ⟨⟩
      rw [String.toList_ofList, List.count_cons, hc]
      simpa using count_rangeLength? hlength
  | id hc hlength =>
      refine ⟨by rintro _ ⟨⟩, ?_⟩
      rintro text ⟨⟩
      rw [String.toList_ofList, List.count_cons, List.countP_cons, hc]
      have hopening : isDigit '[' = false := rfl
      simpa [hopening] using idLength?_limits hlength
  | quoted => exact ⟨by rintro _ ⟨⟩, by rintro _ ⟨⟩⟩
  | name => exact ⟨by rintro _ ⟨⟩, by rintro _ ⟨⟩⟩
  | mark hmark =>
      exact ⟨fun text htext => absurd htext (ne_of_mark? hmark text).1,
        fun text htext => absurd htext (ne_of_mark? hmark text).2⟩

/-- Every lexeme is read where a character starts it. -/
theorem exists_lexes_of_mem_readFrom {name : Option String} {position skip : Nat}
    {cs : List Char} {lexemes : List Lexeme}
    (hread : readFrom name position skip cs = .ok lexemes) :
    ∀ lexeme ∈ lexemes, ∃ c rest length, Lexes c rest lexeme.symbol length := by
  induction cs generalizing position skip lexemes with
  | nil =>
      cases hread
      simp
  | cons c rest ih =>
      unfold readFrom at hread
      split at hread
      next => exact ih hread
      next =>
        split at hread
        next => exact ih hread
        next =>
          split at hread
          next symbol length hsymbol =>
            obtain ⟨more, hmore, hpure⟩ := bind_eq_ok_iff.mp hread
            cases hpure
            intro lexeme hlexeme
            rcases List.mem_cons.mp hlexeme with rfl | hlexeme
            · exact ⟨c, rest, length, symbolAt?_eq_some_iff.mp hsymbol⟩
            · exact ih hmore lexeme hlexeme
          next => cases hread

theorem isModest_of_mem_readFrom {name : Option String} {position skip : Nat} {cs : List Char}
    {lexemes : List Lexeme} (hread : readFrom name position skip cs = .ok lexemes) :
    ∀ lexeme ∈ lexemes, IsModest lexeme.symbol := by
  intro lexeme hlexeme
  obtain ⟨c, rest, length, hlexes⟩ := exists_lexes_of_mem_readFrom hread lexeme hlexeme
  exact hlexes.isModest

end Lexeme

namespace Quantity

theorem readBound_of_not_mem {cs : List Char} {value : Int} (hread : readBound cs = .ok value)
    (hsign : '-' ∉ cs) : IsShort value := by
  unfold readBound at hread
  split at hread
  next read hvalue =>
    cases hread
    obtain ⟨n, rfl, hshort, -⟩ := Text.readInt_of_not_mem hvalue hsign
    exact ⟨Int.natCast_nonneg n, (Nat.length_toDigits_le_iff (by decide) (by decide)).mpr hshort⟩
  next => cases hread
  next => cases hread

theorem lt_of_readBound {cs : List Char} {value : Int} (hread : readBound cs = .ok value)
    (hsign : '-' ∉ cs) : 0 ≤ value ∧ value < 10 ^ cs.countP Text.isDigit := by
  unfold readBound at hread
  split at hread
  next read hvalue =>
    cases hread
    obtain ⟨n, rfl, -, hlt⟩ := Text.readInt_of_not_mem hvalue hsign
    exact ⟨Int.natCast_nonneg n, by exact_mod_cast hlt⟩
  next => cases hread
  next => cases hread

/-- A range with at most one dash gives a quantity that can be written, if it is not reversed. -/
theorem legal_of_ofRange {text : String} {quantity : Quantity} (hdash : text.toList.count '-' ≤ 1)
    (hread : ofRange text = .ok quantity)
    (hordered : quantity.isUnlimited = true ∨ quantity.least ≤ quantity.most) : quantity.Legal := by
  have hbound : (((text.toList.drop 1).dropLast).filter
      fun c => c ≠ ' ' && c ≠ '\t').count '-' ≤ 1 := by
    refine Nat.le_trans (List.Sublist.count_le '-' ?_) hdash
    exact List.filter_sublist.trans ((List.dropLast_sublist _).trans (List.drop_sublist _ _))
  unfold ofRange at hread
  dsimp only at hread
  generalize ((text.toList.drop 1).dropLast).filter (fun c => c ≠ ' ' && c ≠ '\t') = inner
    at hbound hread
  have hmost : ∀ {least most : Int}, IsShort least → IsShort most →
      quantity = ⟨least, most⟩ → quantity.Legal := by
    rintro least most hleast hmost rfl
    refine ⟨hleast, ?_⟩
    rcases hordered with hunlimited | hordered
    · exact .inl (by simpa [isUnlimited] using hunlimited)
    · exact .inr ⟨hordered, hmost⟩
  split at hread
  next low high hsplit =>
    obtain ⟨rfl, hfirst⟩ := eq_append_of_splitAtDash? hsplit
    obtain ⟨least, hlow, hread⟩ := bind_eq_ok_iff.mp hread
    obtain ⟨most, hhigh, hread⟩ := bind_eq_ok_iff.mp hread
    cases hread
    -- The first dash is the only one.
    rw [List.count_append, List.count_cons_self] at hbound
    have hsecond : '-' ∉ high := by
      rw [← List.count_eq_zero]
      omega
    exact hmost (readBound_of_not_mem hlow hfirst) (readBound_of_not_mem hhigh hsecond) rfl
  next hsplit =>
    have hnone := splitAtDash?_eq_none_iff.mp hsplit
    split at hread
    next =>
      obtain ⟨least, hlow, hread⟩ := bind_eq_ok_iff.mp hread
      cases hread
      refine ⟨readBound_of_not_mem hlow fun hmem => hnone ((List.dropLast_sublist _).mem hmem), ?_⟩
      exact .inl rfl
    next =>
      obtain ⟨count, hcount, hread⟩ := bind_eq_ok_iff.mp hread
      cases hread
      have hshort := readBound_of_not_mem hcount hnone
      exact hmost hshort hshort rfl

end Quantity

namespace Lexeme

open Motif.Text (isBlank isDigit)

/-! ## Ids -/

/-- What stands between the brackets of an id is an integer. -/
theorem exists_readBound_of_idLength? {cs : List Char} {length : Nat}
    (hlength : idLength? cs = some length) :
    ∃ id, Quantity.readBound (Text.trim (cs.take length).dropLast) = .ok id := by
  obtain ⟨blanks, digits, others, htake, hblanks, hdigits, hothers, hne, hfew⟩ :=
    exists_idLength? hlength
  have hnotblank : ∀ c ∈ digits, isBlank c = false := fun c hc =>
    Text.isBlank_eq_false_of_digit (hdigits c hc)
  have hshort : digits.length ≤ Text.mostDigits := by
    unfold Text.mostDigits
    omega
  obtain ⟨id, hid⟩ := (Text.exists_readInt_iff hdigits hne).mpr hshort
  refine ⟨id, ?_⟩
  rw [htake, List.dropLast_concat, Text.trim_append hblanks hnotblank hne hothers,
    Quantity.readBound, hid]

/-- The symbol is that of a lexeme of some text. -/
def IsWritten (symbol : Symbol) : Prop :=
  ∃ text lexemes, read text = .ok lexemes ∧ symbol ∈ lexemes.map Lexeme.symbol

theorem IsWritten.exists_lexes {symbol : Symbol} (hwritten : IsWritten symbol) :
    ∃ c rest length, Lexes c rest symbol length := by
  obtain ⟨source, lexemes, hread, hmem⟩ := hwritten
  obtain ⟨lexeme, hlexeme, rfl⟩ := List.mem_map.mp hmem
  exact exists_lexes_of_mem_readFrom hread lexeme hlexeme

/-- The id of a lexeme is an integer. -/
theorem IsWritten.exists_readBound {text : String} (hwritten : IsWritten (.id text)) :
    ∃ id, Quantity.readBound (Text.trim (text.toList.drop 1).dropLast) = .ok id := by
  obtain ⟨c, rest, length, hlexes⟩ := hwritten.exists_lexes
  cases hlexes with
  | id _ hlength =>
      rw [String.toList_ofList, List.drop_succ_cons, List.drop_zero]
      exact exists_readBound_of_idLength? hlength
  | mark hmark => exact absurd rfl (ne_of_mark? hmark text).2

end Lexeme

end Motif
