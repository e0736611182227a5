import Motif.Proofs.Text.Integer
import Motif.Proofs.Text.Quoted

/-!
# Reading single lexemes

A lexeme that is written down is read again as it is, as long as what follows it cannot belong to
it.
-/

namespace Motif

namespace Quantity

/-- The number of an integer that is not negative has no more digits than may be read. -/
def IsShort (value : Int) : Prop :=
  0 ≤ value ∧ (Nat.toDigits 10 value.toNat).length ≤ Text.mostDigits

theorem isShort_zero : IsShort 0 := by
  unfold IsShort
  decide

theorem isShort_one : IsShort 1 := by
  unfold IsShort
  decide

/-- A quantity that can be written: short bounds, and none or no lesser one above. -/
structure Legal (quantity : Quantity) : Prop where
  least_short : IsShort quantity.least
  most : quantity.most = unlimited ∨ quantity.least ≤ quantity.most ∧ IsShort quantity.most

theorem legal_once : once.Legal :=
  ⟨isShort_one, .inr ⟨Int.le_refl 1, isShort_one⟩⟩

theorem legal_never : Legal .never :=
  ⟨isShort_zero, .inr ⟨Int.le_refl 0, isShort_zero⟩⟩

theorem legal_unlimited {least : Int} (hleast : IsShort least) : Legal ⟨least, unlimited⟩ :=
  ⟨hleast, .inl rfl⟩

/-- The lexeme of a quantity, unless it is written as nothing. -/
def symbol? (quantity : Quantity) : Option Symbol :=
  if quantity = ⟨0, 0⟩ then some (.quantity .never)
  else if quantity = ⟨0, 1⟩ then some (.quantity .optional)
  else if quantity = ⟨0, unlimited⟩ then some (.quantity .many)
  else if quantity = ⟨1, unlimited⟩ then some (.quantity .some)
  else if quantity = once then none
  else some (.range quantity.suffix)

/-! ## Splitting at a dash -/

theorem splitAtDash?_append {low : List Char} (hlow : '-' ∉ low) (high : List Char) :
    splitAtDash? (low ++ '-' :: high) = some (low, high) := by
  have hkeep : ∀ c ∈ low, decide (c ≠ '-') = true := by
    intro c hc
    exact decide_eq_true (ne_of_mem_of_not_mem hc hlow)
  have htake : (low ++ '-' :: high).takeWhile (· ≠ '-') = low := by
    rw [List.takeWhile_append_of_pos hkeep]
    simp
  have hdrop : (low ++ '-' :: high).dropWhile (· ≠ '-') = '-' :: high := by
    rw [List.dropWhile_append_of_pos hkeep]
    simp
  unfold splitAtDash?
  rw [if_pos (by simp), htake, hdrop]
  rfl

theorem splitAtDash?_eq_none_iff {cs : List Char} : splitAtDash? cs = none ↔ '-' ∉ cs := by
  simp [splitAtDash?]

/-- A text that is split is split at the first of its dashes. -/
theorem eq_append_of_splitAtDash? {cs low high : List Char}
    (hsplit : splitAtDash? cs = some (low, high)) : cs = low ++ '-' :: high ∧ '-' ∉ low := by
  by_cases hdash : '-' ∈ cs
  · obtain ⟨front, rest, rfl, hfront⟩ := List.eq_append_cons_of_mem hdash
    rw [splitAtDash?_append hfront] at hsplit
    cases hsplit
    exact ⟨rfl, hfront⟩
  · rw [splitAtDash?_eq_none_iff.mpr hdash] at hsplit
    cases hsplit

end Quantity

namespace Lexeme

open Motif.Text (isBlank isDigit isWordChar doubleQuotes)

theorem isDigit_of_isDigit {c : Char} (hc : c.isDigit = true) : isDigit c = true := by
  rw [isDigit, Text.digitValue?_of_isDigit hc]
  rfl

/-- A run of accepted characters ends before one that is not accepted. -/
theorem spanLength_append {accepts : Char → Bool} {cs rest : List Char}
    (hcs : ∀ c ∈ cs, accepts c = true) (hrest : ∀ c, rest.head? = some c → accepts c = false) :
    spanLength accepts (cs ++ rest) = cs.length := by
  unfold spanLength
  rw [List.takeWhile_append_of_pos hcs]
  cases rest with
  | nil => simp
  | cons c tail => simp [hrest c rfl]

theorem spanLength_eq_zero {accepts : Char → Bool} {cs : List Char}
    (hcs : ∀ c, cs.head? = some c → accepts c = false) : spanLength accepts cs = 0 := by
  have hnone : ∀ c ∈ ([] : List Char), accepts c = true := fun _ hc => absurd hc List.not_mem_nil
  exact spanLength_append hnone hcs

/-- The character cannot belong to a number before it. -/
def EndsNumber (rest : List Char) : Prop :=
  ∀ c, rest.head? = some c → isDigit c = false

theorem spanLength_isBlank_toDigits (n : Nat) (rest : List Char) :
    spanLength isBlank (Nat.toDigits 10 n ++ rest) = 0 := by
  refine spanLength_eq_zero fun c hc => ?_
  have hmem : c ∈ Nat.toDigits 10 n := by
    cases hdigits : Nat.toDigits 10 n with
    | nil => exact absurd hdigits Nat.toDigits_ne_nil
    | cons first others =>
        rw [hdigits, List.cons_append, List.head?_cons] at hc
        simp [Option.some.inj hc]
  exact Text.isBlank_eq_false_of_isDigit (Text.isDigit_of_mem_toDigits hmem)

theorem numberLength?_toDigits (n : Nat) {rest : List Char} (hrest : EndsNumber rest) :
    numberLength? (Nat.toDigits 10 n ++ rest) = some (Nat.toDigits 10 n).length := by
  have hblanks := spanLength_isBlank_toDigits n rest
  have hdigits : spanLength isDigit (Nat.toDigits 10 n ++ rest) = (Nat.toDigits 10 n).length :=
    spanLength_append (fun c hc => isDigit_of_isDigit (Text.isDigit_of_mem_toDigits hc)) hrest
  have hpositive : (Nat.toDigits 10 n).length ≠ 0 := Nat.ne_of_gt Nat.length_toDigits_pos
  simp [numberLength?, hblanks, hdigits, hpositive]

theorem closedLength?_cons {close : Char} (hclose : isBlank close = false) (rest : List Char) :
    closedLength? close (close :: rest) = some 1 := by
  have hblanks : spanLength isBlank (close :: rest) = 0 :=
    spanLength_eq_zero fun c hc => by
      obtain rfl : close = c := by simpa using hc
      exact hclose
  simp [closedLength?, hblanks]

/-- Before `rest` the character `c` begins a lexeme, which takes so many characters of `rest`. -/
inductive Lexes (c : Char) (rest : List Char) : Symbol → Nat → Prop where
  | range {length : Nat} (hc : c = '{') (hlength : rangeLength? rest = some length) :
      Lexes c rest (.range (String.ofList (c :: rest.take length))) length
  | id {length : Nat} (hc : c = '[') (hlength : idLength? rest = some length) :
      Lexes c rest (.id (String.ofList (c :: rest.take length))) length
  | quoted {length : Nat} (hc : c = '\'') (hlength : quotedLength? 0 none rest = some length) :
      Lexes c rest (.quoted (String.ofList (c :: rest.take length))) length
  | name {length : Nat} (hc : c.isAlpha = true) (hlength : spanLength isWordChar rest = length) :
      Lexes c rest (.name (String.ofList (c :: rest.take length))) length
  | mark {symbol : Symbol} (hmark : mark? c = some symbol) : Lexes c rest symbol 0

section Lexing

variable {c : Char} {rest : List Char} {symbol : Symbol} {length : Nat}

theorem lexes_of_symbolAt? (hsymbol : symbolAt? c rest = some (symbol, length)) :
    Lexes c rest symbol length := by
  unfold symbolAt? at hsymbol
  dsimp only at hsymbol
  split at hsymbol
  next hbrace =>
    obtain ⟨range, hrange, heq⟩ := Option.map_eq_some_iff.mp hsymbol
    cases heq
    exact .range hbrace hrange
  next =>
    split at hsymbol
    next hbracket =>
      obtain ⟨id, hid, heq⟩ := Option.map_eq_some_iff.mp hsymbol
      cases heq
      exact .id hbracket hid
    next =>
      split at hsymbol
      next hquote =>
        obtain ⟨quoted, hquoted, heq⟩ := Option.map_eq_some_iff.mp hsymbol
        cases heq
        exact .quoted hquote hquoted
      next =>
        split at hsymbol
        next halpha =>
          cases hsymbol
          exact .name halpha rfl
        next =>
          obtain ⟨mark, hmark, heq⟩ := Option.map_eq_some_iff.mp hsymbol
          cases heq
          exact .mark hmark

/-- The five classes exclude one another by their first characters, so the order in which they are
tried does not matter. -/
theorem symbolAt?_eq_some_iff :
    symbolAt? c rest = some (symbol, length) ↔ Lexes c rest symbol length := by
  refine ⟨lexes_of_symbolAt?, fun hlexes => ?_⟩
  cases hlexes with
  | range hc hlength =>
      subst hc
      rw [symbolAt?, if_pos rfl, hlength]
      rfl
  | id hc hlength =>
      subst hc
      rw [symbolAt?, if_neg (by decide), if_pos rfl, hlength]
      rfl
  | quoted hc hlength =>
      subst hc
      rw [symbolAt?, if_neg (by decide), if_neg (by decide), if_pos rfl, hlength]
      rfl
  | name hc hlength =>
      have hother : c ≠ '{' ∧ c ≠ '[' ∧ c ≠ '\'' := by
        refine ⟨?_, ?_, ?_⟩ <;> rintro rfl <;> revert hc <;> decide
      rw [symbolAt?, if_neg hother.1, if_neg hother.2.1, if_neg hother.2.2, if_pos hc, hlength]
  | mark hmark =>
      unfold mark? at hmark
      split at hmark <;> cases hmark <;> rfl

end Lexing

/-- The symbol is read as itself before a text. -/
def IsReadBefore (symbol : Symbol) (rest : List Char) : Prop :=
  ∃ c tail, symbol.text.toList = c :: tail ∧ isBlank c = false ∧
    symbolAt? c (tail ++ rest) = some (symbol, tail.length)

/-- What follows cannot go on with a plain word or a quoted name. -/
def Breaks (rest : List Char) : Prop :=
  ∀ c, rest.head? = some c → isWordChar c = false ∧ c ≠ '\''

theorem isReadBefore_look (mark : LookMark) (rest : List Char) :
    IsReadBefore (.look mark) rest := by
  cases mark <;> exact ⟨_, [], rfl, rfl, rfl⟩

theorem isReadBefore_quantity (mark : QuantityMark) (rest : List Char) :
    IsReadBefore (.quantity mark) rest := by
  cases mark <;> exact ⟨_, [], rfl, rfl, rfl⟩

theorem isReadBefore_opening (rest : List Char) : IsReadBefore .opening rest :=
  ⟨_, [], rfl, rfl, rfl⟩

theorem isReadBefore_closing (rest : List Char) : IsReadBefore .closing rest :=
  ⟨_, [], rfl, rfl, rfl⟩

theorem isReadBefore_bar (rest : List Char) : IsReadBefore .bar rest :=
  ⟨_, [], rfl, rfl, rfl⟩

theorem isReadBefore_id {n : Nat} (hn : n < 10 ^ 9) (rest : List Char) :
    IsReadBefore (.id ("[" ++ toString n ++ "]")) rest := by
  have hends : EndsNumber (']' :: rest) := by
    intro c hc
    obtain rfl : ']' = c := by simpa using hc
    decide
  have hdigits : (Nat.toDigits 10 n).length ≤ 9 :=
    (Nat.length_toDigits_le_iff (by decide) (by decide)).mpr hn
  have hlength : idLength? (Nat.toDigits 10 n ++ ']' :: rest) =
      some ((Nat.toDigits 10 n).length + 1) := by
    have hclosed : closedLength? ']' (']' :: rest) = some 1 := closedLength?_cons (by decide) rest
    simp [idLength?, numberLength?_toDigits n hends, spanLength_isBlank_toDigits, hdigits, hclosed]
  refine ⟨'[', Nat.toDigits 10 n ++ [']'], by simp [Symbol.text], by decide, ?_⟩
  rw [List.append_assoc, List.singleton_append, symbolAt?_eq_some_iff]
  have htake : (Nat.toDigits 10 n ++ ']' :: rest).take ((Nat.toDigits 10 n).length + 1) =
      Nat.toDigits 10 n ++ [']'] := by
    rw [List.take_length_add_append]
    rfl
  have htext : String.ofList ('[' :: (Nat.toDigits 10 n ++ [']'])) = "[" ++ toString n ++ "]" := by
    rw [← String.toList_inj]
    simp
  simpa only [htake, htext, List.length_append, List.length_singleton] using Lexes.id rfl hlength

theorem isReadBefore_quoted {text : String} (htext : text ≠ "") {rest : List Char}
    (hrest : Breaks rest) : IsReadBefore (.quoted (Text.quote text)) rest := by
  have hhead : rest.head? ≠ some '\'' := fun hhead => (hrest _ hhead).2 rfl
  have hne : text.toList ≠ [] := by simpa using htext
  refine ⟨'\'', doubleQuotes text.toList ++ ['\''], Text.toList_quote text, by decide, ?_⟩
  have hlength := quotedLength?_doubleQuotes text.toList hhead 0 none fun h => absurd h hne
  rw [Nat.zero_add] at hlength
  rw [List.append_assoc, List.singleton_append, symbolAt?_eq_some_iff]
  have htake : (doubleQuotes text.toList ++ '\'' :: rest).take
      ((doubleQuotes text.toList).length + 1) = doubleQuotes text.toList ++ ['\''] := by
    rw [List.take_length_add_append]
    rfl
  have hquote : String.ofList ('\'' :: (doubleQuotes text.toList ++ ['\''])) = Text.quote text := by
    rw [← String.toList_inj, Text.toList_quote]
    simp
  simpa only [htake, hquote, List.length_append, List.length_singleton] using
    Lexes.quoted rfl hlength

theorem toNat_bounds_of_isAlpha {c : Char} (hc : c.isAlpha = true) :
    64 < c.toNat ∧ c.toNat < 123 := by
  rcases Bool.or_eq_true_iff.mp hc with hupper | hlower
  · obtain ⟨hlow, hhigh⟩ := of_decide_eq_true hupper
    have hlow : 65 ≤ c.toNat := hlow
    have hhigh : c.toNat ≤ 90 := hhigh
    omega
  · obtain ⟨hlow, hhigh⟩ := Bool.and_eq_true_iff.mp hlower
    have hlow : 97 ≤ c.toNat := of_decide_eq_true hlow
    have hhigh : c.toNat ≤ 122 := of_decide_eq_true hhigh
    omega

theorem isReadBefore_name {text : String} (htext : Text.isWord text.toList = true)
    {rest : List Char} (hrest : Breaks rest) : IsReadBefore (.name text) rest := by
  cases hcs : text.toList with
  | nil =>
      rw [hcs] at htext
      cases htext
  | cons c tail =>
      rw [hcs, Text.isWord, Bool.and_eq_true, List.all_eq_true] at htext
      obtain ⟨halpha, hword⟩ := htext
      have hspan : spanLength isWordChar (tail ++ rest) = tail.length :=
        spanLength_append hword fun c hc => (hrest c hc).1
      have hself : String.ofList (c :: tail) = text := by
        rw [← hcs, String.ofList_toList]
      refine ⟨c, tail, hcs, ?_, ?_⟩
      · have hbounds := toNat_bounds_of_isAlpha halpha
        exact Text.isBlank_eq_false_of_ascii (by omega) (by omega)
      · rw [symbolAt?_eq_some_iff]
        simpa [hself] using Lexes.name halpha hspan

/-- A range in braces: a number and then nothing, a plus, or a dash and another number. -/
theorem isReadBefore_braces {low bound rest : List Char}
    (hlow : numberLength? (low ++ (bound ++ '}' :: rest)) = some low.length)
    (hbound : boundLength? (bound ++ '}' :: rest) = some bound.length) :
    IsReadBefore (.range (String.ofList ('{' :: (low ++ bound ++ ['}'])))) rest := by
  have hclosed : closedLength? '}' ('}' :: rest) = some 1 := closedLength?_cons (by decide) rest
  have hlength : rangeLength? (low ++ (bound ++ '}' :: rest)) =
      some (low.length + bound.length + 1) := by
    simp [rangeLength?, hlow, hbound, hclosed]
  refine ⟨'{', low ++ bound ++ ['}'], by simp [Symbol.text], by decide, ?_⟩
  have happend : low ++ bound ++ ['}'] ++ rest = low ++ (bound ++ '}' :: rest) := by simp
  rw [happend, symbolAt?_eq_some_iff]
  have htake : (low ++ (bound ++ '}' :: rest)).take (low.length + bound.length + 1) =
      low ++ bound ++ ['}'] := by
    rw [← List.append_assoc, ← List.length_append, List.take_length_add_append]
    rfl
  simpa only [htake, List.length_append, List.length_singleton] using Lexes.range rfl hlength

theorem boundLength?_plus (rest : List Char) : boundLength? ('+' :: rest) = some 1 := by
  have hblanks : spanLength isBlank ('+' :: rest) = 0 :=
    spanLength_eq_zero fun c hc => by
      obtain rfl : '+' = c := by simpa using hc
      decide
  simp [boundLength?, hblanks]

theorem boundLength?_brace (rest : List Char) : boundLength? ('}' :: rest) = some 0 := by
  have hblanks : spanLength isBlank ('}' :: rest) = 0 :=
    spanLength_eq_zero fun c hc => by
      obtain rfl : '}' = c := by simpa using hc
      decide
  simp [boundLength?, hblanks]

theorem boundLength?_dash (n : Nat) {rest : List Char} (hrest : EndsNumber rest) :
    boundLength? ('-' :: (Nat.toDigits 10 n ++ rest)) =
      some ((Nat.toDigits 10 n).length + 1) := by
  have hblanks : spanLength isBlank ('-' :: (Nat.toDigits 10 n ++ rest)) = 0 :=
    spanLength_eq_zero fun c hc => by
      obtain rfl : '-' = c := by simpa using hc
      decide
  simp [boundLength?, hblanks, numberLength?_toDigits n hrest, Nat.add_comm]

theorem toList_repr_of_nonneg {value : Int} (hvalue : 0 ≤ value) :
    value.repr.toList = Nat.toDigits 10 value.toNat := by
  obtain ⟨n, rfl⟩ := Int.eq_ofNat_of_zero_le hvalue
  simp [Int.repr_eq_if]

/-- How the upper bound of a range is written behind the lower one. -/
inductive WritesBound (quantity : Quantity) : List Char → Prop where
  | plus (hmost : quantity.most = Quantity.unlimited) : WritesBound quantity ['+']
  | same (hmost : quantity.most = quantity.least) : WritesBound quantity []
  | dash (hmost : Quantity.IsShort quantity.most) :
      WritesBound quantity ('-' :: Nat.toDigits 10 quantity.most.toNat)

/-- A quantity without a mark of its own is written as a range in braces. -/
theorem symbol?_eq_range {quantity : Quantity} (hlegal : quantity.Legal) {symbol : Symbol}
    (hsymbol : quantity.symbol? = some symbol) :
    (∃ mark : QuantityMark, symbol = .quantity mark ∧ mark.quantity = quantity) ∨
      ∃ bound, WritesBound quantity bound ∧ symbol = .range (String.ofList
        ('{' :: (Nat.toDigits 10 quantity.least.toNat ++ bound ++ ['}']))) := by
  obtain ⟨⟨hleast, -⟩, hmost⟩ := hlegal
  have hdigits := toList_repr_of_nonneg hleast
  by_cases hnever : quantity = ⟨0, 0⟩
  · subst hnever
    exact .inl ⟨.never, (Option.some.inj hsymbol).symm, rfl⟩
  by_cases hoptional : quantity = ⟨0, 1⟩
  · subst hoptional
    exact .inl ⟨.optional, (Option.some.inj hsymbol).symm, rfl⟩
  by_cases hmany : quantity = ⟨0, Quantity.unlimited⟩
  · subst hmany
    exact .inl ⟨.many, (Option.some.inj hsymbol).symm, rfl⟩
  by_cases hsome : quantity = ⟨1, Quantity.unlimited⟩
  · subst hsome
    exact .inl ⟨.some, (Option.some.inj hsymbol).symm, rfl⟩
  by_cases honce : quantity = .once
  · subst honce
    cases hsymbol
  have hrange : symbol = .range quantity.suffix := by
    simpa [Quantity.symbol?, hnever, hoptional, hmany, hsome, honce] using hsymbol.symm
  refine .inr ?_
  by_cases hunlimited : quantity.most = Quantity.unlimited
  · refine ⟨['+'], .plus hunlimited, ?_⟩
    rw [hrange, Symbol.range.injEq, ← String.toList_inj]
    simp [Quantity.suffix, hnever, hoptional, hmany, hsome, hunlimited, hdigits]
  by_cases hsame : quantity.most = quantity.least
  · have hone : quantity.most ≠ 1 := by
      intro hone
      refine honce ?_
      have hleast : quantity.least = 1 := hsame ▸ hone
      cases quantity
      simp only at hone hleast
      rw [hone, hleast, Quantity.once]
    have hwritten : quantity.most.repr.toList = Nat.toDigits 10 quantity.most.toNat := by
      rw [hsame]
      exact hdigits
    refine ⟨[], .same hsame, ?_⟩
    rw [hrange, Symbol.range.injEq, ← String.toList_inj]
    simp [Quantity.suffix, hnever, hoptional, hmany, hsome, hunlimited, hsame.symm, hone, hwritten]
  · have hshort := (hmost.resolve_left hunlimited).2
    refine ⟨_, .dash hshort, ?_⟩
    rw [hrange, Symbol.range.injEq, ← String.toList_inj]
    simp [Quantity.suffix, hnever, hoptional, hmany, hsome, hunlimited, Ne.symm hsame, honce,
      hdigits, toList_repr_of_nonneg hshort.1]

theorem isReadBefore_symbol? {quantity : Quantity} (hlegal : quantity.Legal)
    {symbol : Symbol} (hsymbol : quantity.symbol? = some symbol) (rest : List Char) :
    IsReadBefore symbol rest := by
  rcases symbol?_eq_range hlegal hsymbol with ⟨mark, rfl, -⟩ | ⟨bound, hbound, rfl⟩
  · exact isReadBefore_quantity mark rest
  · have hbrace : EndsNumber ('}' :: rest) := fun c hc => by
      obtain rfl : '}' = c := by simpa using hc
      decide
    cases hbound with
    | plus hmost =>
        refine isReadBefore_braces (numberLength?_toDigits _ ?_) (boundLength?_plus _)
        intro c hc
        obtain rfl : '+' = c := by simpa using hc
        decide
    | same hmost =>
        exact isReadBefore_braces (numberLength?_toDigits _ hbrace) (boundLength?_brace _)
    | dash hmost =>
        refine isReadBefore_braces (numberLength?_toDigits _ ?_) (boundLength?_dash _ hbrace)
        intro c hc
        obtain rfl : '-' = c := by simpa using hc
        decide

theorem readBound_of_isShort {value : Int} (hvalue : Quantity.IsShort value) :
    Quantity.readBound (Nat.toDigits 10 value.toNat) = .ok value := by
  rw [Quantity.readBound_toDigits hvalue.2, Int.toNat_of_nonneg hvalue.1]

theorem ne_of_mem_toDigits {n : Nat} {c : Char} (mark : Char) (hmark : mark.isDigit = false)
    (hc : c ∈ Nat.toDigits 10 n) : c ≠ mark := by
  rintro rfl
  rw [Text.isDigit_of_mem_toDigits hc] at hmark
  cases hmark

/-- Spaces and tabs do not stand among digits. -/
theorem filter_toDigits (n : Nat) :
    (Nat.toDigits 10 n).filter (fun c => c ≠ ' ' && c ≠ '\t') = Nat.toDigits 10 n := by
  rw [List.filter_eq_self]
  intro c hc
  simp [ne_of_mem_toDigits ' ' (by decide) hc, ne_of_mem_toDigits '\t' (by decide) hc]

/-- A range is read as the quantity that it was written for. -/
theorem ofRange_eq {quantity : Quantity} (hlegal : quantity.Legal) {bound : List Char}
    (hbound : WritesBound quantity bound) :
    Quantity.ofRange
        (String.ofList ('{' :: (Nat.toDigits 10 quantity.least.toNat ++ bound ++ ['}']))) =
      .ok quantity := by
  have hleast := readBound_of_isShort hlegal.least_short
  have hdash : '-' ∉ Nat.toDigits 10 quantity.least.toNat := fun hmem =>
    ne_of_mem_toDigits '-' (by decide) hmem rfl
  unfold Quantity.ofRange
  rw [String.toList_ofList, List.drop_one, List.tail_cons, List.dropLast_concat,
    List.filter_append, filter_toDigits]
  cases hbound with
  | plus hmost =>
      have hplus : ['+'].filter (fun c => c ≠ ' ' && c ≠ '\t') = ['+'] := by decide
      have hsplit :
          Quantity.splitAtDash? (Nat.toDigits 10 quantity.least.toNat ++ ['+']) = none := by
        rw [Quantity.splitAtDash?_eq_none_iff]
        simp [hdash]
      rw [hplus]
      simp only [hsplit, List.getLast?_concat, List.dropLast_concat, if_pos, hleast]
      change Except.ok (⟨quantity.least, Quantity.unlimited⟩ : Quantity) = _
      rw [← hmost]
  | same hmost =>
      have hlast : (Nat.toDigits 10 quantity.least.toNat).getLast? ≠ some '+' := fun hlast =>
        ne_of_mem_toDigits '+' (by decide) (List.mem_of_getLast? hlast) rfl
      rw [List.filter_nil, List.append_nil]
      simp only [Quantity.splitAtDash?_eq_none_iff.mpr hdash, if_neg hlast, hleast]
      have hself : (⟨quantity.least, quantity.least⟩ : Quantity) = quantity :=
        congrArg (Quantity.mk quantity.least) hmost.symm
      exact congrArg Except.ok hself
  | dash hmost =>
      rw [List.filter_cons_of_pos (by decide), filter_toDigits]
      simp only [Quantity.splitAtDash?_append hdash, hleast, readBound_of_isShort hmost]
      rfl

end Lexeme

end Motif
