import Motif.Proofs.Lexeme.Partition

/-!
# Cutting a text

How far a lexeme reaches is told from the front of the text into which it fits. So what stands
before the character at which reading fails can be read by itself.
-/

namespace Motif.Lexeme

open Text (isBlank isDigit isWordChar)

/-- The length of what fits into the front of a text is told from the front alone. -/
def IsLocal (length? : List Char → Option Nat) : Prop :=
  ∀ ⦃front back : List Char⦄ ⦃length : Nat⦄, length? (front ++ back) = some length →
    length ≤ front.length → length? front = some length

/-- What is measured behind some characters of a front is told from the rest of the front. -/
theorem IsLocal.drop {length? : List Char → Option Nat} (hlocal : IsLocal length?)
    {front back : List Char} {passed length : Nat}
    (hlength : length? ((front ++ back).drop passed) = some length)
    (hfits : passed + length ≤ front.length) : length? (front.drop passed) = some length := by
  rw [List.drop_append_of_le_length (by omega)] at hlength
  exact hlocal hlength (by rw [List.length_drop]; omega)

section Spans

variable {accepts : Char → Bool} {front : List Char}

theorem spanLength_le (cs : List Char) : spanLength accepts cs ≤ cs.length :=
  (List.takeWhile_sublist _).length_le

/-- A run that ends within the front is the same in front of anything. -/
theorem spanLength_front_of_lt (hends : spanLength accepts front < front.length)
    (back : List Char) : spanLength accepts (front ++ back) = spanLength accepts front := by
  unfold spanLength at hends ⊢
  rw [List.takeWhile_append, if_neg (by omega)]

theorem spanLength_front {back : List Char}
    (hfits : spanLength accepts (front ++ back) ≤ front.length) :
    spanLength accepts (front ++ back) = spanLength accepts front := by
  have hle : spanLength accepts front ≤ front.length := spanLength_le front
  rcases Nat.lt_or_eq_of_le hle with hends | hwhole
  · exact spanLength_front_of_lt hends back
  · unfold spanLength at hfits hwhole ⊢
    rw [List.takeWhile_append, if_pos hwhole, List.length_append] at hfits ⊢
    omega

/-- Where a run ends before a character of the front, the same stands behind the run in front of
anything. -/
theorem drop_spanLength_append {c : Char} {rest : List Char}
    (hdrop : front.drop (spanLength accepts front) = c :: rest) (back : List Char) :
    (front ++ back).drop (spanLength accepts (front ++ back)) = c :: (rest ++ back) := by
  have hcount := congrArg List.length hdrop
  rw [List.length_drop, List.length_cons] at hcount
  rw [spanLength_front_of_lt (by omega), List.drop_append_of_le_length (by omega), hdrop,
    List.cons_append]

theorem exists_drop_spanLength {back : List Char} {c : Char} {rest : List Char}
    (hdrop : (front ++ back).drop (spanLength accepts (front ++ back)) = c :: rest)
    (hfits : spanLength accepts (front ++ back) < front.length) :
    ∃ tail, front.drop (spanLength accepts front) = c :: tail ∧ rest = tail ++ back ∧
      spanLength accepts (front ++ back) = spanLength accepts front := by
  have hsame : spanLength accepts (front ++ back) = spanLength accepts front :=
    spanLength_front hfits.le
  obtain ⟨first, tail, hcons⟩ := List.exists_cons_of_ne_nil
    (List.drop_eq_nil_iff.not.mpr (hsame ▸ hfits).not_ge)
  rw [drop_spanLength_append hcons back] at hdrop
  cases hdrop
  exact ⟨tail, hcons, rfl, hsame⟩

end Spans

theorem isLocal_numberLength? : IsLocal numberLength? := by
  intro front back length hlength hfits
  unfold numberLength? at hlength ⊢
  dsimp only at hlength ⊢
  split at hlength
  next => cases hlength
  next hdigits =>
    cases hlength
    have hblanks : spanLength isBlank (front ++ back) = spanLength isBlank front :=
      spanLength_front (by omega)
    rw [hblanks, List.drop_append_of_le_length (spanLength_le front)] at hdigits hfits ⊢
    rw [spanLength_front (by rw [List.length_drop]; omega)] at hdigits ⊢
    rw [if_neg hdigits]

theorem isLocal_closedLength? (close : Char) : IsLocal (closedLength? close) := by
  intro front back length hlength hfits
  unfold closedLength? at hlength ⊢
  dsimp only at hlength ⊢
  split at hlength
  next hhead =>
    cases hlength
    have hblanks : spanLength isBlank (front ++ back) = spanLength isBlank front :=
      spanLength_front (by omega)
    rw [hblanks] at hhead hfits ⊢
    rw [List.head?_drop, List.getElem?_append_left (by omega), ← List.head?_drop] at hhead
    rw [if_pos hhead]
  next => cases hlength

theorem isLocal_boundLength? : IsLocal boundLength? := by
  intro front back length hlength hfits
  unfold boundLength? at hlength ⊢
  dsimp only at hlength ⊢
  split at hlength
  next rest hdrop =>
    obtain ⟨number, hnumber, rfl⟩ := Option.map_eq_some_iff.mp hlength
    obtain ⟨tail, hfront, rfl, hsame⟩ := exists_drop_spanLength hdrop (by omega)
    have hcount := congrArg List.length hfront
    rw [List.length_drop, List.length_cons] at hcount
    simp only [hfront, hsame, isLocal_numberLength? hnumber (by omega), Option.map_some]
  next rest hdrop =>
    cases hlength
    obtain ⟨tail, hfront, -, hsame⟩ := exists_drop_spanLength hdrop (by omega)
    simp only [hfront, hsame]
  next hdash hplus =>
    cases hlength
    split
    next rest hdrop => exact absurd (drop_spanLength_append hdrop back) (hdash _)
    next rest hdrop => exact absurd (drop_spanLength_append hdrop back) (hplus _)
    next => rfl

theorem isLocal_rangeLength? : IsLocal rangeLength? := by
  intro front back length hlength hfits
  simp only [rangeLength?, Option.bind_eq_bind, Option.bind_eq_some_iff] at hlength ⊢
  obtain ⟨low, hlow, high, hhigh, close, hclose, htotal⟩ := hlength
  cases htotal
  exact ⟨low, isLocal_numberLength? hlow (by omega), high,
    isLocal_boundLength?.drop hhigh (by omega), close,
    (isLocal_closedLength? '}').drop hclose hfits, rfl⟩

theorem isLocal_idLength? : IsLocal idLength? := by
  intro front back length hlength hfits
  simp only [idLength?, Option.bind_eq_bind, Option.bind_eq_some_iff] at hlength ⊢
  obtain ⟨number, hnumber, hlength⟩ := hlength
  obtain ⟨_, _, _, -, -, -, -, hfront, htotal⟩ := exists_numberLength? hnumber
  split at hlength
  next hfew =>
    obtain ⟨close, hclose, hpure⟩ := Option.bind_eq_some_iff.mp hlength
    cases hpure
    refine ⟨number, isLocal_numberLength? hnumber (by omega), ?_⟩
    have hblanks : spanLength isBlank (front ++ back) = spanLength isBlank front :=
      spanLength_front (by omega)
    rw [← hblanks, if_pos hfew, (isLocal_closedLength? ']').drop hclose hfits]
    rfl
  next => cases hlength

/-- A quoted name ends at its fallback or behind what has been read of it. -/
theorem quotedLength?_bound {passed : Nat} {fallback : Option Nat} {cs : List Char} {length : Nat}
    (hlength : quotedLength? passed fallback cs = some length) :
    fallback = some length ∨ passed < length := by
  rcases quoted_of_quotedLength? hlength with hlast | ⟨inner, rest, -, rfl, -⟩
  · exact .inl hlast
  · exact .inr (by omega)

/-- A quote that no other follows closes the name; where another follows, an end that is reached
so early can only be that quote. -/
theorem closing_of_quotedLength? {passed : Nat} {fallback : Option Nat} {rest : List Char}
    {length : Nat} (hlength : quotedLength? passed fallback ('\'' :: rest) = some length)
    (hends : rest.head? = some '\'' → length ≤ passed + 1) :
    (if passed = 0 then fallback else some (passed + 1)) = some length := by
  by_cases hpair : rest.head? = some '\''
  · obtain ⟨tail, rfl⟩ := List.head?_eq_some_iff.mp hpair
    rw [quotedLength?] at hlength
    rcases quotedLength?_bound hlength with hlast | hbehind
    · exact hlast
    · have hle := hends hpair
      omega
  · rw [quotedLength?, if_pos rfl] at hlength
    · exact hlength
    · rintro tail - rfl
      exact hpair rfl

theorem quotedLength?_front {passed : Nat} {fallback : Option Nat} {front back : List Char}
    {length : Nat} (hlength : quotedLength? passed fallback (front ++ back) = some length)
    (hfits : length ≤ passed + front.length) :
    quotedLength? passed fallback front = some length := by
  -- Where the front ends with a quote that is not doubled in it, the end cannot lie behind it.
  have hshort : ∀ {passed : Nat} {rest : List Char},
      (∀ tail, '\'' = '\'' → rest = '\'' :: tail → False) →
      length ≤ passed + ('\'' :: rest).length →
      (rest ++ back).head? = some '\'' → length ≤ passed + 1 := by
    intro passed rest hsingle hfits hhead
    cases rest with
    | nil => exact hfits
    | cons c tail =>
        obtain rfl : c = '\'' := by simpa using hhead
        exact absurd rfl (hsingle tail rfl)
  fun_induction quotedLength? passed fallback front with
  | case1 passed fallback =>
      rcases quotedLength?_bound hlength with hlast | hbehind
      · exact hlast
      · simp at hfits
        omega
  | case2 passed fallback rest ih =>
      refine ih hlength ?_
      simp only [List.length_cons] at hfits
      omega
  | case3 fallback rest hsingle =>
      exact closing_of_quotedLength? hlength (hshort hsingle hfits)
  | case4 passed fallback rest hpassed hsingle =>
      rw [← closing_of_quotedLength? hlength (hshort hsingle hfits), if_neg hpassed]
  | case5 passed fallback c rest hpair hquote ih =>
      rw [List.cons_append, quotedLength?, if_neg hquote] at hlength
      · refine ih hlength ?_
        simp only [List.length_cons] at hfits
        omega
      · intro other hother
        exact absurd hother hquote

theorem isLocal_quotedLength? : IsLocal (quotedLength? 0 none) := by
  intro front back length hlength hfits
  exact quotedLength?_front hlength (by omega)

theorem symbolAt?_front {c : Char} {front back : List Char} {symbol : Symbol} {length : Nat}
    (hsymbol : symbolAt? c (front ++ back) = some (symbol, length))
    (hfits : length ≤ front.length) : symbolAt? c front = some (symbol, length) := by
  rw [symbolAt?_eq_some_iff] at hsymbol ⊢
  have htake : (front ++ back).take length = front.take length :=
    List.take_append_of_le_length hfits
  cases hsymbol with
  | range hc hlength =>
      rw [htake]
      exact .range hc (isLocal_rangeLength? hlength hfits)
  | id hc hlength =>
      rw [htake]
      exact .id hc (isLocal_idLength? hlength hfits)
  | quoted hc hlength =>
      rw [htake]
      exact .quoted hc (isLocal_quotedLength? hlength hfits)
  | name hc hlength =>
      rw [htake]
      exact .name hc ((spanLength_front (hlength.trans_le hfits)).symm.trans hlength)
  | mark hmark => exact .mark hmark

/-- Reading fails at a character, which is blamed; what stands before it is read. -/
theorem exists_front_of_readFrom {name : Option String} {position skip : Nat} {cs : List Char}
    {fault : PatternFault} (hread : readFrom name position skip cs = .error fault)
    (hskip : skip ≤ cs.length) : ∃ front c rest, cs = front ++ c :: rest ∧ skip ≤ front.length ∧
      fault.position = some (position + front.length) ∧ fault.token = some (String.ofList [c]) ∧
      ∃ lexemes, readFrom name position skip front = .ok lexemes := by
  induction cs generalizing position skip with
  | nil => cases hread
  | cons c rest ih =>
      unfold readFrom at hread
      split at hread
      next skip =>
        obtain ⟨front, last, tail, rfl, hle, hposition, htoken, hfront⟩ :=
          ih hread (by simpa using hskip)
        refine ⟨c :: front, last, tail, rfl, by simpa using hle, ?_, htoken, hfront⟩
        rw [hposition, List.length_cons, Nat.add_right_comm, Nat.add_assoc]
      next =>
        split at hread
        next hblank =>
          obtain ⟨front, last, tail, rfl, -, hposition, htoken, lexemes, hfront⟩ :=
            ih hread (Nat.zero_le _)
          refine ⟨c :: front, last, tail, rfl, Nat.zero_le _, ?_, htoken, lexemes, ?_⟩
          · rw [hposition, List.length_cons, Nat.add_right_comm, Nat.add_assoc]
          · rw [readFrom, if_pos hblank]
            exact hfront
        next hblank =>
          split at hread
          next symbol length hsymbol =>
            rcases bind_eq_error_iff.mp hread with hrest | ⟨_, _, ⟨⟩⟩
            have hlength := (formed_of_symbolAt? hsymbol).2.2
            obtain ⟨front, last, tail, rfl, hle, hposition, htoken, lexemes, hfront⟩ :=
              ih hrest hlength
            refine ⟨c :: front, last, tail, rfl, Nat.zero_le _, ?_, htoken,
              ⟨symbol, position⟩ :: lexemes, ?_⟩
            · rw [hposition, List.length_cons, Nat.add_right_comm, Nat.add_assoc]
            · rw [readFrom, if_neg hblank, symbolAt?_front hsymbol hle]
              simp only [hfront]
              rfl
          next =>
            cases hread
            exact ⟨[], c, rest, rfl, Nat.zero_le _, rfl, rfl, [], rfl⟩

end Motif.Lexeme
