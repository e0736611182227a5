import Motif.Proofs.Lexeme.Spacing

/-!
# Lexemes in their text

A text that is read is its lexemes with nothing but blanks around them: each lexeme stands where its
position says, none overlaps another, and each is written by the rule of its class.
-/

namespace Motif

open Text (isBlank isDigit isWordChar doubleQuotes)

/-- The symbol is written by the rule of its class. -/
inductive Symbol.IsFormed : Symbol → Prop where
  /-- A range of some form between braces. -/
  | range {text : String} {content : List Char} (htext : text.toList = '{' :: (content ++ ['}']))
      (hform : RangeForm content) : IsFormed (.range text)
  /-- A number of one to nine digits between brackets. -/
  | id {text : String} {content : List Char} (htext : text.toList = '[' :: (content ++ [']']))
      (hnumber : Padded content) (hfew : content.countP isDigit ≤ 9) : IsFormed (.id text)
  /-- Some characters between quotes, with each quote among them doubled. -/
  | quoted {inner : String} (hinner : inner ≠ "") : IsFormed (.quoted (Text.quote inner))
  /-- A plain word. -/
  | name {text : String} (hword : Text.isWord text.toList = true) : IsFormed (.name text)
  | opening : IsFormed .opening
  | closing : IsFormed .closing
  | bar : IsFormed .bar
  | look (mark : LookMark) : IsFormed (.look mark)
  | quantity (mark : QuantityMark) : IsFormed (.quantity mark)

theorem Symbol.IsFormed.length_pos {symbol : Symbol} (hformed : symbol.IsFormed) :
    0 < symbol.text.length := by
  rw [← String.length_toList]
  cases hformed with
  | range htext => simp [Symbol.text, htext]
  | id htext => simp [Symbol.text, htext]
  | quoted => simp [Symbol.text, Text.toList_quote]
  | @name text hword =>
      refine List.length_pos_iff.mpr fun hempty => ?_
      rw [Symbol.text] at hempty
      rw [hempty] at hword
      cases hword
  | opening => decide
  | closing => decide
  | bar => decide
  | look mark => cases mark <;> decide
  | quantity mark => cases mark <;> decide

namespace Lexeme

/-! ## The forms of single lexemes -/

/-- What is closed ends with the closing character. -/
theorem exists_take_closedLength? {close : Char} {cs : List Char} {passed length : Nat}
    (hlength : closedLength? close (cs.drop passed) = some length) :
    passed + length ≤ cs.length ∧ ∃ content, cs.take (passed + length) = content ++ [close] := by
  obtain ⟨blanks, rest, hdrop, -, rfl⟩ := exists_closedLength? hlength
  have hcount := congrArg List.length hdrop
  rw [List.length_drop, List.length_append, List.length_cons] at hcount
  refine ⟨by omega, cs.take passed ++ blanks, ?_⟩
  rw [List.take_add, hdrop, List.take_length_add_append, List.append_assoc]
  rfl

theorem range_of_rangeLength? {cs : List Char} {length : Nat}
    (hlength : rangeLength? cs = some length) : length ≤ cs.length ∧
      ∃ content, cs.take length = content ++ ['}'] ∧ RangeForm content := by
  have hform := rangeForm_of_rangeLength? hlength
  simp only [rangeLength?, Option.bind_eq_bind, Option.bind_eq_some_iff] at hlength
  obtain ⟨low, -, high, -, close, hclose, htotal⟩ := hlength
  cases htotal
  obtain ⟨hle, content, hcontent⟩ := exists_take_closedLength? hclose
  refine ⟨hle, content, hcontent, ?_⟩
  rwa [hcontent, List.dropLast_concat] at hform

theorem id_of_idLength? {cs : List Char} {length : Nat} (hlength : idLength? cs = some length) :
    length ≤ cs.length ∧
      ∃ content, cs.take length = content ++ [']'] ∧ Padded content ∧
        content.countP isDigit ≤ 9 := by
  obtain ⟨blanks, digits, others, htake, hblanks, hdigits, hothers, hne, hfew⟩ :=
    exists_idLength? hlength
  have hle : length ≤ cs.length := by
    simp only [idLength?, Option.bind_eq_bind, Option.bind_eq_some_iff] at hlength
    obtain ⟨number, -, hclosed⟩ := hlength
    split at hclosed
    next =>
      obtain ⟨close, hclose, htotal⟩ := Option.bind_eq_some_iff.mp hclosed
      cases htotal
      exact (exists_take_closedLength? hclose).1
    next => cases hclosed
  refine ⟨hle, _, htake, ⟨blanks, digits, others, rfl, hblanks, hdigits, hne, hothers⟩, ?_⟩
  rw [List.countP_append, List.countP_append, countP_isDigit_eq_zero hblanks,
    countP_isDigit_eq_zero hothers]
  have hcount := digits.countP_le_length (p := isDigit)
  omega

/-- A quoted name ends where it falls back to, or with a quote behind some characters of which each
quote is doubled. -/
theorem quoted_of_quotedLength? {passed : Nat} {fallback : Option Nat} {cs : List Char}
    {length : Nat} (hlength : quotedLength? passed fallback cs = some length) :
    fallback = some length ∨ ∃ inner rest, cs = doubleQuotes inner ++ '\'' :: rest ∧
      length = passed + (doubleQuotes inner).length + 1 ∧ (passed = 0 → inner ≠ []) := by
  fun_induction quotedLength? passed fallback cs with
  | case1 => exact .inl hlength
  | case2 passed fallback rest ih =>
      rcases ih hlength with hlast | ⟨inner, tail, rfl, rfl, -⟩
      · split at hlast
        next => exact .inl hlast
        next hpassed =>
          cases hlast
          exact .inr ⟨[], '\'' :: rest, rfl, rfl, fun hzero => absurd hzero hpassed⟩
      · exact .inr ⟨'\'' :: inner, tail, by simp [doubleQuotes], by simp [doubleQuotes]; omega,
          fun _ => List.cons_ne_nil _ _⟩
  | case3 => exact .inl hlength
  | case4 passed fallback rest hpassed =>
      cases hlength
      exact .inr ⟨[], rest, rfl, rfl, fun hzero => absurd hzero hpassed⟩
  | case5 passed fallback c rest _ hquote ih =>
      rcases ih hlength with hlast | ⟨inner, tail, rfl, rfl, -⟩
      · exact .inl hlast
      · exact .inr ⟨c :: inner, tail, by simp [doubleQuotes, hquote],
          by simp [doubleQuotes, hquote]; omega, fun _ => List.cons_ne_nil _ _⟩

theorem word_of_isAlpha {c : Char} (hc : c.isAlpha = true) (rest : List Char) :
    Text.isWord (c :: rest.take (spanLength isWordChar rest)) = true := by
  obtain ⟨front, tail, rfl, hfront, hlength⟩ := exists_spanLength isWordChar rest
  rw [← hlength, List.take_left, Text.isWord, hc, Bool.true_and, List.all_eq_true]
  exact hfront

theorem formed_of_mark? {c : Char} {symbol : Symbol} (hsymbol : mark? c = some symbol) :
    symbol.IsFormed ∧ symbol.text.toList = [c] := by
  unfold mark? at hsymbol
  split at hsymbol <;> cases hsymbol
  · exact ⟨.opening, rfl⟩
  · exact ⟨.closing, rfl⟩
  · exact ⟨.bar, rfl⟩
  all_goals first | exact ⟨.look _, rfl⟩ | exact ⟨.quantity _, rfl⟩

/-- A lexeme is a part of the text, written by the rule of its class. -/
theorem formed_of_symbolAt? {c : Char} {rest : List Char} {symbol : Symbol} {length : Nat}
    (hsymbol : symbolAt? c rest = some (symbol, length)) :
    symbol.IsFormed ∧ symbol.text.toList = c :: rest.take length ∧ length ≤ rest.length := by
  cases symbolAt?_eq_some_iff.mp hsymbol with
  | range hbrace hrange =>
      obtain ⟨hle, content, hcontent, hform⟩ := range_of_rangeLength? hrange
      exact ⟨.range (by rw [String.toList_ofList, hbrace, hcontent]) hform, String.toList_ofList,
        hle⟩
  | id hbracket hid =>
      obtain ⟨hle, content, hcontent, hnumber, hfew⟩ := id_of_idLength? hid
      exact ⟨.id (by rw [String.toList_ofList, hbracket, hcontent]) hnumber hfew,
        String.toList_ofList, hle⟩
  | quoted hopening hquoted =>
      obtain ⟨⟨⟩⟩ | ⟨inner, tail, rfl, rfl, hinner⟩ := quoted_of_quotedLength? hquoted
      refine ⟨?_, String.toList_ofList, by simp⟩
      have hquote : String.ofList (c :: (doubleQuotes inner ++ '\'' :: tail).take
          (0 + (doubleQuotes inner).length + 1)) = Text.quote (String.ofList inner) := by
        rw [← String.toList_inj, Text.toList_quote, String.toList_ofList, String.toList_ofList,
          Nat.zero_add, List.take_length_add_append, hopening]
        rfl
      rw [hquote]
      exact .quoted fun hempty => hinner rfl (by simpa using congrArg String.toList hempty)
  | name halpha hlength =>
      subst hlength
      refine ⟨.name ?_, String.toList_ofList, (List.takeWhile_sublist _).length_le⟩
      rw [String.toList_ofList]
      exact word_of_isAlpha halpha rest
  | mark hmark =>
      obtain ⟨hformed, htext⟩ := formed_of_mark? hmark
      exact ⟨hformed, htext, Nat.zero_le _⟩

/-! ## Partitions -/

/-- The place behind the lexeme. -/
def stop (lexeme : Lexeme) : Nat :=
  lexeme.position + lexeme.text.length

/-- The place belongs to the lexeme. -/
def Covers (lexeme : Lexeme) (place : Nat) : Prop :=
  lexeme.position ≤ place ∧ place < lexeme.stop

/-- From a position on, a text is these lexemes with nothing but blanks around them. -/
inductive Splits : Nat → List Char → List Lexeme → Prop where
  | done (position : Nat) : Splits position [] []
  | blank {position : Nat} {c : Char} {rest : List Char} {lexemes : List Lexeme}
      (hc : isBlank c = true) (hrest : Splits (position + 1) rest lexemes) :
      Splits position (c :: rest) lexemes
  | lexeme {position : Nat} {symbol : Symbol} {rest : List Char} {lexemes : List Lexeme}
      (hformed : symbol.IsFormed) (hrest : Splits (position + symbol.text.length) rest lexemes) :
      Splits position (symbol.text.toList ++ rest) (⟨symbol, position⟩ :: lexemes)

/-- Behind what belongs to a lexeme that has been read, the text is split into the lexemes. -/
theorem splits_readFrom {name : Option String} {position skip : Nat} {cs : List Char}
    {lexemes : List Lexeme} (hread : readFrom name position skip cs = .ok lexemes)
    (hskip : skip ≤ cs.length) : Splits (position + skip) (cs.drop skip) lexemes := by
  induction cs generalizing position skip lexemes with
  | nil =>
      cases hread
      rw [List.drop_nil]
      exact .done _
  | cons c rest ih =>
      unfold readFrom at hread
      split at hread
      next skip =>
        have hrest := ih hread (by simpa using hskip)
        rwa [Nat.add_right_comm, Nat.add_assoc] at hrest
      next =>
        split at hread
        next hblank => exact .blank hblank (ih hread (Nat.zero_le _))
        next =>
          split at hread
          next symbol length hsymbol =>
            obtain ⟨more, hmore, hpure⟩ := bind_eq_ok_iff.mp hread
            cases hpure
            obtain ⟨hformed, htext, hle⟩ := formed_of_symbolAt? hsymbol
            have hcut : c :: rest = symbol.text.toList ++ rest.drop length := by
              rw [htext, List.cons_append, List.take_append_drop]
            have hlength : symbol.text.length = length + 1 := by
              rw [← String.length_toList, htext, List.length_cons, List.length_take_of_le hle]
            rw [List.drop_zero, hcut, Nat.add_zero]
            refine .lexeme hformed ?_
            rw [hlength, Nat.add_comm length, ← Nat.add_assoc]
            exact ih hmore hle
          next => cases hread

/-- The lexemes are the parts of a text but for blanks. -/
structure IsPartition (text : List Char) (lexemes : List Lexeme) : Prop where
  slice : ∀ lexeme ∈ lexemes,
    (text.drop lexeme.position).take lexeme.text.length = lexeme.text.toList
  ordered : lexemes.Pairwise fun before after =>
    before.position < after.position ∧ before.stop ≤ after.position
  blank : ∀ place c, text[place]? = some c → (∀ lexeme ∈ lexemes, ¬ lexeme.Covers place) →
    isBlank c = true
  formed : ∀ lexeme ∈ lexemes, lexeme.symbol.IsFormed

namespace Splits

variable {position : Nat} {cs : List Char} {lexemes : List Lexeme}

theorem formed (hsplits : Splits position cs lexemes) :
    ∀ lexeme ∈ lexemes, lexeme.symbol.IsFormed := by
  induction hsplits with
  | done => simp
  | blank _ _ ih => exact ih
  | lexeme hformed _ ih => simpa using ⟨hformed, ih⟩

theorem slice (hsplits : Splits position cs lexemes) : ∀ lexeme ∈ lexemes,
    ∃ offset, lexeme.position = position + offset ∧
      (cs.drop offset).take lexeme.text.length = lexeme.text.toList := by
  induction hsplits with
  | done => simp
  | blank _ _ ih =>
      intro lexeme hlexeme
      obtain ⟨offset, hposition, hslice⟩ := ih lexeme hlexeme
      exact ⟨offset + 1, by omega, hslice⟩
  | @lexeme position symbol rest lexemes _ _ ih =>
      intro lexeme hlexeme
      rcases List.mem_cons.mp hlexeme with rfl | hlexeme
      · refine ⟨0, rfl, ?_⟩
        rw [List.drop_zero, Lexeme.text, ← String.length_toList, List.take_left]
      · obtain ⟨offset, hposition, hslice⟩ := ih lexeme hlexeme
        refine ⟨symbol.text.toList.length + offset, by rw [String.length_toList]; omega, ?_⟩
        rwa [List.drop_length_add_append]

theorem le_position (hsplits : Splits position cs lexemes) :
    ∀ lexeme ∈ lexemes, position ≤ lexeme.position := by
  intro lexeme hlexeme
  obtain ⟨offset, hposition, -⟩ := hsplits.slice lexeme hlexeme
  omega

theorem ordered (hsplits : Splits position cs lexemes) : lexemes.Pairwise fun before after =>
    before.position < after.position ∧ before.stop ≤ after.position := by
  induction hsplits with
  | done => exact .nil
  | blank _ _ ih => exact ih
  | @lexeme position symbol rest lexemes hformed hrest ih =>
      refine List.pairwise_cons.mpr ⟨fun after hafter => ?_, ih⟩
      have hle := hrest.le_position after hafter
      have hpos := hformed.length_pos
      simp only [stop, Lexeme.text]
      omega

theorem isBlank_of_not_covers (hsplits : Splits position cs lexemes) {place : Nat} {c : Char}
    (hc : cs[place]? = some c)
    (hplace : ∀ lexeme ∈ lexemes, ¬ lexeme.Covers (position + place)) : isBlank c = true := by
  induction hsplits generalizing place with
  | done => simp at hc
  | @blank position first rest lexemes hfirst _ ih =>
      cases place with
      | zero =>
          obtain rfl : first = c := by simpa using hc
          exact hfirst
      | succ place =>
          have hrest : rest[place]? = some c := by simpa using hc
          refine ih hrest fun lexeme hlexeme => ?_
          rw [Nat.add_right_comm, Nat.add_assoc]
          exact hplace lexeme hlexeme
  | @lexeme position symbol rest lexemes _ _ ih =>
      have hout := hplace _ List.mem_cons_self
      have hbehind : symbol.text.toList.length ≤ place := by
        rw [String.length_toList]
        simp only [Covers, stop, Lexeme.text] at hout
        omega
      rw [List.getElem?_append_right hbehind] at hc
      refine ih hc fun lexeme hlexeme => ?_
      have hsame : position + symbol.text.length + (place - symbol.text.toList.length) =
          position + place := by
        rw [String.length_toList] at hbehind ⊢
        omega
      rw [hsame]
      exact hplace lexeme (List.mem_cons_of_mem _ hlexeme)

theorem isPartition (hsplits : Splits 0 cs lexemes) : IsPartition cs lexemes where
  slice lexeme hlexeme := by
    obtain ⟨offset, hposition, hslice⟩ := hsplits.slice lexeme hlexeme
    rwa [hposition, Nat.zero_add]
  ordered := hsplits.ordered
  blank place c hc hplace :=
    hsplits.isBlank_of_not_covers hc (by simpa only [Nat.zero_add] using hplace)
  formed := hsplits.formed

end Splits

/-- What is read of a text is a partition of it. -/
theorem isPartition_read {text : String} {name : Option String} {lexemes : List Lexeme}
    (hread : read text name = .ok lexemes) : IsPartition text.toList lexemes := by
  have hsplits := splits_readFrom hread (Nat.zero_le _)
  exact hsplits.isPartition

end Lexeme

end Motif
