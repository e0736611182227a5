import Motif.Proofs.Lexeme.Symbols
import Motif.Proofs.Node.Rendering

/-!
# Reading phrases

The text of a phrase is read as the lexemes of which it is made, wherever it stands, as long as what
follows can go on with none of them.
-/

namespace Motif

/-- The lexeme of a look, unless it is written as nothing. -/
def Look.symbol? : Look → Option Symbol
  | here => none
  | ahead => some (.look .ahead)
  | behind => some (.look .behind)

namespace Symbol

/-- A reference as it is written: a plain word, a quoted name or an id of at most nine digits. -/
def IsReference : Symbol → Prop
  | name text => Text.isWord text.toList = true
  | quoted text => ∃ inner, inner ≠ "" ∧ text = Text.quote inner
  | id text => ∃ n : Nat, n < 10 ^ 9 ∧ text = "[" ++ toString n ++ "]"
  | _ => False

end Symbol

namespace Phrase

mutual

/-- The lexemes of which a phrase is made. -/
def symbols : Phrase → List Symbol
  | atom symbol quantity look => look.symbol?.toList ++ symbol :: quantity.symbol?.toList
  | parens alternatives quantity look =>
    look.symbol?.toList ++
      (.opening :: [Symbol.bar].intercalate (symbolsOfAlternatives alternatives) ++ [.closing]) ++
        quantity.symbol?.toList

/-- The lexemes of the phrases of a sequence. -/
def symbolsOfSequence : List Phrase → List Symbol
  | [] => []
  | phrase :: rest => phrase.symbols ++ symbolsOfSequence rest

/-- The lexemes of each of the alternatives. -/
def symbolsOfAlternatives : List (List Phrase) → List (List Symbol)
  | [] => []
  | sequence :: rest => symbolsOfSequence sequence :: symbolsOfAlternatives rest

end

/-- What may stand before and behind a phrase: a quantity that can be written, and at most the
requirement of absence on what looks behind. -/
structure Allowed (quantity : Quantity) (look : Look) : Prop where
  legal : quantity.Legal
  behind : look = .behind → quantity = .once ∨ quantity = .never

theorem allowed_here {quantity : Quantity} (hlegal : quantity.Legal) : Allowed quantity .here :=
  ⟨hlegal, fun hlook => nomatch hlook⟩

theorem allowed_never_behind : Allowed .never .behind :=
  ⟨Quantity.legal_never, fun _ => .inr rfl⟩

theorem allowed_some : Allowed ⟨1, Quantity.unlimited⟩ .here :=
  allowed_here (Quantity.legal_unlimited Quantity.isShort_one)

theorem allowed_many : Allowed ⟨0, Quantity.unlimited⟩ .here :=
  allowed_here (Quantity.legal_unlimited Quantity.isShort_zero)

/-- A phrase that can be read again. -/
inductive Legible : Phrase → Prop where
  | atom {symbol : Symbol} {quantity : Quantity} {look : Look} (hsymbol : symbol.IsReference)
      (hallowed : Allowed quantity look) : Legible (.atom symbol quantity look)
  | parens {alternatives : List (List Phrase)} {quantity : Quantity} {look : Look}
      (halternatives : alternatives ≠ []) (hsequences : ∀ sequence ∈ alternatives, sequence ≠ [])
      (hphrases : ∀ sequence ∈ alternatives, ∀ phrase ∈ sequence, Legible phrase)
      (hallowed : Allowed quantity look) : Legible (.parens alternatives quantity look)

end Phrase

namespace Lexeme

open Phrase (Legible)
open Text (isWordChar)

theorem readFrom_skip (name : Option String) (position : Nat) (cs rest : List Char) :
    readFrom name position cs.length (cs ++ rest) =
        readFrom name (position + cs.length) 0 rest := by
  induction cs generalizing position with
  | nil => rfl
  | cons c tail ih =>
      rw [List.length_cons, List.cons_append, readFrom, ih]
      congr 1
      omega

/-- Before a text these characters are read as lexemes of these symbols. -/
def ReadsAs (cs : List Char) (symbols : List Symbol) (rest : List Char) : Prop :=
  ∀ name position, ∃ lexemes : List Lexeme, lexemes.map Lexeme.symbol = symbols ∧
    readFrom name position 0 (cs ++ rest) =
      (readFrom name (position + cs.length) 0 rest).map (lexemes ++ ·)

theorem ReadsAs.nil (rest : List Char) : ReadsAs [] [] rest := by
  intro name position
  refine ⟨[], rfl, ?_⟩
  cases hread : readFrom name position 0 rest <;> simp [hread, Except.map]

theorem ReadsAs.append {first second : List Char} {symbols others : List Symbol}
    {rest : List Char} (hfirst : ReadsAs first symbols (second ++ rest))
    (hsecond : ReadsAs second others rest) :
    ReadsAs (first ++ second) (symbols ++ others) rest := by
  intro name position
  obtain ⟨lexemes, hlexemes, hread⟩ := hfirst name position
  obtain ⟨more, hmore, hnext⟩ := hsecond name (position + first.length)
  refine ⟨lexemes ++ more, by rw [List.map_append, hlexemes, hmore], ?_⟩
  rw [List.append_assoc, hread, hnext, List.length_append, ← Nat.add_assoc]
  cases readFrom name (position + first.length + second.length) 0 rest <;> simp [Except.map]

theorem ReadsAs.space (rest : List Char) : ReadsAs [' '] [] rest := by
  intro name position
  refine ⟨[], rfl, ?_⟩
  have hread : readFrom name position 0 ([' '] ++ rest) = readFrom name (position + 1) 0 rest := by
    rw [List.singleton_append, readFrom, if_pos (by decide)]
  rw [hread]
  cases readFrom name (position + 1) 0 rest <;> simp [Except.map]

/-- A symbol that is read as itself is one lexeme, and reading goes on behind it. -/
theorem IsReadBefore.readFrom_eq {symbol : Symbol} {rest : List Char}
    (hsymbol : IsReadBefore symbol rest) (name : Option String) (position : Nat) :
    readFrom name position 0 (symbol.text.toList ++ rest) =
      (readFrom name (position + symbol.text.toList.length) 0 rest).map
        ([⟨symbol, position⟩] ++ ·) := by
  obtain ⟨c, tail, htext, hblank, hread⟩ := hsymbol
  rw [htext, List.cons_append, readFrom]
  simp only [hblank, Bool.false_eq_true, ↓reduceIte, hread]
  rw [readFrom_skip, List.length_cons, Nat.add_comm tail.length 1, ← Nat.add_assoc]
  rfl

theorem ReadsAs.symbol {symbol : Symbol} {rest : List Char} (hsymbol : IsReadBefore symbol rest) :
    ReadsAs symbol.text.toList [symbol] rest := fun name position =>
  ⟨[⟨symbol, position⟩], rfl, hsymbol.readFrom_eq name position⟩

theorem readsAs_look (look : Look) (rest : List Char) :
    ReadsAs look.mark.toList look.symbol?.toList rest := by
  cases look with
  | here => exact .nil rest
  | ahead => exact .symbol (isReadBefore_look .ahead rest)
  | behind => exact .symbol (isReadBefore_look .behind rest)

theorem text_of_symbol? {quantity : Quantity} :
    (quantity.symbol?.map Symbol.text).getD "" = quantity.suffix := by
  unfold Quantity.symbol?
  split
  next hquantity => rw [hquantity]; rfl
  next =>
    split
    next hquantity => rw [hquantity]; rfl
    next =>
      split
      next hquantity => rw [hquantity]; rfl
      next =>
        split
        next hquantity => rw [hquantity]; rfl
        next =>
          split
          next hquantity => rw [hquantity]; rfl
          next => rfl

theorem readsAs_suffix {quantity : Quantity} (hlegal : quantity.Legal) (rest : List Char) :
    ReadsAs quantity.suffix.toList quantity.symbol?.toList rest := by
  rw [← text_of_symbol?]
  cases hsymbol : quantity.symbol? with
  | none => exact .nil rest
  | some symbol => exact .symbol (isReadBefore_symbol? hlegal hsymbol rest)

theorem isReadBefore_reference {symbol : Symbol} (hsymbol : symbol.IsReference)
    {rest : List Char} (hrest : Breaks rest) : IsReadBefore symbol rest := by
  cases symbol with
  | name text => exact isReadBefore_name hsymbol hrest
  | quoted text =>
      obtain ⟨inner, hinner, rfl⟩ := hsymbol
      exact isReadBefore_quoted hinner hrest
  | id text =>
      obtain ⟨n, hn, rfl⟩ := hsymbol
      exact isReadBefore_id hn rest
  | _ => cases hsymbol

theorem breaks_cons {c : Char} (hword : isWordChar c = false) (hquote : c ≠ '\'')
    (rest : List Char) : Breaks (c :: rest) := by
  intro other hother
  obtain rfl : c = other := by simpa using hother
  exact ⟨hword, hquote⟩

theorem breaks_suffix {quantity : Quantity} (hlegal : quantity.Legal) {rest : List Char}
    (hrest : Breaks rest) : Breaks (quantity.suffix.toList ++ rest) := by
  rw [← text_of_symbol?]
  cases hsymbol : quantity.symbol? with
  | none => exact hrest
  | some symbol =>
      rcases symbol?_eq_range hlegal hsymbol with ⟨mark, rfl, -⟩ | ⟨bound, -, rfl⟩
      · cases mark <;> exact breaks_cons (by decide) (by decide) _
      · rw [Option.map_some, Option.getD_some, Symbol.text, String.toList_ofList]
        exact breaks_cons (by decide) (by decide) _

/-- A text that is read as the lexemes of a phrase, as long as nothing that follows goes on with
it. -/
def ReadsPhrase (text : String) (phrase : Phrase) : Prop :=
  ∀ rest, Breaks rest → ReadsAs text.toList phrase.symbols rest

/-- Texts with spaces between them are read as the lexemes of their phrases one after another. -/
theorem readsAs_spaced {pieces : List (String × Phrase)}
    (hpieces : ∀ piece ∈ pieces, ReadsPhrase piece.1 piece.2) {rest : List Char}
    (hrest : Breaks rest) :
    ReadsAs (" ".intercalate (pieces.map Prod.fst)).toList
      (Phrase.symbolsOfSequence (pieces.map Prod.snd)) rest := by
  induction pieces with
  | nil => exact .nil rest
  | cons first others ih =>
      have hfirst := hpieces first List.mem_cons_self
      cases others with
      | nil =>
          rw [List.map_singleton, List.map_singleton, String.intercalate_singleton,
            Phrase.symbolsOfSequence, Phrase.symbolsOfSequence, List.append_nil]
          exact hfirst rest hrest
      | cons second more =>
          have hothers := ih fun piece hmem => hpieces piece (List.mem_cons_of_mem _ hmem)
          rw [List.map_cons, List.map_cons, List.map_cons, String.intercalate_cons_cons,
            ← List.map_cons, List.map_cons, Phrase.symbolsOfSequence, String.toList_append,
            String.toList_append, List.append_assoc]
          refine (hfirst _ (breaks_cons (by decide) (by decide) _)).append ?_
          exact (ReadsAs.space _).append hothers

/-- Every phrase of a sequence is read as its lexemes. -/
def ReadsPhrases (sequence : List Phrase) : Prop :=
  ∀ phrase ∈ sequence, ReadsPhrase phrase.text phrase

theorem textsOfSequence_eq_map (sequence : List Phrase) :
    Phrase.textsOfSequence sequence = sequence.map Phrase.text := by
  induction sequence with
  | nil => rfl
  | cons first rest ih => rw [Phrase.textsOfSequence, ih, List.map_cons]

theorem readsAs_sequence {sequence : List Phrase} (hphrases : ReadsPhrases sequence)
    {rest : List Char} (hrest : Breaks rest) :
    ReadsAs (" ".intercalate (Phrase.textsOfSequence sequence)).toList
      (Phrase.symbolsOfSequence sequence) rest := by
  have hpieces : ∀ piece ∈ sequence.map (fun phrase => (phrase.text, phrase)),
      ReadsPhrase piece.1 piece.2 := by
    simpa [ReadsPhrases] using hphrases
  have hread := readsAs_spaced hpieces hrest
  rw [List.map_map, List.map_map] at hread
  simpa [textsOfSequence_eq_map, Function.comp_def] using hread

theorem readsAs_bar (rest : List Char) : ReadsAs " | ".toList [.bar] rest := by
  have hbar : ReadsAs ['|'] [.bar] ([' '] ++ rest) := .symbol (isReadBefore_bar _)
  exact (ReadsAs.space _).append (hbar.append (.space rest))

theorem readsAs_alternatives {alternatives : List (List Phrase)}
    (hphrases : ∀ sequence ∈ alternatives, ReadsPhrases sequence) {rest : List Char}
    (hrest : Breaks rest) :
    ReadsAs (Phrase.textOf alternatives).toList
      ([Symbol.bar].intercalate (Phrase.symbolsOfAlternatives alternatives)) rest := by
  induction alternatives with
  | nil => exact .nil rest
  | cons first others ih =>
      have hfirst := hphrases first List.mem_cons_self
      cases others with
      | nil =>
          rw [Phrase.textOf, Phrase.textsOfAlternatives, Phrase.textsOfAlternatives,
            String.intercalate_singleton, Phrase.symbolsOfAlternatives,
            Phrase.symbolsOfAlternatives, List.intercalate_singleton]
          exact readsAs_sequence hfirst hrest
      | cons second more =>
          have hothers := ih fun sequence hmem => hphrases sequence (List.mem_cons_of_mem _ hmem)
          rw [Phrase.textOf, Phrase.textsOfAlternatives, Phrase.symbolsOfAlternatives]
          rw [Phrase.textsOfAlternatives, Phrase.symbolsOfAlternatives,
            String.intercalate_cons_cons, List.intercalate_cons_cons, String.toList_append,
            String.toList_append, List.append_assoc, List.append_assoc]
          refine (readsAs_sequence hfirst (breaks_cons (by decide) (by decide) _)).append ?_
          exact (readsAs_bar _).append hothers

/-- A legible phrase is read as its lexemes. -/
theorem readsAs_phrase {phrase : Phrase} (hphrase : phrase.Legible) {rest : List Char}
    (hrest : Breaks rest) : ReadsAs phrase.text.toList phrase.symbols rest := by
  induction hphrase generalizing rest with
  | @atom symbol quantity look hsymbol hallowed =>
      rw [Phrase.text, Phrase.symbols, String.toList_append, String.toList_append,
        List.append_assoc]
      refine (readsAs_look look _).append ?_
      have hreference := ReadsAs.symbol (isReadBefore_reference hsymbol
        (breaks_suffix hallowed.legal hrest))
      exact hreference.append (readsAs_suffix hallowed.legal rest)
  | @parens alternatives quantity look _ _ _ hallowed ih =>
      have hinside : ∀ sequence ∈ alternatives, ReadsPhrases sequence :=
        fun sequence hsequence phrase hphrase rest hrest =>
          ih sequence hsequence phrase hphrase hrest
      rw [Phrase.text, Phrase.symbols]
      simp only [String.toList_append, List.append_assoc]
      refine (readsAs_look look _).append ?_
      have hclose : Breaks (")".toList ++ (quantity.suffix.toList ++ rest)) :=
        breaks_cons (by decide) (by decide) _
      have halternatives := readsAs_alternatives hinside hclose
      have hopening : ReadsAs "(".toList [.opening]
          ((Phrase.textOf alternatives).toList ++
            (")".toList ++ (quantity.suffix.toList ++ rest))) :=
        .symbol (isReadBefore_opening _)
      have hclosing : ReadsAs ")".toList [.closing] (quantity.suffix.toList ++ rest) :=
        .symbol (isReadBefore_closing _)
      have hsuffix := readsAs_suffix hallowed.legal rest
      have hbody := ((hopening.append halternatives).append hclosing).append hsuffix
      simpa [Phrase.textOf] using hbody

/-- The text of legible alternatives is read as their lexemes. -/
theorem readsAs_textOf {alternatives : List (List Phrase)}
    (hphrases : ∀ sequence ∈ alternatives, ∀ phrase ∈ sequence, phrase.Legible)
    {rest : List Char} (hrest : Breaks rest) :
    ReadsAs (Phrase.textOf alternatives).toList
      ([Symbol.bar].intercalate (Phrase.symbolsOfAlternatives alternatives)) rest :=
  readsAs_alternatives (fun sequence hsequence phrase hphrase _ hrest =>
    readsAs_phrase (hphrases sequence hsequence phrase hphrase) hrest) hrest

theorem breaks_nil : Breaks [] := fun c hc => by cases hc

/-- A text that is read as lexemes of these symbols up to its end consists of them. -/
theorem exists_read {text : String} {symbols : List Symbol}
    (hreads : ReadsAs text.toList symbols []) (name : Option String) :
    ∃ lexemes : List Lexeme, Lexeme.read text name = .ok lexemes ∧
      lexemes.map Lexeme.symbol = symbols := by
  obtain ⟨lexemes, hlexemes, hread⟩ := hreads name 0
  refine ⟨lexemes, ?_, hlexemes⟩
  rw [List.append_nil] at hread
  rw [Lexeme.read, hread, readFrom]
  simp [Except.map]

end Lexeme

end Motif
