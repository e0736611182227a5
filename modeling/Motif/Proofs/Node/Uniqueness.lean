import Mathlib.Logic.Equiv.List
import Motif.Proofs.Node.Spelling
import Motif.Proofs.Text.Quoted

/-!
# Texts tell phrases

Readable phrases whose atoms are all quoted can be told from their text: it is read and parsed as a
tree in which every word has a code of its own.
-/

namespace Motif.Phrase

/-- Every atom is a quoted text. -/
def IsQuoted (alternatives : List (List Phrase)) : Prop :=
  ∀ sequence ∈ alternatives, ∀ phrase ∈ sequence, ∀ symbol, Mentions symbol phrase →
    ∃ word, symbol = .quoted (Text.quote word)

/-- Lists with the same images are the same if their elements are. -/
theorem eq_of_map_eq {α β : Type} {f : α → β} {first second : List α}
    (hsame : first.map f = second.map f)
    (heq : ∀ x ∈ first, ∀ y ∈ second, f x = f y → x = y) : first = second := by
  induction first generalizing second with
  | nil => exact (List.map_eq_nil_iff.mp hsame.symm).symm
  | cons x rest ih =>
      obtain ⟨y, others, rfl, hhead, htail⟩ := List.map_eq_cons_iff.mp hsame.symm
      rw [heq x List.mem_cons_self y List.mem_cons_self hhead.symm,
        ih htail.symm fun z hz w hw => heq z (List.mem_cons_of_mem _ hz) w
          (List.mem_cons_of_mem _ hw)]

/-- Phrases of one tree are the same if their symbols can be told by what they refer to. -/
theorem eq_of_tree_eq {target : Symbol → Int} {first second : Phrase}
    (htree : first.tree target = second.tree target)
    (hsymbol : ∀ symbol other, Mentions symbol first → Mentions other second →
      target symbol = target other → symbol = other) : first = second := by
  induction first using Phrase.memberInduction generalizing second with
  | atom symbol quantity look =>
      cases second with
      | atom other _ _ =>
          injection htree with hid hquantity hlook
          rw [hsymbol symbol other (.atom _ _) (.atom _ _) hid, hquantity, hlook]
      | parens => cases htree
  | parens alternatives quantity look ih =>
      cases second with
      | atom => cases htree
      | parens others _ _ =>
          injection htree with halternatives hquantity hlook
          rw [treesOfAlternatives_eq_map, treesOfAlternatives_eq_map] at halternatives
          -- The trees of the alternatives are equal one by one, and so are those in each of them.
          have hsame : alternatives = others := by
            apply eq_of_map_eq halternatives
            intro sequence hsequence other hother hsequences
            apply eq_of_map_eq hsequences
            intro phrase hphrase second hsecond htrees
            exact ih sequence hsequence phrase hphrase htrees fun symbol found hmention hfound =>
              hsymbol symbol found (.parens hsequence hphrase hmention)
                (.parens hother hsecond hfound)
          rw [hsame, hquantity, hlook]

/-- A number for every text. -/
def code (word : String) : Int :=
  (Encodable.encode (word.toList.map Char.toNat) : Nat)

theorem code_injective : Function.Injective code := by
  intro first second hcode
  have hnumbers := Encodable.encode_injective (Int.ofNat.inj hcode)
  have hinjective : Function.Injective Char.toNat := fun c d hsame => Char.toNat_inj.mp hsame
  exact String.toList_inj.mp (List.map_injective_iff.mpr hinjective hnumbers)

/-- The code of what a symbol refers to if it is quoted. -/
def codeOf (symbol : Symbol) : Int :=
  code (Text.unquote symbol.text)

/-- Readable phrases of quoted atoms are the same if their texts are. -/
theorem eq_of_textOf_eq {first second : List (List Phrase)} (hfirst : Readable first)
    (hsecond : Readable second) (hquoted : IsQuoted first) (hother : IsQuoted second)
    (htext : textOf first = textOf second) : first = second := by
  let scope : Node.Scope := { hasId := fun _ => false, idOf := fun name => some (code name) }
  have hparse : ∀ {alternatives : List (List Phrase)}, Readable alternatives →
      IsQuoted alternatives → ∀ {lexemes : List Lexeme},
        lexemes.map Lexeme.symbol = [Symbol.bar].intercalate (symbolsOfAlternatives alternatives) →
        Node.ofLexemes scope lexemes =
          .ok (Node.plainGroup (treesOfAlternatives codeOf alternatives)) := by
    intro alternatives hreadable hatoms lexemes hlexemes
    refine Node.ofLexemes_symbols scope none hreadable.nonempty hreadable.full hreadable.legible
      (fun sequence hsequence phrase hphrase symbol hmention position => ?_) hlexemes
    obtain ⟨word, rfl⟩ := hatoms sequence hsequence phrase hphrase symbol hmention
    rfl
  obtain ⟨lexemes, hread, hsymbols⟩ := Lexeme.exists_read
    (Lexeme.readsAs_textOf hfirst.legible Lexeme.breaks_nil) none
  obtain ⟨others, hreadOther, hsymbolsOther⟩ := Lexeme.exists_read
    (Lexeme.readsAs_textOf hsecond.legible Lexeme.breaks_nil) none
  rw [← htext, hread] at hreadOther
  cases hreadOther
  have htrees := (hparse hfirst hquoted hsymbols).symm.trans (hparse hsecond hother hsymbolsOther)
  have htree : (parens first .once .here).tree codeOf =
      (parens second .once .here).tree codeOf := by
    injection htrees
  have hsame : parens first .once .here = parens second .once .here := by
    apply eq_of_tree_eq htree
    intro symbol other hmention hmentionOther hcode
    cases hmention with
    | parens hsequence hphrase hinside =>
        cases hmentionOther with
        | parens hsequenceOther hphraseOther hinsideOther =>
            obtain ⟨word, rfl⟩ := hquoted _ hsequence _ hphrase _ hinside
            obtain ⟨found, rfl⟩ := hother _ hsequenceOther _ hphraseOther _ hinsideOther
            have hwords := code_injective hcode
            rw [Symbol.text, Symbol.text, Text.unquote_quote, Text.unquote_quote] at hwords
            rw [hwords]
  injection hsame

end Motif.Phrase
