import Motif.Lexeme.Lexer
import Motif.Text.Quoted

/-!
# Quoting and unquoting

Unquoting takes back what quoting does. The closing quote of a quoted text is found where it was
put, unless another quote follows it.
-/

namespace Motif.Text

theorem halveQuotes_doubleQuotes (cs : List Char) : halveQuotes (doubleQuotes cs) = cs := by
  induction cs with
  | nil => rfl
  | cons c rest ih =>
      rw [doubleQuotes]
      split
      next hquote =>
        subst hquote
        rw [halveQuotes, ih]
      next hquote =>
        rw [halveQuotes, ih]
        simp [hquote]

theorem toList_quote (text : String) :
    (quote text).toList = '\'' :: doubleQuotes text.toList ++ ['\''] := by
  simp [quote]

theorem unquote_quote (text : String) : unquote (quote text) = text := by
  unfold unquote
  rw [toList_quote]
  simp [halveQuotes_doubleQuotes]

end Motif.Text

namespace Motif.Lexeme

open Motif.Text (doubleQuotes)

/-- Inside a quoted text no quote closes it, because each of its own is doubled. -/
theorem quotedLength?_doubleQuotes (cs : List Char) {rest : List Char}
    (hrest : rest.head? ≠ some '\'') (passed : Nat) (fallback : Option Nat)
    (hpassed : cs = [] → passed ≠ 0) :
    quotedLength? passed fallback (doubleQuotes cs ++ '\'' :: rest) =
      some (passed + (doubleQuotes cs).length + 1) := by
  induction cs generalizing passed fallback with
  | nil =>
      have hpositive := hpassed rfl
      cases rest with
      | nil => simp [doubleQuotes, quotedLength?, hpositive]
      | cons head tail =>
          have hhead : head ≠ '\'' := by simpa using hrest
          simp [doubleQuotes, quotedLength?, hpositive, hhead]
  | cons c tail ih =>
      rw [doubleQuotes]
      split
      next hquote =>
        rw [List.cons_append, List.cons_append, quotedLength?, ih _ _ (by omega)]
        simp only [List.length_cons, Option.some.injEq]
        omega
      next hquote =>
        rw [List.cons_append, quotedLength?, if_neg hquote, ih _ _ (by omega)]
        · simp only [List.length_cons, Option.some.injEq]
          omega
        · intro other hother
          exact absurd hother hquote

end Motif.Lexeme
