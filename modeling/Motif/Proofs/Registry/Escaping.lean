import Motif.Proofs.Registry.Experiments

/-!
# Faults that escape

Whatever a registry has gone through, compiling a text ends with a pattern or with a fault that
carries the name of the pattern. The lexer and the reading of ranges disagree only on blanks and on
the length of numbers, and nothing else lets another fault out.
-/

namespace Motif.Registry

open Lexeme (HasRange)

variable {registry : Registry}

theorem readBound_ne_pattern {cs : List Char} {fault : Fault}
    (hfault : Quantity.readBound cs = .error fault) (cause : PatternFault) :
    fault ≠ .pattern cause := by
  unfold Quantity.readBound at hfault
  split at hfault <;> cases hfault <;> exact Fault.noConfusion

/-- A range has no fault of the pattern: it is not an integer, or too long a one. -/
theorem ofRange_ne_pattern {range : String} {fault : Fault}
    (hfault : Quantity.ofRange range = .error fault) (cause : PatternFault) :
    fault ≠ .pattern cause := by
  -- Only the reading of a bound can fail.
  unfold Quantity.ofRange at hfault
  dsimp only at hfault
  split at hfault
  next =>
    obtain hlow | ⟨least, -, hfault⟩ := bind_eq_error_iff.mp hfault
    · exact readBound_ne_pattern hlow cause
    · obtain hhigh | ⟨most, -, ⟨⟩⟩ := bind_eq_error_iff.mp hfault
      exact readBound_ne_pattern hhigh cause
  next =>
    split at hfault
    next =>
      obtain hlow | ⟨least, -, ⟨⟩⟩ := bind_eq_error_iff.mp hfault
      exact readBound_ne_pattern hlow cause
    next =>
      obtain hcount | ⟨count, -, ⟨⟩⟩ := bind_eq_error_iff.mp hfault
      exact readBound_ne_pattern hcount cause

/-- Compiling gives a pattern or a fault of the pattern under its name, unless the text has a range
with a blank that is not skipped or with too many digits: the fault of such a range escapes. -/
theorem compile_history_cases (operations : List Operation) (text : String) (name : Option String)
    (kind : Kind) :
    (∃ pattern, (history operations).compile text name kind = .ok pattern) ∨
      (∃ cause, (history operations).compile text name kind = .error (.pattern cause) ∧
        cause.name = name) ∨
      ∃ range fault, HasRange text range ∧
        ¬ (SkipsBlanks (rangeContent range) ∧ HasShortNumbers (rangeContent range)) ∧
        Quantity.ofRange range = .error fault ∧ (∀ cause, fault ≠ .pattern cause) ∧
        (history operations).compile text name kind = .error fault := by
  have haccuses := (tidy_history operations).accuses_compile text name kind
  cases hcompile : (history operations).compile text name kind with
  | ok pattern => exact .inl ⟨pattern, rfl⟩
  | error fault =>
      obtain ⟨cause, rfl, hname⟩ | ⟨range, hrange, hfault⟩ := haccuses fault hcompile
      · exact .inr (.inl ⟨cause, rfl, hname⟩)
      · refine .inr (.inr ⟨range, fault, hrange, fun hplain => ?_, hfault,
          ofRange_ne_pattern hfault, rfl⟩)
        obtain ⟨quantity, hquantity⟩ := hrange.isWritten.exists_ofRange_iff.mpr hplain
        rw [hquantity] at hfault
        cases hfault

/-- The fault of a line end behind the plus of a range is none of the pattern. -/
theorem compile_history_escapes :
    ∃ fault, (history [.registerBasics]).compile "A\x7b3+\n\x7d" (some "Few") .derived =
      .error fault ∧ ∀ cause, fault ≠ .pattern cause := by
  obtain ⟨id, hid⟩ := lists_history_registerBasics.exists_idOf
    (literalWord_mem_basicWords (show 'A' ∈ printableAscii by decide))
  exact ⟨_, compile_eq_notInteger hid, by simp⟩

end Motif.Registry
