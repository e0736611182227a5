import Motif.Proofs.Lexeme.Spacing
import Motif.Proofs.Node.Acceptance
import Motif.Proofs.Registry.Tidiness

/-!
# Refused texts

A text is compiled, or the fault is one of the pattern under the name that it was given, or it is
that of a range in the text. A text whose ranges can be read is compiled or to blame.
-/

namespace Motif

open Node.Parser (Accuses Blames Excused)

namespace Lexeme

/-- The name that a fault would carry does not matter to what is read. -/
theorem readFrom_rename {name : Option String} (other : Option String) {position skip : Nat}
    {cs : List Char} {lexemes : List Lexeme}
    (hread : readFrom name position skip cs = .ok lexemes) :
    readFrom other position skip cs = .ok lexemes := by
  induction cs generalizing position skip lexemes with
  | nil => exact hread
  | cons c rest ih =>
      unfold readFrom at hread ⊢
      split at hread
      next => exact ih hread
      next =>
        split at hread
        next hblank =>
          rw [if_pos hblank]
          exact ih hread
        next hblank =>
          rw [if_neg hblank]
          split at hread
          next symbol length hsymbol =>
            obtain ⟨more, hmore, hpure⟩ := bind_eq_ok_iff.mp hread
            exact bind_eq_ok_iff.mpr ⟨more, ih hmore, hpure⟩
          next => cases hread

/-- Every range in the text can be read as a quantity. -/
def ReadsRanges (text : String) : Prop :=
  ∀ lexemes, read text = .ok lexemes → ∀ lexeme ∈ lexemes, ∀ range, lexeme.symbol = .range range →
    ∃ quantity, Quantity.ofRange range = .ok quantity

/-- The text has this range in it. -/
def HasRange (text range : String) : Prop :=
  ∃ lexemes, read text = .ok lexemes ∧ .range range ∈ lexemes.map Lexeme.symbol

theorem HasRange.isWritten {text range : String} (hrange : HasRange text range) :
    IsWritten (.range range) := by
  obtain ⟨lexemes, hread, hmem⟩ := hrange
  exact ⟨text, lexemes, hread, hmem⟩

/-- The fault is that of a range in the text. -/
def IsRangeFault (text : String) (fault : Fault) : Prop :=
  ∃ range, HasRange text range ∧ Quantity.ofRange range = .error fault

theorem ReadsRanges.not_isRangeFault {text : String} (hranges : ReadsRanges text) (fault : Fault) :
    ¬ IsRangeFault text fault := by
  rintro ⟨range, ⟨lexemes, hread, hmem⟩, hfault⟩
  obtain ⟨lexeme, hlexeme, hsymbol⟩ := List.mem_map.mp hmem
  obtain ⟨quantity, hquantity⟩ := hranges lexemes hread lexeme hlexeme range hsymbol
  rw [hquantity] at hfault
  cases hfault

/-- All numbers in lexemes can be read but for those in ranges. -/
theorem excused_of_read {text : String} {name : Option String} {lexemes : List Lexeme}
    (hread : read text name = .ok lexemes) :
    ∀ lexeme ∈ lexemes, Excused (IsRangeFault text) lexeme.symbol := by
  have hread : read text = .ok lexemes := readFrom_rename none hread
  intro lexeme hlexeme
  have hmem : lexeme.symbol ∈ lexemes.map Lexeme.symbol := List.mem_map_of_mem hlexeme
  constructor
  · intro written hsymbol
    have hwritten : IsWritten (.id written) := ⟨text, lexemes, hread, hsymbol ▸ hmem⟩
    exact hwritten.exists_readBound
  · intro range hsymbol fault hfault
    exact ⟨range, ⟨lexemes, hread, hsymbol ▸ hmem⟩, hfault⟩

/-- What cannot be read carries the name that it was given. -/
theorem name_of_readFrom {name : Option String} {position skip : Nat} {cs : List Char}
    {fault : PatternFault} (hread : readFrom name position skip cs = .error fault) :
    fault.name = name := by
  induction cs generalizing position skip with
  | nil => cases hread
  | cons c rest ih =>
      unfold readFrom at hread
      split at hread
      next => exact ih hread
      next =>
        split at hread
        next => exact ih hread
        next =>
          split at hread
          next symbol length hsymbol =>
            cases hmore : readFrom name (position + 1) length rest with
            | error found =>
                rw [hmore] at hread
                cases hread
                exact ih hmore
            | ok lexemes =>
                rw [hmore] at hread
                cases hread
          next => cases hread; rfl

end Lexeme

namespace Registry

variable {registry : Registry} {text : String}

open Lexeme (IsRangeFault ReadsRanges)

theorem accuses_compileTree (scope : Node.Scope) (text : String) (name : Option String) :
    Accuses (fun cause => cause.name = name) (IsRangeFault text) (compileTree scope text name) := by
  unfold compileTree
  cases hread : Lexeme.read text name with
  | error cause =>
      rintro fault ⟨⟩
      exact .inl ⟨cause, rfl, Lexeme.name_of_readFrom hread⟩
  | ok lexemes =>
      have hparse : Accuses (fun cause => cause.name = name) (IsRangeFault text)
          (Node.ofLexemes scope lexemes name) :=
        Node.Parser.accuses_ofLexemes (Lexeme.excused_of_read hread) (fun _ _ _ => rfl) rfl
      refine hparse.bind fun parsed _ => ?_
      dsimp only
      split
      next =>
        rintro fault ⟨⟩
        exact .inl ⟨_, rfl, rfl⟩
      next => exact .ok _

theorem Tidy.known_of_idOf (htidy : registry.Tidy) {name : String} {id : Int}
    (hid : registry.scope.idOf name = some id) : (registry.byId? id).isSome := by
  obtain ⟨pattern, hpattern, rfl⟩ := Option.map_eq_some_iff.mp hid
  obtain ⟨serial, hnamed, hserial⟩ := Option.bind_eq_some_iff.mp hpattern
  obtain ⟨found, hentry, hfound, -⟩ := htidy.registered_of_named name serial
    ((lookup_eq_some_iff_mem htidy.nodup_names).mp hnamed)
  obtain rfl : pattern = found := Option.some.inj (hserial.symm.trans hfound)
  exact htidy.coherent.byId?_isSome_iff.mpr (List.mem_map_of_mem hentry)

/-- A tidy registry compiles a text, or the text or a range in it is to blame. -/
theorem Tidy.accuses_compile (htidy : registry.Tidy) (text : String) (name : Option String)
    (kind : Kind) : Accuses (fun cause => cause.name = name) (IsRangeFault text)
      (registry.compile text name kind) := by
  cases hroot : compileTree registry.scope text name with
  | error fault =>
      unfold compile
      rw [hroot]
      rintro other ⟨⟩
      exact accuses_compileTree registry.scope text name fault hroot
  | ok root =>
      -- All references lead to registered patterns, so that the penalty can be told.
      obtain ⟨-, -, -, hknown⟩ := canonical_of_compileTree (fun id => (registry.byId? id).isSome)
        (fun _ _ _ hid => hid) (fun _ _ => htidy.known_of_idOf) hroot
      obtain ⟨penalty, hcompile⟩ := exists_compile hroot hknown kind
      rw [hcompile]
      exact .ok _

/-- A tidy registry compiles what can be read, or the text is to blame. -/
theorem Tidy.blames_compile (htidy : registry.Tidy) (hranges : ReadsRanges text)
    (name : Option String) (kind : Kind) : Blames (registry.compile text name kind) :=
  (htidy.accuses_compile text name kind).blames hranges.not_isRangeFault

end Registry

end Motif
