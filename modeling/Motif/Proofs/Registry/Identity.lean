import Motif.Pattern
import Motif.Proofs.Lexeme.Reading
import Motif.Registry.Compile

/-!
# References by identity

The identity of a pattern is a single lexeme, and in the scope of its registry that lexeme leads
back to the pattern.
-/

namespace Motif

namespace Pattern

/-- The lexeme by which text refers to the pattern. -/
def symbol (pattern : Pattern) : Symbol :=
  match pattern.name with
  | some name => if isPlainName name then .name name else .quoted (Text.quote name)
  | none => .id ("[" ++ toString pattern.id.toNat ++ "]")

/-- Text can refer to the pattern: its name is not empty and does not end with a line feed, and if
it has none, its id has at most nine digits. -/
structure Writable (pattern : Pattern) : Prop where
  name : ∀ name, pattern.name = some name → name ≠ "" ∧ name.toList.getLast? ≠ some '\n'
  id : pattern.name = none → 0 ≤ pattern.id ∧ pattern.id < 10 ^ 9

/-- A reference by the identity of the pattern can be read: its name is not empty and no plain word
with a line feed behind it, and if it has none, its id has at most nine digits. -/
structure Referable (pattern : Pattern) : Prop where
  name : ∀ name, pattern.name = some name →
    name ≠ "" ∧ (isPlainName name = true → name.toList.getLast? ≠ some '\n')
  id : pattern.name = none → 0 ≤ pattern.id ∧ pattern.id < 10 ^ 9

theorem Writable.referable {pattern : Pattern} (hpattern : pattern.Writable) :
    pattern.Referable where
  name name hname := (hpattern.name name hname).imp_right fun hend _ => hend
  id := hpattern.id

theorem isWord_of_isPlainName {name : String} (hend : name.toList.getLast? ≠ some '\n')
    (hname : isPlainName name = true) : Text.isWord name.toList = true := by
  simpa [isPlainName, hend] using hname

theorem writeId_of_length {id : Int} (hid : 0 ≤ id)
    (hshort : (Nat.toDigits 10 id.toNat).length ≤ Text.mostDigits) :
    writeId id = .ok (toString id) := by
  obtain ⟨n, rfl⟩ := Int.eq_ofNat_of_zero_le hid
  have hlength : (toString n).length ≤ Text.mostDigits := by
    rw [← String.length_toList]
    simpa using hshort
  simp only [writeId, Int.natAbs_natCast, hlength, if_pos]

theorem length_toDigits_le_iff {id : Int} {digits : Nat} (hdigits : 0 < digits) (hid : 0 ≤ id) :
    (Nat.toDigits 10 id.toNat).length ≤ digits ↔ id < 10 ^ digits := by
  obtain ⟨n, rfl⟩ := Int.eq_ofNat_of_zero_le hid
  rw [Int.toNat_natCast, Nat.length_toDigits_le_iff (by decide) hdigits]
  norm_cast

theorem length_toDigits_le_of_lt {id : Int} {digits : Nat} (hdigits : 0 < digits) (hid : 0 ≤ id)
    (hlt : id < 10 ^ digits) : (Nat.toDigits 10 id.toNat).length ≤ digits :=
  (length_toDigits_le_iff hdigits hid).mpr hlt

theorem writeId_of_lt {id : Int} (hid : 0 ≤ id) (hlt : id < 10 ^ Text.mostDigits) :
    writeId id = .ok (toString id) :=
  writeId_of_length hid (length_toDigits_le_of_lt (by decide) hid hlt)

theorem writeId_of_le {id : Int} (hid : 0 ≤ id) (hle : 10 ^ Text.mostDigits ≤ id) :
    writeId id = .error (.integerTooLong none) := by
  have hlong : ¬ (Nat.toDigits 10 id.toNat).length ≤ Text.mostDigits := fun hshort =>
    absurd hle (Int.not_le.mpr ((length_toDigits_le_iff (by decide) hid).mp hshort))
  have hlength : (toString id.natAbs).length = (Nat.toDigits 10 id.toNat).length := by
    obtain ⟨n, rfl⟩ := Int.eq_ofNat_of_zero_le hid
    rw [← String.length_toList]
    simp
  rw [writeId, hlength, if_neg hlong]

theorem length_toDigits_of_lt {id : Int} (hid : 0 ≤ id) (hshort : id < 10 ^ 9) :
    (Nat.toDigits 10 id.toNat).length ≤ Text.mostDigits :=
  Nat.le_trans (length_toDigits_le_of_lt (by decide) hid hshort) (by decide)

theorem Referable.identity_eq {pattern : Pattern} (hpattern : pattern.Referable) :
    pattern.identity = .ok pattern.symbol.text := by
  unfold identity symbol
  cases hname : pattern.name with
  | some name =>
      by_cases hplain : isPlainName name = true
      · simp [hplain, Symbol.text]
      · simp [hplain, Symbol.text]
  | none =>
      obtain ⟨hid, hshort⟩ := hpattern.id hname
      dsimp only
      rw [if_pos hid, writeId_of_length hid (length_toDigits_of_lt hid hshort)]
      obtain ⟨n, hn⟩ := Int.eq_ofNat_of_zero_le hid
      rw [hn]
      rfl

theorem Referable.isReference_symbol {pattern : Pattern} (hpattern : pattern.Referable) :
    pattern.symbol.IsReference := by
  unfold symbol
  cases hname : pattern.name with
  | some name =>
      obtain ⟨hne, hend⟩ := hpattern.name name hname
      dsimp only
      by_cases hplain : isPlainName name = true
      · rw [if_pos hplain]
        exact isWord_of_isPlainName (hend hplain) hplain
      · rw [if_neg hplain]
        exact ⟨name, hne, rfl⟩
  | none =>
      obtain ⟨hid, hshort⟩ := hpattern.id hname
      exact ⟨pattern.id.toNat, by omega, rfl⟩

theorem identity_eq {pattern : Pattern} (hpattern : pattern.Writable) :
    pattern.identity = .ok pattern.symbol.text :=
  hpattern.referable.identity_eq

theorem isReference_symbol {pattern : Pattern} (hpattern : pattern.Writable) :
    pattern.symbol.IsReference :=
  hpattern.referable.isReference_symbol

end Pattern

namespace Node

/-- The id of the pattern to which a lexeme refers in a scope. -/
def Scope.target (scope : Scope) (symbol : Symbol) : Int :=
  match Parser.resolve scope none ⟨symbol, 0⟩ with
  | .ok id => id
  | .error _ => 0

end Node

namespace Pattern

variable {scope : Node.Scope} {pattern : Pattern}

theorem trim_toDigits (n : Nat) : Text.trim (Nat.toDigits 10 n) = Nat.toDigits 10 n := by
  have hdigit : ∀ c ∈ Nat.toDigits 10 n, Text.isBlank c = false := fun c hc =>
    Text.isBlank_eq_false_of_isDigit (Text.isDigit_of_mem_toDigits hc)
  exact Text.trimWhere_eq_self (fun c hc => hdigit c (List.mem_of_head? hc))
    fun c hc => hdigit c (List.mem_of_getLast? hc)

/-- In a scope that knows a pattern by its id and its name, its lexeme leads to it. -/
theorem Referable.resolve_symbol (hpattern : pattern.Referable)
    (hid : scope.hasId pattern.id = true)
    (hname : ∀ name, pattern.name = some name → scope.idOf name = some pattern.id)
    (name : Option String) (position : Nat) :
    Node.Parser.resolve scope name ⟨pattern.symbol, position⟩ = .ok pattern.id := by
  unfold symbol
  cases hnamed : pattern.name with
  | some given =>
      have hfound := hname given hnamed
      by_cases hplain : isPlainName given = true
      · simp [hplain, Node.Parser.resolve, Symbol.text, hfound]
      · simp [hplain, Node.Parser.resolve, Text.unquote_quote, hfound]
  | none =>
      obtain ⟨hnonneg, hshort⟩ := hpattern.id hnamed
      have hdigits := length_toDigits_of_lt hnonneg hshort
      have hinner : ((("[" ++ toString pattern.id.toNat ++ "]").toList.drop 1).dropLast) =
          Nat.toDigits 10 pattern.id.toNat := by
        simp
      have hread := Quantity.readBound_toDigits hdigits
      simp only [Node.Parser.resolve, hinner, trim_toDigits, hread, Int.toNat_of_nonneg hnonneg]
      change (if _ then _ else _) = _
      rw [if_pos hid]
      rfl

theorem resolve_symbol (hpattern : pattern.Writable) (hid : scope.hasId pattern.id = true)
    (hname : ∀ name, pattern.name = some name → scope.idOf name = some pattern.id)
    (name : Option String) (position : Nat) :
    Node.Parser.resolve scope name ⟨pattern.symbol, position⟩ = .ok pattern.id :=
  hpattern.referable.resolve_symbol hid hname name position

theorem target_symbol (hpattern : pattern.Writable) (hid : scope.hasId pattern.id = true)
    (hname : ∀ name, pattern.name = some name → scope.idOf name = some pattern.id) :
    scope.target pattern.symbol = pattern.id := by
  rw [Node.Scope.target, resolve_symbol hpattern hid hname]

end Pattern

end Motif
