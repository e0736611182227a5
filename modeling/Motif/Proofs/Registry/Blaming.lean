import Motif.Proofs.Lexeme.Cutting
import Motif.Proofs.Registry.Escaping

/-!
# Where faults are

The lexemes of a pattern text are its parts, and a fault that comes with a position and a token is
found where it says: the token stands in the text at the position. What the lexer cannot read is
blamed at the first character that it cannot, so that the text before it can be read.
-/

namespace Motif

open Node.Parser (Accuses IsGuilty)

/-- At the position of the fault, if it has one and a token, the token stands in the text. -/
def PatternFault.PointsInto (fault : PatternFault) (text : List Char) : Prop :=
  ∀ position token, fault.position = some position → fault.token = some token →
    position < text.length ∧ token.toList <+: text.drop position

namespace Lexeme

variable {text : String} {name : Option String}

/-- A fault of the lexer is at a character of the text, and what stands before it can be read. -/
theorem exists_position_of_read {fault : PatternFault} (hread : read text name = .error fault) :
    ∃ position c, fault.position = some position ∧ fault.token = some (String.ofList [c]) ∧
      text.toList[position]? = some c ∧
      ∃ lexemes, read (String.ofList (text.toList.take position)) name = .ok lexemes := by
  obtain ⟨front, c, rest, hcut, -, hposition, htoken, lexemes, hfront⟩ :=
    exists_front_of_readFrom hread (Nat.zero_le _)
  refine ⟨front.length, c, by rw [hposition, Nat.zero_add], htoken, by simp [hcut], lexemes, ?_⟩
  rw [read, String.toList_ofList, hcut, List.take_left]
  exact hfront

theorem pointsInto_of_read {fault : PatternFault} (hread : read text name = .error fault) :
    fault.PointsInto text.toList := by
  obtain ⟨place, c, hplace, hc, hget, -⟩ := exists_position_of_read hread
  intro position token hposition htoken
  obtain rfl : place = position := Option.some.inj (hplace.symm.trans hposition)
  obtain rfl : String.ofList [c] = token := Option.some.inj (hc.symm.trans htoken)
  obtain ⟨hlt, rfl⟩ := List.getElem?_eq_some_iff.mp hget
  refine ⟨hlt, ?_⟩
  rw [String.toList_ofList, List.drop_eq_getElem_cons hlt]
  exact ⟨_, rfl⟩

/-- A fault at a part of a text points into the text. -/
theorem IsPartition.isGuilty {cs : List Char} {lexemes : List Lexeme}
    (hpartition : IsPartition cs lexemes) :
    ∀ lexeme ∈ lexemes, IsGuilty name (fun fault => fault.PointsInto cs) lexeme := by
  rintro lexeme hlexeme cause _ _ ⟨⟩ ⟨⟩
  have hslice := hpartition.slice lexeme hlexeme
  have hpos := (hpartition.formed lexeme hlexeme).length_pos
  refine ⟨?_, List.prefix_iff_eq_take.mpr ?_⟩
  · have hcount := congrArg List.length hslice
    rw [String.length_toList, List.length_take, List.length_drop, Lexeme.text] at hcount
    omega
  · rw [String.length_toList, hslice]

end Lexeme

namespace Registry

variable {text : String} {name : Option String}

/-- The fault is none of the pattern. -/
def IsForeign (fault : Fault) : Prop :=
  ∀ cause, fault ≠ .pattern cause

theorem accuses_compileTree_pointsInto (scope : Node.Scope) :
    Accuses (fun fault => fault.PointsInto text.toList) IsForeign
      (compileTree scope text name) := by
  unfold compileTree
  cases hread : Lexeme.read text name with
  | error cause =>
      rintro fault ⟨⟩
      exact .inl ⟨cause, rfl, Lexeme.pointsInto_of_read hread⟩
  | ok lexemes =>
      have hexcused : ∀ lexeme ∈ lexemes, Node.Parser.Excused IsForeign lexeme.symbol := by
        intro lexeme hlexeme
        obtain ⟨hid, hrange⟩ := Lexeme.excused_of_read hread lexeme hlexeme
        refine ⟨hid, fun range hsymbol fault hfault => ?_⟩
        exact ofRange_ne_pattern hfault
      refine (Node.Parser.accuses_ofLexemes hexcused (Lexeme.isPartition_read hread).isGuilty
        nofun).bind fun parsed _ => ?_
      dsimp only
      split
      next =>
        rintro fault ⟨⟩
        exact .inl ⟨_, rfl, nofun⟩
      next => exact .ok _

theorem accuses_compile_pointsInto (registry : Registry) (kind : Kind) :
    Accuses (fun fault => fault.PointsInto text.toList) IsForeign
      (registry.compile text name kind) := by
  refine (accuses_compileTree_pointsInto registry.scope).bind fun root _ => ?_
  refine Accuses.bind (fun fault hfault => .inr ?_) fun penalty _ => .ok _
  -- The penalty lacks only where a pattern is not registered.
  obtain ⟨id, -, hcost⟩ := Node.exists_of_penalty_eq_error hfault
  unfold Registry.get at hcost
  split at hcost <;> cases hcost
  exact fun _ => Fault.noConfusion

/-- What is read of a text is a partition of it. What cannot be read is blamed at a character before
which all can be, and whatever fault of the pattern compiling ends with points into the text. -/
theorem compile_locates (registry : Registry) (text : String) (name : Option String) (kind : Kind) :
    (∀ lexemes, Lexeme.read text name = .ok lexemes → Lexeme.IsPartition text.toList lexemes) ∧
    (∀ fault, Lexeme.read text name = .error fault →
      ∃ position token, fault.position = some position ∧ fault.token = some token ∧
        fault.PointsInto text.toList ∧
        ∃ lexemes, Lexeme.read (String.ofList (text.toList.take position)) name = .ok lexemes) ∧
    ∀ fault, registry.compile text name kind = .error (.pattern fault) →
      fault.PointsInto text.toList := by
  refine ⟨fun lexemes hread => Lexeme.isPartition_read hread, fun fault hread => ?_,
    fun fault hcompile => ?_⟩
  · obtain ⟨position, c, hposition, htoken, -, hfront⟩ := Lexeme.exists_position_of_read hread
    exact ⟨position, _, hposition, htoken, Lexeme.pointsInto_of_read hread, hfront⟩
  · obtain ⟨cause, hcause, hpoints⟩ | hforeign :=
      accuses_compile_pointsInto registry kind _ hcompile
    · cases hcause
      exact hpoints
    · exact absurd rfl (hforeign fault)

/-- The quotes of a name and the blanks in a range belong to their lexemes. A quoted name without
its last quote is blamed at the first, and a name that nothing has where it stands. -/
theorem compile_locates_samples :
    Lexeme.IsPartition "A 'b''c' \x7b1 - 2\x7d".toList
        [⟨.name "A", 0⟩, ⟨.quoted "'b''c'", 2⟩, ⟨.range "\x7b1 - 2\x7d", 9⟩] ∧
      (∃ fault, Lexeme.read "A 'b''" = .error fault ∧ fault.position = some 5 ∧
        ∃ lexemes, Lexeme.read (String.ofList ("A 'b''".toList.take 5)) = .ok lexemes) ∧
      ∃ fault, compile {} "(A" = .error (.pattern fault) ∧ fault.token = some "A" ∧
        fault.PointsInto "(A".toList := by
  refine ⟨(compile_locates {} _ none .experimental).1 _ (by rfl), ?_, ?_⟩
  · refine ⟨_, by rfl, rfl, ?_⟩
    obtain ⟨position, token, hposition, -, -, hfront⟩ :=
      (compile_locates {} "A 'b''" none .experimental).2.1 _ (by rfl)
    cases hposition
    exact hfront
  · exact ⟨_, by rfl, rfl, (compile_locates {} "(A" none .experimental).2.2 _ (by rfl)⟩

end Registry

end Motif
