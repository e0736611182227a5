import Motif.Proofs.Matching.Remembering
import Motif.Proofs.Survey.Rematching

/-!
# Matching words

A sequence of references to literals, none of which is empty, matches the texts of the literals one
after another, and nothing else. Whatever other patterns the grammar has does not matter, for
matching goes down to the literals only.
-/

namespace Motif

open Node (plainGroup plainRef)

namespace Grammar

variable {grammar : Grammar} {id : Int} {word : String}

/-- The pattern of an id is a literal with a text that is not empty. -/
def Writes (grammar : Grammar) (id : Int) (word : String) : Prop :=
  ∃ pattern, grammar.find? id = some pattern ∧ pattern.content = .literal word ∧ word ≠ ""

/-- The pattern of an id is a literal. -/
def IsLiteral (grammar : Grammar) (id : Int) : Prop :=
  ∃ word, grammar.Writes id word

end Grammar

namespace Evaluation

open Chart (Reach SameAt matchPattern_succ_eq)

variable {grammar : Grammar} {text : Array Char} {id start : Int} {word : String}

/-- The tokens of the literals of a grammar. -/
noncomputable def literalToken (grammar : Grammar) (text : Array Char) (id start : Int) :
    Option Token :=
  ((grammar.only grammar.IsLiteral).find? id).bind fun pattern =>
    evalWith (fun _ _ => none) text pattern start

theorem exists_literal {pattern : Pattern}
    (hfind : (grammar.only grammar.IsLiteral).find? id = some pattern) :
    grammar.find? id = some pattern ∧ ∃ word, pattern.content = .literal word := by
  obtain ⟨⟨word, found, hfound, hcontent, -⟩, hpattern⟩ := Grammar.find?_only_eq_some_iff.mp hfind
  obtain rfl := Option.some.inj (hfound.symm.trans hpattern)
  exact ⟨hpattern, word, hcontent⟩

/-- What a literal matches does not depend on any tokens. -/
theorem evalWith_literal {pattern : Pattern} (hcontent : pattern.content = .literal word)
    (token other : Int → Int → Option Token) :
    evalWith token text pattern start = evalWith other text pattern start := by
  simp only [evalWith, hcontent]

/-- The literals of a grammar are a grammar of their own, on the lowest level. -/
theorem evaluates_literals (hid : ∀ {id pattern}, grammar.find? id = some pattern → pattern.id = id)
    (text : Array Char) :
    Evaluates (grammar.only grammar.IsLiteral) text (literalToken grammar text) (fun _ => 0)
      fun _ => 1 where
  layered :=
    { id_eq := fun hfind => hid (exists_literal hfind).1
      refers := by
        intro id pattern hfind other hother
        obtain ⟨-, word, hcontent⟩ := exists_literal hfind
        simp [hcontent, Content.references] at hother }
  depths := by
    intro id pattern hfind
    obtain ⟨-, word, hcontent⟩ := exists_literal hfind
    simp [Pattern.depth, hcontent]
  token_eq := by
    intro id pattern hfind
    obtain ⟨-, word, hcontent⟩ := exists_literal hfind
    funext start
    rw [literalToken, hfind, Option.bind_some]
    exact evalWith_literal hcontent _ _
  fits := by
    intro id position found hfound
    obtain ⟨pattern, hfind, hfound⟩ := Option.bind_eq_some_iff.mp hfound
    rw [← hid (exists_literal hfind).1]
    exact fits_of_evalWith (by simp) hfound
  retraceable := by
    intro id pattern root node hfind hroot
    obtain ⟨-, word, hcontent⟩ := exists_literal hfind
    rw [hcontent] at hroot
    cases hroot

/-- A literal ends behind its text, where that is found. -/
theorem stop_literalToken (hwrites : grammar.Writes id word) (hstart : 0 ≤ start) :
    (literalToken grammar text id start).map Token.stop =
      if word.toList <+: text.toList.drop start.toNat then some (start + word.toList.length)
      else none := by
  have hliteral : grammar.IsLiteral id := ⟨word, hwrites⟩
  obtain ⟨pattern, hfind, hcontent, hword⟩ := hwrites
  rw [literalToken, Grammar.find?_only_of_kept hliteral, hfind, Option.bind_some]
  simp only [evalWith, hcontent, ne_eq, hword, not_false_eq_true, true_and, String.length_toList]
  by_cases hfollows : word.toList <+: text.toList.drop start.toNat
  · have hinside : start < text.size := by
      have hpos : 0 < word.toList.length := List.length_pos_of_ne_nil (by simpa using hword)
      have hsize : text.toList.length = text.size := Array.length_toList
      have hlength := hfollows.length_le
      rw [List.length_drop] at hlength
      omega
    simp [hfollows, hstart, hinside, Token.stop]
  · simp [hfollows]

theorem append_prefix_iff {α : Type} {first second list : List α} :
    first ++ second <+: list ↔ first <+: list ∧ second <+: list.drop first.length := by
  constructor
  · rintro ⟨rest, rfl⟩
    simp
  · rintro ⟨⟨rest, rfl⟩, hsecond⟩
    rw [List.drop_left] at hsecond
    exact (List.prefix_append_right_inj first).mpr hsecond

/-- The texts of literals one after another. -/
def wordsOf (pieces : List (Int × String)) : List Char :=
  pieces.flatMap fun piece => piece.2.toList

/-- References to the literals one after another. -/
def referencesTo (pieces : List (Int × String)) : List Node :=
  pieces.map fun piece => plainRef piece.1

/-- References to literals end behind their texts, where these are found one after another. -/
theorem stop_referencesTo {pieces : List (Int × String)}
    (hwrites : ∀ piece ∈ pieces, grammar.Writes piece.1 piece.2) (size : Nat) (hstart : 0 ≤ start) :
    (evalSequence (literalToken grammar text) size (referencesTo pieces) start).map Reach.stop =
      if wordsOf pieces <+: text.toList.drop start.toNat then
        some (start + (wordsOf pieces).length)
      else none := by
  induction pieces generalizing start with
  | nil => simp [referencesTo, wordsOf, stop_evalSequence_nil]
  | cons piece rest ih =>
      obtain ⟨hfirst, hrest⟩ := List.forall_mem_cons.mp hwrites
      have hwords : wordsOf (piece :: rest) = piece.2.toList ++ wordsOf rest := List.flatMap_cons
      have hnext : (start + piece.2.toList.length).toNat = start.toNat + piece.2.toList.length := by
        omega
      rw [referencesTo, List.map_cons, stop_evalSequence_cons, stop_plainRef,
        stop_literalToken hfirst hstart, hwords]
      by_cases hword : piece.2.toList <+: text.toList.drop start.toNat
      · rw [if_pos hword, Option.bind_some, ← referencesTo, ih hrest (by omega), hnext]
        simp only [append_prefix_iff, hword, true_and, List.drop_drop, List.length_append,
          Nat.cast_add, Int.add_assoc]
      · simp [append_prefix_iff, hword]

theorem wordsOf_ne_nil {pieces : List (Int × String)} (hsome : pieces ≠ [])
    (hwrites : ∀ piece ∈ pieces, grammar.Writes piece.1 piece.2) : wordsOf pieces ≠ [] := by
  obtain ⟨piece, hpiece⟩ := List.exists_mem_of_ne_nil pieces hsome
  obtain ⟨-, -, -, hword⟩ := hwrites piece hpiece
  rw [wordsOf, ne_eq, List.flatMap_eq_nil_iff]
  intro hempty
  exact hword (by simpa using hempty piece hpiece)

/-- A pattern that is a sequence of references to literals evaluates to a token as long as their
texts. -/
theorem length_evalWith_referencesTo {pattern : Pattern} {pieces : List (Int × String)}
    (hcontent : pattern.content = .tree (plainGroup [referencesTo pieces])) (hsome : pieces ≠ [])
    (hwrites : ∀ piece ∈ pieces, grammar.Writes piece.1 piece.2) (hstart : 0 ≤ start) :
    (evalWith (literalToken grammar text) text pattern start).map Token.length =
      if wordsOf pieces <+: text.toList.drop start.toNat then some ((wordsOf pieces).length : Int)
      else none := by
  have hlength : Token.length ∘ tokenOf text pattern start = (· - start) ∘ Reach.stop := rfl
  rw [evalWith]
  split
  next hinside =>
    simp only [hcontent, Option.map_map, hlength]
    rw [← Option.map_map, stop_plainGroup, stop_referencesTo hwrites _ hstart]
    split <;> simp
  next houtside =>
    -- Behind the end of the text nothing is left that could be matched.
    have hsize : text.toList.length = text.size := Array.length_toList
    have hend : text.toList.drop start.toNat = [] := List.drop_eq_nil_iff.mpr (by omega)
    simp [hend, wordsOf_ne_nil hsome hwrites]

/-! ## Matching in a grammar with other patterns -/

/-- Matching descends through the sequence, its references and the literals. -/
theorem depth_referencesTo_le (pieces : List (Int × String)) :
    (plainGroup [referencesTo pieces]).depth (fun _ => 1) ≤ 3 := by
  have hsequence : Node.depthOfSequence (fun _ => 1) (referencesTo pieces) ≤ 2 := by
    induction pieces with
    | nil => exact Nat.zero_le _
    | cons first rest ih => exact max_le (Nat.le_refl _) ih
  rw [plainGroup, Node.depth, Node.depthOfAlternatives, Node.depthOfAlternatives]
  omega

theorem look_ne_behind_of_within {pieces : List (Int × String)} {node : Node}
    (hwithin : Node.Within node (plainGroup [referencesTo pieces])) : node.look ≠ .behind := by
  rcases Node.within_group_iff.mp hwithin with rfl | ⟨sequence, hsequence, child, hchild, hinside⟩
  · exact Look.noConfusion
  · obtain rfl := List.mem_singleton.mp hsequence
    obtain ⟨piece, -, rfl⟩ := List.mem_map.mp hchild
    obtain rfl := Node.within_ref_iff.mp hinside
    exact Look.noConfusion

theorem mem_references_referencesTo {pieces : List (Int × String)} {id : Int} :
    id ∈ (plainGroup [referencesTo pieces]).references ↔ ∃ piece ∈ pieces, id = piece.1 := by
  simp [plainGroup, referencesTo, plainRef, Node.mem_references_group]

end Evaluation

namespace Chart

open Evaluation

variable {grammar : Grammar} {id : Int}

theorem exists_find?_literal (hliteral : grammar.IsLiteral id) :
    ∃ pattern, (grammar.only grammar.IsLiteral).find? id = some pattern := by
  rw [Grammar.find?_only_of_kept hliteral]
  obtain ⟨word, pattern, hfind, -⟩ := hliteral
  exact ⟨pattern, hfind⟩

/-- A literal is matched as in the grammar of the literals. -/
theorem sameAt_literals (hliteral : grammar.IsLiteral id) :
    SameAt (grammar.only grammar.IsLiteral) grammar (fun _ => 1) (fun _ => 1) id := by
  unfold SameAt
  rw [Grammar.find?_only_of_kept hliteral]
  obtain ⟨word, pattern, hfind, hcontent, -⟩ := hliteral
  rw [hfind]
  refine .some ⟨rfl, fun room more hroom hmore => ?_⟩
  obtain ⟨room, rfl⟩ := Nat.exists_eq_add_one_of_ne_zero (Nat.ne_zero_of_lt hroom)
  obtain ⟨more, rfl⟩ := Nat.exists_eq_add_one_of_ne_zero (Nat.ne_zero_of_lt hmore)
  apply matchPattern_succ_eq
  · rfl
  · rfl
  · rw [hcontent]

/-- A pattern that is a sequence of references to literals matches where the texts of these are found
one after another, and its token is as long as they are. -/
theorem exists_matchPattern_referencesTo
    (hid : ∀ {id pattern}, grammar.find? id = some pattern → pattern.id = id)
    {pattern : Pattern} (hnew : grammar.find? pattern.id = none) {pieces : List (Int × String)}
    (hcontent : pattern.content = .tree (plainGroup [referencesTo pieces]))
    (hsome : pieces ≠ []) (hwrites : ∀ piece ∈ pieces, grammar.Writes piece.1 piece.2) {room : Nat}
    (hroom : 4 ≤ room) (text : String) {start : Int} (hstart : 0 ≤ start) :
    ∃ found, ((matchPattern grammar room pattern start).run (ofText text)).1 = .ok found ∧
      found.map Token.length =
        if wordsOf pieces <+: text.toList.drop start.toNat then some ((wordsOf pieces).length : Int)
        else none := by
  have hreferences : ∀ id ∈ pattern.content.references, grammar.IsLiteral id := by
    intro id hmem
    rw [hcontent] at hmem
    obtain ⟨piece, hpiece, rfl⟩ := mem_references_referencesTo.mp hmem
    exact ⟨piece.2, hwrites piece hpiece⟩
  have hdepth : pattern.depth (fun _ => 1) ≤ room := by
    have hroot := depth_referencesTo_le pieces
    rw [Pattern.depth, hcontent]
    dsimp only
    omega
  have hsame : matchPattern grammar room pattern =
      matchPattern (grammar.only grammar.IsLiteral) room pattern :=
    (matchPattern_eq_of_references (fun id hid => sameAt_literals (hreferences id hid)) hdepth
      hdepth).symm
  have heval := evaluates_literals hid text.toList.toArray
  have hnone : (grammar.only grammar.IsLiteral).find? pattern.id = none := by
    rw [Option.eq_none_iff_forall_ne_some]
    intro other hother
    rw [(Grammar.find?_only_eq_some_iff.mp hother).2] at hnew
    cases hnew
  obtain ⟨after, hrun, -⟩ := settlesFrom_matchPattern heval (by simp [hnone])
    (fun id hmem => by
      obtain ⟨below, hbelow⟩ := exists_find?_literal (hreferences id hmem)
      exact ⟨below, hbelow, transparent heval hbelow⟩)
    (fun root node hroot hwithin hlook => by
      rw [hcontent] at hroot
      cases hroot
      exact absurd hlook (look_ne_behind_of_within hwithin))
    hdepth (List.not_mem_nil : (start, pattern.id) ∉ []) (by simp [Above, hnone])
    (faithful_ofText text) (by simp)
  have hlength : (evalWith (literalToken grammar text.toList.toArray) text.toList.toArray pattern
      start).map Token.length = _ := length_evalWith_referencesTo hcontent hsome hwrites hstart
  rw [hsame, hrun]
  exact ⟨_, rfl, hlength⟩

end Chart

end Motif
