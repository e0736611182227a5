import Motif.Proofs.Node.Phrase
import Motif.Registry.Description

/-!
# Texts of trees

A tree is rendered as the text of the phrases that spell it. This holds of trees with at least one
node in every sequence and without groups that reduction would remove.
-/

namespace Motif

namespace Quantity

theorem suffix_once : once.suffix = "" := rfl

theorem suffix_never : suffix .never = "!" := rfl

theorem suffix_some : suffix ⟨1, unlimited⟩ = "+" := rfl

theorem suffix_many : suffix ⟨0, unlimited⟩ = "*" := rfl

end Quantity

namespace Phrase

mutual

/-- The text of a phrase. -/
def text : Phrase → String
  | atom symbol quantity look => look.mark ++ symbol.text ++ quantity.suffix
  | parens alternatives quantity look =>
    look.mark ++ ("(" ++ " | ".intercalate (textsOfAlternatives alternatives) ++ ")") ++
      quantity.suffix

/-- The texts of the phrases of a sequence. -/
def textsOfSequence : List Phrase → List String
  | [] => []
  | phrase :: rest => phrase.text :: textsOfSequence rest

/-- The texts of alternatives. -/
def textsOfAlternatives : List (List Phrase) → List String
  | [] => []
  | sequence :: rest => " ".intercalate (textsOfSequence sequence) :: textsOfAlternatives rest

end

/-- The text of alternatives without parentheses around them. -/
def textOf (alternatives : List (List Phrase)) : String :=
  " | ".intercalate (textsOfAlternatives alternatives)

/-- Phrases without quantifier and look are written as what they hold. -/
theorem text_decorate {phrase : Phrase} (hphrase : phrase.IsPlain) (quantity : Quantity)
    (look : Look) :
    (phrase.decorate quantity look).text = look.mark ++ phrase.text ++ quantity.suffix := by
  obtain ⟨symbol, rfl⟩ | ⟨alternatives, rfl⟩ := hphrase.cases
  · simp [decorate, text, Look.mark, Quantity.suffix_once]
  · simp [decorate, text, Look.mark, Quantity.suffix_once]

end Phrase

namespace Node

/-- A group has alternatives, and none of them is empty. -/
def IsFull : Node → Prop
  | ref _ _ _ => True
  | group alternatives _ _ => alternatives ≠ [] ∧ ∀ sequence ∈ alternatives, sequence ≠ []

/-- No node of a group would be spliced into the sequence around it. -/
def IsTight : Node → Prop
  | ref _ _ _ => True
  | group alternatives _ _ =>
    ∀ sequence ∈ alternatives, ∀ node ∈ sequence, node.isTransparent = false

end Node

namespace Registry

open Node (spell spellSequence spellAlternatives Everywhere IsFull IsTight)

variable {registry : Registry} {inline : Pattern → Except Fault String} {style : Style}
  {leaf : Bool → Int → List (List Phrase)}

/-- What stands for a reference in phrases is how the reference is written. -/
def Writes (registry : Registry) (inline : Pattern → Except Fault String) (style : Style)
    (leaf : Bool → Int → List (List Phrase)) (id : Int) : Prop :=
  ∀ behind, ∃ body, leaf behind id = [[body]] ∧ body.IsPlain ∧
    registry.referenceText inline style behind id = .ok body.text

/-- A node is spelled by one phrase, plain if the node is, and rendered as its text. -/
def RendersAs (registry : Registry) (inline : Pattern → Except Fault String) (style : Style)
    (leaf : Bool → Int → List (List Phrase)) (behind : Bool) (node : Node) : Prop :=
  ∃ phrase, spell leaf behind node = [phrase] ∧ (phrase.IsPlain ↔ node.isDecorated = false) ∧
    registry.render inline style false behind node = .ok phrase.text

theorem renderSequence_eq {behind : Bool} {sequence : List Node}
    (hnode : ∀ node ∈ sequence, RendersAs registry inline style leaf behind node) :
    registry.renderSequence inline style behind sequence =
        .ok (Phrase.textsOfSequence (spellSequence leaf behind sequence)) ∧
      (spellSequence leaf behind sequence).length = sequence.length := by
  induction sequence with
  | nil => exact ⟨rfl, rfl⟩
  | cons first rest ih =>
      obtain ⟨phrase, hspell, -, hrender⟩ := hnode first List.mem_cons_self
      obtain ⟨hrest, hlength⟩ := ih fun node hmem => hnode node (List.mem_cons_of_mem _ hmem)
      rw [renderSequence, hrender, hrest, spellSequence, hspell]
      exact ⟨rfl, by simp [hlength]⟩

theorem renderAlternatives_eq {behind : Bool} {alternatives : List (List Node)}
    (hnode : ∀ sequence ∈ alternatives, ∀ node ∈ sequence,
      RendersAs registry inline style leaf behind node) :
    registry.renderAlternatives inline style behind alternatives =
        .ok (Phrase.textsOfAlternatives (spellAlternatives leaf behind alternatives)) := by
  induction alternatives with
  | nil => rfl
  | cons first rest ih =>
      have hfirst := (renderSequence_eq (hnode first List.mem_cons_self)).1
      have hrest := ih fun sequence hmem => hnode sequence (List.mem_cons_of_mem _ hmem)
      rw [renderAlternatives, hfirst, hrest, spellAlternatives]
      rfl

theorem isDecorated_eq_false_iff {node : Node} :
    node.isDecorated = false ↔ node.quantity = .once ∧ node.look = .here := by
  simp [Node.isDecorated, Node.isQuantified]

theorem spellAlternatives_eq_map (behind : Bool) (alternatives : List (List Node)) :
    spellAlternatives leaf behind alternatives =
      alternatives.map (spellSequence leaf behind) := by
  induction alternatives with
  | nil => rfl
  | cons first rest ih => rw [spellAlternatives, ih, List.map_cons]

/-- Alternatives that are a single plain phrase are just those that are not compound. -/
theorem isCompound_eq {behind : Bool} {alternatives : List (List Node)}
    (hfull : alternatives ≠ [] ∧ ∀ sequence ∈ alternatives, sequence ≠ [])
    (hnode : ∀ sequence ∈ alternatives, ∀ node ∈ sequence,
      RendersAs registry inline style leaf behind node) :
    ∃ compound, isCompound alternatives = .ok compound ∧
      ((∃ phrase, spellAlternatives leaf behind alternatives = [[phrase]] ∧ phrase.IsPlain) ↔
        compound = false) := by
  unfold isCompound
  split
  next => exact absurd rfl hfull.1
  next => exact absurd rfl (hfull.2 [] List.mem_cons_self)
  next node =>
    obtain ⟨phrase, hspell, hplain, -⟩ := hnode [node] List.mem_cons_self node List.mem_cons_self
    have hphrases : spellAlternatives leaf behind [[node]] = [[phrase]] := by
      rw [spellAlternatives, spellAlternatives, spellSequence, spellSequence, hspell,
        List.append_nil]
    refine ⟨_, rfl, ?_⟩
    rw [hphrases, ← hplain]
    simp
  next hempty hblank hsingle =>
    refine ⟨true, rfl, ?_⟩
    constructor
    · rintro ⟨phrase, hphrases, -⟩
      rw [spellAlternatives_eq_map, List.map_eq_singleton_iff] at hphrases
      obtain ⟨sequence, rfl, hsequence⟩ := hphrases
      have hlength := (renderSequence_eq (hnode sequence List.mem_cons_self)).2
      rw [hsequence] at hlength
      obtain ⟨node, rfl⟩ := List.length_eq_one_iff.mp hlength.symm
      exact absurd rfl (hsingle node)
    · intro htrue
      cases htrue

theorem one_lt_length_of_not_isTransparent {alternatives : List (List Node)}
    (hfull : alternatives ≠ []) {quantity : Quantity} {look : Look}
    (hplain : quantity = .once ∧ look = .here)
    (hsolid : (Node.group alternatives quantity look).isTransparent = false) :
    1 < alternatives.length := by
  obtain ⟨rfl, rfl⟩ := hplain
  match alternatives with
  | [] => exact absurd rfl hfull
  | [sequence] => simp [Node.isTransparent, Quantity.once] at hsolid
  | _ :: _ :: _ => simp

theorem render_group_eq {top behind compound : Bool} {alternatives : List (List Node)}
    {quantity : Quantity} {look : Look} {texts : List String}
    (hcompound : isCompound alternatives = .ok compound)
    (htexts : registry.renderAlternatives inline style (behind || look = .behind) alternatives =
      .ok texts) :
    registry.render inline style top behind (.group alternatives quantity look) =
      .ok (look.mark ++
        (if (1 < alternatives.length && !top) ||
            ((Node.group alternatives quantity look).isDecorated && compound) then
          "(" ++ " | ".intercalate texts ++ ")" else " | ".intercalate texts) ++
        quantity.suffix) := by
  have hgroup : groupText top alternatives quantity look texts =
      .ok (if (1 < alternatives.length && !top) ||
          ((Node.group alternatives quantity look).isDecorated && compound) then
        "(" ++ " | ".intercalate texts ++ ")" else " | ".intercalate texts) := by
    rw [groupText, hcompound]
    change (if _ then pure _ else pure _) = _
    split <;> rfl
  rw [render, htexts]
  change (do let text ← groupText top alternatives quantity look texts; _) = _
  rw [hgroup]
  rfl

theorem rendersAs_ref {id : Int} (hleaf : Writes registry inline style leaf id)
    (quantity : Quantity) (look : Look) (behind : Bool) :
    RendersAs registry inline style leaf behind (.ref id quantity look) := by
  obtain ⟨body, hbody, hplain, htext⟩ := hleaf (behind || look = .behind)
  refine ⟨body.decorate quantity look, ?_, ?_, ?_⟩
  · rw [spell, hbody]
    unfold Phrase.wrap
    split
    next hundecorated =>
      obtain ⟨rfl, rfl⟩ := hundecorated
      obtain ⟨hquantity, hlook⟩ := hplain
      cases body <;> simp_all [Phrase.decorate, Phrase.quantity, Phrase.look]
    next =>
      dsimp only
      rw [if_pos hplain]
  · rw [isDecorated_eq_false_iff]
    cases body <;> rfl
  · rw [render, htext, Phrase.text_decorate hplain]
    rfl

theorem rendersAs_group {alternatives : List (List Node)} {quantity : Quantity} {look : Look}
    {behind : Bool} (hfullness : (Node.group alternatives quantity look).IsFull)
    (hsolid : (Node.group alternatives quantity look).isTransparent = false)
    (hnode : ∀ sequence ∈ alternatives, ∀ node ∈ sequence,
      RendersAs registry inline style leaf (behind || look = .behind) node) :
    RendersAs registry inline style leaf behind (.group alternatives quantity look) := by
  obtain ⟨compound, hcompound, hsingle⟩ := isCompound_eq hfullness hnode
  have htexts := renderAlternatives_eq hnode
  have hlength : (spellAlternatives leaf (behind || look = .behind) alternatives).length =
      alternatives.length := by
    rw [spellAlternatives_eq_map, List.length_map]
  by_cases hplain : quantity = .once ∧ look = .here
  · have hmany := one_lt_length_of_not_isTransparent hfullness.1 hplain hsolid
    have hmultiple : ¬ ∃ sequence,
        spellAlternatives leaf (behind || look = .behind) alternatives = [sequence] := by
      rintro ⟨sequence, hsequence⟩
      rw [hsequence, List.length_singleton] at hlength
      omega
    refine ⟨.parens (spellAlternatives leaf (behind || look = .behind) alternatives) quantity
      look, ?_, ?_, ?_⟩
    · rw [spell, Phrase.wrap_of_not_singleton hmultiple]
    · rw [isDecorated_eq_false_iff]
      rfl
    · rw [render_group_eq hcompound htexts]
      simp [Phrase.text, hmany]
  · have hdecorated : (Node.group alternatives quantity look).isDecorated = true := by
      rw [← Bool.not_eq_false, isDecorated_eq_false_iff]
      exact hplain
    cases compound with
    | false =>
        obtain ⟨phrase, hphrases, hphrase⟩ := hsingle.mpr rfl
        rw [hphrases] at htexts hlength
        refine ⟨phrase.decorate quantity look, ?_, ?_, ?_⟩
        · rw [spell, hphrases, Phrase.wrap_of_plain hplain hphrase]
        · rw [isDecorated_eq_false_iff]
          cases phrase <;> rfl
        · rw [render_group_eq hcompound htexts, Phrase.text_decorate hphrase, ← hlength]
          simp [Phrase.textsOfAlternatives, Phrase.textsOfSequence]
    | true =>
        refine ⟨.parens (spellAlternatives leaf (behind || look = .behind) alternatives)
          quantity look, ?_, ?_, ?_⟩
        · rw [spell]
          exact Phrase.wrap_of_decorated hplain fun hphrase => by simpa using hsingle.mp hphrase
        · rw [isDecorated_eq_false_iff]
          rfl
        · rw [render_group_eq hcompound htexts, hdecorated]
          simp [Phrase.text]

/-- Nodes of a tree are rendered as the text of the phrases that spell them. -/
theorem rendersAs {node : Node} (hfull : Everywhere IsFull node) (htight : Everywhere IsTight node)
    (hsolid : node.isTransparent = false)
    (hleaf : ∀ id ∈ node.references, Writes registry inline style leaf id) (behind : Bool) :
    RendersAs registry inline style leaf behind node := by
  induction node using Node.memberInduction generalizing behind with
  | ref id quantity look => exact rendersAs_ref (hleaf id (by simp)) quantity look behind
  | group alternatives quantity look ih =>
      obtain ⟨hfullness, hfull⟩ := Node.everywhere_group_iff.mp hfull
      obtain ⟨htightness, htight⟩ := Node.everywhere_group_iff.mp htight
      refine rendersAs_group hfullness hsolid fun sequence hsequence node hmem => ?_
      refine ih sequence hsequence node hmem (hfull sequence hsequence node hmem)
        (htight sequence hsequence node hmem) (htightness sequence hsequence node hmem)
        (fun id hid => ?_) _
      exact hleaf id (Node.mem_references_group.mpr ⟨sequence, hsequence, node, hmem, hid⟩)

/-- A whole tree is rendered as the text of its alternatives. -/
theorem render_root_eq {alternatives : List (List Node)}
    (hfull : Everywhere IsFull (.plainGroup alternatives))
    (htight : Everywhere IsTight (.plainGroup alternatives))
    (hleaf : ∀ id ∈ (Node.plainGroup alternatives).references,
      Writes registry inline style leaf id) :
    registry.render inline style true false (.plainGroup alternatives) =
      .ok (Phrase.textOf (spellAlternatives leaf false alternatives)) := by
  obtain ⟨hfullness, hfull⟩ := Node.everywhere_group_iff.mp hfull
  obtain ⟨htightness, htight⟩ := Node.everywhere_group_iff.mp htight
  have hnode : ∀ sequence ∈ alternatives, ∀ node ∈ sequence,
      RendersAs registry inline style leaf false node := by
    intro sequence hsequence node hmem
    refine rendersAs (hfull sequence hsequence node hmem) (htight sequence hsequence node hmem)
      (htightness sequence hsequence node hmem) (fun id hid => hleaf id ?_) false
    exact Node.mem_references_group.mpr ⟨sequence, hsequence, node, hmem, hid⟩
  obtain ⟨compound, hcompound, -⟩ := isCompound_eq hfullness hnode
  have hplain : (Node.group alternatives .once .here).isDecorated = false := rfl
  rw [Node.plainGroup, render_group_eq hcompound (renderAlternatives_eq hnode), hplain]
  simp [Phrase.textOf, Look.mark, Quantity.suffix_once]

theorem unwrap_ne (alternatives inner : List (List Node)) :
    Node.unwrap alternatives ≠ [[.plainGroup inner]] := by
  induction alternatives using Node.unwrap.induct with
  | case1 inside ih =>
      rw [Node.unwrap]
      exact ih
  | case2 alternatives hother =>
      rw [Node.unwrap.eq_2 _ hother]
      exact hother inner

/-- No plain parentheses stand around all phrases of an unwrapped tree whose references are single
lexemes. -/
theorem unwrapped_spellAlternatives {alternatives : List (List Node)}
    (hfull : Everywhere IsFull (.plainGroup alternatives))
    (htight : Everywhere IsTight (.plainGroup alternatives))
    (hunwrap : Node.unwrap alternatives = alternatives)
    (hleaf : ∀ id ∈ (Node.plainGroup alternatives).references,
      Writes registry inline style leaf id)
    (hatom : ∀ id ∈ (Node.plainGroup alternatives).references, ∀ behind,
      ∃ symbol, leaf behind id = [[.atom symbol .once .here]]) :
    Phrase.unwrapped (spellAlternatives leaf false alternatives) =
      spellAlternatives leaf false alternatives := by
  refine Phrase.unwrapped.eq_2 _ fun inner hparens => ?_
  rw [spellAlternatives_eq_map, List.map_eq_singleton_iff] at hparens
  obtain ⟨sequence, rfl, hsequence⟩ := hparens
  obtain ⟨-, hfull⟩ := Node.everywhere_group_iff.mp hfull
  obtain ⟨htightness, htight⟩ := Node.everywhere_group_iff.mp htight
  have hreference : ∀ node ∈ sequence, ∀ id ∈ node.references,
      id ∈ (Node.plainGroup [sequence]).references := fun node hnode id hid =>
    Node.mem_references_group.mpr ⟨sequence, List.mem_cons_self, node, hnode, hid⟩
  have hrenders : ∀ node ∈ sequence, RendersAs registry inline style leaf false node := by
    intro node hnode
    exact rendersAs (hfull sequence List.mem_cons_self node hnode)
      (htight sequence List.mem_cons_self node hnode)
      (htightness sequence List.mem_cons_self node hnode)
      (fun id hid => hleaf id (hreference node hnode id hid)) false
  have hlength := (renderSequence_eq hrenders).2
  rw [hsequence] at hlength
  obtain ⟨node, rfl⟩ := List.length_eq_one_iff.mp hlength.symm
  obtain ⟨phrase, hspell, hplain, -⟩ := hrenders node List.mem_cons_self
  rw [spellSequence, spellSequence, List.append_nil, hspell, List.cons.injEq] at hsequence
  obtain ⟨rfl, -⟩ := hsequence
  cases node with
  | ref id quantity look =>
      obtain ⟨rfl, rfl⟩ := isDecorated_eq_false_iff.mp (hplain.mp ⟨rfl, rfl⟩)
      obtain ⟨symbol, hsymbol⟩ := hatom id (hreference _ List.mem_cons_self id (by simp))
        (false || decide (Look.here = .behind))
      rw [spell, hsymbol, Phrase.wrap_singleton] at hspell
      cases hspell
  | group inside quantity look =>
      obtain ⟨rfl, rfl⟩ := isDecorated_eq_false_iff.mp (hplain.mp ⟨rfl, rfl⟩)
      exact unwrap_ne _ inside hunwrap

end Registry

end Motif
