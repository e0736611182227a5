import Motif.Lexeme.Basic
import Motif.Node.Reduce
import Motif.Proofs.Node.Structure

/-!
# Phrases

Pattern text is made of phrases: a lexeme or alternatives in parentheses, with a look before it and
a quantifier after it. Every tree is spelled by phrases, given what stands for its references. The
spelling leaves out parentheses that have no meaning: it does not change if a tree is reduced.
-/

namespace Motif

/-- A piece of pattern text with its quantifier and its look. -/
inductive Phrase where
  | atom (symbol : Symbol) (quantity : Quantity) (look : Look)
  | parens (alternatives : List (List Phrase)) (quantity : Quantity) (look : Look)
deriving Inhabited

namespace Phrase

/-- Induction over phrases: what holds of every phrase between parentheses passes to them. -/
theorem memberInduction {motive : Phrase → Prop}
    (atom : ∀ symbol quantity look, motive (.atom symbol quantity look))
    (parens : ∀ alternatives quantity look,
      (∀ sequence ∈ alternatives, ∀ phrase ∈ sequence, motive phrase) →
        motive (.parens alternatives quantity look))
    (phrase : Phrase) : motive phrase := by
  refine Phrase.rec (motive_1 := motive)
    (motive_2 := fun alternatives => ∀ sequence ∈ alternatives, ∀ phrase ∈ sequence, motive phrase)
    (motive_3 := fun sequence => ∀ phrase ∈ sequence, motive phrase)
    atom parens ?_ ?_ ?_ ?_ phrase
  · intro sequence hsequence
    exact absurd hsequence List.not_mem_nil
  · intro first rest hfirst hrest sequence hsequence
    rcases List.mem_cons.mp hsequence with rfl | hsequence
    · exact hfirst
    · exact hrest sequence hsequence
  · intro phrase hphrase
    exact absurd hphrase List.not_mem_nil
  · intro first rest hfirst hrest phrase hphrase
    rcases List.mem_cons.mp hphrase with rfl | hphrase
    · exact hfirst
    · exact hrest phrase hphrase

/-- How often the phrase repeats. -/
def quantity : Phrase → Quantity
  | atom _ quantity _ => quantity
  | parens _ quantity _ => quantity

/-- Where the phrase looks. -/
def look : Phrase → Look
  | atom _ _ look => look
  | parens _ _ look => look

/-- The phrase with another quantifier and another look. -/
def decorate (phrase : Phrase) (quantity : Quantity) (look : Look) : Phrase :=
  match phrase with
  | atom symbol _ _ => atom symbol quantity look
  | parens alternatives _ _ => parens alternatives quantity look

/-- The phrase has neither a quantifier nor a look. -/
def IsPlain (phrase : Phrase) : Prop :=
  phrase.quantity = .once ∧ phrase.look = .here

instance (phrase : Phrase) : Decidable phrase.IsPlain :=
  inferInstanceAs (Decidable (_ ∧ _))

theorem IsPlain.cases {phrase : Phrase} (hplain : phrase.IsPlain) :
    (∃ symbol, phrase = atom symbol .once .here) ∨
      ∃ alternatives, phrase = parens alternatives .once .here := by
  obtain ⟨hquantity, hlook⟩ := hplain
  cases phrase with
  | atom symbol quantity look =>
      obtain rfl : quantity = .once := hquantity
      obtain rfl : look = .here := hlook
      exact .inl ⟨symbol, rfl⟩
  | parens alternatives quantity look =>
      obtain rfl : quantity = .once := hquantity
      obtain rfl : look = .here := hlook
      exact .inr ⟨alternatives, rfl⟩

/-- The phrases of a group with these alternatives. Without quantifier and look a single sequence
needs no parentheses; with them a single plain phrase takes them itself. -/
def wrap (alternatives : List (List Phrase)) (quantity : Quantity) (look : Look) : List Phrase :=
  if quantity = .once ∧ look = .here then
    match alternatives with
    | [sequence] => sequence
    | _ => [parens alternatives .once .here]
  else
    match alternatives with
    | [[phrase]] =>
      if phrase.IsPlain then [phrase.decorate quantity look]
      else [parens alternatives quantity look]
    | _ => [parens alternatives quantity look]

theorem wrap_singleton (sequence : List Phrase) : wrap [sequence] .once .here = sequence := by
  simp [wrap]

theorem wrap_of_not_singleton {alternatives : List (List Phrase)}
    (hsingle : ¬ ∃ sequence, alternatives = [sequence]) (quantity : Quantity) (look : Look) :
    wrap alternatives quantity look = [parens alternatives quantity look] := by
  unfold wrap
  by_cases hplain : quantity = .once ∧ look = .here
  · obtain ⟨rfl, rfl⟩ := hplain
    rw [if_pos ⟨rfl, rfl⟩]
    split
    next sequence => exact absurd ⟨sequence, rfl⟩ hsingle
    next => rfl
  · rw [if_neg hplain]
    split
    next phrase => exact absurd ⟨[phrase], rfl⟩ hsingle
    next => rfl

theorem wrap_of_decorated {alternatives : List (List Phrase)} {quantity : Quantity} {look : Look}
    (hdecorated : ¬ (quantity = .once ∧ look = .here))
    (hsingle : ¬ ∃ phrase, alternatives = [[phrase]] ∧ phrase.IsPlain) :
    wrap alternatives quantity look = [parens alternatives quantity look] := by
  unfold wrap
  rw [if_neg hdecorated]
  split
  next phrase =>
    have hphrase : ¬ phrase.IsPlain := fun hphrase => hsingle ⟨phrase, rfl, hphrase⟩
    rw [if_neg hphrase]
  next => rfl

/-- A single plain phrase takes the quantity and the look of the group itself. -/
theorem wrap_of_plain {phrase : Phrase} {quantity : Quantity} {look : Look}
    (hdecorated : ¬ (quantity = .once ∧ look = .here)) (hphrase : phrase.IsPlain) :
    wrap [[phrase]] quantity look = [phrase.decorate quantity look] := by
  rw [wrap, if_neg hdecorated]
  dsimp only
  rw [if_pos hphrase]

/-- Plain parentheses around all alternatives of a group mean nothing. -/
theorem wrap_wrap (alternatives : List (List Phrase)) (quantity : Quantity) (look : Look) :
    wrap [wrap alternatives .once .here] quantity look = wrap alternatives quantity look := by
  by_cases hplain : quantity = .once ∧ look = .here
  · obtain ⟨rfl, rfl⟩ := hplain
    exact wrap_singleton _
  · by_cases hsingle : ∃ sequence, alternatives = [sequence]
    · obtain ⟨sequence, rfl⟩ := hsingle
      rw [wrap_singleton]
    · rw [wrap_of_not_singleton hsingle, wrap_of_not_singleton hsingle]
      unfold wrap
      rw [if_neg hplain]
      rfl

/-- The alternatives inside phrases that are nothing but one plain pair of parentheses. -/
def unwrapped : List (List Phrase) → List (List Phrase)
  | [[parens inner ⟨1, 1⟩ .here]] => unwrapped inner
  | alternatives => alternatives

/-- What stands in a phrase, without its quantifier and look. -/
def inside : Phrase → List (List Phrase)
  | atom symbol _ _ => [[atom symbol .once .here]]
  | parens alternatives _ _ => unwrapped alternatives

theorem exists_wrap_eq (alternatives : List (List Phrase)) {quantity : Quantity} {look : Look}
    (hdecorated : ¬ (quantity = .once ∧ look = .here)) :
    ∃ phrase, wrap alternatives quantity look = [phrase] ∧
      phrase.inside = unwrapped alternatives := by
  unfold wrap
  rw [if_neg hdecorated]
  split
  next phrase =>
    split
    next hplain =>
      refine ⟨phrase.decorate quantity look, rfl, ?_⟩
      obtain ⟨hquantity, hlook⟩ := hplain
      cases phrase with
      | atom symbol _ _ =>
          cases hquantity
          cases hlook
          simp [decorate, inside, unwrapped, Quantity.once]
      | parens inner _ _ =>
          cases hquantity
          cases hlook
          rw [unwrapped]
          rfl
    next => exact ⟨_, rfl, rfl⟩
  next => exact ⟨_, rfl, rfl⟩

/-- What a decorated group looks like tells its alternatives up to plain parentheses around all of
them. -/
theorem unwrapped_eq_of_wrap_eq {first second : List (List Phrase)}
    (hwrap : wrap first .never .here = wrap second .never .here) :
    unwrapped first = unwrapped second := by
  have hdecorated : ¬ (Quantity.never = .once ∧ Look.here = .here) := by decide
  obtain ⟨phrase, hfirst, hinside⟩ := exists_wrap_eq first hdecorated
  obtain ⟨other, hsecond, hother⟩ := exists_wrap_eq second hdecorated
  rw [hfirst, hsecond] at hwrap
  obtain rfl : phrase = other := by simpa using hwrap
  rw [← hinside, hother]

end Phrase

namespace Node

open Phrase (wrap)

/- What stands for a reference, told whether it stands inside a look behind. -/
variable (leaf : Bool → Int → List (List Phrase))

mutual

/-- The phrases that spell a node, in or outside a look behind. -/
def spell (behind : Bool) : Node → List Phrase
  | ref id quantity look => wrap (leaf (behind || look = .behind) id) quantity look
  | group alternatives quantity look =>
    wrap (spellAlternatives (behind || look = .behind) alternatives) quantity look

/-- The phrases that spell the nodes of a sequence. -/
def spellSequence (behind : Bool) : List Node → List Phrase
  | [] => []
  | node :: rest => spell behind node ++ spellSequence behind rest

/-- The phrases that spell each of the alternatives. -/
def spellAlternatives (behind : Bool) : List (List Node) → List (List Phrase)
  | [] => []
  | sequence :: rest => spellSequence behind sequence :: spellAlternatives behind rest

end

variable {leaf}

theorem spellSequence_append (behind : Bool) (first second : List Node) :
    spellSequence leaf behind (first ++ second) =
      spellSequence leaf behind first ++ spellSequence leaf behind second := by
  induction first with
  | nil => rfl
  | cons node rest ih => rw [List.cons_append, spellSequence, spellSequence, ih, List.append_assoc]

theorem spellSequence_spliced (behind : Bool) (node : Node) :
    spellSequence leaf behind node.spliced = spell leaf behind node := by
  unfold spliced
  split
  next sequence =>
    rw [spell, spellAlternatives, spellAlternatives]
    simp [Phrase.wrap_singleton, show (⟨1, 1⟩ : Quantity) = .once from rfl]
  next => rw [spellSequence, spellSequence, List.append_nil]

theorem spellSequence_reduceSequence {behind : Bool} {sequence : List Node}
    (hnode : ∀ node ∈ sequence, spell leaf behind node.reduce = spell leaf behind node) :
    spellSequence leaf behind (reduceSequence sequence) = spellSequence leaf behind sequence := by
  induction sequence with
  | nil => rfl
  | cons first rest ih =>
      rw [reduceSequence, spellSequence_append, spellSequence_spliced,
        hnode first List.mem_cons_self, spellSequence,
        ih fun node hmem => hnode node (List.mem_cons_of_mem _ hmem)]

theorem spellAlternatives_reduceAlternatives {behind : Bool} {alternatives : List (List Node)}
    (hnode : ∀ sequence ∈ alternatives, ∀ node ∈ sequence,
      spell leaf behind node.reduce = spell leaf behind node) :
    spellAlternatives leaf behind (reduceAlternatives alternatives) =
      spellAlternatives leaf behind alternatives := by
  induction alternatives with
  | nil => rfl
  | cons first rest ih =>
      rw [reduceAlternatives, spellAlternatives, spellAlternatives,
        spellSequence_reduceSequence (hnode first List.mem_cons_self),
        ih fun sequence hmem => hnode sequence (List.mem_cons_of_mem _ hmem)]

/-- Reduction does not change how a tree is spelled. -/
theorem spell_reduce (behind : Bool) (node : Node) :
    spell leaf behind node.reduce = spell leaf behind node := by
  induction node using Node.memberInduction generalizing behind with
  | ref id quantity look => rfl
  | group alternatives quantity look ih =>
      rw [reduce, spell, spell, spellAlternatives_reduceAlternatives]
      exact fun sequence hsequence node hnode => ih sequence hsequence node hnode _

theorem wrap_spellAlternatives_unwrap (leaf : Bool → Int → List (List Phrase))
    (alternatives : List (List Node)) (quantity : Quantity) (look : Look) :
    wrap (spellAlternatives leaf false (unwrap alternatives)) quantity look =
      wrap (spellAlternatives leaf false alternatives) quantity look := by
  induction alternatives using unwrap.induct with
  | case1 inner ih =>
      rw [unwrap, ih, spellAlternatives, spellAlternatives, spellSequence, spellSequence, spell,
        List.append_nil]
      exact (Phrase.wrap_wrap _ _ _).symm
  | case2 alternatives hother => rw [unwrap.eq_2 _ hother]

end Node

end Motif
