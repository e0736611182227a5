import Motif.Proofs.Matching.Levels

/-!
# Where matches end

A match that starts inside the text or at its end reaches no further back than its start and no
further on than the end of the text.
-/

namespace Motif.Evaluation

/-- From every position up to `size` a function of positions leads to one that is not before it and
again not beyond `size`. -/
def Advances (size : Nat) (once : Int → Option Chart.Reach) : Prop :=
  ∀ ⦃start : Int⦄ ⦃reach : Chart.Reach⦄, start ≤ size → once start = some reach →
    start ≤ reach.stop ∧ reach.stop ≤ size

theorem Advances.greedy {size : Nat} {once : Int → Option Chart.Reach}
    (honce : Advances size once) (tries : Nat) (needed : Int) :
    Advances size (greedy once tries needed) := by
  intro start reach hstart hreach
  induction tries generalizing needed start reach with
  | zero =>
      rw [Evaluation.greedy] at hreach
      split at hreach
      next =>
        cases hreach
        exact ⟨le_refl _, hstart⟩
      next => cases hreach
  | succ tries ih =>
      rw [Evaluation.greedy] at hreach
      split at hreach
      next =>
        split at hreach
        next =>
          cases hreach
          exact ⟨le_refl _, hstart⟩
        next => cases hreach
      next found hfound =>
        obtain ⟨hlow, hhigh⟩ := honce hstart hfound
        split at hreach
        next =>
          cases hreach
          exact ⟨le_refl _, hstart⟩
        next =>
          obtain ⟨rest, hrest, rfl⟩ := Option.map_eq_some_iff.mp hreach
          have hbounds := ih (needed - 1) hhigh hrest
          exact ⟨hlow.trans hbounds.1, hbounds.2⟩

theorem Advances.quantified {size : Nat} {once : Int → Option Chart.Reach}
    (honce : Advances size once) (quantity : Quantity) (look : Look) :
    Advances size (quantified size quantity look once) := by
  intro start reach hstart hreach
  unfold Evaluation.quantified at hreach
  split at hreach
  next =>
    split at hreach
    next =>
      cases hreach
      exact ⟨le_refl _, hstart⟩
    next => cases hreach
  next =>
    split at hreach
    next => cases hreach
    next found hfound =>
      obtain rfl := Option.some.inj hreach
      split
      · exact ⟨le_refl _, hstart⟩
      · exact honce.greedy _ _ hstart hfound

theorem stop_of_lookedBehind {quantity : Quantity} {found : Prop} [Decidable found] {start : Int}
    {reach : Chart.Reach} (hreach : lookedBehind quantity found start = some reach) :
    reach.stop = start := by
  unfold lookedBehind at hreach
  split at hreach <;> split at hreach <;> cases hreach <;> rfl

section Trees

variable {token : Int → Int → Option Token} {size : Nat}

theorem advances_evalSequence {sequence : List Node}
    (hnode : ∀ node ∈ sequence, Advances size (evalNode token size node)) :
    Advances size (evalSequence token size sequence) := by
  intro start reach hstart hreach
  induction sequence generalizing start reach with
  | nil =>
      cases hreach
      exact ⟨le_refl _, hstart⟩
  | cons first rest ih =>
      rw [evalSequence] at hreach
      split at hreach
      next => cases hreach
      next found hfound =>
        obtain ⟨hlow, hhigh⟩ := hnode first List.mem_cons_self hstart hfound
        split at hreach
        next => cases hreach
        next tail htail =>
          cases hreach
          have hbounds := ih (fun node hmem => hnode node (List.mem_cons_of_mem _ hmem)) hhigh htail
          exact ⟨hlow.trans hbounds.1, hbounds.2⟩

theorem advances_evalAlternatives {alternatives : List (List Node)}
    (hnode : ∀ sequence ∈ alternatives, ∀ node ∈ sequence,
      Advances size (evalNode token size node)) :
    Advances size (evalAlternatives token size alternatives) := by
  intro start reach hstart hreach
  induction alternatives with
  | nil => cases hreach
  | cons first rest ih =>
      rw [evalAlternatives] at hreach
      split at hreach
      next found hfound =>
        cases hreach
        exact advances_evalSequence (hnode first List.mem_cons_self) hstart hfound
      next => exact ih (fun sequence hmem => hnode sequence (List.mem_cons_of_mem _ hmem)) hreach

/-- Nodes lead forwards and stay inside the text if the tokens of their patterns do. -/
theorem advances_evalNode (node : Node)
    (htoken : ∀ id ∈ node.references, Advances size fun position =>
      (token id position).map ofToken) :
    Advances size (evalNode token size node) := by
  induction node using Node.memberInduction with
  | ref id quantity look =>
      intro start reach hstart hreach
      rw [evalNode] at hreach
      split at hreach
      next =>
        rw [stop_of_lookedBehind hreach]
        exact ⟨le_refl _, hstart⟩
      next => exact (htoken id (by simp)).quantified quantity look hstart hreach
  | group alternatives quantity look ih =>
      have halternatives : Advances size (evalAlternatives token size alternatives) := by
        refine advances_evalAlternatives fun sequence hsequence node hnode => ?_
        refine ih sequence hsequence node hnode fun id hid => ?_
        exact htoken id (Node.mem_references_group.mpr ⟨sequence, hsequence, node, hnode, hid⟩)
      intro start reach hstart hreach
      rw [evalNode] at hreach
      split at hreach
      next =>
        rw [stop_of_lookedBehind hreach]
        exact ⟨le_refl _, hstart⟩
      next => exact halternatives.quantified quantity look hstart hreach

end Trees

/-- A token that belongs to a pattern and a position, and lies inside the text. -/
structure Fits (text : Array Char) (id position : Int) (token : Token) : Prop where
  id_eq : token.id = id
  start_eq : token.start = position
  start_nonneg : 0 ≤ position
  length_nonneg : 0 ≤ token.length
  stop_le : token.stop ≤ text.size

theorem Fits.start_inside {text : Array Char} {id position : Int} {token : Token}
    (hfits : Fits text id position token) (hlength : 0 < token.length) :
    0 ≤ token.start ∧ token.start < text.size := by
  have hstart := hfits.start_eq ▸ hfits.start_nonneg
  have hstop := hfits.stop_le
  unfold Token.stop at hstop
  omega

theorem Fits.last_inside {text : Array Char} {id position : Int} {token : Token}
    (hfits : Fits text id position token) (hlength : 0 < token.length) :
    0 ≤ token.last ∧ token.last < text.size := by
  have hstart := hfits.start_eq ▸ hfits.start_nonneg
  have hstop := hfits.stop_le
  unfold Token.stop at hstop
  unfold Token.last
  omega

variable {token : Int → Int → Option Token} {text : Array Char}

/-- Tokens that belong to a pattern and their positions lead forwards and stay inside the text. -/
theorem advances_ofToken {id : Int}
    (hfits : ∀ position found, token id position = some found → Fits text id position found) :
    Advances text.size fun position => (token id position).map ofToken := by
  intro position reach hposition hreach
  obtain ⟨found, hfound, rfl⟩ := Option.map_eq_some_iff.mp hreach
  have hbelongs := hfits position found hfound
  have hstart := hbelongs.start_eq
  have hlength := hbelongs.length_nonneg
  refine ⟨?_, hbelongs.stop_le⟩
  change position ≤ found.start + found.length
  omega

/-- A pattern matches at a position only with a token that belongs there, if the tokens of the
patterns to which it refers do. -/
theorem fits_of_evalWith {pattern : Pattern} {start : Int} {found : Token}
    (htoken : ∀ id ∈ pattern.content.references, ∀ position other,
      token id position = some other → Fits text id position other)
    (hfound : evalWith token text pattern start = some found) :
    Fits text pattern.id start found := by
  unfold evalWith at hfound
  split at hfound
  next hinside =>
    split at hfound
    next word hcontent =>
      split at hfound
      next hword =>
        cases hfound
        have hlength := hword.2.length_le
        rw [String.length_toList, List.length_drop, Array.length_toList] at hlength
        refine ⟨rfl, rfl, hinside.1, Int.natCast_nonneg _, ?_⟩
        change start + (word.length : Int) ≤ text.size
        omega
      next => cases hfound
    next root hcontent =>
      obtain ⟨reach, hreach, rfl⟩ := Option.map_eq_some_iff.mp hfound
      rw [hcontent] at htoken
      have hadvances : Advances text.size (evalNode token text.size root) :=
        advances_evalNode root fun id hid => advances_ofToken (htoken id hid)
      obtain ⟨hlow, hhigh⟩ := hadvances hinside.2.le hreach
      refine ⟨rfl, rfl, hinside.1, ?_, ?_⟩
      · change 0 ≤ reach.stop - start
        omega
      · change start + (reach.stop - start) ≤ text.size
        omega
  next => cases hfound

theorem fits_of_along {grammar : Grammar} {rank : Int → Nat} (hlayered : grammar.Layered rank)
    {levels : Nat} {id position : Int} {found : Token}
    (hfound : grammar.along (fun _ => none) (fun token => evalWith token text) levels id position =
      some found) :
    Fits text id position found := by
  induction levels generalizing id position found with
  | zero => cases hfound
  | succ levels ih =>
      cases hpattern : grammar.find? id with
      | none =>
          rw [Grammar.along, hpattern] at hfound
          cases hfound
      | some pattern =>
          rw [Grammar.along, hpattern] at hfound
          rw [← hlayered.id_eq hpattern]
          exact fits_of_evalWith (fun id _ position other hother => ih hother) hfound

end Motif.Evaluation
