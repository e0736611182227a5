import Motif.Proofs.Matching.Evaluation

/-!
# Levels of evaluation

Evaluating a node needs only the tokens of the patterns to which it refers. So where no pattern
reaches itself, the tokens satisfy the recursion of plain evaluation, without any bound.
-/

namespace Motif.Evaluation

variable {token other : Int → Int → Option Token}

theorem startsOfSequence_congr {sequence : List Node}
    (hnode : ∀ node ∈ sequence, starts token node = starts other node) :
    startsOfSequence token sequence = startsOfSequence other sequence := by
  induction sequence with
  | nil => rfl
  | cons first rest ih =>
      funext stop
      rw [startsOfSequence, startsOfSequence, hnode first List.mem_cons_self,
        ih fun node hmem => hnode node (List.mem_cons_of_mem _ hmem)]

theorem startsOfAlternatives_congr {alternatives : List (List Node)}
    (hnode : ∀ sequence ∈ alternatives, ∀ node ∈ sequence,
      starts token node = starts other node) :
    startsOfAlternatives token alternatives = startsOfAlternatives other alternatives := by
  induction alternatives with
  | nil => rfl
  | cons first rest ih =>
      funext stop
      rw [startsOfAlternatives, startsOfAlternatives,
        startsOfSequence_congr (hnode first List.mem_cons_self),
        ih fun sequence hmem => hnode sequence (List.mem_cons_of_mem _ hmem)]

theorem starts_congr (node : Node) (htoken : ∀ id ∈ node.references, token id = other id) :
    starts token node = starts other node := by
  induction node using Node.memberInduction with
  | ref id quantity look =>
      funext stop
      rw [starts, starts, htoken id (by simp)]
  | group alternatives quantity look ih =>
      funext stop
      rw [starts, starts]
      refine congrFun (startsOfAlternatives_congr ?_) stop
      intro sequence hsequence node hnode
      refine ih sequence hsequence node hnode ?_
      intro id hid
      exact htoken id (Node.mem_references_group.mpr ⟨sequence, hsequence, node, hnode, hid⟩)

variable {size : Nat}

theorem evalSequence_congr {sequence : List Node}
    (hnode : ∀ node ∈ sequence, evalNode token size node = evalNode other size node) :
    evalSequence token size sequence = evalSequence other size sequence := by
  induction sequence with
  | nil => rfl
  | cons first rest ih =>
      funext start
      rw [evalSequence, evalSequence, hnode first List.mem_cons_self,
        ih fun node hmem => hnode node (List.mem_cons_of_mem _ hmem)]

theorem evalAlternatives_congr {alternatives : List (List Node)}
    (hnode : ∀ sequence ∈ alternatives, ∀ node ∈ sequence,
      evalNode token size node = evalNode other size node) :
    evalAlternatives token size alternatives = evalAlternatives other size alternatives := by
  induction alternatives with
  | nil => rfl
  | cons first rest ih =>
      funext start
      rw [evalAlternatives, evalAlternatives,
        evalSequence_congr (hnode first List.mem_cons_self),
        ih fun sequence hmem => hnode sequence (List.mem_cons_of_mem _ hmem)]

/-- Only the tokens of the patterns to which a node refers matter to it. -/
theorem evalNode_congr (node : Node) (htoken : ∀ id ∈ node.references, token id = other id) :
    evalNode token size node = evalNode other size node := by
  induction node using Node.memberInduction with
  | ref id quantity look =>
      funext start
      rw [evalNode, evalNode, starts_congr (.ref id quantity look) htoken, htoken id (by simp)]
  | group alternatives quantity look ih =>
      have hmem : ∀ sequence ∈ alternatives, ∀ node ∈ sequence,
          ∀ id ∈ node.references, token id = other id := by
        intro sequence hsequence node hnode id hid
        exact htoken id (Node.mem_references_group.mpr ⟨sequence, hsequence, node, hnode, hid⟩)
      have hstarts := startsOfAlternatives_congr fun sequence hsequence node hnode =>
        starts_congr node (hmem sequence hsequence node hnode)
      have halternatives := evalAlternatives_congr fun sequence hsequence node hnode =>
        ih sequence hsequence node hnode (hmem sequence hsequence node hnode)
      funext start
      rw [evalNode, evalNode, hstarts, halternatives]

theorem evalWith_congr (text : Array Char) (pattern : Pattern)
    (htoken : ∀ id ∈ pattern.content.references, token id = other id) :
    evalWith token text pattern = evalWith other text pattern := by
  funext start
  unfold evalWith
  cases hcontent : pattern.content with
  | literal word => rfl
  | tree root =>
      rw [hcontent] at htoken
      dsimp only
      rw [evalNode_congr root htoken]

end Motif.Evaluation

namespace Motif.Registry

open Evaluation

/-- The tokens of the registered patterns satisfy the recursion of plain evaluation. -/
theorem token_eq {registry : Registry} (hcoherent : registry.Coherent)
    (hclosed : registry.Closed) (hacyclic : registry.Acyclic) (text : String) {id : Int}
    {pattern : Pattern} (hpattern : registry.byId? id = some pattern) :
    registry.token text id = registry.evaluate text pattern := by
  have hstep : Grammar.FromReferences fun token => evalWith token text.toList.toArray :=
    fun pattern _ _ htoken => evalWith_congr text.toList.toArray pattern htoken
  exact along_eq hcoherent hclosed hacyclic hstep hpattern

end Motif.Registry
