import Motif.Proofs.Matching.Depth
import Motif.Proofs.Node.Paring

/-!
# Matching of spelled trees

A tree is matched like the tree that its spelling is read as, although the two need not be the same:
a decorated group around a single plain node is spelled as that node with the quantity and the look
of the group. On every chart the two give the same result and leave the same chart behind, as long
as there is room for their depths.
-/

namespace Motif

namespace Chart

/-- A match of a plain node: an empty one is made of no tokens. -/
def settled (start : Int) (value : Option Reach) : Option Reach :=
  value.map fun reach => if reach.stop = start then ⟨start, []⟩ else reach

section Nodes

variable {node : Node → Int → Action (Option Reach)}

/-- A plain node is matched by one submatch. -/
theorem nodeStep_plain {target : Node} (hplain : target.isDecorated = false)
    (behind : Node → Int → Action (Option Int)) (start : Int) :
    nodeStep behind node target start = settled start <$> node target start := by
  obtain ⟨hquantity, hlook⟩ := Registry.isDecorated_eq_false_iff.mp hplain
  -- The size of the text plays no part, since there is a single try.
  have honce : nodeStep behind node target start =
      repeatMatch (node target) 1 start >>= fun run => pure (outcomeOf .once .here start run) := by
    rw [nodeStep, if_neg (by rw [hlook]; decide), hquantity, hlook]
    rfl
  rw [honce, repeatMatch, map_eq_pure_bind, bind_assoc]
  refine bind_congr fun value => ?_
  cases value with
  | none => rfl
  | some reach =>
      by_cases hstop : reach.stop = start
      · simp [settled, hstop, outcomeOf, Quantity.isNegative, Quantity.once]
      · simp [settled, hstop, outcomeOf, Quantity.isNegative, Quantity.once, repeatMatch]

/-- What a submatch is made of does not matter where it is empty. -/
theorem repeatMatch_settled (once : Int → Action (Option Reach)) (tries : Nat) (position : Int) :
    repeatMatch (fun start => settled start <$> once start) tries position =
      repeatMatch once tries position := by
  induction tries generalizing position with
  | zero => rfl
  | succ tries ih =>
      rw [repeatMatch, repeatMatch, map_eq_pure_bind, bind_assoc]
      refine bind_congr fun value => ?_
      cases value with
      | none => rfl
      | some reach =>
          by_cases hstop : reach.stop = position
          · simp [settled, hstop]
          · simp [settled, hstop, ih]

theorem matchAlternatives_single (child : Node) (position : Int) :
    matchAlternatives node [[child]] position = node child position := by
  rw [matchAlternatives, matchSequence, bind_assoc]
  refine (bind_congr fun value => ?_).trans (bind_pure _)
  cases value with
  | none => rfl
  | some reach => simp [matchSequence]

theorem behindAlternatives_single {back : Node → Int → Action (Option Int)} (child : Node)
    (last : Int) : behindAlternatives back [[child]] last = back child last := by
  rw [behindAlternatives, List.reverse_singleton, behindSequence, bind_assoc]
  refine (bind_congr fun value => ?_).trans (bind_pure _)
  cases value with
  | none => rfl
  | some start => simp [behindSequence]

end Nodes

variable {first second : Grammar} {above below : Int → Nat}

/-- A decorated group around a plain node is matched like that node with the quantity and the look
of the group. -/
theorem sameNodes_decorated {child other : Node} (hplain : other.isDecorated = false)
    (hchild : SameNodes first second above below child other) (quantity : Quantity) (look : Look) :
    SameNodes first second above below (.group [[child]] quantity look)
      ((other.withLook look).withQuantity quantity) := by
  intro room more hroom hmore
  have hdepth : ((other.withLook look).withQuantity quantity).depth below = other.depth below := by
    cases other <;> rfl
  rw [hdepth] at hmore
  obtain ⟨more, rfl⟩ := Node.exists_room hmore
  have hlower := Node.depth_lt_depth_group above (List.mem_singleton.mpr rfl)
    (List.mem_singleton.mpr (rfl : child = child)) quantity look
  obtain ⟨room, rfl⟩ := Node.exists_room hroom
  obtain ⟨hnode, hback⟩ := hchild (Nat.le_of_lt_succ (Nat.lt_of_lt_of_le hlower hroom)) hmore
  refine matchNode_succ_eq (by cases other <;> rfl) (by cases other <;> rfl) ?_ ?_
  · -- Going back through a node asks neither for its quantity nor for its look.
    have hother : behindStep second (matchPattern second more) (matchBehind second more)
          ((other.withLook look).withQuantity quantity) =
        behindStep second (matchPattern second more) (matchBehind second more) other := by
      cases other <;> rfl
    funext last
    rw [hother, behindStep]
    split
    next hlast => rw [behindStep.eq_def, if_pos hlast]
    next => rw [behindAlternatives_single, hback, matchBehind]
  · have hother : onceStep second (matchPattern second more) (matchNode second more)
          ((other.withLook look).withQuantity quantity) =
        onceStep second (matchPattern second more) (matchNode second more) other := by
      cases other <;> rfl
    have honce : onceStep first (matchPattern first room) (matchNode first room)
          (.group [[child]] quantity look) = fun start =>
        settled start <$> onceStep second (matchPattern second more) (matchNode second more) other
          start := by
      funext start
      rw [onceStep, matchAlternatives_single, hnode, matchNode, nodeStep_plain hplain]
    funext tries position
    rw [hother, honce, repeatMatch_settled]

/-- A group is matched like the group of what its nodes are matched like, also where that group is
superfluous. -/
theorem sameNodes_enclose {alternatives others : List (List Node)}
    (hnodes : List.Forall₂ (List.Forall₂ (SameNodes first second above below)) alternatives others)
    (quantity : Quantity) (look : Look) :
    SameNodes first second above below (.group alternatives quantity look)
      (Node.enclose others quantity look) := by
  rcases Node.enclose_cases others quantity look with
    ⟨other, rfl, -, hplain, hsame⟩ | ⟨-, hsame⟩
  · obtain ⟨sequence, none, hsequence, hnone, rfl⟩ := List.forall₂_cons_right_iff.mp hnodes
    cases hnone
    obtain ⟨child, rest, hchild, hrest, rfl⟩ := List.forall₂_cons_right_iff.mp hsequence
    cases hrest
    rw [hsame]
    exact sameNodes_decorated hplain hchild quantity look
  · rw [hsame]
    exact sameNodes_group hnodes quantity look

/-- A tree is matched like the pared one if all patterns are to which it refers. -/
theorem sameNodes_pared {node : Node}
    (hsame : ∀ id ∈ node.references, SameAt first second above below id) :
    SameNodes first second above below node node.pared := by
  induction node using Node.memberInduction with
  | ref id quantity look => exact sameNodes_ref (hsame id (by simp)) quantity look
  | group alternatives quantity look ih =>
      have hinside : List.Forall₂ (List.Forall₂ fun node other =>
          SameNodes first second above below other node) (Node.paredAlternatives alternatives)
            alternatives := by
        refine Node.forall₂_paredAlternatives fun sequence hsequence node hnode => ?_
        refine ih sequence hsequence node hnode fun id hid => hsame id ?_
        exact Node.mem_references_group.mpr ⟨sequence, hsequence, node, hnode, hid⟩
      rw [Node.pared]
      exact sameNodes_enclose (hinside.flip.imp fun _ _ hflip => hflip.flip) quantity look

open Node (Everywhere IsAtom IsTight spellAlternatives)
open Phrase (treesOfAlternatives)

variable {leaf : Bool → Int → List (List Phrase)} {target : Symbol → Int}

/-- A tight tree is matched like the tree that its spelling is read as. -/
theorem sameNodes_spelled {alternatives : List (List Node)}
    (htight : Everywhere IsTight (.plainGroup alternatives))
    (hleaf : ∀ id ∈ (Node.plainGroup alternatives).references, IsAtom leaf target id)
    (hsame : ∀ id ∈ (Node.plainGroup alternatives).references,
      SameAt first second above below id) :
    SameNodes first second above below (.plainGroup alternatives)
      (.plainGroup (treesOfAlternatives target (spellAlternatives leaf false alternatives))) := by
  have hpared := sameNodes_pared hsame
  rw [Node.pared_plainGroup] at hpared
  rw [Node.treesOfAlternatives_spell htight hleaf]
  exact hpared

/-- Nodes that are matched like a third one are matched alike. -/
theorem SameNodes.trans_symm {node other common : Node}
    (hnode : SameNodes first second above below node common)
    (hother : SameNodes second second below below other common) :
    SameNodes first second above below node other := by
  intro room more hroom hmore
  obtain ⟨hforward, hback⟩ := hnode hroom (le_refl (common.depth below))
  obtain ⟨honward, hbefore⟩ := hother hmore (le_refl (common.depth below))
  exact ⟨hforward.trans honward.symm, hback.trans hbefore.symm⟩

end Chart

end Motif
