import Mathlib.Algebra.Order.BigOperators.Group.List
import Mathlib.Algebra.Order.Ring.Nat
import Motif.Proofs.Action
import Motif.Proofs.Registry.References

/-!
# Depth of matching

The depth of a pattern is the number of levels through which its matching can descend, whatever the
text. A limit that leaves room for the depth is never reached. More generally a limit is not reached
in a run if no greater limit changes the run.
-/

namespace Motif

namespace Node

mutual

/-- The number of levels below which nothing of a node is matched, given those of the patterns. -/
def depth (below : Int → Nat) : Node → Nat
  | ref id _ _ => below id + 1
  | group alternatives _ _ => depthOfAlternatives below alternatives + 1

/-- The greatest depth in a sequence. -/
def depthOfSequence (below : Int → Nat) : List Node → Nat
  | [] => 0
  | node :: rest => max (depth below node) (depthOfSequence below rest)

/-- The greatest depth in a list of alternatives. -/
def depthOfAlternatives (below : Int → Nat) : List (List Node) → Nat
  | [] => 0
  | sequence :: rest => max (depthOfSequence below sequence) (depthOfAlternatives below rest)

end

theorem depth_le_depthOfSequence {below : Int → Nat} {node : Node} {sequence : List Node}
    (hnode : node ∈ sequence) : node.depth below ≤ depthOfSequence below sequence := by
  induction sequence with
  | nil => cases hnode
  | cons first rest ih =>
      rw [depthOfSequence]
      rcases List.mem_cons.mp hnode with rfl | hnode
      · exact le_max_left _ _
      · exact (ih hnode).trans (le_max_right _ _)

theorem depth_lt_depth_group (below : Int → Nat) {node : Node} {sequence : List Node}
    {alternatives : List (List Node)} (hsequence : sequence ∈ alternatives)
    (hnode : node ∈ sequence) (quantity : Quantity) (look : Look) :
    node.depth below < (group alternatives quantity look).depth below := by
  rw [depth, Nat.lt_succ_iff]
  induction alternatives with
  | nil => cases hsequence
  | cons first rest ih =>
      rw [depthOfAlternatives]
      rcases List.mem_cons.mp hsequence with rfl | hsequence
      · exact (depth_le_depthOfSequence hnode).trans (le_max_left _ _)
      · exact (ih hsequence).trans (le_max_right _ _)

theorem depth_pos (below : Int → Nat) (node : Node) : 0 < node.depth below := by
  cases node <;> exact Nat.succ_pos _

/-- Room for the depth of a node is room for a step into it. -/
theorem exists_room {below : Int → Nat} {node : Node} {room : Nat}
    (hroom : node.depth below ≤ room) : ∃ left, room = left + 1 :=
  Nat.exists_eq_add_one.mpr ((node.depth_pos below).trans_le hroom)

theorem depthOfSequence_congr {below other : Int → Nat} {sequence : List Node}
    (hnode : ∀ node ∈ sequence, node.depth below = node.depth other) :
    depthOfSequence below sequence = depthOfSequence other sequence := by
  induction sequence with
  | nil => rfl
  | cons first rest ih =>
      rw [depthOfSequence, depthOfSequence, hnode first List.mem_cons_self,
        ih fun node hmem => hnode node (List.mem_cons_of_mem _ hmem)]

theorem depth_congr {below other : Int → Nat} (node : Node)
    (hbelow : ∀ id ∈ node.references, below id = other id) :
    node.depth below = node.depth other := by
  induction node using Node.memberInduction with
  | ref id quantity look => rw [depth, depth, hbelow id (by simp)]
  | group alternatives quantity look ih =>
      have hnode : ∀ sequence ∈ alternatives, ∀ node ∈ sequence,
          node.depth below = node.depth other := by
        intro sequence hsequence node hnode
        refine ih sequence hsequence node hnode fun id hid => ?_
        exact hbelow id (mem_references_group.mpr ⟨sequence, hsequence, node, hnode, hid⟩)
      rw [depth, depth]
      clear ih hbelow
      induction alternatives with
      | nil => rfl
      | cons first rest ih =>
          have hrest := ih fun sequence hmem => hnode sequence (List.mem_cons_of_mem _ hmem)
          rw [depthOfAlternatives, depthOfAlternatives,
            depthOfSequence_congr (hnode first List.mem_cons_self), Nat.succ_injective hrest]

end Node

/-- The number of levels below which nothing of a pattern is matched. -/
def Pattern.depth (below : Int → Nat) (pattern : Pattern) : Nat :=
  match pattern.content with
  | .literal _ => 1
  | .tree root => root.depth below + 1

theorem Pattern.depth_pos (below : Int → Nat) (pattern : Pattern) : 0 < pattern.depth below := by
  unfold Pattern.depth
  split <;> omega

/-- Room for the depth of a pattern is room for a trial of it. -/
theorem Pattern.exists_room {below : Int → Nat} {pattern : Pattern} {room : Nat}
    (hroom : pattern.depth below ≤ room) : ∃ left, room = left + 1 :=
  Nat.exists_eq_add_one.mpr ((pattern.depth_pos below).trans_le hroom)

theorem Pattern.depth_congr {below other : Int → Nat} {pattern : Pattern}
    (hbelow : ∀ id ∈ pattern.content.references, below id = other id) :
    pattern.depth below = pattern.depth other := by
  unfold Pattern.depth
  cases hcontent : pattern.content with
  | literal word => rfl
  | tree root =>
      rw [hcontent] at hbelow
      dsimp only
      rw [Node.depth_congr root hbelow]

/-- What depths have to satisfy: the depth of each pattern comes from those of the patterns to which
it refers. -/
def Grammar.HasDepths (grammar : Grammar) (depth : Int → Nat) : Prop :=
  ∀ {id pattern}, grammar.find? id = some pattern → depth id = pattern.depth depth

namespace Chart

section Lists

variable {first second : Node → Int → Action (Option Reach)}

theorem matchSequence_eq_of_forall₂ {sequence others : List Node}
    (hnodes : List.Forall₂ (fun node other => first node = second other) sequence others) :
    matchSequence first sequence = matchSequence second others := by
  induction hnodes with
  | nil => rfl
  | cons hnode _ ih =>
      funext position
      rw [matchSequence, matchSequence, hnode, ih]

theorem matchAlternatives_eq_of_forall₂ {alternatives others : List (List Node)}
    (hnodes : List.Forall₂ (List.Forall₂ fun node other => first node = second other) alternatives
      others) :
    matchAlternatives first alternatives = matchAlternatives second others := by
  induction hnodes with
  | nil => rfl
  | cons hsequence _ ih =>
      funext position
      rw [matchAlternatives, matchAlternatives, matchSequence_eq_of_forall₂ hsequence, ih]

variable {before after : Node → Int → Action (Option Int)}

theorem behindSequence_eq_of_forall₂ {sequence others : List Node}
    (hnodes : List.Forall₂ (fun node other => before node = after other) sequence others) :
    behindSequence before sequence = behindSequence after others := by
  induction hnodes with
  | nil => rfl
  | cons hnode _ ih =>
      funext last
      rw [behindSequence, behindSequence, hnode, ih]

theorem behindAlternatives_eq_of_forall₂ {alternatives others : List (List Node)}
    (hnodes : List.Forall₂ (List.Forall₂ fun node other => before node = after other) alternatives
      others) :
    behindAlternatives before alternatives = behindAlternatives after others := by
  induction hnodes with
  | nil => rfl
  | cons hsequence _ ih =>
      funext last
      rw [behindAlternatives, behindAlternatives,
        behindSequence_eq_of_forall₂ (List.rel_reverse hsequence), ih]

end Lists

section Grammars

variable {first second : Grammar} {above below : Int → Nat}

/-- Two grammars match the pattern of an id the same way, given room for its depth in each, or
neither has one. -/
def SameAt (first second : Grammar) (above below : Int → Nat) (id : Int) : Prop :=
  Option.Rel (fun pattern other => other.id = pattern.id ∧ ∀ ⦃room more⦄,
      above id ≤ room → below id ≤ more →
        matchPattern first room pattern = matchPattern second more other)
    (first.find? id) (second.find? id)

/-- Two grammars match two nodes the same way, forwards and backwards, given room for the depth of
each. -/
def SameNodes (first second : Grammar) (above below : Int → Nat) (node other : Node) : Prop :=
  ∀ ⦃room more⦄, node.depth above ≤ room → other.depth below ≤ more →
    matchNode first room node = matchNode second more other ∧
      matchBehind first room node = matchBehind second more other

/-- Both functions of a node come from going back through it and from its runs of submatches. -/
theorem matchNode_succ_eq {room more : Nat} {node other : Node}
    (hquantity : other.quantity = node.quantity) (hlook : other.look = node.look)
    (hbehind : behindStep first (matchPattern first room) (matchBehind first room) node =
      behindStep second (matchPattern second more) (matchBehind second more) other)
    (hrun : repeatMatch (onceStep first (matchPattern first room) (matchNode first room) node) =
      repeatMatch (onceStep second (matchPattern second more) (matchNode second more) other)) :
    matchNode first (room + 1) node = matchNode second (more + 1) other ∧
      matchBehind first (room + 1) node = matchBehind second (more + 1) other := by
  have hnegative : other.isNegative = node.isNegative := by
    rw [Node.isNegative, Node.isNegative, hquantity]
  constructor
  · funext start
    rw [matchNode, matchNode, nodeStep, nodeStep, hbehind, hrun, hquantity, hlook, hnegative]
  · funext last
    rw [matchBehind, matchBehind, hbehind]

theorem sameNodes_ref {id : Int} (hid : SameAt first second above below id) (quantity : Quantity)
    (look : Look) :
    SameNodes first second above below (.ref id quantity look) (.ref id quantity look) := by
  intro room more hroom hmore
  obtain ⟨room, rfl⟩ := Node.exists_room hroom
  obtain ⟨more, rfl⟩ := Node.exists_room hmore
  rw [Node.depth] at hroom hmore
  unfold SameAt at hid
  generalize hfind : first.find? id = found at hid
  generalize hfound : second.find? id = again at hid
  cases hid with
  | none =>
      have hget : first.get id = .error (.missing id) := by rw [Grammar.get, hfind]
      have hgot : second.get id = .error (.missing id) := by rw [Grammar.get, hfound]
      refine matchNode_succ_eq rfl rfl ?_ (congrArg repeatMatch ?_)
      · funext last
        simp only [behindStep, hget, hgot, lift_error_bind]
      · funext position
        simp only [onceStep, hget, hgot, lift_error_bind]
  | @some pattern other hboth =>
      obtain ⟨hsame, hpattern⟩ := hboth
      have hmatch : matchPattern first room pattern = matchPattern second more other :=
        hpattern (by omega) (by omega)
      have hget : first.get id = .ok pattern := by rw [Grammar.get, hfind]
      have hgot : second.get id = .ok other := by rw [Grammar.get, hfound]
      refine matchNode_succ_eq rfl rfl ?_ (congrArg repeatMatch ?_)
      · funext last
        simp only [behindStep, hget, hgot, lift_ok_bind, hmatch, hsame]
      · funext position
        simp only [onceStep, hget, hgot, lift_ok_bind, hmatch]

/-- With room for a group there is room for each of its nodes. -/
theorem SameNodes.forall₂ {alternatives others : List (List Node)}
    (hnodes : List.Forall₂ (List.Forall₂ (SameNodes first second above below)) alternatives others)
    {room more : Nat} (hroom : Node.depthOfAlternatives above alternatives ≤ room)
    (hmore : Node.depthOfAlternatives below others ≤ more) :
    List.Forall₂ (List.Forall₂ fun node other =>
      matchNode first room node = matchNode second more other ∧
        matchBehind first room node = matchBehind second more other) alternatives others := by
  induction hnodes with
  | nil => exact .nil
  | cons hsequence _ ih =>
      rw [Node.depthOfAlternatives, max_le_iff] at hroom hmore
      refine .cons ?_ (ih hroom.2 hmore.2)
      obtain ⟨hroom, -⟩ := hroom
      obtain ⟨hmore, -⟩ := hmore
      clear ih
      induction hsequence with
      | nil => exact .nil
      | cons hnode _ ih =>
          rw [Node.depthOfSequence, max_le_iff] at hroom hmore
          exact .cons (hnode hroom.1 hmore.1) (ih hroom.2 hmore.2)

theorem sameNodes_group {alternatives others : List (List Node)}
    (hnodes : List.Forall₂ (List.Forall₂ (SameNodes first second above below)) alternatives others)
    (quantity : Quantity) (look : Look) :
    SameNodes first second above below (.group alternatives quantity look)
      (.group others quantity look) := by
  intro room more hroom hmore
  obtain ⟨room, rfl⟩ := Node.exists_room hroom
  obtain ⟨more, rfl⟩ := Node.exists_room hmore
  rw [Node.depth] at hroom hmore
  have hsame := SameNodes.forall₂ hnodes (Nat.le_of_succ_le_succ hroom)
    (Nat.le_of_succ_le_succ hmore)
  refine matchNode_succ_eq rfl rfl ?_ (congrArg repeatMatch ?_)
  · funext last
    simp only [behindStep]
    rw [behindAlternatives_eq_of_forall₂
      (hsame.imp fun _ _ hnodes => hnodes.imp fun _ _ hnode => hnode.2)]
  · funext position
    simp only [onceStep]
    rw [matchAlternatives_eq_of_forall₂
      (hsame.imp fun _ _ hnodes => hnodes.imp fun _ _ hnode => hnode.1)]

/-- A node is matched the same way in both grammars if the patterns to which it refers are. -/
theorem sameNodes_self (node : Node)
    (hsame : ∀ id ∈ node.references, SameAt first second above below id) :
    SameNodes first second above below node node := by
  induction node using Node.memberInduction with
  | ref id quantity look => exact sameNodes_ref (hsame id (by simp)) quantity look
  | group alternatives quantity look ih =>
      refine sameNodes_group ?_ quantity look
      refine List.forall₂_same.mpr fun sequence hsequence => ?_
      refine List.forall₂_same.mpr fun node hnode => ih sequence hsequence node hnode ?_
      intro id hid
      exact hsame id (Node.mem_references_group.mpr ⟨sequence, hsequence, node, hnode, hid⟩)

/-- Patterns of one id and kind are matched the same way if their contents are. -/
theorem matchPattern_succ_eq {room more : Nat} {pattern other : Pattern}
    (hid : other.id = pattern.id) (hkind : other.kind = pattern.kind)
    (hcontent : match pattern.content with
      | .literal text => other.content = .literal text
      | .tree root => ∃ again, other.content = .tree again ∧
        matchNode first room root = matchNode second more again) :
    matchPattern first (room + 1) pattern = matchPattern second (more + 1) other := by
  have hbuild : build (matchNode first room) pattern = build (matchNode second more) other := by
    funext start
    unfold build
    cases htree : pattern.content with
    | literal text =>
        rw [htree] at hcontent
        rw [show other.content = .literal text from hcontent, hid]
    | tree root =>
        rw [htree] at hcontent
        obtain ⟨again, hagain, hnode⟩ := hcontent
        rw [hagain, hid, hkind]
        dsimp only
        rw [hnode]
  have hattempt : attempt (matchNode first room) pattern =
      attempt (matchNode second more) other := by
    funext start
    rw [attempt, attempt, hbuild, hid]
  funext start
  rw [matchPattern, matchPattern, recalled, recalled, hattempt, hid]

/-- A pattern is matched the same way in both grammars if the patterns to which it refers are. -/
theorem matchPattern_eq_of_references {pattern : Pattern}
    (hsame : ∀ id ∈ pattern.content.references, SameAt first second above below id)
    {room more : Nat} (hroom : pattern.depth above ≤ room) (hmore : pattern.depth below ≤ more) :
    matchPattern first room pattern = matchPattern second more pattern := by
  obtain ⟨room, rfl⟩ := Pattern.exists_room hroom
  obtain ⟨more, rfl⟩ := Pattern.exists_room hmore
  refine matchPattern_succ_eq rfl rfl ?_
  cases hcontent : pattern.content with
  | literal text => rfl
  | tree root =>
      rw [Pattern.depth, hcontent] at hroom hmore
      rw [hcontent] at hsame
      have hroot := sameNodes_self root hsame (Nat.le_of_succ_le_succ hroom)
        (Nat.le_of_succ_le_succ hmore)
      exact ⟨root, rfl, hroot.1⟩

end Grammars

variable {grammar : Grammar} {depth : Int → Nat}

/-- Two amounts of room that both suffice for a pattern make no difference. -/
def RoomIrrelevant (grammar : Grammar) (depth : Int → Nat) (pattern : Pattern) : Prop :=
  ∀ ⦃room more⦄, pattern.depth depth ≤ room → pattern.depth depth ≤ more →
    matchPattern grammar room pattern = matchPattern grammar more pattern

theorem sameAt_of_roomIrrelevant (hdepth : grammar.HasDepths depth) {id : Int}
    (hpattern : ∀ pattern, grammar.find? id = some pattern →
      RoomIrrelevant grammar depth pattern) : SameAt grammar grammar depth depth id := by
  unfold SameAt
  cases hfind : grammar.find? id with
  | none => exact .none
  | some pattern =>
      refine .some ⟨rfl, ?_⟩
      rw [hdepth hfind]
      exact hpattern pattern hfind

theorem roomIrrelevant_of_references (hdepth : grammar.HasDepths depth) (pattern : Pattern)
    (hbelow : ∀ id ∈ pattern.content.references, ∀ other, grammar.find? id = some other →
      RoomIrrelevant grammar depth other) :
    RoomIrrelevant grammar depth pattern := by
  intro room more hroom hmore
  exact matchPattern_eq_of_references
    (fun id hid => sameAt_of_roomIrrelevant hdepth (hbelow id hid)) hroom hmore

/-- Where patterns have ranks, room beyond the depth of a pattern makes no difference. -/
theorem roomIrrelevant_of_layered {rank : Int → Nat} (hlayered : grammar.Layered rank)
    (hdepth : grammar.HasDepths depth) (pattern : Pattern) :
    RoomIrrelevant grammar depth pattern := by
  -- The induction is on a bound of the ranks of the patterns to which this one refers.
  have hbound : ∀ (bound : Nat) (pattern : Pattern),
      (∀ id ∈ pattern.content.references, rank id < bound) →
        RoomIrrelevant grammar depth pattern := by
    intro bound
    induction bound with
    | zero =>
        intro pattern hrank
        refine roomIrrelevant_of_references hdepth pattern fun id hid => ?_
        exact absurd (hrank id hid) (Nat.not_lt_zero _)
    | succ bound ih =>
        intro pattern hrank
        refine roomIrrelevant_of_references hdepth pattern fun id hid below hbelow => ?_
        refine ih below fun other hother => ?_
        have hlower := (hlayered.refers hbelow other hother).2
        have hupper := hrank id hid
        omega
  refine hbound ((pattern.content.references.map rank).sum + 1) pattern fun id hid => ?_
  exact Nat.lt_succ_of_le (List.single_le_sum (by simp) _ (List.mem_map_of_mem hid))

end Chart

/-- No greater limit changes a run, as is the case if the limit is not reached in it. -/
def Unreached {α : Type} (run : Int → α) (limit : Int) : Prop :=
  ∀ greater, limit ≤ greater → run greater = run limit

end Motif
