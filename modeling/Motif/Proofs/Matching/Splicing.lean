import Motif.Proofs.Matching.Sufficing
import Motif.Proofs.Node.Paring
import Motif.Proofs.Registry.Compiling

/-!
# Matching of reduced trees

A plain group with a single sequence matches what its sequence matches, forwards and backwards, and
so it may be spliced into the sequence around it. Therefore a tree and its reduced tree are matched
in the same way on every chart on which matching can be under way: with the same end, the same
tokens and the same chart left behind.
-/

namespace Motif

namespace Node

/-! ## Reduction twice -/

theorem depthOfSequence_le {below : Int → Nat} {sequence : List Node} {bound : Nat}
    (hnode : ∀ node ∈ sequence, node.depth below ≤ bound) :
    depthOfSequence below sequence ≤ bound := by
  induction sequence with
  | nil => exact Nat.zero_le _
  | cons first rest ih =>
      rw [depthOfSequence, max_le_iff]
      exact ⟨hnode first List.mem_cons_self, ih fun node hmem =>
        hnode node (List.mem_cons_of_mem _ hmem)⟩

/-- There is nothing left to splice in a reduced tree. -/
theorem reduce_reduce (node : Node) : node.reduce.reduce = node.reduce :=
  reduce_eq_self (isTight_reduce node)

theorem reduceRoot_cases (root : Node) :
    (∃ inner quantity look, root.reduce = group [[plainGroup inner]] quantity look ∧
      root.reduceRoot = plainGroup (unwrap inner)) ∨
    root.reduceRoot = root.reduce ∧
      ∀ inner quantity look, root.reduce ≠ group [[plainGroup inner]] quantity look := by
  unfold reduceRoot
  split
  next inner quantity look heq => exact .inl ⟨inner, quantity, look, heq, rfl⟩
  next hother => exact .inr ⟨rfl, hother⟩

/-- Nor is there anything left to unwrap. -/
theorem reduceRoot_reduceRoot (root : Node) : root.reduceRoot.reduceRoot = root.reduceRoot := by
  have htight := isTight_reduce root
  obtain ⟨inner, quantity, look, hreduce, hroot⟩ | ⟨hroot, hother⟩ := reduceRoot_cases root
  · rw [hreduce] at htight
    have hinner : Everywhere IsTight (plainGroup inner) :=
      (everywhere_group_iff.mp htight).2 _ List.mem_cons_self _ List.mem_cons_self
    have hsame := reduce_eq_self (everywhere_unwrap hinner)
    rw [plainGroup, reduce] at hsame
    rw [hroot, reduceRoot_plainGroup, (Node.group.inj hsame).1, unwrap_unwrap]
  · rw [hroot]
    obtain ⟨inner, quantity, look, hreduce, -⟩ | ⟨hagain, -⟩ := reduceRoot_cases root.reduce
    · rw [reduce_reduce] at hreduce
      exact absurd hreduce (hother inner quantity look)
    · rw [hagain, reduce_reduce]

end Node

namespace Chart

variable {text : Array Char} {active : List Cell} {grammar : Grammar}

/-! ## One group spliced -/

theorem matchAlternatives_singleton (node : Node → Int → Action (Option Reach))
    (sequence : List Node) (position : Int) :
    matchAlternatives node [sequence] position = matchSequence node sequence position := by
  rw [matchAlternatives]
  refine Eq.trans (congrArg (_ >>= ·) (funext fun value => ?_)) (bind_pure _)
  cases value <;> rfl

/-- A plain group tries its sequence once. -/
theorem matchNode_plainGroup (room : Nat) (sequence : List Node) (position : Int) :
    matchNode grammar (room + 1) (.plainGroup [sequence]) position = (do
      let run ← repeatMatch (matchSequence (matchNode grammar room) sequence) 1 position
      return outcomeOf .once .here position run) := by
  rw [matchNode, nodeStep, if_neg (by simp [Node.plainGroup, Node.look])]
  have honce : onceStep grammar (matchPattern grammar room) (matchNode grammar room)
      (.plainGroup [sequence]) = matchSequence (matchNode grammar room) sequence :=
    funext fun position => matchAlternatives_singleton _ sequence position
  rw [honce]
  rfl

/-- An empty match of the sequence has no tokens, so the group has none either. -/
theorem run_matchNode_plainGroup (room : Nat) (sequence : List Node) {position : Int}
    (hposition : position ≤ text.size) {chart : Chart} (hchart : Indexed text active chart) :
    (matchNode grammar (room + 1) (.plainGroup [sequence]) position).run chart =
      (matchSequence (matchNode grammar room) sequence position).run chart := by
  obtain ⟨result, after, hrun, -, hresult⟩ := proceeds_matchSequence grammar text active room
    sequence hposition chart hchart.extends_self
  rw [matchNode_plainGroup, repeatMatch, bind_assoc, hrun]
  cases result with
  | error fault => exact run_bind_of_error hrun
  | ok value =>
      rw [run_bind_of_ok hrun]
      cases value with
      | none => rfl
      | some reach =>
          obtain ⟨stop, children⟩ := reach
          have htiles := (hresult ⟨stop, children⟩ rfl).tiles
          by_cases hstop : stop = position
          · obtain rfl : children = [] := htiles.eq_nil_iff.mpr hstop.symm
            subst hstop
            dsimp only
            rw [if_pos rfl]
            rfl
          · simp only [if_neg hstop, repeatMatch, pure_bind, List.append_nil]
            rfl

/-- Before the text nothing is matched. -/
theorem matchBehind_of_neg {last : Int} (hlast : last < 0) (room : Nat) (node : Node) :
    matchBehind grammar room node last = pure none := by
  cases room with
  | zero => rfl
  | succ room =>
      rw [matchBehind]
      unfold behindStep
      rw [if_pos hlast]

theorem matchBehind_plainGroup (room : Nat) {sequence : List Node} (hne : sequence ≠ [])
    (last : Int) :
    matchBehind grammar (room + 1) (.plainGroup [sequence]) last =
      behindSequence (matchBehind grammar room) sequence.reverse last := by
  by_cases hlast : last < 0
  · obtain ⟨first, rest, hreverse⟩ := List.exists_cons_of_ne_nil (List.reverse_ne_nil_iff.mpr hne)
    rw [matchBehind_of_neg hlast, hreverse, behindSequence_cons, matchBehind_of_neg hlast,
      chainBack, pure_bind]
  · rw [matchBehind, Node.plainGroup, behindStep, if_neg hlast]
    refine Eq.trans (congrArg (_ >>= ·) (funext fun value => ?_)) (bind_pure _)
    cases value <;> rfl

theorem alike_plainGroup (room : Nat) {sequence : List Node} (hne : sequence ≠ []) :
    AlikeSequences grammar text active (room + 1) room [.plainGroup [sequence]] sequence where
  forwards position hposition chart hchart := by
    rw [matchSequence_singleton]
    exact run_matchNode_plainGroup room sequence hposition hchart
  backwards last := by
    rw [List.reverse_singleton, behindSequence_singleton, matchBehind_plainGroup room hne]
    exact .refl _

/-! ## Reduced trees -/

variable {enough : Nat}

/-- Splicing a reduced node makes no difference, if reducing it makes none. -/
theorem alike_spliced {node : Node} {room more : Nat} (hfull : Node.Everywhere Node.IsFull node)
    (hreduce : ∀ more, node.reduce.depth (fun _ => enough) ≤ more →
      AlikeSequences grammar text active room more [node] [node.reduce])
    (hmore : ∀ child ∈ node.reduce.spliced, child.depth (fun _ => enough) ≤ more) :
    AlikeSequences grammar text active room more [node] node.reduce.spliced := by
  rcases Node.spliced_cases node.reduce with ⟨sequence, hgroup, hspliced⟩ | ⟨-, hspliced⟩
  · rw [hspliced] at hmore ⊢
    have hne : sequence ≠ [] := by
      have hgroups := Node.isFull_reduce hfull
      rw [hgroup] at hgroups
      exact (Node.everywhere_group_iff.mp hgroups).1.2 sequence List.mem_cons_self
    rw [hgroup] at hreduce
    refine (hreduce (more + 1) ?_).trans (alike_plainGroup more hne)
    rw [Node.plainGroup, Node.depth, Node.depthOfAlternatives, Node.depthOfAlternatives,
      max_eq_left (Nat.zero_le _)]
    exact Nat.succ_le_succ (Node.depthOfSequence_le hmore)
  · rw [hspliced] at hmore ⊢
    exact hreduce more (hmore _ List.mem_cons_self)

/-- The induction is on the tree: the nodes of a group are reduced and then spliced. -/
theorem Suffices.alike_reduce (hpatterns : Suffices grammar text active enough) {node : Node}
    (hfull : Node.Everywhere Node.IsFull node) {room more : Nat}
    (hroom : node.depth (fun _ => enough) ≤ room)
    (hmore : node.reduce.depth (fun _ => enough) ≤ more) :
    AlikeSequences grammar text active room more [node] [node.reduce] := by
  induction node using Node.memberInduction generalizing room more with
  | ref id quantity look => exact hpatterns.alike _ hroom hmore
  | group alternatives quantity look ih =>
      rw [Node.reduce] at hmore ⊢
      obtain ⟨room, rfl⟩ := Node.exists_room hroom
      obtain ⟨more, rfl⟩ := Node.exists_room hmore
      refine alike_group ?_ quantity look
      rw [Node.reduceAlternatives_eq_map] at hmore ⊢
      rw [List.forall₂_map_right_iff, List.forall₂_same]
      intro sequence hsequence
      have hchildren : ∀ child ∈ sequence,
          AlikeSequences grammar text active room more [child] child.reduce.spliced := by
        intro child hchild
        have hinside := (Node.everywhere_group_iff.mp hfull).2 sequence hsequence child hchild
        have hdepth := Node.depth_lt_depth_group (fun _ => enough) hsequence hchild quantity look
        refine alike_spliced hinside (fun other hother => ih sequence hsequence child hchild hinside
          (Nat.le_of_lt_succ (hdepth.trans_le hroom)) hother) fun node hnode => ?_
        have hmember : node ∈ Node.reduceSequence sequence :=
          Node.mem_reduceSequence.mpr ⟨child, hchild, hnode⟩
        have hless := Node.depth_lt_depth_group (fun _ => enough) (List.mem_map_of_mem hsequence)
          hmember quantity look
        exact Nat.le_of_lt_succ (hless.trans_le hmore)
      clear hsequence ih hroom hmore hfull
      induction sequence with
      | nil => exact .nil
      | cons first rest ih =>
          have hrest := ih fun child hchild => hchildren child (List.mem_cons_of_mem _ hchild)
          exact (hchildren first List.mem_cons_self).append hrest

/-- Unwrapping a lone plain group makes no difference either. -/
theorem Suffices.alike_unwrap (hpatterns : Suffices grammar text active enough)
    {alternatives : List (List Node)} {room more : Nat}
    (hroom : (Node.plainGroup alternatives).depth (fun _ => enough) ≤ room)
    (hmore : (Node.plainGroup (Node.unwrap alternatives)).depth (fun _ => enough) ≤ more) :
    AlikeSequences grammar text active room more [.plainGroup alternatives]
      [.plainGroup (Node.unwrap alternatives)] := by
  induction alternatives using Node.unwrap.induct generalizing room with
  | case1 inner ih =>
      rw [Node.unwrap] at hmore ⊢
      have hless : (Node.plainGroup inner).depth (fun _ => enough) < room :=
        (Node.depth_lt_depth_group _ List.mem_cons_self List.mem_cons_self _ _).trans_le hroom
      obtain ⟨room, rfl⟩ := Node.exists_room hroom
      exact (alike_plainGroup room (List.cons_ne_nil _ _)).trans
        (ih (Nat.le_of_lt_succ hless) hmore)
  | case2 alternatives hother =>
      rw [Node.unwrap.eq_2 _ hother] at hmore ⊢
      exact hpatterns.alike _ hroom hmore

theorem Suffices.alike_reduceRoot (hpatterns : Suffices grammar text active enough)
    {alternatives : List (List Node)}
    (hfull : Node.Everywhere Node.IsFull (.plainGroup alternatives)) {room more : Nat}
    (hroom : (Node.plainGroup alternatives).depth (fun _ => enough) ≤ room)
    (hmore : (Node.plainGroup alternatives).reduceRoot.depth (fun _ => enough) ≤ more) :
    AlikeSequences grammar text active room more [.plainGroup alternatives]
      [(Node.plainGroup alternatives).reduceRoot] := by
  rw [Node.reduceRoot_plainGroup] at hmore ⊢
  exact (hpatterns.alike_reduce hfull hroom (Nat.le_refl _)).trans
    (hpatterns.alike_unwrap (Nat.le_refl _) hmore)

/-! ## Charts on which matching is under way -/

/-- The charts of a text that there may be while matching is under way. From a chart on which calls
may be made one comes to them by beginning trials that have no outcome yet, by trials that have
ended, with or without a fault and whatever the patterns and the room, and by moves of frontiers. -/
inductive Underway (text : String) : Chart → Prop where
  | opened {chart : Chart} (hchart : Opened text chart) : Underway text chart
  | begun {chart : Chart} (hchart : Underway text chart) {start id : Int}
    (hnew : chart.outcome? start id = none) :
    Underway text { chart with active := (start, id) :: chart.active }
  | tried {chart : Chart} (hchart : Underway text chart) (grammar : Grammar) (room : Nat)
    (pattern : Pattern) (start : Int) :
    Underway text ((matchPattern grammar room pattern start).run chart).2
  | scanned {chart : Chart} (hchart : Underway text chart) (id position : Int) :
    Underway text (chart.markScanned id position)

/-- The indices of such a chart agree with its outcomes. -/
theorem Underway.indexed {text : String} {chart : Chart} (hchart : Underway text chart) :
    Indexed text.toList.toArray chart.active chart := by
  induction hchart with
  | opened hchart =>
      have hindexed := hchart.idle.indexed
      rwa [hindexed.active_eq]
  | begun _ hnew ih => exact ih.enter hnew
  | @tried chart _ grammar room pattern start ih =>
      obtain ⟨result, after, hrun, hextends, -⟩ :=
        (respects_extends grammar _ _ room).1 pattern start chart ih.extends_self
      rw [hrun]
      dsimp only
      rw [hextends.indexed.active_eq]
      exact hextends.indexed
  | @scanned chart _ id position ih =>
      have hindexed := ih.markScanned id position
      rwa [hindexed.active_eq]

/-- Some room suffices for the registered patterns, also if they refer to each other in circles. -/
theorem exists_suffices (registry : Registry) (text : Array Char) (active : List Cell) :
    ∃ enough, Suffices registry.grammar text active enough :=
  ⟨_, suffices_roomEnough (fun _ _ hfind => registry.mem_patterns_of_byId? hfind)
    (vacant registry.patterns text active) (Nat.le_refl _)⟩

/-- A node is matched down to a depth from a position of a chart. -/
def runNode (registry : Registry) (chart : Chart) (start : Int) (node : Node) (maxDepth : Int) :
    Except Fault (Option Reach) × Chart :=
  (matchNode registry.grammar (roomFor maxDepth) node start).run chart

section Runs

variable {registry : Registry} {chart : Chart} {start : Int}

theorem le_roomFor {depth : Nat} {maxDepth : Int} (hdepth : depth ≤ maxDepth) :
    depth ≤ roomFor maxDepth := by
  unfold roomFor
  omega

section Same

variable {node other : Node} {enough : Nat}
  (hsame : ∀ {room more}, node.depth (fun _ => enough) ≤ room →
    other.depth (fun _ => enough) ≤ more →
      AlikeSequences registry.grammar text active room more [node] [other])
include hsame

/-- Nodes that do the same with enough room are matched in the same way down to great depths. -/
theorem runNode_eq (hchart : Indexed text active chart) (hstart : start ≤ text.size)
    {maxDepth greater : Int} (hnode : node.depth (fun _ => enough) ≤ maxDepth)
    (hother : other.depth (fun _ => enough) ≤ greater) :
    runNode registry chart start node maxDepth = runNode registry chart start other greater := by
  have hnodes := AlikeSequences.singleton_iff.mp (hsame (le_roomFor hnode) (le_roomFor hother))
  exact hnodes.1 start hstart chart hchart

/-- So they are at every depth that neither reaches. -/
theorem runNode_eq_of_unreached (hchart : Indexed text active chart) (hstart : start ≤ text.size)
    {maxDepth : Int} (hnode : Unreached (runNode registry chart start node) maxDepth)
    (hother : Unreached (runNode registry chart start other) maxDepth) :
    runNode registry chart start node maxDepth = runNode registry chart start other maxDepth := by
  obtain ⟨greater, hgreater, hfirst, hsecond⟩ : ∃ greater, maxDepth ≤ greater ∧
      node.depth (fun _ => enough) ≤ greater ∧ other.depth (fun _ => enough) ≤ greater :=
    ⟨max maxDepth (max (node.depth fun _ => enough) (other.depth fun _ => enough)),
      le_max_left _ _, by omega, by omega⟩
  calc runNode registry chart start node maxDepth
      = runNode registry chart start node greater := (hnode greater hgreater).symm
    _ = runNode registry chart start other greater :=
        runNode_eq hsame hchart hstart hfirst hsecond
    _ = runNode registry chart start other maxDepth := hother greater hgreater

end Same

theorem resolves_of_isSome {node : Node}
    (hresolved : ∀ id ∈ node.references, (registry.byId? id).isSome) :
    Resolves registry.grammar (fun _ => False) node := by
  intro id hid hnone
  change registry.byId? id = none at hnone
  have hsome := hresolved id hid
  rw [hnone] at hsome
  cases hsome

/-- Where all references lead to registered patterns, a node is matched without a fault. -/
theorem exists_runNode (hchart : Indexed text active chart) (hstart : start ≤ text.size)
    (hclosed : registry.Closed) {node : Node}
    (hresolved : ∀ id ∈ node.references, (registry.byId? id).isSome) (maxDepth : Int) :
    ∃ value after, runNode registry chart start node maxDepth = (.ok value, after) := by
  have hnode := (yields_of_room text hclosed.leads (roomFor maxDepth)).2.1
  obtain ⟨value, after, hrun, -⟩ :=
    (hnode active node (resolves_of_isSome hresolved) start hstart chart
      hchart.extends_self).exists_ok
  exact ⟨value, after, hrun⟩

/-- On every chart on which matching of a text may be under way, a tree whose groups and sequences
are not empty is matched from every position as its reduced tree is, at every depth that neither
reaches: with the same end, the same tokens and the same chart. For a whole pattern the lone plain
groups around it may go too. There are such depths, whether or not the patterns refer to each other
in circles, and with resolvable references there is no fault. A reduced tree is not reduced
further. -/
theorem Underway.runNode_reduce_eq {text : String} (hchart : Underway text chart)
    (registry : Registry) {node : Node} (hfull : Node.Everywhere Node.IsFull node)
    (hstart : start ≤ chart.size) :
    (∀ maxDepth, Unreached (runNode registry chart start node) maxDepth →
      Unreached (runNode registry chart start node.reduce) maxDepth →
        runNode registry chart start node.reduce maxDepth =
          runNode registry chart start node maxDepth) ∧
    (∀ alternatives, node = .plainGroup alternatives → ∀ maxDepth,
      Unreached (runNode registry chart start node) maxDepth →
        Unreached (runNode registry chart start node.reduceRoot) maxDepth →
          runNode registry chart start node.reduceRoot maxDepth =
            runNode registry chart start node maxDepth) ∧
    (∃ limit, ∀ tree ∈ [node, node.reduce, node.reduceRoot], ∀ maxDepth, limit ≤ maxDepth →
      Unreached (runNode registry chart start tree) maxDepth) ∧
    (registry.Closed → (∀ id ∈ node.references, (registry.byId? id).isSome) →
      ∀ maxDepth, ∃ value after, runNode registry chart start node maxDepth = (.ok value, after)) ∧
    node.reduce.reduce = node.reduce ∧ node.reduceRoot.reduceRoot = node.reduceRoot := by
  have hindexed := hchart.indexed
  have hsize : start ≤ text.toList.toArray.size := by rwa [size, hindexed.text_eq] at hstart
  obtain ⟨enough, hpatterns⟩ := exists_suffices registry text.toList.toArray chart.active
  refine ⟨?_, ?_, ?_, ?_, Node.reduce_reduce node, Node.reduceRoot_reduceRoot node⟩
  · intro maxDepth hnode hreduce
    exact (runNode_eq_of_unreached (hpatterns.alike_reduce hfull) hindexed hsize hnode hreduce).symm
  · rintro alternatives rfl maxDepth hnode hroot
    exact (runNode_eq_of_unreached (hpatterns.alike_reduceRoot hfull) hindexed hsize hnode
      hroot).symm
  · -- None of the three trees is deeper than all of them together.
    refine ⟨([node, node.reduce, node.reduceRoot].map (Node.depth fun _ => enough)).sum, ?_⟩
    intro tree htree maxDepth hlimit greater hgreater
    have hdepth : tree.depth (fun _ => enough) ≤ maxDepth := by
      have hsum := List.single_le_sum (by simp) _
        (List.mem_map_of_mem (f := Node.depth fun _ => enough) htree)
      omega
    exact runNode_eq (hpatterns.alike tree) hindexed hsize (hdepth.trans hgreater) hdepth
  · exact fun hclosed hresolved => exists_runNode hindexed hsize hclosed hresolved

/-- A letter, and a pattern of letters that refers to itself. -/
def circling : Registry where
  ledger := #[{ kind := .literal, content := .literal "a", id := 0 },
    { kind := .derived
      content := .tree (.plainGroup [[.plainRef 0, .plainRef 1], [.plainRef 0]])
      id := 1 }]
  entries := [(0, 0), (1, 1)]
  nextId := 2

/-- While the circular pattern is tried at the second position, a tree of it in superfluous groups
is matched as the tree without them from some depth on. -/
theorem circling_runNode_reduceRoot_eq :
    let node := Node.plainGroup [[.plainGroup [[.plainRef 0, .plainGroup [[.plainRef 1]]]]]]
    let chart := { ofText "aaa" with active := [(1, 1)] }
    Underway "aaa" chart ∧ Node.Everywhere Node.IsFull node ∧
    node.reduceRoot = .plainGroup [[.plainRef 0, .plainRef 1]] ∧
    ∃ limit, ∀ maxDepth, limit ≤ maxDepth →
      runNode circling chart 0 node.reduceRoot maxDepth =
        runNode circling chart 0 node maxDepth := by
  intro node chart
  have hchart : Underway "aaa" chart :=
    .begun (.opened .fresh) (by simp [outcome?, ofText])
  have hfull : Node.Everywhere Node.IsFull node := by
    simp [node, Node.plainGroup, Node.plainRef, Node.everywhere_group_iff, Node.everywhere_ref_iff,
      Node.IsFull]
  obtain ⟨-, hroot, ⟨limit, hlimit⟩, -⟩ :=
    hchart.runNode_reduce_eq circling hfull (show (0 : Int) ≤ chart.size by decide)
  refine ⟨hchart, hfull, rfl, limit, fun maxDepth hdepth => hroot _ rfl maxDepth ?_ ?_⟩
  · exact hlimit node (by simp) maxDepth hdepth
  · exact hlimit node.reduceRoot (by simp) maxDepth hdepth

end Runs

end Chart

end Motif
