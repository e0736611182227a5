import Mathlib.Data.Finset.Prod
import Motif.Proofs.Matching.Alike
import Motif.Proofs.Matching.Depth

/-!
# Room that suffices

Patterns may refer to each other in circles, and still no matching descends for ever: a trial that
is under way is not begun again, and there are only so many positions and patterns. So there is an
amount of room with which matching does the same as with any greater one. It depends on the patterns
and on how many trials are not under way yet, and not on what the chart remembers.
-/

namespace Motif.Chart

variable {text : Array Char} {active : List Cell} {grammar : Grammar}

/-! ## Sequences -/

/-- With these amounts of room two sequences do the same, forwards and backwards. -/
structure AlikeSequences (grammar : Grammar) (text : Array Char) (active : List Cell)
    (room more : Nat) (sequence others : List Node) : Prop where
  forwards : ∀ position : Int, position ≤ text.size → Alike text active
    (matchSequence (matchNode grammar room) sequence position)
    (matchSequence (matchNode grammar more) others position)
  backwards : ∀ last, Alike text active
    (behindSequence (matchBehind grammar room) sequence.reverse last)
    (behindSequence (matchBehind grammar more) others.reverse last)

theorem adds_matchSequence (grammar : Grammar) (text : Array Char) (active : List Cell)
    (room : Nat) (sequence : List Node) (position : Int) :
    Adds grammar text active (matchSequence (matchNode grammar room) sequence position) :=
  composable_respects.matchSequence (fun child _ start =>
    (respects_extends grammar text active room).2.1 child start) position

theorem adds_behindSequence (grammar : Grammar) (text : Array Char) (active : List Cell)
    (room : Nat) (sequence : List Node) (last : Int) :
    Adds grammar text active (behindSequence (matchBehind grammar room) sequence last) :=
  composable_respects.behindSequence (fun child _ start =>
    (respects_extends grammar text active room).2.2 child start) last

theorem proceeds_matchSequence (grammar : Grammar) (text : Array Char) (active : List Cell)
    (room : Nat) (sequence : List Node) {position : Int} (hposition : position ≤ text.size) :
    Proceeds grammar text active (matchSequence (matchNode grammar room) sequence position)
      position :=
  yields_matchSequence (fun child _ _ hstart =>
    proceeds_matchNode grammar text active room child hstart) hposition

theorem proceeds_onceStep (grammar : Grammar) (text : Array Char) (active : List Cell)
    (room : Nat) (node : Node) {position : Int} (hposition : position ≤ text.size) :
    Proceeds grammar text active
      (onceStep grammar (matchPattern grammar room) (matchNode grammar room) node position)
      position := by
  obtain ⟨hpattern, hnode, -⟩ := yields_of_room text (leads_anywhere grammar) room
  intro chart hchart
  refine (yields_onceStep (leads_anywhere grammar) (hpattern active) (hnode active)
    (fun _ _ _ => trivial) hposition chart hchart).mono fun value after _ hvalue reach hreach => ?_
  exact (hvalue reach hreach).mono fun _ _ => trivial

section Sequences

variable {room more : Nat}

namespace AlikeSequences

variable {first second third fourth : List Node}

theorem trans {most : Nat} (hfirst : AlikeSequences grammar text active room more first second)
    (hsecond : AlikeSequences grammar text active more most second third) :
    AlikeSequences grammar text active room most first third where
  forwards position hposition :=
    (hfirst.forwards position hposition).trans (hsecond.forwards position hposition)
  backwards last := (hfirst.backwards last).trans (hsecond.backwards last)

theorem nil : AlikeSequences grammar text active room more [] [] where
  forwards _ _ := .refl _
  backwards _ := .refl _

theorem append (hfirst : AlikeSequences grammar text active room more first second)
    (hthird : AlikeSequences grammar text active room more third fourth) :
    AlikeSequences grammar text active room more (first ++ third) (second ++ fourth) where
  forwards position hposition := by
    rw [matchSequence_append, matchSequence_append]
    exact (hfirst.forwards position hposition).chain
      (proceeds_matchSequence grammar text active room first hposition) hthird.forwards
  backwards last := by
    rw [List.reverse_append, List.reverse_append, behindSequence_append, behindSequence_append]
    exact (hthird.backwards last).chainBack
      (adds_behindSequence grammar text active room third.reverse last) hfirst.backwards

theorem singleton_iff {node other : Node} :
    AlikeSequences grammar text active room more [node] [other] ↔
      (∀ position : Int, position ≤ text.size → Alike text active
        (matchNode grammar room node position) (matchNode grammar more other position)) ∧
      ∀ last, Alike text active (matchBehind grammar room node last)
        (matchBehind grammar more other last) := by
  constructor
  · rintro ⟨hforwards, hbackwards⟩
    simp only [matchSequence_singleton] at hforwards
    simp only [List.reverse_singleton, behindSequence_singleton] at hbackwards
    exact ⟨hforwards, hbackwards⟩
  · rintro ⟨hforwards, hbackwards⟩
    refine ⟨?_, ?_⟩
    · simpa only [matchSequence_singleton] using hforwards
    · simpa only [List.reverse_singleton, behindSequence_singleton] using hbackwards

/-- What a sequence does is settled by what its nodes do. -/
theorem of_forall (hnode : ∀ node ∈ first,
      AlikeSequences grammar text active room more [node] [node]) :
    AlikeSequences grammar text active room more first first := by
  induction first with
  | nil => exact nil
  | cons child rest ih =>
      have hrest := ih fun node hmem => hnode node (List.mem_cons_of_mem _ hmem)
      exact (hnode child List.mem_cons_self).append hrest

end AlikeSequences

/-- Groups with alike sequences are alike. -/
theorem alike_group {alternatives others : List (List Node)}
    (hsequences : List.Forall₂ (AlikeSequences grammar text active room more) alternatives others)
    (quantity : Quantity) (look : Look) :
    AlikeSequences grammar text active (room + 1) (more + 1) [.group alternatives quantity look]
      [.group others quantity look] := by
  have hback (last : Int) : Alike text active
      (behindStep grammar (matchPattern grammar room) (matchBehind grammar room)
        (.group alternatives quantity look) last)
      (behindStep grammar (matchPattern grammar more) (matchBehind grammar more)
        (.group others quantity look) last) := by
    rw [behindStep, behindStep]
    split
    next => exact .refl _
    next =>
      exact alike_behindAlternatives (hsequences.imp fun _ _ hsame => hsame.backwards last)
        fun sequence => adds_behindSequence grammar text active room sequence last
  refine AlikeSequences.singleton_iff.mpr ⟨fun start hstart => ?_, fun last => ?_⟩
  · rw [matchNode, matchNode]
    refine alike_nodeStep (by rfl) (by rfl) hback (fun position hposition => ?_)
      (fun position hposition => proceeds_onceStep grammar text active room _ hposition) hstart
    exact alike_matchAlternatives
      (hsequences.imp fun _ _ hsame => hsame.forwards position hposition)
      fun sequence => adds_matchSequence grammar text active room sequence position
  · rw [matchBehind, matchBehind]
    exact hback last

/-- References are alike if the pattern to which they lead is. -/
theorem alike_ref {id : Int} (hpattern : ∀ pattern, grammar.find? id = some pattern → ∀ start,
      Alike text active (matchPattern grammar room pattern start)
        (matchPattern grammar more pattern start)) (quantity : Quantity) (look : Look) :
    AlikeSequences grammar text active (room + 1) (more + 1) [.ref id quantity look]
      [.ref id quantity look] := by
  have hget : (∃ fault, grammar.get id = .error fault) ∨
      ∃ pattern, grammar.find? id = some pattern ∧ grammar.get id = .ok pattern := by
    unfold Grammar.get
    cases grammar.find? id with
    | none => exact .inl ⟨_, rfl⟩
    | some pattern => exact .inr ⟨pattern, rfl, rfl⟩
  have hback (last : Int) : Alike text active
      (behindStep grammar (matchPattern grammar room) (matchBehind grammar room)
        (.ref id quantity look) last)
      (behindStep grammar (matchPattern grammar more) (matchBehind grammar more)
        (.ref id quantity look) last) := by
    rw [behindStep, behindStep]
    split
    next => exact .refl _
    next =>
      obtain ⟨fault, herror⟩ | ⟨pattern, hfind, hok⟩ := hget
      · simp only [herror, lift_error_bind]
        exact .refl _
      · simp only [hok, lift_ok_bind]
        refine .read fun chart hchart => ?_
        have hscan := alike_scan (hpattern pattern hfind) (fun position =>
          (respects_extends grammar text active room).1 pattern position) pattern.id
          (last + 1 - chart.scannedUntil pattern.id).toNat (chart.scannedUntil pattern.id)
        exact hscan.andThen _ chart hchart
  refine AlikeSequences.singleton_iff.mpr ⟨fun start hstart => ?_, fun last => ?_⟩
  · rw [matchNode, matchNode]
    refine alike_nodeStep rfl rfl hback (fun position _ => ?_) (fun position hposition =>
      proceeds_onceStep grammar text active room _ hposition) hstart
    rw [onceStep, onceStep]
    obtain ⟨fault, herror⟩ | ⟨pattern, hfind, hok⟩ := hget
    · simp only [herror, lift_error_bind]
      exact .refl _
    · simp only [hok, lift_ok_bind]
      exact (hpattern pattern hfind position).andThen _
  · rw [matchBehind, matchBehind]
    exact hback last

end Sequences

/-! ## Room -/

/-- With whatever room of at least this amount the patterns of the grammar do the same. -/
def Suffices (grammar : Grammar) (text : Array Char) (active : List Cell) (enough : Nat) : Prop :=
  ∀ id pattern, grammar.find? id = some pattern → ∀ room more, enough ≤ room → enough ≤ more →
    ∀ start, Alike text active (matchPattern grammar room pattern start)
      (matchPattern grammar more pattern start)

/-- If an amount of room suffices for the patterns, room for the depth of a node above it suffices
for the node. -/
theorem Suffices.alike {enough : Nat} (hpatterns : Suffices grammar text active enough)
    (node : Node) {room more : Nat} (hroom : node.depth (fun _ => enough) ≤ room)
    (hmore : node.depth (fun _ => enough) ≤ more) :
    AlikeSequences grammar text active room more [node] [node] := by
  induction node using Node.memberInduction generalizing room more with
  | ref id quantity look =>
      obtain ⟨room, rfl⟩ := Node.exists_room hroom
      obtain ⟨more, rfl⟩ := Node.exists_room hmore
      exact alike_ref (fun pattern hfind => hpatterns id pattern hfind room more
        (Nat.le_of_succ_le_succ hroom) (Nat.le_of_succ_le_succ hmore)) quantity look
  | group alternatives quantity look ih =>
      obtain ⟨room, rfl⟩ := Node.exists_room hroom
      obtain ⟨more, rfl⟩ := Node.exists_room hmore
      refine alike_group (List.forall₂_same.mpr fun sequence hsequence => ?_) quantity look
      refine .of_forall fun child hchild => ih sequence hsequence child hchild ?_ ?_
      · exact Nat.le_of_lt_succ ((Node.depth_lt_depth_group _ hsequence hchild quantity
          look).trans_le hroom)
      · exact Nat.le_of_lt_succ ((Node.depth_lt_depth_group _ hsequence hchild quantity
          look).trans_le hmore)

/-- The number of trials of the patterns that are not under way. -/
def vacant (patterns : List Pattern) (text : Array Char) (active : List Cell) : Nat :=
  ((Finset.range text.size ×ˢ (patterns.map Pattern.id).toFinset).filter
    fun cell => ((cell.1 : Int), cell.2) ∉ active).card

/-- Beginning a trial leaves one vacant trial less. -/
theorem vacant_lt {patterns : List Pattern} {pattern : Pattern} (hpattern : pattern ∈ patterns)
    {start : Int} (hstart : 0 ≤ start) (hsize : start < text.size)
    (hfree : (start, pattern.id) ∉ active) :
    vacant patterns text ((start, pattern.id) :: active) < vacant patterns text active := by
  have hplace : (start.toNat : Int) = start := Int.toNat_of_nonneg hstart
  refine Finset.card_lt_card (Finset.ssubset_iff_of_subset ?_ |>.mpr ?_)
  · exact Finset.monotone_filter_right _ fun cell _ hcell hmem =>
      hcell (List.mem_cons_of_mem _ hmem)
  · have hid : pattern.id ∈ patterns.map Pattern.id := List.mem_map_of_mem hpattern
    refine ⟨(start.toNat, pattern.id), ?_, ?_⟩
    · simp only [Finset.mem_filter, Finset.mem_product, Finset.mem_range, List.mem_toFinset, hplace]
      exact ⟨⟨by omega, hid⟩, hfree⟩
    · simp [hplace]

/-- An amount of room that suffices for patterns while so many trials are vacant. -/
def roomEnough (patterns : List Pattern) : Nat → Nat
  | 0 => 1
  | count + 1 =>
    (patterns.map (Pattern.depth fun _ => roomEnough patterns count)).sum + 1

theorem roomEnough_pos (patterns : List Pattern) (count : Nat) :
    0 < roomEnough patterns count := by
  cases count <;> simp [roomEnough]

/-- A pattern does the same with two amounts of room if its tree does while its trial is under
way. -/
theorem alike_matchPattern {pattern : Pattern} {start : Int} {room more : Nat}
    (hroot : 0 ≤ start → start < text.size → (start, pattern.id) ∉ active →
      ∀ root, pattern.content = .tree root → AlikeSequences grammar text
        ((start, pattern.id) :: active) room more [root] [root]) :
    Alike text active (matchPattern grammar (room + 1) pattern start)
      (matchPattern grammar (more + 1) pattern start) := by
  rw [matchPattern, matchPattern]
  refine alike_recalled fun hstart hsize chart hchart hnew => ?_
  refine run_attempt_congr hchart hnew fun hfree => alike_build fun root hcontent => ?_
  have hsame := AlikeSequences.singleton_iff.mp (hroot hstart hsize hfree root hcontent)
  exact hsame.1 start hsize.le

/-- Room suffices if, whatever trial is begun, it is at least the depth above some room that
suffices from then on. -/
theorem suffices_of_begun {enough : Nat} (hpositive : 0 < enough)
    (hbelow : ∀ id pattern, grammar.find? id = some pattern → ∀ start : Int, 0 ≤ start →
      start < text.size → (start, pattern.id) ∉ active → ∃ below,
        Suffices grammar text ((start, pattern.id) :: active) below ∧
          pattern.depth (fun _ => below) ≤ enough) :
    Suffices grammar text active enough := by
  intro id pattern hfind room more hroom hmore start
  obtain ⟨room, rfl⟩ := Nat.exists_eq_succ_of_ne_zero (show room ≠ 0 by omega)
  obtain ⟨more, rfl⟩ := Nat.exists_eq_succ_of_ne_zero (show more ≠ 0 by omega)
  refine alike_matchPattern fun hstart hsize hfree root hcontent => ?_
  obtain ⟨below, hsuffices, hdepth⟩ := hbelow id pattern hfind start hstart hsize hfree
  rw [Pattern.depth, hcontent] at hdepth
  exact hsuffices.alike root (Nat.le_of_succ_le_succ (hdepth.trans hroom))
    (Nat.le_of_succ_le_succ (hdepth.trans hmore))

/-- The induction is on the number of vacant trials: each trial that is begun takes one away. -/
theorem suffices_roomEnough {patterns : List Pattern}
    (hknown : ∀ id pattern, grammar.find? id = some pattern → pattern ∈ patterns) (count : Nat)
    (hcount : vacant patterns text active ≤ count) :
    Suffices grammar text active (roomEnough patterns count) := by
  induction count generalizing active with
  | zero =>
      refine suffices_of_begun (roomEnough_pos patterns 0) ?_
      intro id pattern hfind start hstart hsize hfree
      have hfewer := vacant_lt (hknown id pattern hfind) hstart hsize hfree
      omega
  | succ count ih =>
      refine suffices_of_begun (roomEnough_pos patterns (count + 1)) ?_
      intro id pattern hfind start hstart hsize hfree
      have hpattern := hknown id pattern hfind
      have hfewer := vacant_lt hpattern hstart hsize hfree
      refine ⟨roomEnough patterns count, ih (by omega), ?_⟩
      rw [roomEnough]
      exact (List.single_le_sum (by simp) _ (List.mem_map_of_mem hpattern)).trans (Nat.le_succ _)

end Motif.Chart
