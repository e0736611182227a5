import Motif.Proofs.Matching.Runs
import Motif.Proofs.Registry.Wording
import Motif.Proofs.Survey.Stretches

/-!
# Matching what has been proposed

The texts that are proposed for a stretch match it again. The survey has gone from token to token by
their places in the chart; matching repeats greedily, by what the chart remembers. Both end where a
pattern does not match or matches nothing.
-/

namespace Motif

namespace Evaluation

open Chart (Reach)

variable {token : Int → Int → Option Token} {size : Nat} {once : Int → Option Reach}

/-- So many steps, none of them empty, lead from one position to another, where there is none or an
empty one. -/
inductive Goes (once : Int → Option Reach) : Nat → Int → Int → Prop where
  | stop {position : Int} (hstop : ∀ reach, once position = some reach → reach.stop = position) :
      Goes once 0 position position
  | step {count : Nat} {position last : Int} {reach : Reach} (honce : once position = some reach)
      (hstop : reach.stop ≠ position) (hrest : Goes once count reach.stop last) :
      Goes once (count + 1) position last

/-- Greedy repetition goes as far as the steps lead. -/
theorem Goes.stop_greedy {count : Nat} {position last : Int} (hgoes : Goes once count position last)
    {tries : Nat} (htries : count ≤ tries) {needed : Int} (hneeded : needed ≤ count) :
    (greedy once tries needed position).map Reach.stop = some last := by
  induction hgoes generalizing tries needed with
  | @stop position hstop =>
      have hnone : needed ≤ 0 := by simpa using hneeded
      cases tries with
      | zero => simp [greedy, hnone]
      | succ tries =>
          cases honce : once position with
          | none => simp [greedy, honce, hnone]
          | some reach => simp [greedy, honce, hstop reach honce]
  | @step count position last reach honce hstop _ ih =>
      obtain ⟨tries, rfl⟩ := Nat.exists_eq_add_one_of_ne_zero (by omega : tries ≠ 0)
      rw [greedy, honce]
      simp only [hstop, ↓reduceIte, Option.map_map]
      exact ih (by omega) (by omega)

/-- A node with a lower bound only ends where the steps lead, if they are many enough. -/
theorem Goes.stop_quantified {count : Nat} {position last : Int}
    (hgoes : Goes once count position last) {least : Int} (hsize : count ≤ size)
    (hleast : least ≤ count) :
    (quantified size ⟨least, Quantity.unlimited⟩ .here once position).map Reach.stop =
      some last := by
  have hroom : room ⟨least, Quantity.unlimited⟩ size = size + 1 := if_pos rfl
  rw [quantified, if_neg (by simp [Quantity.unlimited]), hroom]
  have hgreedy := hgoes.stop_greedy (Nat.le_succ_of_le hsize) hleast
  cases hreach : greedy once (size + 1) least position with
  | none => simp [hreach] at hgreedy
  | some reach => simpa [hreach] using hgreedy

/-- A plain reference ends where its token ends. -/
theorem stop_plainRef (id start : Int) :
    (evalNode token size (.plainRef id) start).map Reach.stop =
      (token id start).map Token.stop := by
  rw [Node.plainRef, evalNode, if_neg (by decide), stop_quantified_once, Option.map_map]
  rfl

theorem stop_evalSequence_cons (node : Node) (rest : List Node) (start : Int) :
    (evalSequence token size (node :: rest) start).map Reach.stop =
      ((evalNode token size node start).map Reach.stop).bind fun middle =>
        (evalSequence token size rest middle).map Reach.stop := by
  rw [evalSequence]
  cases evalNode token size node start with
  | none => rfl
  | some reach =>
      simp only [Option.map_some, Option.bind_some]
      cases evalSequence token size rest reach.stop <;> rfl

theorem stop_evalSequence_nil (start : Int) :
    (evalSequence token size [] start).map Reach.stop = some start :=
  rfl

theorem evalAlternatives_singleton (sequence : List Node) (start : Int) :
    evalAlternatives token size [sequence] start = evalSequence token size sequence start := by
  rw [evalAlternatives, evalAlternatives]
  cases evalSequence token size sequence start <;> rfl

/-- A plain group of one sequence ends where the sequence ends. -/
theorem stop_plainGroup (sequence : List Node) (start : Int) :
    (evalNode token size (.plainGroup [sequence]) start).map Reach.stop =
      (evalSequence token size sequence start).map Reach.stop := by
  rw [Node.plainGroup, evalNode, if_neg (by decide), stop_quantified_once,
    evalAlternatives_singleton]

/-- A pair of references ends where the second token ends that starts where the first one ends. -/
theorem stop_pair (first second start : Int) :
    (evalAlternatives token size [[.plainRef first, .plainRef second]] start).map Reach.stop =
      ((token first start).map Token.stop).bind fun middle =>
        (token second middle).map Token.stop := by
  simp only [evalAlternatives_singleton, stop_evalSequence_cons, stop_plainRef,
    stop_evalSequence_nil, Option.bind_fun_some]

end Evaluation

namespace Chart

open Evaluation

variable {grammar : Grammar} {depth : Int → Nat} {text : Array Char} {chart : Chart}

/-- No outcome of a pattern in the chart is of zero length. -/
def IsNeverEmpty (chart : Chart) (id : Int) : Prop :=
  ∀ position token, chart.remembered id position = some token → token.length ≠ 0

section Going

variable (hchart : chart.Settled grammar depth text)
include hchart

theorem Settled.head?_eq_some_iff {position id : Int} {token : Token} :
    chart.head? position id = some token ↔
      chart.remembered id position = some token ∧ 0 < token.length := by
  rw [hchart.indexed.head?_eq_some_iff, remembered_eq_some_iff]

/-- Where the chart has no token of a pattern in its slots, nothing is remembered or an empty
token. -/
theorem Settled.stop_of_head?_eq_none {position id : Int} (hhead : chart.head? position id = none)
    {token : Token} (htoken : chart.remembered id position = some token) :
    token.length = 0 ∧ token.stop = position := by
  have hfits := hchart.fits htoken
  have hnonneg := hfits.length_nonneg
  have hlength : token.length = 0 := by
    by_contra hne
    have hsome := hchart.head?_eq_some_iff.mpr ⟨htoken, by omega⟩
    rw [hhead] at hsome
    cases hsome
  refine ⟨hlength, ?_⟩
  rw [Token.stop, hlength, hfits.start_eq, Int.add_zero]

/-- The submatches of one pattern go where its tokens follow one another. -/
theorem Settled.goes_follow {id position : Int} (hnonneg : 0 ≤ position) {tokens : List Token}
    (htokens : chart.followFrom id id position = tokens) :
    Goes (fun place => (chart.remembered id place).map ofToken) tokens.length position
      (endOf position tokens) := by
  induction tokens generalizing position with
  | nil =>
      rw [hchart.indexed.followFrom_eq hnonneg] at htokens
      cases hhead : chart.head? position id with
      | some token => simp [hhead] at htokens
      | none =>
          refine .stop fun reach hreach => ?_
          obtain ⟨token, htoken, rfl⟩ := Option.map_eq_some_iff.mp hreach
          exact (hchart.stop_of_head?_eq_none hhead htoken).2
  | cons token rest ih =>
      rw [hchart.indexed.followFrom_eq hnonneg] at htokens
      cases hhead : chart.head? position id with
      | none => simp [hhead] at htokens
      | some found =>
          rw [hhead] at htokens
          obtain ⟨rfl, hrest⟩ := List.cons.inj htokens
          have hstop := hchart.indexed.stop_of_head? hhead
          have htoken := (hchart.head?_eq_some_iff.mp hhead).1
          have honce : (chart.remembered id position).map ofToken = some (ofToken found) := by
            rw [(hchart.head?_eq_some_iff.mp hhead).1, Option.map_some]
          refine .step honce (Int.ne_of_gt hstop.1) (ih ?_ hrest)
          change 0 ≤ found.stop
          omega

/-- The submatches of a pair of patterns, of which the first is never empty, go where these take
turns if that ends with the second one. -/
theorem Settled.goes_pairs {first second : Int} (hfirst : chart.IsNeverEmpty first) {pairs : Nat}
    {position : Int} (hnonneg : 0 ≤ position) {tokens : List Token}
    (htokens : chart.followFrom first second position = tokens)
    (hlength : tokens.length = 2 * pairs) :
    Goes (evalAlternatives chart.remembered text.size [[.plainRef first, .plainRef second]]) pairs
      position (endOf position tokens) := by
  induction pairs generalizing position tokens with
  | zero =>
      obtain rfl := List.length_eq_zero_iff.mp hlength
      rw [hchart.indexed.followFrom_eq hnonneg] at htokens
      refine .stop fun reach hreach => ?_
      have hstop := @stop_pair chart.remembered text.size first second position
      rw [hreach] at hstop
      cases hhead : chart.head? position first with
      | some token => simp [hhead] at htokens
      | none =>
          cases htoken : chart.remembered first position with
          | none => simp [htoken] at hstop
          | some token =>
              have hempty := (hchart.stop_of_head?_eq_none hhead htoken).1
              exact absurd hempty (hfirst position token htoken)
  | succ pairs ih =>
      -- The length leaves no choice but two tokens, after which there are pairs again.
      match tokens, hlength with
      | one :: two :: rest, hlength =>
          have hrest : rest.length = 2 * pairs := by simpa [Nat.mul_succ] using hlength
          rw [hchart.indexed.followFrom_eq hnonneg] at htokens
          cases hhead : chart.head? position first with
          | none => simp [hhead] at htokens
          | some token =>
              rw [hhead] at htokens
              obtain ⟨rfl, hnext⟩ := List.cons.inj htokens
              have hstop := hchart.indexed.stop_of_head? hhead
              rw [hchart.indexed.followFrom_eq (by omega)] at hnext
              cases hother : chart.head? token.stop second with
              | none => simp [hother] at hnext
              | some found =>
                  rw [hother] at hnext
                  obtain ⟨rfl, hmore⟩ := List.cons.inj hnext
                  have hend := hchart.indexed.stop_of_head? hother
                  have hpair := @stop_pair chart.remembered text.size first second position
                  rw [(hchart.head?_eq_some_iff.mp hhead).1, Option.map_some, Option.bind_some,
                    (hchart.head?_eq_some_iff.mp hother).1] at hpair
                  obtain ⟨reach, hreach, hreachStop⟩ := Option.map_eq_some_iff.mp hpair
                  refine .step hreach (by omega) ?_
                  rw [hreachStop]
                  exact ih (by omega) hmore hrest

/-- On a settled chart a node ends where it ends by plain evaluation from what is remembered. -/
theorem Settled.run_tryNode
    (hid : ∀ {id pattern}, grammar.find? id = some pattern → pattern.id = id)
    {node : Node} (hknown : ∀ id ∈ node.references, (grammar.find? id).isSome)
    (hbehind : Node.Everywhere (fun child => child.look = .behind →
      child.Retraceable (Unambiguous chart.remembered)) node) {maxDepth : Int}
    (hroom : node.depth (fun _ => 0) ≤ roomFor maxDepth) (start : Int) :
    ((tryNode grammar node start maxDepth).run chart).1.map (Option.map Token.stop) =
      .ok ((evalNode chart.remembered text.size node start).map Reach.stop) := by
  have hsettles : Settles (Faithful grammar text chart.remembered [] (Inside grammar text))
      (matchNode grammar (roomFor maxDepth) node start)
      (evalNode chart.remembered text.size node start) := by
    refine settles_matchNode (fun other hother => by rw [hother.text_eq]) node hbehind
      (fun id hreference room _ => ?_) hroom start
    obtain ⟨pattern, hpattern⟩ := Option.isSome_iff_exists.mp (hknown id hreference)
    obtain rfl := hid hpattern
    exact hchart.answers hpattern room
  obtain ⟨after, hrun, -⟩ := hsettles chart (hchart.faithful hid)
  unfold tryNode
  rw [show (matchNode grammar (roomFor maxDepth) node start >>= _).run chart = _ from
    run_bind_of_ok hrun]
  cases evalNode chart.remembered text.size node start with
  | none => rfl
  | some reach =>
      have hsum : start + (reach.stop - start) = reach.stop := by omega
      change Except.ok (some (start + (reach.stop - start))) = _
      rw [hsum]
      rfl

end Going

end Chart

namespace Registry

open Chart Evaluation

variable {registry : Registry} {text : Array Char} {chart : Chart}

/-- Where a match of a pattern text ends that starts at a position of a chart, if there is one. -/
def stopOf (registry : Registry) (chart : Chart) (text : String) (start : Int) :
    Except Fault (Option Int) := do
  let root ← compileTree registry.scope text
  let token ← ((Chart.tryNode registry.grammar root start).run chart).1
  return token.map Token.stop

/-- A node that looks behind at references only, which are registered, and is of no great depth. -/
structure IsShallow (registry : Registry) (node : Node) : Prop where
  known : ∀ id ∈ node.references, (registry.byId? id).isSome
  behind : node.Everywhere fun child =>
    child.look = .behind → ∃ id quantity, child = .ref id quantity .behind
  depth : node.depth (fun _ => 0) ≤ roomFor defaultDepth

theorem stopOf_eq (hlayered : registry.grammar.Layered registry.rank)
    (hchart : chart.Settled registry.grammar registry.depth text) {source : String} {root : Node}
    (hcompiled : compileTree registry.scope source = .ok root) (hshallow : registry.IsShallow root)
    (start : Int) :
    registry.stopOf chart source start =
      .ok ((evalNode chart.remembered text.size root start).map Reach.stop) := by
  have hrun := hchart.run_tryNode hlayered.id_eq hshallow.known
    (fun child hchild hlook => by
      obtain ⟨id, quantity, rfl⟩ := hshallow.behind child hchild hlook
      exact .ref id quantity .behind) hshallow.depth start
  rw [← hrun, stopOf, hcompiled]
  change (do let token ← ((Chart.tryNode registry.grammar root start).run chart).1; _) = _
  cases ((Chart.tryNode registry.grammar root start).run chart).1 <;> rfl

section Shallow

variable {first second : Int} (hfirst : (registry.byId? first).isSome)
  (hsecond : (registry.byId? second).isSome)
include hfirst

theorem isShallow_wholeRun : registry.IsShallow (.wholeRun first) := by
  constructor <;>
    simp [Node.wholeRun, Node.plainGroup, Node.mem_references_group, Node.everywhere_group_iff,
      Node.everywhere_ref_iff, Node.look, Node.depth, Node.depthOfAlternatives,
      Node.depthOfSequence, roomFor, defaultDepth, hfirst]

theorem isShallow_some :
    registry.IsShallow (.plainGroup [[.ref first ⟨1, Quantity.unlimited⟩ .here]]) := by
  constructor <;>
    simp [Node.plainGroup, Node.mem_references_group, Node.everywhere_group_iff,
      Node.everywhere_ref_iff, Node.look, Node.depth, Node.depthOfAlternatives,
      Node.depthOfSequence, roomFor, defaultDepth, hfirst]

include hsecond

theorem isShallow_pairs : registry.IsShallow (.plainGroup
    [[.group [[.plainRef first, .plainRef second]] ⟨1, Quantity.unlimited⟩ .here]]) := by
  constructor <;>
    simp [Node.plainGroup, Node.plainRef, Node.mem_references_group, Node.everywhere_group_iff,
      Node.everywhere_ref_iff, Node.look, Node.depth, Node.depthOfAlternatives,
      Node.depthOfSequence, roomFor, defaultDepth, hfirst, hsecond, or_imp, forall_and]

theorem isShallow_returning : registry.IsShallow (.plainGroup [[.plainRef first,
    .group [[.plainRef second, .plainRef first]] ⟨0, Quantity.unlimited⟩ .here]]) := by
  constructor <;>
    simp [Node.plainGroup, Node.plainRef, Node.mem_references_group, Node.everywhere_group_iff,
      Node.everywhere_ref_iff, Node.look, Node.depth, Node.depthOfAlternatives,
      Node.depthOfSequence, roomFor, defaultDepth, hfirst, hsecond, or_imp, forall_and]

end Shallow

section Rematching

variable {grammar : Grammar} {depth : Int → Nat} (hchart : chart.Settled grammar depth text)
include hchart

theorem length_le_size {position : Int} (hnonneg : 0 ≤ position) (id other : Int) :
    (chart.followFrom id other position).length ≤ text.size := by
  have hbound : (chart.followFrom id other position).length ≤ (chart.size - position).toNat :=
    length_follow_le id other _ position
  have hsize : chart.size = text.size := by rw [Chart.size, hchart.indexed.text_eq]
  omega

/-- A repetition of the pattern of a stretch ends where the stretch ends. -/
theorem stop_some {first : Token} {stretch : Stretch}
    (hleads : chart.Leads first first.id stretch) :
    (quantified text.size ⟨1, Quantity.unlimited⟩ .here
      (fun position => (chart.remembered first.id position).map ofToken) stretch.start).map
        Reach.stop = some stretch.stop := by
  have hhead := hchart.indexed.mem_tokens_iff.mp hleads.mem_tokens
  have hnonneg := (hchart.fits (hchart.head?_eq_some_iff.mp hhead).1).start_nonneg
  rw [hleads.start_eq hchart.indexed, hleads.stop_eq hchart.indexed]
  refine (hchart.goes_follow hnonneg rfl).stop_quantified
    (length_le_size hchart hnonneg first.id first.id) ?_
  rw [hchart.indexed.followFrom_of_mem hleads.mem_tokens, List.length_cons]
  omega

/-- A look behind at a pattern finds nothing where no token of it ends. -/
theorem starts_eq_nil_iff_tokens (id : Int) (quantity : Quantity) (look : Look) (stop : Int) :
    starts chart.remembered (.ref id quantity look) stop = [] ↔
      ¬ ∃ token ∈ chart.tokens, token.id = id ∧ token.stop = stop := by
  rw [List.eq_nil_iff_forall_not_mem, not_exists]
  constructor
  · rintro hnone token ⟨hmem, rfl, hstop⟩
    obtain ⟨htoken, hlength⟩ :=
      hchart.head?_eq_some_iff.mp (hchart.indexed.mem_tokens_iff.mp hmem)
    have hstart := (hchart.fits htoken).start_nonneg
    have hlt : token.start < stop := by
      rw [← hstop, Token.stop]
      omega
    exact hnone token.start (mem_starts_ref.mpr ⟨hstart, hlt, token, htoken, hstop⟩)
  · intro hnone start hstart
    obtain ⟨-, hlt, token, htoken, hstop⟩ := mem_starts_ref.mp hstart
    obtain ⟨hid, hfrom, -, -, -⟩ := hchart.fits htoken
    have hlength : 0 < token.length := by
      rw [← hstop, Token.stop, hfrom] at hlt
      omega
    refine hnone token ⟨?_, hid, hstop⟩
    rw [hchart.indexed.mem_tokens_iff, hfrom, hid]
    exact hchart.head?_eq_some_iff.mpr ⟨htoken, hlength⟩

/-- Pairs of patterns end where an alternation of even length ends, if the first one is never
empty. -/
theorem stop_pairs {first second : Token} {key : Cell} {stretch : Stretch}
    (halternates : chart.Alternates key stretch first second)
    (hfirst : chart.IsNeverEmpty first.id) (heven : stretch.count % 2 = 0) :
    (quantified text.size ⟨1, Quantity.unlimited⟩ .here
      (evalAlternatives chart.remembered text.size [[.plainRef first.id, .plainRef second.id]])
        stretch.start).map Reach.stop = some stretch.stop := by
  have hleads := halternates.leads
  have hhead := hchart.indexed.mem_tokens_iff.mp hleads.mem_tokens
  have hnonneg := (hchart.fits (hchart.head?_eq_some_iff.mp hhead).1).start_nonneg
  obtain ⟨pairs, hpairs⟩ : ∃ pairs, stretch.count = 2 * pairs :=
    ⟨stretch.count / 2, by omega⟩
  have hlength : (chart.followFrom first.id second.id first.start).length = 2 * pairs := by
    rw [← hpairs, Stretch.count, hleads.tokens_eq]
  have hsize := length_le_size hchart hnonneg first.id second.id
  rw [hleads.start_eq hchart.indexed, hleads.stop_eq hchart.indexed]
  refine (hchart.goes_pairs hfirst hnonneg rfl hlength).stop_quantified (by omega) ?_
  rw [hchart.indexed.followFrom_of_mem hleads.mem_tokens, List.length_cons] at hlength
  omega

/-- A pattern and pairs that end with it end where an alternation of odd length ends, if the other
pattern is never empty. -/
theorem stop_returning {first second : Token} {key : Cell} {stretch : Stretch}
    (halternates : chart.Alternates key stretch first second)
    (hsecond : chart.IsNeverEmpty second.id) (hodd : stretch.count % 2 = 1) :
    ((chart.remembered first.id stretch.start).map Token.stop).bind (fun middle =>
      (quantified text.size ⟨0, Quantity.unlimited⟩ .here
        (evalAlternatives chart.remembered text.size [[.plainRef second.id, .plainRef first.id]])
          middle).map Reach.stop) = some stretch.stop := by
  have hleads := halternates.leads
  have hhead := hchart.indexed.mem_tokens_iff.mp hleads.mem_tokens
  have htoken := (hchart.head?_eq_some_iff.mp hhead).1
  have hnonneg := (hchart.fits htoken).start_nonneg
  have hstop := hchart.indexed.stop_of_head? hhead
  have hfollow := hchart.indexed.followFrom_of_mem hleads.mem_tokens second.id
  obtain ⟨pairs, hpairs⟩ : ∃ pairs, stretch.count = 2 * pairs + 1 :=
    ⟨stretch.count / 2, by omega⟩
  have hlength : (chart.followFrom second.id first.id first.stop).length = 2 * pairs := by
    rw [Stretch.count, hleads.tokens_eq, hfollow, List.length_cons] at hpairs
    omega
  have hsize := length_le_size hchart (by omega : 0 ≤ first.stop) second.id first.id
  rw [hleads.start_eq hchart.indexed, hleads.stop_eq hchart.indexed, htoken, Option.map_some,
    Option.bind_some, hfollow, endOf]
  exact (hchart.goes_pairs hsecond (by omega) rfl hlength).stop_quantified (by omega) (by omega)

end Rematching

section Proposing

variable (hcoherent : registry.Coherent) (hnamed : registry.Named)
  (hlayered : registry.grammar.Layered registry.rank)
  (hchart : chart.Settled registry.grammar registry.depth text)
include hcoherent hnamed hlayered hchart

/-- For a stretch of one pattern, its repetition takes the stretch, and the whole run of the pattern
does so unless a token of the pattern ends where the stretch starts. -/
theorem stopOf_repetition {pattern : Pattern} {id : Int}
    (hpattern : registry.byId? id = some pattern) (hwritable : pattern.Writable)
    {stretch : Stretch} (hleads : ∃ first, first.id = id ∧ chart.Leads first id stretch) :
    registry.stopOf chart (pattern.symbol.text ++ "+") stretch.start = .ok (some stretch.stop) ∧
      registry.stopOf chart (Proposal.repetitionText pattern.symbol.text) stretch.start =
        .ok (if ∃ token ∈ chart.tokens, token.id = id ∧ token.stop = stretch.start then none
          else some stretch.stop) := by
  obtain ⟨first, rfl, hleads⟩ := hleads
  have hknown : (registry.byId? first.id).isSome := by simp [hpattern]
  have hsome := stop_some hchart hleads
  constructor
  · rw [stopOf_eq hlayered hchart (compileTree_some hcoherent hnamed hpattern hwritable none)
      (isShallow_some hknown), stop_plainGroup, stop_evalSequence_cons, evalNode,
      if_neg (by decide), hsome]
    rfl
  · have hcompiled : compileTree registry.scope (Proposal.repetitionText pattern.symbol.text) =
        .ok (.wholeRun first.id) := by
      refine compileTree_repetitionText (Pattern.isReference_symbol hwritable) fun position => ?_
      rw [← target_symbol hcoherent hnamed hpattern hwritable]
      exact (resolve_scope hcoherent hnamed hpattern hwritable none position).1
    rw [stopOf_eq hlayered hchart hcompiled (isShallow_wholeRun hknown), stop_wholeRun, hsome]
    simp only [starts_eq_nil_iff_tokens hchart, ite_not]

/-- For an alternation of two patterns, the pairs of them take the stretch if it is of even length
and the first pattern is never empty, and what begins and ends with the first pattern takes it if it
is of odd length and the second pattern is never empty. -/
theorem stopOf_alternation {first second : Token} {key : Cell} {stretch : Stretch}
    (halternates : chart.Alternates key stretch first second) {leader follower : Pattern}
    (hleader : registry.byId? first.id = some leader) (hleadable : leader.Writable)
    (hfollower : registry.byId? second.id = some follower) (hfollowable : follower.Writable) :
    (chart.IsNeverEmpty first.id → stretch.count % 2 = 0 →
      registry.stopOf chart ("( " ++ leader.symbol.text ++ " " ++ follower.symbol.text ++ " )+")
        stretch.start = .ok (some stretch.stop)) ∧
    (chart.IsNeverEmpty second.id → stretch.count % 2 = 1 →
      registry.stopOf chart (leader.symbol.text ++ " ( " ++ follower.symbol.text ++ " " ++
        leader.symbol.text ++ " )*") stretch.start = .ok (some stretch.stop)) := by
  have hknown : (registry.byId? first.id).isSome := by simp [hleader]
  have hother : (registry.byId? second.id).isSome := by simp [hfollower]
  constructor
  · intro hfirst heven
    rw [stopOf_eq hlayered hchart (compileTree_pairs hcoherent hnamed hleader hleadable hfollower
      hfollowable none) (isShallow_pairs hknown hother), stop_plainGroup, stop_evalSequence_cons,
      evalNode, if_neg (by decide), stop_pairs hchart halternates hfirst heven]
    rfl
  · intro hsecond hodd
    rw [stopOf_eq hlayered hchart (compileTree_returning hcoherent hnamed hleader hleadable
      hfollower hfollowable none) (isShallow_returning hknown hother), stop_plainGroup,
      stop_evalSequence_cons, stop_plainRef]
    simp only [stop_evalSequence_cons, stop_evalSequence_nil, Option.bind_fun_some]
    rw [← stop_returning hchart halternates hsecond hodd]
    rfl

end Proposing

/-- After a parse that does not reach the limit of depth, the texts that are proposed for stretches
match these again. A repetition of a pattern takes each stretch of it, and so does its whole run
where no token of it ends just before. Pairs of patterns that take turns take a stretch of even
length, and what begins and ends with the first one a stretch of odd length, if the pattern that
would be next is never empty. -/
theorem stretches_of_parse (hcoherent : registry.Coherent) (hclosed : registry.Closed)
    (hacyclic : registry.Acyclic) (hnamed : registry.Named)
    (hwritable : ∀ pattern ∈ registry.patterns, pattern.Writable) (text : String) {maxDepth : Int}
    (hunreached : Unreached (fun limit => registry.parse text limit) maxDepth) :
    ∃ chart, registry.parse text maxDepth = .ok chart ∧
      (∀ id stretches, (id, stretches) ∈ chart.repetitions.toList → ∀ stretch ∈ stretches,
        ∃ pattern identity, registry.byId? id = some pattern ∧ pattern.identity = .ok identity ∧
          registry.stopOf chart (identity ++ "+") stretch.start = .ok (some stretch.stop) ∧
          registry.stopOf chart (Proposal.repetitionText identity) stretch.start =
            .ok (if ∃ token ∈ chart.tokens, token.id = id ∧ token.stop = stretch.start then none
              else some stretch.stop)) ∧
      ∀ minTokens key stretches, (key, stretches) ∈ (chart.alternations minTokens).toList →
        ∀ stretch ∈ stretches, ∃ first second leader follower,
          key = (min first second, max first second) ∧
          Proposal.leaders [stretch] = some (first, second) ∧
          (∃ pattern, registry.byId? first = some pattern ∧ pattern.identity = .ok leader) ∧
          (∃ pattern, registry.byId? second = some pattern ∧ pattern.identity = .ok follower) ∧
          (chart.IsNeverEmpty first → stretch.count % 2 = 0 →
            registry.stopOf chart ("( " ++ leader ++ " " ++ follower ++ " )+") stretch.start =
              .ok (some stretch.stop)) ∧
          (chart.IsNeverEmpty second → stretch.count % 2 = 1 →
            registry.stopOf chart (leader ++ " ( " ++ follower ++ " " ++ leader ++ " )*")
              stretch.start = .ok (some stretch.stop)) := by
  obtain ⟨chart, hparse, hchart⟩ := exists_settled hcoherent hclosed hacyclic text hunreached
  have hlayered := layered hcoherent hclosed hacyclic
  -- Every token of the chart has been built from a registered pattern.
  have hregistered : ∀ token ∈ chart.tokens, ∃ pattern, registry.byId? token.id = some pattern ∧
      pattern.Writable ∧ pattern.identity = .ok pattern.symbol.text := by
    intro token htoken
    obtain ⟨houtcome, -⟩ := hchart.indexed.head?_eq_some_iff.mp
      (hchart.indexed.mem_tokens_iff.mp htoken)
    obtain ⟨-, -, pattern, -, hpattern, -⟩ := hchart.rebuilt houtcome
    have hsound := hwritable pattern (hcoherent.mem_patterns hpattern)
    exact ⟨pattern, hpattern, hsound, Pattern.identity_eq hsound⟩
  refine ⟨chart, hparse, fun id stretches hfound stretch hstretch => ?_,
    fun minTokens key stretches hfound stretch hstretch => ?_⟩
  · obtain ⟨first, rfl, hleads⟩ := hchart.indexed.repetitions_lead id stretches
      (ArrivalMap.mem_toList_iff.mp hfound) stretch hstretch
    obtain ⟨pattern, hpattern, hsound, hidentity⟩ := hregistered first hleads.mem_tokens
    exact ⟨pattern, _, hpattern, hidentity, stopOf_repetition hcoherent hnamed hlayered hchart
      hpattern hsound ⟨first, rfl, hleads⟩⟩
  · obtain ⟨first, second, halternates⟩ := hchart.indexed.alternations_alternate minTokens key
      stretches (ArrivalMap.mem_toList_iff.mp hfound) stretch hstretch
    obtain ⟨leader, hleader, hleadable, hidentity⟩ :=
      hregistered first halternates.leads.mem_tokens
    obtain ⟨follower, hfollower, hfollowable, hother⟩ := hregistered second halternates.next.1
    refine ⟨first.id, second.id, _, _, halternates.key_eq, ?_, ⟨leader, hleader, hidentity⟩,
      ⟨follower, hfollower, hother⟩, stopOf_alternation hcoherent hnamed hlayered hchart halternates
        hleader hleadable hfollower hfollowable⟩
    rw [halternates.leads.exists_tokens hchart.indexed, ← halternates.next.2,
      hchart.indexed.followFrom_of_mem halternates.next.1]
    rfl

theorem lettering_named : lettering.Named := by
  intro id serial pattern hentry hpattern name hname
  simp only [lettering, List.mem_cons, Prod.mk.injEq, List.not_mem_nil, or_false] at hentry
  rcases hentry with ⟨rfl, rfl⟩ | ⟨rfl, rfl⟩ | ⟨rfl, rfl⟩ | ⟨rfl, rfl⟩ | ⟨rfl, rfl⟩ <;>
    (cases hpattern; cases hname; rfl)

theorem lettering_writable : ∀ pattern ∈ lettering.patterns, pattern.Writable := by
  have hnames : ∀ pattern ∈ lettering.patterns, pattern.name.any (fun name =>
      decide (name ≠ "" ∧ name.toList.getLast? ≠ some '\n')) = true := by
    decide
  intro pattern hpattern
  obtain ⟨name, hname, hsound⟩ := (Option.any_eq_true _ _).mp (hnames pattern hpattern)
  refine ⟨fun given hgiven => ?_, fun hnone => ?_⟩
  · obtain rfl : name = given := Option.some.inj (hname.symm.trans hgiven)
    exact of_decide_eq_true hsound
  · rw [hname] at hnone
    cases hnone

/-- Four letters in turn are taken again as a repetition of letters and as pairs of a and b. -/
theorem stretches_of_parse_lettering :
    ∃ chart, lettering.parse "abab" 256 = .ok chart ∧
      lettering.stopOf chart "Letter+" 0 = .ok (some 4) ∧
        lettering.stopOf chart "( a b )+" 0 = .ok (some 4) := by
  have hdepth : ∀ pattern ∈ lettering.patterns,
      pattern.depth lettering.depth ≤ Chart.roomFor 256 := by
    decide
  have hunreached := unreached_parse lettering_coherent lettering_closed lettering_acyclic hdepth
    "abab"
  obtain ⟨chart, hparse, hrepetitions, halternations⟩ := stretches_of_parse lettering_coherent
    lettering_closed lettering_acyclic lettering_named lettering_writable "abab" hunreached
  refine ⟨chart, hparse, ?_⟩
  obtain ⟨same, hagain, hchart⟩ := exists_settled lettering_coherent lettering_closed
    lettering_acyclic "abab" hunreached
  obtain rfl : chart = same := Except.ok.inj (hparse.symm.trans hagain)
  have hnever : chart.IsNeverEmpty 0 := by
    intro position token htoken hlength
    have hlayered := layered lettering_coherent lettering_closed lettering_acyclic
    obtain ⟨pattern, hletter, hid, hcontent⟩ : ∃ pattern, lettering.byId? pattern.id =
        some pattern ∧ pattern.id = 0 ∧ pattern.content = .literal "a" :=
      ⟨{ kind := .literal, name := "a", content := .literal "a", id := 0 }, rfl, rfl, rfl⟩
    have hclass : lettering.IsClass pattern.content := hcontent ▸ .literal rfl
    rw [← hid] at htoken
    have hone := length_of_stepsOne hlayered hchart hletter hclass
      (hclass.stepsOne hlayered hchart) htoken
    omega
  have hfound : (match lettering.parse "abab" 256 with
      | .ok chart =>
        (chart.repetitions.get? 2).any (fun stretches =>
          stretches.any fun stretch => stretch.start = 0 && stretch.stop = 4) &&
        ((chart.alternations 4).get? (0, 1)).any (fun stretches =>
          stretches.any fun stretch => stretch.start = 0 && stretch.stop = 4 &&
            stretch.count = 4 && Proposal.leaders [stretch] = some (0, 1))
      | .error _ => false) = true := by
    decide +kernel
  rw [hparse] at hfound
  simp only [Bool.and_eq_true, Option.any_eq_true, List.any_eq_true, decide_eq_true_eq] at hfound
  obtain ⟨⟨stretches, hget, stretch, hstretch, hstart, hstop⟩, others, hother, turn, hturn,
    ⟨⟨hbegin, hend⟩, hcount⟩, hleaders⟩ := hfound
  constructor
  · obtain ⟨pattern, identity, hpattern, hidentity, htaken, -⟩ := hrepetitions 2 stretches
      (ArrivalMap.mem_toList_iff.mpr hget) stretch hstretch
    cases hpattern
    cases hidentity
    rwa [hstart, hstop] at htaken
  · obtain ⟨first, second, leader, follower, -, hpair, ⟨_, hleader, hnamed⟩,
      ⟨_, hfollower, hcalled⟩, htaken, -⟩ := halternations 4 (0, 1) others
        (ArrivalMap.mem_toList_iff.mpr hother) turn hturn
    rw [hleaders] at hpair
    cases hpair
    cases hleader
    cases hnamed
    cases hfollower
    cases hcalled
    have hpairs := htaken hnever (by omega)
    rwa [hbegin, hend] at hpairs

end Registry

end Motif
