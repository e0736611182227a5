import Motif.Proofs.Matching.Calls

/-!
# Operations that do the same

Two operations are alike if they end in the same way and leave the same chart behind, on every chart
of a text on which certain trials are under way. Sequences, alternatives and repetitions of alike
submatches are alike, forwards and backwards; and so are trials that build alike.
-/

namespace Motif.Chart

variable {α β : Type} {text : Array Char} {active : List Cell} {grammar : Grammar}

/-- On every chart of the text with these trials under way the two operations do the same. -/
def Alike (text : Array Char) (active : List Cell) (first second : Action α) : Prop :=
  ∀ chart, Indexed text active chart → first.run chart = second.run chart

/-- Whatever it finds, the operation extends a chart of the text with these trials under way. -/
abbrev Adds (grammar : Grammar) (text : Array Char) (active : List Cell) (action : Action α) :
    Prop :=
  Respects (Extends grammar (fun _ => True) text active) action

/-- What the operation finds leads on from the position to a place inside the text. -/
abbrev Proceeds (grammar : Grammar) (text : Array Char) (active : List Cell)
    (action : Action (Option Reach)) (position : Int) : Prop :=
  Yields (Extends grammar (fun _ => True) text active) action (Leading (fun _ => True) position)
    fun _ => True

theorem proceeds_matchNode (grammar : Grammar) (text : Array Char) (active : List Cell) (room : Nat)
    (node : Node) {start : Int} (hstart : start ≤ text.size) :
    Proceeds grammar text active (matchNode grammar room node start) start := by
  obtain ⟨-, hnode, -⟩ := yields_of_room text (leads_anywhere grammar) room
  intro chart hchart
  refine (hnode active node (fun _ _ _ => trivial) start hstart chart hchart).mono
    fun value after _ hvalue reach hreach => ?_
  exact (hvalue reach hreach).mono fun _ _ => trivial

/-- What follows two operations that do the same on a chart does the same. -/
theorem run_bind_congr {first second : Action α} {chart : Chart}
    (hsame : first.run chart = second.run chart) (next : α → Action β) :
    (first >>= next).run chart = (second >>= next).run chart := by
  rcases hrun : first.run chart with ⟨result, after⟩
  rw [hrun] at hsame
  cases result with
  | error fault => rw [run_bind_of_error hrun, run_bind_of_error hsame.symm]
  | ok value => rw [run_bind_of_ok hrun, run_bind_of_ok hsame.symm]

namespace Alike

theorem refl (action : Action α) : Alike text active action action :=
  fun _ _ => rfl

theorem trans {first second third : Action α} (hfirst : Alike text active first second)
    (hsecond : Alike text active second third) : Alike text active first third :=
  fun chart hchart => (hfirst chart hchart).trans (hsecond chart hchart)

/-- Alike operations may be followed by alike ones, which need to be so only on the charts and for
the values to which the first one leads. -/
theorem bind {first second : Action α} {next more : α → Action β} {property : α → Chart → Prop}
    (hfirst : Alike text active first second)
    (hadds : Yields (Extends grammar (fun _ => True) text active) first property fun _ => True)
    (hnext : ∀ value chart, Indexed text active chart → property value chart →
      (next value).run chart = (more value).run chart) :
    Alike text active (first >>= next) (second >>= more) := by
  intro chart hchart
  obtain ⟨result, after, hrun, hafter, hresult⟩ := hadds chart hchart.extends_self
  have hagain := hrun
  rw [hfirst chart hchart] at hagain
  cases result with
  | error fault => rw [run_bind_of_error hrun, run_bind_of_error hagain]
  | ok value =>
      rw [run_bind_of_ok hrun, run_bind_of_ok hagain]
      exact hnext value after hafter.indexed hresult

/-- What follows alike operations may be the same operation, which needs no further condition. -/
theorem andThen {first second : Action α} (hfirst : Alike text active first second)
    (next : α → Action β) : Alike text active (first >>= next) (second >>= next) :=
  fun chart hchart => run_bind_congr (hfirst chart hchart) next

theorem bind_of_adds {first second : Action α} {next more : α → Action β}
    (hfirst : Alike text active first second) (hadds : Adds grammar text active first)
    (hnext : ∀ value, Alike text active (next value) (more value)) :
    Alike text active (first >>= next) (second >>= more) :=
  hfirst.bind hadds fun value chart hchart _ => hnext value chart hchart

theorem read {next more : Chart → Action α}
    (hnext : ∀ chart, Indexed text active chart → (next chart).run chart = (more chart).run chart) :
    Alike text active (getThe Chart >>= next) (getThe Chart >>= more) := by
  intro chart hchart
  rw [run_read_bind, run_read_bind]
  exact hnext chart hchart

end Alike

/-! ## One submatch after another -/

/-- A match and another one from where it stops. -/
def chain (first : Action (Option Reach)) (rest : Int → Action (Option Reach)) :
    Action (Option Reach) := do
  match ← first with
  | none => return none
  | some reach =>
    match ← rest reach.stop with
    | none => return none
    | some tail => return some ⟨tail.stop, reach.children ++ tail.children⟩

/-- A match backwards and another one that ends before it. -/
def chainBack (first : Action (Option Int)) (rest : Int → Action (Option Int)) :
    Action (Option Int) := do
  match ← first with
  | none => return none
  | some start => rest (start - 1)

section Sequences

variable {node : Node → Int → Action (Option Reach)} {back : Node → Int → Action (Option Int)}

theorem matchSequence_cons (first : Node) (rest : List Node) (position : Int) :
    matchSequence node (first :: rest) position =
      chain (node first position) (matchSequence node rest) :=
  rfl

theorem behindSequence_cons (first : Node) (rest : List Node) (last : Int) :
    behindSequence back (first :: rest) last =
      chainBack (back first last) (behindSequence back rest) :=
  rfl

theorem chain_pure (position : Int) (rest : Int → Action (Option Reach)) :
    chain (pure (some ⟨position, []⟩)) rest = rest position := by
  rw [chain, pure_bind]
  refine Eq.trans (congrArg (rest position >>= ·) (funext fun value => ?_)) (bind_pure _)
  cases value <;> rfl

theorem chain_nil (first : Action (Option Reach)) :
    chain first (fun position => pure (some ⟨position, []⟩)) = first := by
  rw [chain]
  refine Eq.trans (congrArg (first >>= ·) (funext fun value => ?_)) (bind_pure _)
  cases value with
  | none => rfl
  | some reach => simp

theorem chain_assoc (first : Action (Option Reach)) (second third : Int → Action (Option Reach)) :
    chain (chain first second) third =
      chain first fun position => chain (second position) third := by
  rw [chain, chain, chain, bind_assoc]
  refine congrArg (first >>= ·) (funext fun value => ?_)
  cases value with
  | none => simp
  | some reach =>
      simp only [chain, bind_assoc]
      refine congrArg (second reach.stop >>= ·) (funext fun value => ?_)
      cases value with
      | none => simp
      | some middle =>
          simp only [pure_bind, bind_assoc]
          refine congrArg (third middle.stop >>= ·) (funext fun value => ?_)
          cases value <;> simp

theorem matchSequence_append (first second : List Node) (position : Int) :
    matchSequence node (first ++ second) position =
      chain (matchSequence node first position) (matchSequence node second) := by
  induction first generalizing position with
  | nil => exact (chain_pure position _).symm
  | cons child rest ih =>
      rw [List.cons_append, matchSequence_cons, matchSequence_cons, chain_assoc]
      exact congrArg (chain _) (funext ih)

theorem matchSequence_singleton (child : Node) (position : Int) :
    matchSequence node [child] position = node child position :=
  chain_nil _

theorem chainBack_pure (last : Int) (rest : Int → Action (Option Int)) :
    chainBack (pure (some (last + 1))) rest = rest last := by
  rw [chainBack, pure_bind]
  simp

theorem chainBack_nil (first : Action (Option Int)) :
    chainBack first (fun last => pure (some (last + 1))) = first := by
  rw [chainBack]
  refine Eq.trans (congrArg (first >>= ·) (funext fun value => ?_)) (bind_pure _)
  cases value <;> simp

theorem chainBack_assoc (first : Action (Option Int)) (second third : Int → Action (Option Int)) :
    chainBack (chainBack first second) third =
      chainBack first fun last => chainBack (second last) third := by
  rw [chainBack, chainBack, chainBack, bind_assoc]
  refine congrArg (first >>= ·) (funext fun value => ?_)
  cases value <;> simp [chainBack]

theorem behindSequence_append (first second : List Node) (last : Int) :
    behindSequence back (first ++ second) last =
      chainBack (behindSequence back first last) (behindSequence back second) := by
  induction first generalizing last with
  | nil => exact (chainBack_pure last _).symm
  | cons child rest ih =>
      rw [List.cons_append, behindSequence_cons, behindSequence_cons, chainBack_assoc]
      exact congrArg (chainBack _) (funext ih)

theorem behindSequence_singleton (child : Node) (last : Int) :
    behindSequence back [child] last = back child last :=
  chainBack_nil _

end Sequences

/-! ## Alike submatches -/

theorem Alike.chain {first second : Action (Option Reach)}
    {rest others : Int → Action (Option Reach)} {position : Int}
    (hfirst : Alike text active first second)
    (hproceeds : Proceeds grammar text active first position)
    (hrest : ∀ place : Int, place ≤ text.size → Alike text active (rest place) (others place)) :
    Alike text active (chain first rest) (chain second others) := by
  refine hfirst.bind hproceeds fun value chart hchart hvalue => ?_
  cases value with
  | none => rfl
  | some reach =>
      have hstop := (hvalue reach rfl).stop_le
      rw [hchart.text_eq] at hstop
      exact (hrest reach.stop hstop).andThen _ chart hchart

theorem Alike.chainBack {first second : Action (Option Int)}
    {rest others : Int → Action (Option Int)} (hfirst : Alike text active first second)
    (hadds : Adds grammar text active first)
    (hrest : ∀ last, Alike text active (rest last) (others last)) :
    Alike text active (chainBack first rest) (chainBack second others) :=
  hfirst.bind_of_adds hadds fun value => by
    cases value with
    | none => exact .refl _
    | some start => exact hrest (start - 1)

section Submatches

theorem alike_repeatMatch {once other : Int → Action (Option Reach)}
    (honce : ∀ position : Int, position ≤ text.size →
      Alike text active (once position) (other position))
    (hproceeds : ∀ position : Int, position ≤ text.size →
      Proceeds grammar text active (once position) position)
    (tries : Nat) {position : Int} (hposition : position ≤ text.size) :
    Alike text active (repeatMatch once tries position) (repeatMatch other tries position) := by
  induction tries generalizing position with
  | zero => exact .refl _
  | succ tries ih =>
      rw [repeatMatch, repeatMatch]
      refine (honce position hposition).bind (hproceeds position hposition)
        fun value chart hchart hvalue => ?_
      cases value with
      | none => rfl
      | some reach =>
          have hstop := (hvalue reach rfl).stop_le
          rw [hchart.text_eq] at hstop
          dsimp only
          split
          next => rfl
          next => exact (ih hstop).andThen _ chart hchart

variable {node other : Node → Int → Action (Option Reach)}
  {back before : Node → Int → Action (Option Int)}

theorem alike_matchAlternatives {alternatives others : List (List Node)} {position : Int}
    (hsequences : List.Forall₂ (fun sequence twin => Alike text active
      (matchSequence node sequence position) (matchSequence other twin position))
      alternatives others)
    (hadds : ∀ sequence, Adds grammar text active (matchSequence node sequence position)) :
    Alike text active (matchAlternatives node alternatives position)
      (matchAlternatives other others position) := by
  induction hsequences with
  | nil => exact .refl _
  | @cons sequence twin _ _ hsequence _ ih =>
      rw [matchAlternatives, matchAlternatives]
      refine hsequence.bind_of_adds (hadds sequence) fun value => ?_
      cases value with
      | none => exact ih
      | some reach => exact .refl _

theorem alike_behindAlternatives {alternatives others : List (List Node)} {last : Int}
    (hsequences : List.Forall₂ (fun sequence twin => Alike text active
      (behindSequence back sequence.reverse last) (behindSequence before twin.reverse last))
      alternatives others)
    (hadds : ∀ sequence, Adds grammar text active (behindSequence back sequence last)) :
    Alike text active (behindAlternatives back alternatives last)
      (behindAlternatives before others last) := by
  induction hsequences with
  | nil => exact .refl _
  | @cons sequence twin _ _ hsequence _ ih =>
      rw [behindAlternatives, behindAlternatives]
      refine hsequence.bind_of_adds (hadds sequence.reverse) fun value => ?_
      cases value with
      | none => exact ih
      | some start => exact .refl _

theorem alike_scan {attempt another : Int → Action (Option Token)}
    (hattempt : ∀ position, Alike text active (attempt position) (another position))
    (hadds : ∀ position, Adds grammar text active (attempt position)) (id : Int) (count : Nat)
    (position : Int) :
    Alike text active (scan attempt id count position) (scan another id count position) := by
  induction count generalizing position with
  | zero => exact .refl _
  | succ count ih =>
      have hmark : Adds grammar text active
          (modify fun chart => chart.markScanned id position : Action PUnit) :=
        fun chart hchart => yieldsFrom_markScanned hchart id position
      refine (hattempt position).bind_of_adds (hadds position) fun _ => ?_
      exact (Alike.refl _).bind_of_adds hmark fun _ => ih (position + 1)

/-- Alike submatches make nodes alike that carry the same quantity and look. -/
theorem alike_nodeStep {first second : Node} (hquantity : second.quantity = first.quantity)
    (hlook : second.look = first.look)
    (hback : ∀ last, Alike text active (back first last) (before second last))
    (hnode : ∀ position : Int, position ≤ text.size →
      Alike text active (node first position) (other second position))
    (hproceeds : ∀ position : Int, position ≤ text.size →
      Proceeds grammar text active (node first position) position)
    {start : Int} (hstart : start ≤ text.size) :
    Alike text active (nodeStep back node first start) (nodeStep before other second start) := by
  have hnegative : second.isNegative = first.isNegative := by
    rw [Node.isNegative, Node.isNegative, hquantity]
  rw [nodeStep, nodeStep, hquantity, hlook, hnegative]
  split
  next => exact (hback (start - 1)).andThen _
  next =>
    refine .read fun chart hchart => ?_
    have hrun := alike_repeatMatch hnode hproceeds (triesOf first.quantity chart.text.size) hstart
    exact hrun.andThen _ chart hchart

end Submatches

/-! ## Alike trials -/

section Trials

variable {pattern : Pattern} {start : Int}

/-- What is remembered is found alike, so only what is not yet remembered has to be tried alike. -/
theorem alike_recalled {attempt another : Action (Option Token)}
    (hattempt : 0 ≤ start → start < text.size → ∀ chart, Indexed text active chart →
      chart.outcome? start pattern.id = none → attempt.run chart = another.run chart) :
    Alike text active (recalled pattern start attempt) (recalled pattern start another) := by
  refine .read fun chart hchart => ?_
  split
  next => rfl
  next hcovers =>
    have hinside : 0 ≤ start ∧ start < text.size := by
      simpa [covers, size, hchart.text_eq] using hcovers
    rw [run_read_bind, run_read_bind]
    cases houtcome : chart.outcome? start pattern.id with
    | none => exact hattempt hinside.1 hinside.2 chart hchart houtcome
    | some outcome => rfl

/-- Trials are alike if, on the charts on which they are under way, alike tokens are built. -/
theorem run_attempt_congr {node other : Node → Int → Action (Option Reach)} {chart : Chart}
    (hchart : Indexed text active chart) (hnew : chart.outcome? start pattern.id = none)
    (hbuild : (start, pattern.id) ∉ active →
      Alike text ((start, pattern.id) :: active) (build node pattern start)
        (build other pattern start)) :
    (attempt node pattern start).run chart = (attempt other pattern start).run chart := by
  by_cases hactive : (start, pattern.id) ∈ active
  · rw [← hchart.active_eq] at hactive
    rw [run_attempt_of_active hactive, run_attempt_of_active hactive]
  · have hsame := hbuild hactive _ (hchart.enter hnew)
    rw [← hchart.active_eq] at hactive
    have henter := run_enter hactive
    rcases hrun : (build node pattern start).run
      { chart with active := (start, pattern.id) :: chart.active } with ⟨result, middle⟩
    rw [hrun] at hsame
    have hguarded := (run_guarded hrun start pattern.id).trans
      (run_guarded hsame.symm start pattern.id).symm
    unfold attempt
    rw [run_bind_of_ok henter, run_bind_of_ok henter]
    exact run_bind_congr hguarded _

theorem alike_build {node other : Node → Int → Action (Option Reach)}
    (hnode : ∀ root, pattern.content = .tree root →
      Alike text active (node root start) (other root start)) :
    Alike text active (build node pattern start) (build other pattern start) := by
  unfold build
  cases hcontent : pattern.content with
  | literal word => exact .refl _
  | tree root => exact (hnode root hcontent).andThen _

end Trials

end Motif.Chart
