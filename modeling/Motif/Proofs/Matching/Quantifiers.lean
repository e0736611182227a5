import Motif.Proofs.Matching.Splicing

/-!
# Laws of quantities

All quantities are served by one loop, which makes submatches until one fails, one is empty or there
are no more tries. So of two runs from one chart the one with fewer tries is the beginning of the
other, and nodes that differ only in their quantity match or fail together and end in order.
-/

namespace Motif

namespace Chart

/-- A run is the beginning of another one: it is the same, or it is cut short after a number of
tries. -/
inductive Begins (tries : Nat) : Run → Run → Prop where
  | same (run : Run) : Begins tries run run
  | cut {run longer : Run} (hcount : run.count = tries) (hmore : tries ≤ longer.count)
    (hstop : run.stop ≤ longer.stop) : Begins tries run longer

/-- The runs from one place of a text, by the number of tries. More tries go on from where fewer
have come to, and those beyond the size of the text bring nothing new. -/
structure Staged (start : Int) (size : Nat) (runs : Nat → Run) : Prop where
  begins : ∀ {tries more}, tries ≤ more → Begins tries (runs tries) (runs more)
  settled : ∀ {tries}, size < tries → runs tries = runs (size + 1)
  counted : ∀ tries, (runs tries).stalled = true → (runs tries).count ≠ 0

/-- The laws of quantities for the places where a node ends that is matched from `start` with each
quantity and look, if it is matched at all. Two places that are related are there both or
neither. -/
structure QuantityLaws (start : Int) (ends : Quantity → Look → Option Int) : Prop where
  never_eq : ends .never .here = if (ends .once .here).isSome then none else some start
  optional_isSome : (ends ⟨0, 1⟩ .here).isSome
  many_isSome : (ends ⟨0, Quantity.unlimited⟩ .here).isSome
  some_eq : ends ⟨1, Quantity.unlimited⟩ .here =
    if (ends .once .here).isSome then ends ⟨0, Quantity.unlimited⟩ .here else none
  exactly_le : ∀ count, 1 ≤ count →
    Option.Rel (· ≤ ·) (ends ⟨count, count⟩ .here) (ends ⟨count, Quantity.unlimited⟩ .here)
  le_between : ∀ least most, 1 ≤ least → least ≤ most →
    Option.Rel (· ≤ ·) (ends ⟨least, least⟩ .here) (ends ⟨least, most⟩ .here)
  between_le : ∀ least most, 1 ≤ least → least ≤ most →
    Option.Rel (· ≤ ·) (ends ⟨least, most⟩ .here) (ends ⟨least, Quantity.unlimited⟩ .here)
  ahead_eq : ∀ quantity, ends quantity .ahead = (ends quantity .here).map fun _ => start

/-- Where a node ends that is matched from a place of a chart down to a depth, if it is matched. -/
def nodeEnd (registry : Registry) (chart : Chart) (start : Int) (node : Node) (maxDepth : Int) :
    Except Fault (Option Int) :=
  (runNode registry chart start node maxDepth).1.map fun value => value.map Reach.stop

/-! ## Runs with fewer and more tries -/

section Runs

variable {grammar : Grammar} {known : Pattern → Prop} {text : Array Char} {active : List Cell}
  {consumed : Int → Prop} {once : Int → Action (Option Reach)}
  (honce : ∀ position : Int, position ≤ text.size →
    Yields (Extends grammar known text active) (once position) (Leading consumed position)
      fun _ => False)
include honce

/-- The loop with fewer tries does what the loop with more tries does, until it has no more. -/
theorem begins_repeatMatch {tries more : Nat} (hle : tries ≤ more) {position : Int}
    (hposition : position ≤ text.size) {chart : Chart}
    (hchart : Extends grammar known text active chart chart) :
    ∃ run longer after last, (repeatMatch once tries position).run chart = (.ok run, after) ∧
      (repeatMatch once more position).run chart = (.ok longer, last) ∧
      Begins tries run longer := by
  induction tries generalizing more position chart with
  | zero =>
      obtain ⟨longer, last, hrun, -, hran⟩ :=
        (yields_repeatMatch honce more hposition chart hchart).exists_ok
      exact ⟨_, longer, chart, last, rfl, hrun,
        .cut rfl (Nat.zero_le _) hran.onward.tiles.le⟩
  | succ tries ih =>
      obtain ⟨more, rfl⟩ := Nat.exists_eq_succ_of_ne_zero (show more ≠ 0 by omega)
      obtain ⟨value, middle, hrun, hmiddle, hvalue⟩ :=
        (honce position hposition chart hchart).exists_ok
      rw [repeatMatch, repeatMatch, run_bind_of_ok hrun, run_bind_of_ok hrun]
      cases value with
      | none => exact ⟨_, _, middle, middle, rfl, rfl, .same _⟩
      | some reach =>
          dsimp only
          split
          next => exact ⟨_, _, middle, middle, rfl, rfl, .same _⟩
          next =>
            have hstops : reach.stop ≤ text.size := by
              have hle := (hvalue reach rfl).stop_le
              rwa [hmiddle.indexed.text_eq] at hle
            obtain ⟨run, longer, after, last, hone, hother, hbegins⟩ :=
              ih (Nat.le_of_succ_le_succ hle) hstops (Growth.refl_right hmiddle)
            rw [run_bind_of_ok hone, run_bind_of_ok hother]
            refine ⟨_, _, after, last, rfl, rfl, ?_⟩
            cases hbegins with
            | same => exact .same _
            | cut hcount hmore hstop =>
                exact .cut (congrArg Nat.succ hcount) (Nat.succ_le_succ hmore) hstop

omit honce in
/-- An empty submatch counts. -/
theorem count_ne_zero_of_stalled {tries : Nat} {position : Int} {chart after : Chart} {run : Run}
    (hrun : (repeatMatch once tries position).run chart = (.ok run, after))
    (hstalled : run.stalled = true) : run.count ≠ 0 := by
  cases tries with
  | zero =>
      cases hrun
      cases hstalled
  | succ tries =>
      rw [repeatMatch, run_bind_eq_ok_iff] at hrun
      obtain ⟨value, middle, -, hrun⟩ := hrun
      cases value with
      | none =>
          cases hrun
          cases hstalled
      | some reach =>
          dsimp only at hrun
          split at hrun
          next =>
            cases hrun
            exact Nat.one_ne_zero
          next =>
            obtain ⟨rest, last, -, hrest⟩ := run_bind_eq_ok_iff.mp hrun
            cases hrest
            exact Nat.succ_ne_zero _

/-- The runs from one place of a chart. -/
theorem exists_staged {start : Int} (hnonneg : 0 ≤ start) (hstart : start ≤ text.size)
    {chart : Chart} (hchart : Extends grammar known text active chart chart) :
    ∃ runs, Staged start text.size runs ∧
      ∀ tries, ∃ after, (repeatMatch once tries start).run chart = (.ok (runs tries), after) := by
  have hruns : ∀ tries, ∃ run after,
      (repeatMatch once tries start).run chart = (.ok run, after) := fun tries => by
    obtain ⟨run, after, hrun, -⟩ := (yields_repeatMatch honce tries hstart chart hchart).exists_ok
    exact ⟨run, after, hrun⟩
  choose runs afters hruns using hruns
  refine ⟨runs, ⟨fun {tries more} hle => ?_, fun {tries} hsize => ?_,
    fun tries => count_ne_zero_of_stalled (hruns tries)⟩, fun tries => ⟨afters tries, hruns tries⟩⟩
  · obtain ⟨run, longer, after, last, hone, hother, hbegins⟩ :=
      begins_repeatMatch honce hle hstart hchart
    rw [hruns] at hone hother
    cases hone
    cases hother
    exact hbegins
  · have hsame := run_repeatMatch_eq honce hstart (by omega : text.size - start < tries)
      (by omega : text.size - start < (text.size + 1 : Nat)) hchart
    rw [hruns, hruns] at hsame
    exact Except.ok.inj (Prod.mk.inj hsame).1

end Runs

/-! ## What the runs mean -/

/-- The run has as many submatches as are required. -/
def Run.Reaches (run : Run) (least : Int) : Prop :=
  run.stalled = true ∨ least ≤ run.count

instance (run : Run) (least : Int) : Decidable (run.Reaches least) :=
  inferInstanceAs (Decidable (_ ∨ _))

theorem Run.reaches_zero (run : Run) : run.Reaches 0 :=
  Or.inr (Int.natCast_nonneg _)

section Outcomes

variable {start : Int} {run : Run}

theorem outcomeOf_never (look : Look) :
    outcomeOf .never look start run = if run.count = 0 then some ⟨start, []⟩ else none := rfl

theorem stop_outcomeOf_here (least : Int) {most : Int} (hmost : most ≠ 0) :
    (outcomeOf ⟨least, most⟩ .here start run).map Reach.stop =
      if run.Reaches least then some run.stop else none := by
  have hplain : Quantity.isNegative ⟨least, most⟩ = false := decide_eq_false hmost
  rw [outcomeOf, hplain, if_neg Bool.false_ne_true]
  unfold Run.Reaches
  by_cases hstalled : run.stalled = true
  · simp [hstalled]
  · by_cases hleast : least ≤ run.count
    · simp [hstalled, hleast, not_lt.mpr hleast]
    · simp [hstalled, hleast, not_le.mp hleast]

theorem stop_outcomeOf_ahead (quantity : Quantity) :
    (outcomeOf quantity .ahead start run).map Reach.stop =
      ((outcomeOf quantity .here start run).map Reach.stop).map fun _ => start := by
  unfold outcomeOf
  split
  · split <;> rfl
  · split <;> rfl

theorem triesOf_never (size : Nat) : triesOf .never size = 1 := rfl

theorem triesOf_once (size : Nat) : triesOf .once size = 1 := rfl

theorem triesOf_unlimited (least : Int) (size : Nat) :
    triesOf ⟨least, Quantity.unlimited⟩ size = size + 1 := rfl

theorem triesOf_of_pos (least : Int) {most : Int} (hpositive : 1 ≤ most) (size : Nat) :
    triesOf ⟨least, most⟩ size = most.toNat := by
  have hlimited : Quantity.isUnlimited ⟨least, most⟩ = false := decide_eq_false (by
    dsimp only [Quantity.unlimited]
    omega)
  rw [triesOf, hlimited, if_neg Bool.false_ne_true, max_eq_left hpositive]

end Outcomes

section Beginnings

variable {tries : Nat} {start : Int} {run longer : Run} (hbegins : Begins tries run longer)
include hbegins

theorem Begins.reaches_iff {least : Int} (hleast : least ≤ tries) :
    run.Reaches least ↔ longer.Reaches least := by
  cases hbegins with
  | same => exact Iff.rfl
  | cut hcount hmore => exact iff_of_true (Or.inr (by omega)) (Or.inr (by omega))

theorem Begins.stop_le : run.stop ≤ longer.stop := by
  cases hbegins with
  | same => exact le_refl _
  | cut _ _ hstop => exact hstop

/-- Of two quantities that require the same, the one that tries less ends no later. -/
theorem Begins.rel_ends {least most other : Int} (hleast : least ≤ tries) (hmost : most ≠ 0)
    (hother : other ≠ 0) :
    Option.Rel (· ≤ ·) ((outcomeOf ⟨least, most⟩ .here start run).map Reach.stop)
      ((outcomeOf ⟨least, other⟩ .here start longer).map Reach.stop) := by
  rw [stop_outcomeOf_here least hmost, stop_outcomeOf_here least hother,
    if_congr (hbegins.reaches_iff hleast) rfl rfl]
  split
  · exact .some hbegins.stop_le
  · exact .none

end Beginnings

section Stages

variable {start : Int} {size : Nat} {runs : Nat → Run} (hstaged : Staged start size runs)
include hstaged

/-- As many tries as there can be at all are at least as many as any. -/
theorem Staged.begins_unlimited (tries : Nat) : Begins tries (runs tries) (runs (size + 1)) := by
  by_cases hsize : tries ≤ size + 1
  · exact hstaged.begins hsize
  · rw [hstaged.settled (by omega : size < tries)]
    exact .same _

theorem Staged.reaches_one_iff (tries : Nat) :
    (runs tries).Reaches 1 ↔ (runs tries).count ≠ 0 := by
  constructor
  · rintro (hstalled | hleast)
    · exact hstaged.counted tries hstalled
    · omega
  · exact fun hcount => Or.inr (by omega)

/-- The laws hold wherever the runs from one place are staged. -/
theorem Staged.laws :
    QuantityLaws start fun quantity look =>
      (outcomeOf quantity look start (runs (triesOf quantity size))).map Reach.stop where
  never_eq := by
    rw [triesOf_never, triesOf_once, Quantity.once, stop_outcomeOf_here 1 one_ne_zero,
      outcomeOf_never]
    by_cases hcount : (runs 1).count = 0
    · rw [if_pos hcount, if_neg fun hsome => (hstaged.reaches_one_iff 1).mp hsome hcount]
      rfl
    · rw [if_neg hcount, if_pos ((hstaged.reaches_one_iff 1).mpr hcount)]
      rfl
  optional_isSome := by
    rw [stop_outcomeOf_here 0 one_ne_zero, if_pos (Run.reaches_zero _)]
    rfl
  many_isSome := by
    rw [stop_outcomeOf_here 0 (by decide), if_pos (Run.reaches_zero _)]
    rfl
  some_eq := by
    have hreaches := (hstaged.begins_unlimited 1).reaches_iff (le_refl 1)
    rw [triesOf_once, triesOf_unlimited, triesOf_unlimited, Quantity.once,
      stop_outcomeOf_here 1 one_ne_zero, stop_outcomeOf_here 1 (by decide),
      stop_outcomeOf_here 0 (by decide), if_pos (Run.reaches_zero _), if_congr hreaches rfl rfl]
    split <;> rfl
  exactly_le count hcount := by
    rw [triesOf_of_pos count hcount]
    exact (hstaged.begins_unlimited count.toNat).rel_ends (by omega) (by omega) (by decide)
  le_between least most hleast hmost := by
    rw [triesOf_of_pos least hleast, triesOf_of_pos least (hleast.trans hmost)]
    exact (hstaged.begins (Int.toNat_le_toNat hmost)).rel_ends (by omega) (by omega) (by omega)
  between_le least most hleast hmost := by
    rw [triesOf_of_pos least (hleast.trans hmost)]
    exact (hstaged.begins_unlimited most.toNat).rel_ends (by omega) (by omega) (by decide)
  ahead_eq quantity := stop_outcomeOf_ahead quantity

end Stages

/-! ## Nodes with different quantities -/

section Bodies

variable {grammar : Grammar} {pattern : Pattern → Int → Action (Option Token)}
  {node : Node → Int → Action (Option Reach)}

/-- A submatch does not depend on the quantity and the look of a node. -/
theorem onceStep_with (body : Node) (quantity : Quantity) (look : Look) :
    onceStep grammar pattern node ((body.withQuantity quantity).withLook look) =
      onceStep grammar pattern node body := by
  cases body <;> rfl

theorem look_with (body : Node) (quantity : Quantity) (look : Look) :
    ((body.withQuantity quantity).withLook look).look = look := by
  cases body <;> rfl

theorem quantity_with (body : Node) (quantity : Quantity) (look : Look) :
    ((body.withQuantity quantity).withLook look).quantity = quantity := by
  cases body <;> rfl

/-- Where all references lead to registered patterns, and on every chart on which matching of a text
may be under way, the laws of quantities hold for a reference or a group that is matched at a depth
that is allowed from a position inside the text or at its end. No fault comes up. -/
theorem Underway.quantityLaws {text : String} {chart : Chart} (hchart : Underway text chart)
    {registry : Registry} (hclosed : registry.Closed) {body : Node}
    (hresolved : ∀ id ∈ body.references, (registry.byId? id).isSome) {start : Int}
    (hnonneg : 0 ≤ start) (hsize : start ≤ chart.size) {depth maxDepth : Int}
    (hdepth : depth ≤ maxDepth) :
    ∃ ends, QuantityLaws start ends ∧ ∀ quantity look, look ≠ .behind →
      nodeEnd registry chart start ((body.withQuantity quantity).withLook look)
        (maxDepth - depth) = .ok (ends quantity look) := by
  have hindexed := hchart.indexed
  have htext := hindexed.text_eq
  have hstart : start ≤ text.toList.toArray.size := by rwa [size, htext] at hsize
  obtain ⟨room, hroom⟩ : ∃ room, roomFor (maxDepth - depth) = room + 1 :=
    ⟨(maxDepth - depth).toNat, by
      unfold roomFor
      omega⟩
  obtain ⟨hpattern, hnode, -⟩ := yields_of_room text.toList.toArray hclosed.leads room
  have honce : ∀ position : Int, position ≤ text.toList.toArray.size →
      Yields (Extends registry.grammar (· ∈ registry.patterns) text.toList.toArray chart.active)
        (onceStep registry.grammar (matchPattern registry.grammar room)
          (matchNode registry.grammar room) body position)
        (Leading (registry.grammar.Consumes (body.withLook .here)) position) fun _ => False :=
    fun position hposition => yields_onceStep hclosed.leads (hpattern chart.active)
      (hnode chart.active) (resolves_of_isSome hresolved) hposition
  obtain ⟨runs, hstaged, hruns⟩ := exists_staged honce hnonneg hstart hindexed.extends_self
  refine ⟨_, hstaged.laws, fun quantity look hlook => ?_⟩
  obtain ⟨after, hrun⟩ := hruns (triesOf quantity text.toList.toArray.size)
  rw [nodeEnd, runNode, hroom, matchNode, nodeStep, look_with, if_neg hlook, run_read_bind, htext,
    onceStep_with, quantity_with, run_bind_of_ok hrun]
  rfl

end Bodies

/-- On a chart on which the second position is being tried, two letters or more end after two
letters where exactly two are asked for, and after all three where more are allowed. -/
theorem circling_quantityLaws :
    let chart := { ofText "aaa" with active := [(1, 1)] }
    Underway "aaa" chart ∧ circling.Closed ∧
    (∀ id ∈ (Node.plainRef 0).references, (circling.byId? id).isSome) ∧
    ∃ ends, QuantityLaws 0 ends ∧ ends ⟨2, 2⟩ .here = some 2 ∧
      ends ⟨2, Quantity.unlimited⟩ .here = some 3 := by
  intro chart
  have hchart : Underway "aaa" chart := .begun (.opened .fresh) (by simp [outcome?, ofText])
  have hclosed : circling.Closed := by
    unfold Registry.Closed
    decide
  have hresolved : ∀ id ∈ (Node.plainRef 0).references, (circling.byId? id).isSome := by decide
  obtain ⟨ends, hlaws, hends⟩ := hchart.quantityLaws hclosed hresolved (le_refl 0)
    (by decide : (0 : Int) ≤ chart.size) (by decide : (1 : Int) ≤ 3)
  have htwo : (nodeEnd circling chart 0 (.ref 0 ⟨2, 2⟩ .here) 2).toOption = some (some 2) := by
    decide +kernel
  have hmore : (nodeEnd circling chart 0 (.ref 0 ⟨2, Quantity.unlimited⟩ .here) 2).toOption =
      some (some 3) := by
    decide +kernel
  have hexactly := hends ⟨2, 2⟩ .here (by decide)
  have hatleast := hends ⟨2, Quantity.unlimited⟩ .here (by decide)
  refine ⟨hchart, hclosed, hresolved, ends, hlaws, ?_, ?_⟩
  · exact Option.some.inj ((congrArg Except.toOption hexactly).symm.trans htwo)
  · exact Option.some.inj ((congrArg Except.toOption hatleast).symm.trans hmore)

end Chart

end Motif
