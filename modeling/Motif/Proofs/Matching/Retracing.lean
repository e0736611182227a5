import Motif.Proofs.Matching.Ends

/-!
# Going back through references

A look behind at a sequence of references goes back from one slot of a last position to the next.
After a parse every pattern has been tried everywhere, so nothing but the slots decides. In each of
them stands one token of the pattern, and the way back goes through its start: the look behind holds
if and only if remembered tokens stand one after another up to the position each of which has a
place in the slot where it ends.
-/

namespace Motif

namespace Chart

open Evaluation (Fits)

/-- Remembered tokens that count, one for each id and none of them empty, stand one after another
from one position to another. -/
def Links (chart : Chart) (counts : Token → Prop) : List Int → Int → Int → Prop
  | [], start, stop => start = stop
  | id :: rest, start, stop => ∃ token, chart.outcome? start id = some (some token) ∧
    counts token ∧ start < token.stop ∧ Links chart counts rest token.stop stop

/-- A chart without trials under way on which the patterns of a list have been tried in order up to
the end of the text. -/
structure Searched (text : Array Char) (patterns : List Pattern) (chart : Chart) : Prop where
  indexed : Indexed text [] chart
  size_le_scannedUntil : ∀ pattern ∈ patterns, text.size ≤ chart.scannedUntil pattern.id

variable {text : Array Char} {active : List Cell} {chart : Chart} {counts : Token → Prop}

/-! ## Links -/

theorem links_concat {ids : List Int} {id start stop : Int} :
    chart.Links counts (ids ++ [id]) start stop ↔ ∃ middle, chart.Links counts ids start middle ∧
      chart.Links counts [id] middle stop := by
  induction ids generalizing start with
  | nil => simp [Links]
  | cons first rest ih =>
      simp only [List.cons_append, Links, ih]
      constructor
      · rintro ⟨token, houtcome, hcounts, hlt, middle, hrest, hlast⟩
        exact ⟨middle, ⟨token, houtcome, hcounts, hlt, hrest⟩, hlast⟩
      · rintro ⟨middle, ⟨token, houtcome, hcounts, hlt, hrest⟩, hlast⟩
        exact ⟨token, houtcome, hcounts, hlt, middle, hrest, hlast⟩

theorem Links.mono {others : Token → Prop} {ids : List Int} {start stop : Int}
    (hlinks : chart.Links counts ids start stop)
    (hcounts : ∀ id ∈ ids, ∀ position token, chart.outcome? position id = some (some token) →
      position < token.stop → counts token → others token) :
    chart.Links others ids start stop := by
  induction ids generalizing start with
  | nil => exact hlinks
  | cons id rest ih =>
      obtain ⟨token, houtcome, htoken, hlt, hrest⟩ := hlinks
      exact ⟨token, houtcome, hcounts id List.mem_cons_self start token houtcome hlt htoken, hlt,
        ih hrest fun other hother => hcounts other (List.mem_cons_of_mem _ hother)⟩

/-- What stands one after another does so inside the text. -/
theorem Indexed.bounds_of_links (hchart : Indexed text active chart) {ids : List Int}
    (hids : ids ≠ []) {start stop : Int} (hlinks : chart.Links counts ids start stop) :
    0 ≤ start ∧ start < stop ∧ stop ≤ text.size := by
  induction ids generalizing start with
  | nil => exact absurd rfl hids
  | cons id rest ih =>
      obtain ⟨token, houtcome, -, hlt, hrest⟩ := hlinks
      have hfits := hchart.fits houtcome
      refine ⟨hfits.start_nonneg, ?_⟩
      by_cases hempty : rest = []
      · subst hempty
        obtain rfl : token.stop = stop := hrest
        exact ⟨hlt, hfits.stop_le⟩
      · obtain ⟨-, hstop, hsize⟩ := ih hempty hrest
        exact ⟨hlt.trans hstop, hsize⟩

theorem Indexed.not_exists_links (hchart : Indexed text active chart) {ids : List Int}
    (hids : ids ≠ []) {stop : Int} (houtside : stop ≤ 0 ∨ text.size < stop) :
    ¬ ∃ first, chart.Links counts ids first stop := by
  rintro ⟨first, hlinks⟩
  have hbounds := hchart.bounds_of_links hids hlinks
  omega

/-- One token that has a place where it ends is read off the slot there. -/
theorem Indexed.links_singleton_iff (hchart : Indexed text active chart) {id start stop : Int} :
    chart.Links chart.Closes [id] start stop ↔
      ∃ token, chart.tail? (stop - 1) id = some token ∧ token.start = start := by
  constructor
  · rintro ⟨token, houtcome, hcloses, -, rfl⟩
    have hfits := hchart.fits houtcome
    have hlast : token.last = token.stop - 1 := rfl
    rw [Closes, hlast, hfits.id_eq] at hcloses
    exact ⟨token, hcloses, hfits.start_eq⟩
  · rintro ⟨token, htail, rfl⟩
    obtain ⟨houtcome, hlast, hlength⟩ := hchart.outcome_of_tail htail
    have hid := (hchart.fits houtcome).id_eq
    unfold Token.last at hlast
    refine ⟨token, houtcome, ?_, ?_, ?_⟩
    · rw [Closes, hid, Token.last, hlast]
      exact htail
    · unfold Token.stop
      omega
    · change token.start + token.length = stop
      omega

/-- If all tokens of all patterns but the first have a place where they end, then the tokens that
stand one after another may be taken from the slots. -/
theorem Indexed.exists_links_closes (hchart : Indexed text active chart) {ids : List Int}
    (hids : ids ≠ []) (hcloses : ∀ id ∈ ids.tail, ∀ position token,
      chart.outcome? position id = some (some token) → 0 < token.length → chart.Closes token)
    {start stop : Int} (hlinks : chart.Links (fun _ => True) ids start stop) :
    ∃ first, chart.Links chart.Closes ids first stop := by
  cases ids with
  | nil => exact absurd rfl hids
  | cons id rest =>
      obtain ⟨token, houtcome, -, hlt, hrest⟩ := hlinks
      have hstart := (hchart.fits houtcome).start_eq
      have hpositive {token : Token} {start : Int} (hstart : token.start = start)
          (hlt : start < token.stop) : 0 < token.length := by
        unfold Token.stop at hlt
        omega
      -- Of the first pattern another token may be there instead, with another start.
      obtain ⟨other, hother⟩ :=
        Option.isSome_iff_exists.mp (hchart.tail_of_outcome houtcome (hpositive hstart hlt))
      have hfirst : chart.Links chart.Closes [id] other.start token.stop :=
        hchart.links_singleton_iff.mpr ⟨other, hother, rfl⟩
      obtain ⟨before, houtcome, hcounts, hlt, hstop⟩ := hfirst
      refine ⟨other.start, before, houtcome, hcounts, hlt, ?_⟩
      rw [show before.stop = token.stop from hstop]
      exact hrest.mono fun id hid position found hfound hlt _ =>
        hcloses id hid position found hfound (hpositive (hchart.fits hfound).start_eq hlt)

/-! ## Going back -/

section Back

variable {patterns : List Pattern} {grammar : Grammar}

theorem tail?_of_neg (chart : Chart) {last : Int} (hlast : last < 0) (id : Int) :
    chart.tail? last id = none := by
  rw [tail?, slotAt, if_neg (by omega)]
  rfl

/-- A look behind at a pattern that has been tried up to there reads its start off the slot. -/
theorem Searched.run_behindStep_ref (hchart : Searched text patterns chart) {pattern : Pattern}
    (hpattern : pattern ∈ patterns) (hfind : grammar.find? pattern.id = some pattern)
    (trial : Pattern → Int → Action (Option Token)) (back : Node → Int → Action (Option Int))
    (quantity : Quantity) (look : Look) {last : Int} (hlast : last < text.size) :
    (behindStep grammar trial back (.ref pattern.id quantity look) last).run chart =
      (.ok ((chart.tail? last pattern.id).map Token.start), chart) := by
  have hfrontier := hchart.size_le_scannedUntil pattern hpattern
  simp only [behindStep, Grammar.get, hfind, lift_ok_bind]
  split
  next hnegative =>
    rw [tail?_of_neg chart hnegative]
    rfl
  next =>
    have hnone : (last + 1 - chart.scannedUntil pattern.id).toNat = 0 := by omega
    refine (run_read_bind chart).trans ?_
    rw [hnone, scan]
    rfl

/-- Behind the end of the text no pattern is found. -/
theorem Indexed.exists_run_behindStep_ref (hchart : Indexed text active chart) {pattern : Pattern}
    (hfind : grammar.find? pattern.id = some pattern) {known : Pattern → Prop}
    {trial : Pattern → Int → Action (Option Token)}
    (htrial : ∀ position, Yields (Extends grammar known text active) (trial pattern position)
      (fun _ _ => True) fun _ => False)
    (back : Node → Int → Action (Option Int)) (quantity : Quantity) (look : Look) {last : Int}
    (hlast : text.size ≤ last) :
    ∃ after, (behindStep grammar trial back (.ref pattern.id quantity look) last).run chart =
      (.ok none, after) := by
  simp only [behindStep, Grammar.get, hfind, lift_ok_bind, if_neg (show ¬ last < 0 by omega)]
  obtain ⟨⟨⟩, after, hscan, hafter, -⟩ := (yields_scan htrial pattern.id
    (last + 1 - chart.scannedUntil pattern.id).toNat (chart.scannedUntil pattern.id) chart
      hchart.extends_self).exists_ok
  have hnone : after.tail? last pattern.id = none := by
    rw [Option.eq_none_iff_forall_ne_some]
    intro token htail
    obtain ⟨houtcome, hends, hlength⟩ := hafter.indexed.outcome_of_tail htail
    have hinside := ((hafter.indexed.fits houtcome).last_inside hlength).2
    omega
  refine ⟨after, (run_read_bind chart).trans ((run_bind_of_ok hscan).trans ?_)⟩
  refine (run_read_bind after).trans ?_
  rw [hnone]
  rfl

/-- Going back through references finds where tokens begin that stand one after another up to the
position, each with a place in the slot where it ends. -/
theorem Indexed.exists_run_behindSequence (hchart : Indexed text active chart)
    {node : Node → Int → Action (Option Int)} {ids : List Int}
    (hnode : ∀ id ∈ ids, ∀ last : Int, last < text.size → (node (.plainRef id) last).run chart =
      (.ok ((chart.tail? last id).map Token.start), chart))
    {last : Int} (hlast : last < text.size) :
    ∃ value, (behindSequence node (ids.map Node.plainRef).reverse last).run chart =
        (.ok value, chart) ∧
      ∀ start, value = some start ↔ chart.Links chart.Closes ids start (last + 1) := by
  -- The last reference is the first to be gone back through.
  induction ids using List.reverseRecOn generalizing last with
  | nil => exact ⟨some (last + 1), rfl, fun start => by simp [Links, eq_comm]⟩
  | append_singleton before id ih =>
      rw [List.map_append, List.map_singleton, List.reverse_append, List.reverse_singleton,
        List.singleton_append, behindSequence]
      have hfirst := hnode id (by simp) last hlast
      have hlinks {start : Int} : chart.Links chart.Closes (before ++ [id]) start (last + 1) ↔
          ∃ token, chart.tail? last id = some token ∧
            chart.Links chart.Closes before start token.start := by
        simp only [links_concat, hchart.links_singleton_iff, Int.add_sub_cancel]
        constructor
        · rintro ⟨_, hbefore, token, htail, rfl⟩
          exact ⟨token, htail, hbefore⟩
        · rintro ⟨token, htail, hbefore⟩
          exact ⟨_, hbefore, token, htail, rfl⟩
      cases htail : chart.tail? last id with
      | none =>
          rw [htail] at hfirst
          refine ⟨none, run_bind_of_ok hfirst, fun start => ?_⟩
          simp [hlinks, htail]
      | some token =>
          rw [htail] at hfirst
          obtain ⟨-, hends, hlength⟩ := hchart.outcome_of_tail htail
          have hbefore : token.start - 1 < text.size := by
            unfold Token.last at hends
            omega
          obtain ⟨value, hrun, hvalue⟩ := ih (fun other hother =>
            hnode other (List.mem_append_left _ hother)) hbefore
          refine ⟨value, (run_bind_of_ok hfirst).trans hrun, fun start => ?_⟩
          rw [hvalue, hlinks, Int.sub_add_cancel]
          simp [htail]

theorem behindAlternatives_singleton (node : Node → Int → Action (Option Int))
    (sequence : List Node) (last : Int) :
    behindAlternatives node [sequence] last = behindSequence node sequence.reverse last := by
  rw [behindAlternatives]
  refine (bind_congr fun value => ?_).trans (bind_pure _)
  cases value <;> rfl

/-- The patterns of a grammar that ids lead to are among those of a list and carry their ids. -/
def Listed (grammar : Grammar) (patterns : List Pattern) (ids : List Int) : Prop :=
  ∀ id ∈ ids, ∃ pattern ∈ patterns, grammar.find? id = some pattern ∧ pattern.id = id

/-- Behind the end of the text the last reference already finds nothing. -/
theorem Searched.exists_run_behindSequence_beyond (hchart : Searched text patterns chart)
    (hleads : grammar.Leads (· ∈ patterns) fun _ => False) {ids : List Int} (hids : ids ≠ [])
    (hlisted : Listed grammar patterns ids) (room : Nat) {last : Int} (hlast : text.size ≤ last) :
    ∃ after, (behindSequence (matchBehind grammar (room + 1)) (ids.map Node.plainRef).reverse
      last).run chart = (.ok none, after) := by
  obtain ⟨before, id, hconcat⟩ := (List.eq_nil_or_concat ids).resolve_left hids
  rw [List.concat_eq_append] at hconcat
  obtain ⟨pattern, hpattern, hfind, rfl⟩ := hlisted id (by simp [hconcat])
  obtain ⟨htrial, -⟩ := yields_of_room text hleads room
  have htried : ∀ position, Yields (Extends grammar (· ∈ patterns) text [])
      (matchPattern grammar room pattern position) (fun _ _ => True) fun _ => False :=
    fun position current hcurrent =>
      (htrial [] pattern hpattern position current hcurrent).mono fun _ _ _ _ => trivial
  obtain ⟨after, hrun⟩ := hchart.indexed.exists_run_behindStep_ref hfind htried
    (matchBehind grammar room) .once .here hlast
  refine ⟨after, ?_⟩
  rw [hconcat, List.map_append, List.map_singleton, List.reverse_append,
    List.reverse_singleton, List.singleton_append, behindSequence, matchBehind]
  exact run_bind_of_ok hrun

/-- A look behind at references holds if tokens stand one after another up to the position, each
with a place in the slot where it ends, and only then. -/
theorem Searched.exists_run_behindStep (hchart : Searched text patterns chart)
    (hleads : grammar.Leads (· ∈ patterns) fun _ => False) {ids : List Int} (hids : ids ≠ [])
    (hlisted : Listed grammar patterns ids) (room : Nat) (quantity : Quantity) (start : Int) :
    ∃ value after, (behindStep grammar (matchPattern grammar (room + 1))
        (matchBehind grammar (room + 1)) (.group [ids.map Node.plainRef] quantity .behind)
          (start - 1)).run chart = (.ok value, after) ∧
      (value.isSome ↔ ∃ first, chart.Links chart.Closes ids first start) := by
  by_cases hstart : start ≤ 0
  · -- Nothing stands before the text.
    refine ⟨none, chart, ?_, ?_⟩
    · rw [behindStep, if_pos (by omega)]
      rfl
    · exact iff_of_false Bool.false_ne_true (hchart.indexed.not_exists_links hids (.inl hstart))
  simp only [behindStep, if_neg (show ¬ start - 1 < 0 by omega), behindAlternatives_singleton]
  by_cases hsize : start ≤ text.size
  · have hnode : ∀ id ∈ ids, ∀ last : Int, last < text.size →
        (matchBehind grammar (room + 1) (.plainRef id) last).run chart =
          (.ok ((chart.tail? last id).map Token.start), chart) := by
      intro id hid last hlast
      obtain ⟨pattern, hpattern, hfind, rfl⟩ := hlisted id hid
      rw [matchBehind]
      exact hchart.run_behindStep_ref hpattern hfind _ _ _ _ hlast
    obtain ⟨value, hrun, hvalue⟩ :=
      hchart.indexed.exists_run_behindSequence hnode (show start - 1 < text.size by omega)
    refine ⟨value, chart, hrun, ?_⟩
    rw [Option.isSome_iff_exists]
    simp only [hvalue, Int.sub_add_cancel]
  · have hbeyond : (text.size : Int) < start := Int.not_le.mp hsize
    obtain ⟨after, hrun⟩ := hchart.exists_run_behindSequence_beyond hleads hids hlisted room
      (Int.le_sub_one_of_lt hbeyond)
    exact ⟨none, after, hrun, iff_of_false Bool.false_ne_true
      (hchart.indexed.not_exists_links hids (.inr hbeyond))⟩

theorem run_nodeStep_behind {back : Node → Int → Action (Option Int)}
    {once : Node → Int → Action (Option Reach)} {node : Node} (hlook : node.look = .behind)
    {start : Int} {value : Option Int} {after : Chart}
    (hrun : (back node (start - 1)).run chart = (.ok value, after)) :
    (nodeStep back once node start).run chart =
      (.ok (if value.isSome ≠ node.isNegative then some ⟨start, []⟩ else none), after) := by
  rw [nodeStep, if_pos hlook]
  exact (run_bind_of_ok hrun).trans rfl

theorem run_tryNode {node : Node} {start maxDepth : Int} {reach : Option Reach} {after : Chart}
    (hrun : (matchNode grammar (roomFor maxDepth) node start).run chart = (.ok reach, after)) :
    ∃ token, (tryNode grammar node start maxDepth).run chart = (.ok token, after) ∧
      token.isSome = reach.isSome := by
  unfold tryNode
  cases reach with
  | none => exact ⟨none, (run_bind_of_ok hrun).trans rfl, rfl⟩
  | some reach => exact ⟨some _, (run_bind_of_ok hrun).trans rfl, rfl⟩

/-- So a node that looks behind at references succeeds exactly there, and one that must not find
them exactly elsewhere. -/
theorem Searched.exists_run_tryNode (hchart : Searched text patterns chart)
    (hleads : grammar.Leads (· ∈ patterns) fun _ => False) {ids : List Int} (hids : ids ≠ [])
    (hlisted : Listed grammar patterns ids) (quantity : Quantity) (start : Int) {maxDepth : Int}
    (hdepth : 1 ≤ maxDepth) :
    ∃ value after, (tryNode grammar (.group [ids.map Node.plainRef] quantity .behind) start
        maxDepth).run chart = (.ok value, after) ∧
      (value.isSome ↔ (quantity.isNegative = false ↔
        ∃ first, chart.Links chart.Closes ids first start)) := by
  obtain ⟨room, hroom⟩ : ∃ room, roomFor maxDepth = room + 2 := by
    refine ⟨roomFor maxDepth - 2, ?_⟩
    unfold roomFor
    omega
  obtain ⟨found, after, hrun, hfound⟩ :=
    hchart.exists_run_behindStep hleads hids hlisted room quantity start
  have hnode : (matchNode grammar (roomFor maxDepth)
      (.group [ids.map Node.plainRef] quantity .behind) start).run chart =
        (.ok (if found.isSome ≠ quantity.isNegative then some ⟨start, []⟩ else none), after) := by
    rw [hroom, matchNode]
    exact run_nodeStep_behind rfl hrun
  obtain ⟨value, htry, hvalue⟩ := run_tryNode hnode
  refine ⟨value, after, htry, ?_⟩
  rw [hvalue, ← hfound]
  cases found <;> cases hnegative : quantity.isNegative <;> simp

end Back

/-! ## After a parse -/

section Parse

variable {grammar : Grammar} {patterns : List Pattern}

/-- A chart has been extended, and the patterns of a list have been tried in order up to a
position. -/
structure Advances (grammar : Grammar) (patterns : List Pattern) (text : Array Char)
    (position : Int) (before after : Chart) : Prop where
  extended : Extends grammar (· ∈ patterns) text [] before after
  le_scannedUntil : ∀ pattern ∈ patterns, position ≤ after.scannedUntil pattern.id

instance {position : Int} : Growth (Advances grammar patterns text position) where
  trans hfirst hsecond := ⟨Growth.trans hfirst.extended hsecond.extended, hsecond.le_scannedUntil⟩
  refl_right hadvances := ⟨Growth.refl_right hadvances.extended, hadvances.le_scannedUntil⟩

/-- Trying every pattern at the next position moves every frontier on. -/
theorem yields_tryAll_scannedUntil (hleads : grammar.Leads (· ∈ patterns) fun _ => False)
    (room : Nat) (position : Int) :
    Yields (Advances grammar patterns text position) (tryAll grammar room position patterns)
      (fun _ after => ∀ pattern ∈ patterns, position + 1 ≤ after.scannedUntil pattern.id)
      fun _ => False := by
  refine .forM_each (fun pattern hpattern chart hchart => ?_) fun pattern before after hgrows hle =>
    hle.trans (hgrows.extended.grows.scannedUntil_le pattern.id)
  obtain ⟨htrial, -⟩ := yields_of_room text hleads room
  obtain ⟨value, middle, hrun, hmiddle, -⟩ :=
    (htrial [] pattern hpattern position chart hchart.extended).exists_ok
  have hextends := Growth.trans hmiddle
    (hmiddle.indexed.extends_markScanned pattern.id position)
  have hreached := (hchart.le_scannedUntil pattern hpattern).trans
    (hmiddle.grows.scannedUntil_le pattern.id)
  refine ⟨.ok ⟨⟩, _, (run_bind_of_ok hrun).trans rfl, ⟨hextends, fun other hother => ?_⟩,
    lt_scannedUntil_markScanned hreached⟩
  exact (hchart.le_scannedUntil other hother).trans (hextends.grows.scannedUntil_le other.id)

theorem yieldsFrom_tryAll_range (hleads : grammar.Leads (· ∈ patterns) fun _ => False)
    (room count position : Nat) (hchart : Advances grammar patterns text position chart chart) :
    YieldsFrom (Extends grammar (· ∈ patterns) text []) chart
      ((List.range' position count).forM fun place : Nat => tryAll grammar room place patterns)
      (fun _ after => ∀ pattern ∈ patterns, ((position + count : Nat) : Int) ≤
        after.scannedUntil pattern.id) fun _ => False := by
  induction count generalizing position chart with
  | zero => exact .pure hchart.extended hchart.le_scannedUntil
  | succ count ih =>
      obtain ⟨value, middle, hrun, hmiddle, hreached⟩ :=
        (yields_tryAll_scannedUntil hleads room position chart hchart).exists_ok
      have hnext : Advances grammar patterns text (position + 1 : Nat) middle middle :=
        ⟨Growth.refl_right hmiddle.extended, hreached⟩
      obtain ⟨result, after, hrest, hafter, hresult⟩ := ih (position + 1) hnext
      refine ⟨result, after, (run_bind_of_ok hrun).trans hrest,
        Growth.trans hmiddle.extended hafter, ?_⟩
      rw [show position + (count + 1) = position + 1 + count by omega]
      exact hresult

end Parse

end Chart

namespace Registry

variable {registry : Registry}

/-- After a parse every registered pattern has been tried in order up to the end of the text. -/
theorem Closed.exists_searched (hclosed : registry.Closed) (text : String) (maxDepth : Int) :
    ∃ chart, registry.parse text maxDepth = .ok chart ∧
      Chart.Searched text.toList.toArray registry.patterns chart := by
  have hstart : Chart.Advances registry.grammar registry.patterns text.toList.toArray (0 : Nat)
      (Chart.ofText text) (Chart.ofText text) :=
    ⟨(Chart.indexed_ofText text).extends_self, fun pattern _ => by
      simp [Chart.scannedUntil, Chart.ofText]⟩
  obtain ⟨⟨⟩, chart, hrun, hchart, hreached⟩ := (Chart.yieldsFrom_tryAll_range hclosed.leads
    (Chart.roomFor maxDepth) text.toList.toArray.size 0 hstart).exists_ok
  have hfill : (Chart.fill registry.grammar registry.patterns maxDepth).run (Chart.ofText text) =
      (.ok ⟨⟩, chart) := by
    rw [← List.range_eq_range'] at hrun
    exact (run_read_bind _).trans hrun
  refine ⟨chart, ?_, hchart.indexed, fun pattern hpattern => ?_⟩
  · unfold parse
    rw [hfill]
  · have hle := hreached pattern hpattern
    omega

/-- Where all references lead to registered patterns, look behind at references after a parse: there
is no fault, and remembered tokens that stand one after another up to the position, each with a
place in the slot where it ends, are found exactly if there are any. The look behind misses no
tokens that stand one after another if those of all patterns but the first have such places. -/
theorem Closed.lookBehind_iff_links (hcoherent : registry.Coherent) (hclosed : registry.Closed)
    (text : String) (depth : Int) :
    ∃ chart, registry.parse text depth = .ok chart ∧
      ∀ ids : List Int, ids ≠ [] → (∀ id ∈ ids, (registry.byId? id).isSome) →
        ∀ (quantity : Quantity) (start maxDepth : Int), 1 ≤ maxDepth →
          (∃ value after, (Chart.tryNode registry.grammar
              (.group [ids.map Node.plainRef] quantity .behind) start maxDepth).run chart =
                (.ok value, after) ∧
            (value.isSome ↔ (quantity.isNegative = false ↔
              ∃ first, chart.Links chart.Closes ids first start))) ∧
          ((∃ first, chart.Links chart.Closes ids first start) →
            ∃ first, chart.Links (fun _ => True) ids first start) ∧
          ((∀ id ∈ ids.tail, ∀ position token, chart.outcome? position id = some (some token) →
              0 < token.length → chart.Closes token) →
            (∃ first, chart.Links (fun _ => True) ids first start) →
              ∃ first, chart.Links chart.Closes ids first start) := by
  obtain ⟨chart, hparse, hchart⟩ := hclosed.exists_searched text depth
  refine ⟨chart, hparse, fun ids hids hregistered quantity start maxDepth hdepth => ⟨?_, ?_, ?_⟩⟩
  · refine hchart.exists_run_tryNode hclosed.leads hids (fun id hid => ?_) quantity start hdepth
    obtain ⟨pattern, hpattern⟩ := Option.isSome_iff_exists.mp (hregistered id hid)
    exact ⟨pattern, hclosed.leads.known_of_find? hpattern, hpattern,
      hcoherent.id_eq hpattern⟩
  · rintro ⟨first, hlinks⟩
    exact ⟨first, hlinks.mono fun _ _ _ _ _ _ _ => trivial⟩
  · rintro hcloses ⟨first, hlinks⟩
    exact hchart.indexed.exists_links_closes hids hcloses hlinks

theorem runsOfA_coherent : runsOfA.Coherent where
  nodup_ids := by decide
  exists_pattern {id serial} hentry := by
    simp only [runsOfA, List.mem_cons, Prod.mk.injEq, List.not_mem_nil, or_false] at hentry
    rcases hentry with ⟨rfl, rfl⟩ | ⟨rfl, rfl⟩ | ⟨rfl, rfl⟩ <;> exact ⟨_, rfl, rfl⟩

/-- One letter and a run of the other are found behind them. -/
theorem lookBehind_iff_links_runsOfA : runsOfA.Coherent ∧ runsOfA.Closed ∧
    ∃ chart, runsOfA.parse "ba" 256 = .ok chart ∧ ∃ value after,
      (Chart.tryNode runsOfA.grammar (.group [[1, 2].map Node.plainRef] .once .behind) 2
        256).run chart = (.ok value, after) ∧ value.isSome := by
  obtain ⟨chart, hparse, hbehind⟩ :=
    runsOfA_closed.lookBehind_iff_links runsOfA_coherent "ba" 256
  obtain ⟨same, hagain, hchart⟩ := runsOfA_closed.exists_parse "ba" 256
  rw [hparse] at hagain
  cases hagain
  have hslots : (match runsOfA.parse "ba" 256 with
      | .ok chart => (chart.tail? 1 2).any (fun token => token.start = 1) &&
          (chart.tail? 0 1).isSome
      | .error _ => false) = true := by
    decide +kernel
  rw [hparse] at hslots
  obtain ⟨⟨run, hrun, hstart⟩, ⟨letter, hletter⟩⟩ :
      (∃ token, chart.tail? 1 2 = some token ∧ token.start = 1) ∧
        ∃ token, chart.tail? 0 1 = some token := by
    simpa [Option.any_eq_true, Option.isSome_iff_exists] using hslots
  obtain ⟨⟨value, after, htry, hvalue⟩, -⟩ :=
    hbehind [1, 2] (by simp) (by decide) .once 2 256 (by decide)
  refine ⟨runsOfA_coherent, runsOfA_closed, chart, hparse, value, after, htry, hvalue.mpr ?_⟩
  refine ⟨fun _ => ⟨letter.start, ?_⟩, fun _ => rfl⟩
  have hlast : chart.Links chart.Closes [2] 1 2 :=
    hchart.links_singleton_iff.mpr ⟨run, hrun, hstart⟩
  have hfirst : chart.Links chart.Closes [1] letter.start 1 :=
    hchart.links_singleton_iff.mpr ⟨letter, hletter, rfl⟩
  exact Chart.links_concat.mpr ⟨1, hfirst, hlast⟩

/-- One letter and the run of two others behind it are missed: where that run ends the chart holds
the run of the last letter only, before which the first letter does not stand. -/
theorem not_lookBehind_iff_links_runsOfA : ∃ chart, runsOfA.parse "baa" 256 = .ok chart ∧
    ((Chart.tryNode runsOfA.grammar (.group [[1, 2].map Node.plainRef] .once .behind) 3
      256).run chart).1 = .ok none ∧
    ∃ first, chart.Links (fun _ => True) [1, 2] first 3 := by
  obtain ⟨chart, hparse, hchart⟩ := runsOfA_closed.exists_parse "baa" 256
  have hrun : (match runsOfA.parse "baa" 256 with
      | .ok chart =>
        (match ((Chart.tryNode runsOfA.grammar (.group [[1, 2].map Node.plainRef] .once .behind) 3
            256).run chart).1 with
          | .ok value => value.isNone
          | .error _ => false) &&
          (chart.head? 0 1).any (fun token => token.length = 1) &&
          (chart.head? 1 2).any (fun token => token.length = 2)
      | .error _ => false) = true := by
    decide +kernel
  rw [hparse] at hrun
  obtain ⟨⟨hnone, letter, hletter, hone⟩, run, hstretch, htwo⟩ :
      (_ ∧ ∃ token, chart.head? 0 1 = some token ∧ token.length = 1) ∧
        ∃ token, chart.head? 1 2 = some token ∧ token.length = 2 := by
    simpa only [Bool.and_eq_true, Option.any_eq_true, decide_eq_true_eq] using hrun
  have hletterFits := hchart.fits (hchart.head?_eq_some_iff.mp hletter).1
  have hrunFits := hchart.fits (hchart.head?_eq_some_iff.mp hstretch).1
  have hletterStop : letter.stop = 1 := by rw [Token.stop, hletterFits.start_eq, hone]; rfl
  have hrunStop : run.stop = 3 := by rw [Token.stop, hrunFits.start_eq, htwo]; rfl
  refine ⟨chart, hparse, ?_, 0, letter, (hchart.head?_eq_some_iff.mp hletter).1, trivial, ?_, ?_⟩
  · split at hnone
    next value hvalue => rw [hvalue, Option.isNone_iff_eq_none.mp hnone]
    next => cases hnone
  · rw [hletterStop]
    decide
  · rw [hletterStop]
    refine ⟨run, (hchart.head?_eq_some_iff.mp hstretch).1, trivial, ?_, hrunStop⟩
    rw [hrunStop]
    decide

end Registry

end Motif
