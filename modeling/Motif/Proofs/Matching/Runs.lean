import Motif.Proofs.Matching.Settled
import Motif.Proofs.Registry.Compiling
import Motif.Proposal

/-!
# Whole runs

A character class is a pattern that matches single characters. The pattern that requires not to be
preceded by a class and repeats it matches exactly the maximal runs of positions at which the class
matches, in every text and whatever else is registered.
-/

namespace Motif

/-- A stretch of positions with a property that is not preceded or followed by another one. -/
structure MaximalRun (holds : Int → Prop) (start stop : Int) : Prop where
  lt : start < stop
  inside : ∀ position, start ≤ position → position < stop → holds position
  before : ¬ holds (start - 1)
  after : ¬ holds stop

namespace MaximalRun

variable {holds : Int → Prop} {start stop other last : Int}

/-- Of two maximal runs that share a position neither starts before the other. -/
theorem start_le (hrun : MaximalRun holds start stop) (hother : MaximalRun holds other last)
    {position : Int} (hposition : start ≤ position ∧ position < stop)
    (hshared : other ≤ position ∧ position < last) : start ≤ other := by
  by_contra hlt
  exact hrun.before (hother.inside (start - 1) (by omega) (by omega))

theorem stop_le (hrun : MaximalRun holds start stop) (hother : MaximalRun holds other last)
    {position : Int} (hposition : start ≤ position ∧ position < stop)
    (hshared : other ≤ position ∧ position < last) : stop ≤ last := by
  by_contra hlt
  exact hother.after (hrun.inside last (by omega) (by omega))

/-- Of two maximal runs with one start both end at the same position. -/
theorem stop_eq (hrun : MaximalRun holds start stop) (hother : MaximalRun holds start last) :
    stop = last := by
  have hfirst : start ≤ start ∧ start < stop := ⟨le_refl _, hrun.lt⟩
  have hsecond : start ≤ start ∧ start < last := ⟨le_refl _, hother.lt⟩
  exact le_antisymm (hrun.stop_le hother hfirst hsecond) (hother.stop_le hrun hsecond hfirst)

/-- A position lies in a maximal run if the runs that start at positions from zero on are finite. -/
theorem exists_of_holds (hnonneg : ∀ position, holds position → 0 ≤ position)
    (hstarts : ∀ start, holds start → ¬ holds (start - 1) → ∃ stop, MaximalRun holds start stop)
    {position : Int} (hposition : holds position) :
    ∃ start stop, MaximalRun holds start stop ∧ start ≤ position ∧ position < stop := by
  obtain ⟨place, rfl⟩ := Int.eq_ofNat_of_zero_le (hnonneg position hposition)
  induction place with
  | zero =>
      have hbefore : ¬ holds ((0 : Nat) - 1) := fun hholds => by
        have hlow := hnonneg _ hholds
        omega
      obtain ⟨stop, hrun⟩ := hstarts _ hposition hbefore
      exact ⟨_, stop, hrun, le_refl _, hrun.lt⟩
  | succ place ih =>
      by_cases hbefore : holds (((place + 1 : Nat) : Int) - 1)
      · have hplace : ((place + 1 : Nat) : Int) - 1 = place := by omega
        rw [hplace] at hbefore
        obtain ⟨start, stop, hrun, hlow, hhigh⟩ := ih hbefore
        refine ⟨start, stop, hrun, by omega, ?_⟩
        -- The run that holds the position before goes on at least to this one.
        by_contra hstop
        have heq : stop = ((place + 1 : Nat) : Int) := by omega
        exact hrun.after (heq ▸ hposition)
      · obtain ⟨stop, hrun⟩ := hstarts _ hposition hbefore
        exact ⟨_, stop, hrun, le_refl _, hrun.lt⟩

end MaximalRun

/-- Contents that match single characters: a literal of one character, or a tree of undecorated
nodes in which every alternative is a single reference to such a pattern or a single such group. -/
inductive Registry.IsClass (registry : Registry) : Content → Prop where
  | literal {word : String} (hword : word.length = 1) : IsClass registry (.literal word)
  | ref {id : Int} {pattern : Pattern} (hpattern : registry.byId? id = some pattern)
      (hclass : IsClass registry pattern.content) : IsClass registry (.tree (.plainRef id))
  | group {alternatives : List (List Node)}
      (hlength : ∀ sequence ∈ alternatives, sequence.length = 1)
      (hnode : ∀ sequence ∈ alternatives, ∀ node ∈ sequence, IsClass registry (.tree node)) :
      IsClass registry (.tree (.plainGroup alternatives))

/-- A pattern has matched at a position. -/
def Chart.MatchesAt (chart : Chart) (id position : Int) : Prop :=
  (chart.remembered id position).isSome

instance (chart : Chart) (id position : Int) : Decidable (chart.MatchesAt id position) :=
  inferInstanceAs (Decidable (_ = true))

/-- A whole run of a pattern, which is not preceded by the pattern. -/
def Node.wholeRun (id : Int) : Node :=
  .plainGroup [[.ref id .never .behind, .ref id ⟨1, Quantity.unlimited⟩ .here]]

namespace Evaluation

open Chart (Reach)

variable {token : Int → Int → Option Token} {size : Nat}

/-- One submatch of a node without quantifier or look ends where the node ends. -/
theorem stop_quantified_once (size : Nat) (once : Int → Option Reach) (start : Int) :
    (quantified size .once .here once start).map Reach.stop = (once start).map Reach.stop := by
  have hroom : room .once size = 1 := rfl
  cases honce : once start with
  | none => simp [quantified, Quantity.once, room, Quantity.unlimited, greedy, honce]
  | some reach =>
      by_cases hstop : reach.stop = start <;>
        simp [quantified, Quantity.once, room, Quantity.unlimited, greedy, honce, hstop]

/-- Alternatives of single nodes end where one of these ends. -/
theorem stop_evalAlternatives {alternatives : List (List Node)}
    (hlength : ∀ sequence ∈ alternatives, sequence.length = 1) {start stop : Int}
    (hnode : ∀ sequence ∈ alternatives, ∀ node ∈ sequence, ∀ reach,
      evalNode token size node start = some reach → reach.stop = stop)
    {reach : Reach} (hreach : evalAlternatives token size alternatives start = some reach) :
    reach.stop = stop := by
  induction alternatives with
  | nil => cases hreach
  | cons first rest ih =>
      obtain ⟨only, rfl⟩ := List.length_eq_one_iff.mp (hlength first List.mem_cons_self)
      rw [evalAlternatives, evalSequence] at hreach
      cases honly : evalNode token size only start with
      | none =>
          rw [honly] at hreach
          exact ih (fun sequence hmem => hlength sequence (List.mem_cons_of_mem _ hmem))
            (fun sequence hmem => hnode sequence (List.mem_cons_of_mem _ hmem)) hreach
      | some whole =>
          rw [honly] at hreach
          cases hreach
          exact hnode [only] List.mem_cons_self only List.mem_cons_self whole honly

/-- Greedy repetition of single steps goes on to the first position where there is none. -/
theorem exists_greedy {once : Int → Option Reach}
    (hstep : ∀ {position reach}, once position = some reach →
      reach.stop = position + 1 ∧ position < size)
    (tries : Nat) (needed start : Int) (htries : (size : Int) - start < tries) :
    ∃ stop, start ≤ stop ∧
      (∀ position, start ≤ position → position < stop → (once position).isSome) ∧
      once stop = none ∧ (greedy once tries needed start).map Reach.stop =
        if needed ≤ stop - start then some stop else none := by
  induction tries generalizing needed start with
  | zero =>
      have hnone : once start = none := by
        rw [Option.eq_none_iff_forall_ne_some]
        intro reach hreach
        have hsize := (hstep hreach).2
        omega
      refine ⟨start, le_refl _, by omega, hnone, ?_⟩
      by_cases hneeded : needed ≤ 0 <;> simp [greedy, hneeded]
  | succ tries ih =>
      cases honce : once start with
      | none =>
          refine ⟨start, le_refl _, by omega, honce, ?_⟩
          by_cases hneeded : needed ≤ 0 <;> simp [greedy, honce, hneeded]
      | some reach =>
          obtain ⟨hstop, hsize⟩ := hstep honce
          obtain ⟨stop, hle, hinside, hnone, hgreedy⟩ := ih (needed - 1) (start + 1) (by omega)
          refine ⟨stop, by omega, ?_, hnone, ?_⟩
          · intro position hlow hhigh
            by_cases hposition : position = start
            · rw [hposition, honce]
              rfl
            · exact hinside position (by omega) hhigh
          · have hne : ¬ start + 1 = start := by omega
            have hcount : needed - 1 ≤ stop - (start + 1) ↔ needed ≤ stop - start := by omega
            rw [greedy, honce]
            simp only [hstop, hne, ↓reduceIte, Option.map_map]
            simp only [hcount] at hgreedy
            exact hgreedy

/-- A whole run starts where nothing ends that the pattern matches, and ends where its repetition
ends. -/
theorem stop_wholeRun (token : Int → Int → Option Token) (size : Nat) (id start : Int) :
    (evalNode token size (.wholeRun id) start).map Reach.stop =
      if starts token (.ref id .never .behind) start = [] then
        (quantified size ⟨1, Quantity.unlimited⟩ .here
          (fun position => (token id position).map ofToken) start).map Reach.stop
      else none := by
  rw [Node.wholeRun, Node.plainGroup, evalNode, if_neg (by decide), stop_quantified_once]
  simp only [evalAlternatives, evalSequence, evalNode, ↓reduceIte, lookedBehind, Quantity.never]
  by_cases hstarts : starts token (.ref id ⟨0, 0⟩ .behind) start = []
  · simp only [hstarts, ne_eq, not_true_eq_false, ↓reduceIte, reduceCtorEq]
    cases quantified size ⟨1, Quantity.unlimited⟩ .here
      (fun position => (token id position).map ofToken) start <;> simp
  · simp [hstarts]

end Evaluation

namespace Registry

open Evaluation Chart

variable {registry : Registry} {text : Array Char} {chart : Chart}

/-- Nothing in a character class looks around. -/
theorem IsClass.look_eq {content : Content} (hclass : registry.IsClass content) {root node : Node}
    (hcontent : content = .tree root) (hwithin : Node.Within node root) : node.look = .here := by
  induction hclass generalizing root with
  | literal hword => cases hcontent
  | ref hpattern _ _ =>
      cases hcontent
      obtain rfl := Node.within_ref_iff.mp hwithin
      rfl
  | group hlength hnode ih =>
      cases hcontent
      rcases Node.within_group_iff.mp hwithin with
        rfl | ⟨sequence, hsequence, child, hchild, hinside⟩
      · rfl
      · exact ih sequence hsequence child hchild rfl hinside

/-- Given what a chart remembers, contents that take one character wherever they match. -/
def StepsOne (chart : Chart) (size : Nat) : Content → Prop
  | .literal word => word.length = 1
  | .tree root => ∀ start reach, evalNode chart.remembered size root start = some reach →
    reach.stop = start + 1

section Classes

variable (hlayered : registry.grammar.Layered registry.rank)
  (hchart : chart.Settled registry.grammar registry.depth text)
include hlayered hchart

theorem length_of_stepsOne {pattern : Pattern} (hfind : registry.byId? pattern.id = some pattern)
    (hclass : registry.IsClass pattern.content)
    (hsteps : StepsOne chart text.size pattern.content) {position : Int} {token : Token}
    (htoken : chart.remembered pattern.id position = some token) : token.length = 1 := by
  rw [hchart.remembered_eq hlayered hfind fun root node hroot hwithin hlook => by
    rw [hclass.look_eq hroot hwithin] at hlook
    cases hlook] at htoken
  unfold evalWith at htoken
  split at htoken
  next =>
    cases hcontent : pattern.content with
    | literal word =>
        rw [hcontent] at htoken hsteps
        dsimp only at htoken
        split at htoken
        next =>
          cases htoken
          exact congrArg Nat.cast hsteps
        next => cases htoken
    | tree root =>
        rw [hcontent] at htoken hsteps
        obtain ⟨reach, hreach, rfl⟩ := Option.map_eq_some_iff.mp htoken
        have hstop := hsteps position reach hreach
        change reach.stop - position = 1
        omega
  next => cases htoken

/-- A character class takes one character wherever it matches. -/
theorem IsClass.stepsOne {content : Content} (hclass : registry.IsClass content) :
    StepsOne chart text.size content := by
  induction hclass with
  | literal hword => exact hword
  | @ref id pattern hpattern hclass ih =>
      intro start reach hreach
      obtain rfl := hlayered.id_eq hpattern
      have hstop := stop_quantified_once text.size
        (fun position => (chart.remembered pattern.id position).map ofToken) start
      rw [Node.plainRef, evalNode, if_neg (by decide)] at hreach
      rw [hreach, Option.map_some, Option.map_map] at hstop
      obtain ⟨token, htoken, hend⟩ := Option.map_eq_some_iff.mp hstop.symm
      have hlength := length_of_stepsOne hlayered hchart hpattern hclass ih htoken
      have hstart := (hchart.fits htoken).start_eq
      change token.start + token.length = reach.stop at hend
      omega
  | @group alternatives hlength _ ih =>
      intro start reach hreach
      have hstop := stop_quantified_once text.size
        (evalAlternatives chart.remembered text.size alternatives) start
      rw [Node.plainGroup, evalNode, if_neg (by decide)] at hreach
      rw [hreach, Option.map_some] at hstop
      obtain ⟨inner, hinner, hend⟩ := Option.map_eq_some_iff.mp hstop.symm
      rw [← hend]
      exact stop_evalAlternatives hlength
        (fun sequence hsequence node hmem => ih sequence hsequence node hmem start) hinner

end Classes

/-! ## Whole runs of a class -/

/-- The phrases of a whole run. -/
def wholeRunPhrases (symbol : Symbol) : List (List Phrase) :=
  [[.atom symbol .never .behind, .atom symbol ⟨1, Quantity.unlimited⟩ .here]]

theorem readable_wholeRunPhrases {symbol : Symbol} (hsymbol : symbol.IsReference) :
    Phrase.Readable (wholeRunPhrases symbol) where
  nonempty := List.cons_ne_nil _ _
  full := by simp [wholeRunPhrases]
  legible := by
    intro sequence hsequence phrase hphrase
    obtain rfl := List.mem_singleton.mp hsequence
    rcases List.mem_cons.mp hphrase with rfl | hphrase
    · exact .atom hsymbol Phrase.allowed_never_behind
    · obtain rfl := List.mem_singleton.mp hphrase
      exact .atom hsymbol Phrase.allowed_some

theorem textOf_wholeRunPhrases (symbol : Symbol) :
    Phrase.textOf (wholeRunPhrases symbol) = Proposal.repetitionText symbol.text := by
  rw [Phrase.textOf, wholeRunPhrases, Phrase.textsOfAlternatives, Phrase.textsOfAlternatives,
    String.intercalate_singleton, Phrase.textsOfSequence, Phrase.textsOfSequence,
    Phrase.textsOfSequence, String.intercalate_cons_cons, String.intercalate_singleton,
    Phrase.text, Phrase.text, Quantity.suffix_never, Quantity.suffix_some,
    Proposal.repetitionText]
  apply String.toList_injective
  simp [Look.mark, String.toList_append]

/-- The text of a whole run, of whatever lexeme leads to a pattern, is compiled to its tree. -/
theorem compileTree_repetitionText {scope : Node.Scope} {name : Option String} {symbol : Symbol}
    {id : Int} (hsymbol : symbol.IsReference)
    (hresolve : ∀ position, Node.Parser.resolve scope name ⟨symbol, position⟩ = .ok id) :
    compileTree scope (Proposal.repetitionText symbol.text) name = .ok (.wholeRun id) := by
  have hcompiled : compileTree scope (Phrase.textOf (wholeRunPhrases symbol)) name =
      .ok (Node.plainGroup (Phrase.treesOfAlternatives (fun _ => id)
        (wholeRunPhrases symbol))).reduceRoot := by
    refine compileTree_textOf (readable_wholeRunPhrases hsymbol) ?_ ?_
    · intro sequence hsequence phrase hphrase other hmention
      obtain rfl := List.mem_singleton.mp hsequence
      have hother : other = symbol := by
        rcases List.mem_cons.mp hphrase with rfl | hphrase
        · cases hmention
          rfl
        · obtain rfl := List.mem_singleton.mp hphrase
          cases hmention
          rfl
      rw [hother]
      exact hresolve
    · intro sequence hsequence phrase hphrase
      obtain rfl := List.mem_singleton.mp hsequence
      rcases List.mem_cons.mp hphrase with rfl | hphrase
      · exact Node.everywhere_ref_iff.mpr trivial
      · obtain rfl := List.mem_singleton.mp hphrase
        exact Node.everywhere_ref_iff.mpr trivial
  rw [← textOf_wholeRunPhrases, hcompiled]
  rfl

/-- The look behind of a whole run is at a reference, which can always be retraced. -/
theorem retraceable_of_within_wholeRun {id : Int} {node : Node}
    (hwithin : Node.Within node (.wholeRun id)) (hlook : node.look = .behind)
    (unambiguous : Node → Prop) : node.Retraceable unambiguous := by
  rcases Node.within_group_iff.mp hwithin with rfl | ⟨sequence, hsequence, child, hchild, hnode⟩
  · cases hlook
  · obtain rfl := List.mem_singleton.mp hsequence
    rcases List.mem_pair.mp hchild with rfl | rfl
    · obtain rfl := Node.within_ref_iff.mp hnode
      exact .ref _ _ _
    · obtain rfl := Node.within_ref_iff.mp hnode
      exact .ref _ _ _

section Runs

variable (hlayered : registry.grammar.Layered registry.rank)
  (hchart : chart.Settled registry.grammar registry.depth text) {pattern : Pattern}
  (hone : ∀ {position token}, chart.remembered pattern.id position = some token → token.length = 1)
include hchart hone

/-- A pattern that takes single characters ends before a position if it matches one before it. -/
theorem starts_eq_nil_iff (quantity : Quantity) (look : Look) (stop : Int) :
    starts chart.remembered (.ref pattern.id quantity look) stop = [] ↔
      ¬ chart.MatchesAt pattern.id (stop - 1) := by
  rw [List.eq_nil_iff_forall_not_mem]
  constructor
  · intro hnone hmatches
    obtain ⟨token, htoken⟩ := Option.isSome_iff_exists.mp hmatches
    have hfits := hchart.fits htoken
    have hstart := hfits.start_eq
    have hlength := hone htoken
    refine hnone (stop - 1) (mem_starts_ref.mpr ⟨hfits.start_nonneg, by omega, token, htoken, ?_⟩)
    unfold Token.stop
    omega
  · intro hnot start hstart
    apply hnot
    obtain ⟨-, -, token, htoken, hstop⟩ := mem_starts_ref.mp hstart
    have hfits := (hchart.fits htoken).start_eq
    have hlength := hone htoken
    have hbefore : stop - 1 = start := by
      unfold Token.stop at hstop
      omega
    rw [hbefore, Chart.MatchesAt, htoken]
    rfl

theorem stop_of_remembered {position : Int} {reach : Reach}
    (hreach : (chart.remembered pattern.id position).map ofToken = some reach) :
    reach.stop = position + 1 ∧ position < text.size := by
  obtain ⟨token, htoken, rfl⟩ := Option.map_eq_some_iff.mp hreach
  have hfits := hchart.fits htoken
  have hstart := hfits.start_eq
  have hstop := hfits.stop_le
  have hlength := hone htoken
  unfold Token.stop at hstop
  refine ⟨?_, by omega⟩
  change token.start + token.length = position + 1
  omega

variable {word : Pattern} (hfind : registry.byId? word.id = some word)
  (hcontent : word.content = .tree (.wholeRun pattern.id))
include hlayered hfind hcontent

omit hone in
/-- What is remembered of a whole run is how it evaluates. -/
theorem stop_remembered_wholeRun {start : Int} (hnonneg : 0 ≤ start) (hsize : start < text.size) :
    (chart.remembered word.id start).map Token.stop =
      if starts chart.remembered (.ref pattern.id .never .behind) start = [] then
        (quantified text.size ⟨1, Quantity.unlimited⟩ .here
          (fun position => (chart.remembered pattern.id position).map ofToken) start).map Reach.stop
      else none := by
  have hbehind : ∀ root node, word.content = .tree root → Node.Within node root →
      node.look = .behind → node.Retraceable (Unambiguous chart.remembered) := by
    intro root node hroot hwithin hlook
    rw [hcontent] at hroot
    cases hroot
    exact retraceable_of_within_wholeRun hwithin hlook _
  have hstop : Token.stop ∘ tokenOf text word start = Reach.stop := by
    funext reach
    change start + (reach.stop - start) = reach.stop
    omega
  rw [hchart.remembered_eq hlayered hfind hbehind, evalWith, if_pos ⟨hnonneg, hsize⟩, hcontent,
    ← stop_wholeRun]
  dsimp only
  rw [Option.map_map, hstop]

/-- A whole run starts where the pattern matches and has not matched just before, and goes on until
it does not match. -/
theorem exists_wholeRun {start : Int} (hnonneg : 0 ≤ start) (hsize : start < text.size) :
    ∃ stop, start ≤ stop ∧
      (∀ position, start ≤ position → position < stop → chart.MatchesAt pattern.id position) ∧
      ¬ chart.MatchesAt pattern.id stop ∧
      (chart.remembered word.id start).map Token.stop =
        if ¬ chart.MatchesAt pattern.id (start - 1) ∧ start < stop then some stop else none := by
  obtain ⟨stop, hle, hinside, hnone, hgreedy⟩ := exists_greedy (stop_of_remembered hchart hone)
    (room ⟨1, Quantity.unlimited⟩ text.size) 1 start (by simp [room]; omega)
  refine ⟨stop, hle, fun position hlow hhigh => ?_, ?_, ?_⟩
  · have hsome := hinside position hlow hhigh
    rwa [Option.isSome_map] at hsome
  · rw [Option.map_eq_none_iff] at hnone
    rw [Chart.MatchesAt, hnone]
    exact Bool.false_ne_true
  · -- At least one step is needed, and so nothing is repeated where the run would be empty.
    have hquantified : (quantified text.size ⟨1, Quantity.unlimited⟩ .here
        (fun position => (chart.remembered pattern.id position).map ofToken) start).map Reach.stop =
          if start < stop then some stop else none := by
      have hneeded : 1 ≤ stop - start ↔ start < stop := by omega
      rw [← if_congr hneeded rfl rfl, ← hgreedy, quantified, if_neg (by decide)]
      cases greedy _ _ _ _ <;> rfl
    rw [stop_remembered_wholeRun hlayered hchart hfind hcontent hnonneg hsize, hquantified]
    by_cases hbefore : chart.MatchesAt pattern.id (start - 1)
    · rw [if_neg fun hnil => (starts_eq_nil_iff hchart hone _ _ _).mp hnil hbefore,
        if_neg fun hboth => hboth.1 hbefore]
    · rw [if_pos ((starts_eq_nil_iff hchart hone _ _ _).mpr hbefore)]
      simp [hbefore]

/-- A match of a whole run is a maximal run. -/
theorem maximalRun_of_remembered {start : Int} {token : Token}
    (htoken : chart.remembered word.id start = some token) :
    MaximalRun (chart.MatchesAt pattern.id) start token.stop := by
  have hinside : 0 ≤ start ∧ start < text.size := by
    by_contra houtside
    rw [hchart.remembered_eq_none houtside] at htoken
    cases htoken
  obtain ⟨stop, hle, hrun, hafter, heq⟩ :=
    exists_wholeRun hlayered hchart hone hfind hcontent hinside.1 hinside.2
  rw [htoken] at heq
  split at heq
  next hstart =>
    obtain rfl : token.stop = stop := Option.some.inj heq
    exact ⟨hstart.2, hrun, hstart.1, hafter⟩
  next => cases heq

/-- Where the pattern matches and has not matched just before, a whole run matches. -/
theorem exists_remembered {start : Int} (hmatches : chart.MatchesAt pattern.id start)
    (hbefore : ¬ chart.MatchesAt pattern.id (start - 1)) :
    ∃ token, chart.remembered word.id start = some token := by
  obtain ⟨found, hfound⟩ := Option.isSome_iff_exists.mp hmatches
  have hfits := hchart.fits hfound
  have hlength := hone hfound
  have hinside := hfits.stop_le
  have hfrom := hfits.start_eq
  unfold Token.stop at hinside
  obtain ⟨stop, hle, -, hafter, heq⟩ :=
    exists_wholeRun hlayered hchart hone hfind hcontent hfits.start_nonneg (by omega)
  have hlt : start < stop := by
    by_contra hge
    exact hafter ((show start = stop by omega) ▸ hmatches)
  rw [if_pos ⟨hbefore, hlt⟩] at heq
  obtain ⟨token, htoken, -⟩ := Option.map_eq_some_iff.mp heq
  exact ⟨token, htoken⟩

/-- Whole runs are never empty, so that all their matches are tokens of the chart. -/
theorem mem_tokens_iff_remembered (token : Token) :
    token ∈ chart.tokens ∧ token.id = word.id ↔
      chart.remembered word.id token.start = some token := by
  rw [hchart.indexed.mem_tokens_iff, hchart.indexed.head?_eq_some_iff, remembered_eq_some_iff]
  constructor
  · rintro ⟨⟨houtcome, -⟩, hid⟩
    rwa [hid] at houtcome
  · intro houtcome
    have htoken := remembered_eq_some_iff.mpr houtcome
    have hlt := (maximalRun_of_remembered hlayered hchart hone hfind hcontent htoken).lt
    have hid := (hchart.fits htoken).id_eq
    unfold Token.stop at hlt
    rw [hid]
    exact ⟨⟨houtcome, by omega⟩, rfl⟩

/-- The maximal runs of the pattern are the tokens of its whole runs. -/
theorem maximalRun_iff (start stop : Int) :
    MaximalRun (chart.MatchesAt pattern.id) start stop ↔
      ∃ token ∈ chart.tokens, token.id = word.id ∧ token.start = start ∧ token.stop = stop := by
  constructor
  · intro hrun
    obtain ⟨token, htoken⟩ := exists_remembered hlayered hchart hone hfind hcontent
      (hrun.inside start (le_refl _) hrun.lt) hrun.before
    have hfrom := (hchart.fits htoken).start_eq
    have hother := maximalRun_of_remembered hlayered hchart hone hfind hcontent htoken
    obtain ⟨hmem, hid⟩ := (mem_tokens_iff_remembered hlayered hchart hone hfind hcontent token).mpr
      (by rwa [hfrom])
    exact ⟨token, hmem, hid, hfrom, hother.stop_eq hrun⟩
  · rintro ⟨token, hmem, hid, rfl, rfl⟩
    exact maximalRun_of_remembered hlayered hchart hone hfind hcontent
      ((mem_tokens_iff_remembered hlayered hchart hone hfind hcontent token).mp ⟨hmem, hid⟩)

/-- Each position at which the pattern matches lies in exactly one token of its whole runs. -/
theorem existsUnique_wholeRun {position : Int}
    (hmatches : chart.MatchesAt pattern.id position) :
    ∃! token, token ∈ chart.tokens ∧ token.id = word.id ∧ token.start ≤ position ∧
      position < token.stop := by
  have hruns := maximalRun_iff hlayered hchart hone hfind hcontent
  have hnonneg : ∀ position, chart.MatchesAt pattern.id position → 0 ≤ position := by
    intro position hposition
    obtain ⟨token, htoken⟩ := Option.isSome_iff_exists.mp hposition
    exact (hchart.fits htoken).start_nonneg
  obtain ⟨start, stop, hrun, hlow, hhigh⟩ := MaximalRun.exists_of_holds hnonneg
    (fun start hstart hbefore => by
      obtain ⟨token, htoken⟩ := exists_remembered hlayered hchart hone hfind hcontent hstart hbefore
      exact ⟨_, maximalRun_of_remembered hlayered hchart hone hfind hcontent htoken⟩) hmatches
  obtain ⟨token, hmem, hid, rfl, rfl⟩ := (hruns start stop).mp hrun
  refine ⟨token, ⟨hmem, hid, hlow, hhigh⟩, ?_⟩
  rintro other ⟨hother, hotherId, hotherLow, hotherHigh⟩
  have hotherRun := (hruns other.start other.stop).mpr ⟨other, hother, hotherId, rfl, rfl⟩
  -- Two maximal runs through one position start at the same position.
  have hstart : other.start = token.start :=
    le_antisymm (hotherRun.start_le hrun ⟨hotherLow, hotherHigh⟩ ⟨hlow, hhigh⟩)
      (hrun.start_le hotherRun ⟨hlow, hhigh⟩ ⟨hotherLow, hotherHigh⟩)
  exact hchart.indexed.eq_of_mem_tokens hother hmem hstart (hotherId.trans hid.symm)

end Runs

/-- After a parse a pattern that has been compiled from the text of a whole run of a character
class, by whatever lexeme led to the class then, has exactly the maximal runs of positions at which
the class matches as its tokens. Each of these positions lies in exactly one of them, and the
pattern matches only where such a run starts. -/
theorem wholeRuns_of_parse (hcoherent : registry.Coherent) (hclosed : registry.Closed)
    (hacyclic : registry.Acyclic) {letter word : Pattern} (hletter : letter ∈ registry.patterns)
    (hclass : registry.IsClass letter.content) (hword : word ∈ registry.patterns)
    {scope : Node.Scope} {name : Option String} {symbol : Symbol} (hsymbol : symbol.IsReference)
    (hresolve : ∀ position, Node.Parser.resolve scope name ⟨symbol, position⟩ = .ok letter.id)
    {root : Node}
    (hcompiled : compileTree scope (Proposal.repetitionText symbol.text) name = .ok root)
    (hcontent : word.content = .tree root) (text : String) {maxDepth : Int}
    (hunreached : Unreached (fun limit => registry.parse text limit) maxDepth) :
    ∃ chart, registry.parse text maxDepth = .ok chart ∧
      (∀ position token, chart.remembered letter.id position = some token → token.length = 1) ∧
      (∀ start stop, MaximalRun (chart.MatchesAt letter.id) start stop ↔
        ∃ token ∈ chart.tokens, token.id = word.id ∧ token.start = start ∧ token.stop = stop) ∧
      (∀ position, chart.MatchesAt letter.id position → ∃! token, token ∈ chart.tokens ∧
        token.id = word.id ∧ token.start ≤ position ∧ position < token.stop) ∧
      ∀ position, chart.MatchesAt word.id position →
        ∃ stop, MaximalRun (chart.MatchesAt letter.id) position stop := by
  obtain ⟨chart, hparse, hchart⟩ := exists_settled hcoherent hclosed hacyclic text hunreached
  have hlayered := layered hcoherent hclosed hacyclic
  have hfind := hcoherent.mem_patterns_iff.mp hword
  obtain rfl : .wholeRun letter.id = root :=
    Except.ok.inj ((compileTree_repetitionText hsymbol hresolve).symm.trans hcompiled)
  have hone : ∀ {position token}, chart.remembered letter.id position = some token →
      token.length = 1 := fun htoken =>
    length_of_stepsOne hlayered hchart (hcoherent.mem_patterns_iff.mp hletter) hclass
      (hclass.stepsOne hlayered hchart) htoken
  refine ⟨chart, hparse, fun _ _ => hone, maximalRun_iff hlayered hchart hone hfind hcontent,
    fun _ => existsUnique_wholeRun hlayered hchart hone hfind hcontent, ?_⟩
  intro position hposition
  obtain ⟨token, htoken⟩ := Option.isSome_iff_exists.mp hposition
  exact ⟨_, maximalRun_of_remembered hlayered hchart hone hfind hcontent htoken⟩

/-- The class of the letters a and b. -/
def letter : Pattern where
  kind := .derived
  name := "Letter"
  content := .tree (.plainGroup [[.plainRef 0], [.plainRef 1]])
  id := 2

/-- The whole runs of letters. -/
def word : Pattern where
  kind := .derived
  name := "Word"
  content := .tree (.wholeRun 2)
  id := 3

/-- Two letters, their class and its whole runs, and a space. -/
def lettering : Registry where
  ledger := #[{ kind := .literal, name := "a", content := .literal "a", id := 0 },
    { kind := .literal, name := "b", content := .literal "b", id := 1 }, letter, word,
    { kind := .literal, name := "Space", content := .literal " ", id := 4 }]
  entries := [(0, 0), (1, 1), (2, 2), (3, 3), (4, 4)]
  names := [("a", 0), ("b", 1), ("Letter", 2), ("Word", 3), ("Space", 4)]
  nextId := 5

theorem lettering_coherent : lettering.Coherent where
  nodup_ids := by decide
  exists_pattern {id serial} hentry := by
    simp only [lettering, List.mem_cons, Prod.mk.injEq, List.not_mem_nil, or_false] at hentry
    rcases hentry with ⟨rfl, rfl⟩ | ⟨rfl, rfl⟩ | ⟨rfl, rfl⟩ | ⟨rfl, rfl⟩ | ⟨rfl, rfl⟩ <;>
      exact ⟨_, rfl, rfl⟩

theorem lettering_closed : lettering.Closed := by
  unfold Closed
  decide

theorem lettering_acyclic : lettering.Acyclic := by
  refine acyclic_of_decreasing Int.toNat ?_
  rintro id other ⟨pattern, hpattern, hother⟩
  have hlower : ∀ pattern ∈ lettering.patterns, ∀ other ∈ pattern.content.references,
      other.toNat < pattern.id.toNat := by decide
  have hid := lettering_coherent.id_eq hpattern
  subst hid
  exact hlower pattern (lettering_coherent.mem_patterns_iff.mpr hpattern) other hother

theorem lettering_isClass : lettering.IsClass letter.content := by
  refine .group (by decide) ?_
  intro sequence hsequence node hnode
  rcases List.mem_cons.mp hsequence with rfl | hsequence
  · obtain rfl := List.mem_singleton.mp hnode
    exact .ref rfl (.literal rfl)
  · obtain rfl := List.mem_singleton.mp hsequence
    obtain rfl := List.mem_singleton.mp hnode
    exact .ref rfl (.literal rfl)

/-- The word at the start of a text is the whole run of its letters. -/
theorem wholeRuns_of_parse_lettering :
    ∃ chart, lettering.parse "ab a" 16 = .ok chart ∧
      MaximalRun (chart.MatchesAt letter.id) 0 2 ∧
        ∃ token ∈ chart.tokens, token.id = word.id ∧ token.start = 0 ∧ token.stop = 2 := by
  have hresolve : ∀ position,
      Node.Parser.resolve lettering.scope none ⟨.name "Letter", position⟩ = .ok letter.id :=
    fun _ => rfl
  have hname : (Symbol.name "Letter").IsReference := by
    unfold Symbol.IsReference
    decide
  have hdepth : ∀ pattern ∈ lettering.patterns,
      pattern.depth lettering.depth ≤ Chart.roomFor 16 := by
    decide
  have hletter : letter ∈ lettering.patterns := lettering_coherent.mem_patterns_iff.mpr rfl
  have hword : word ∈ lettering.patterns := lettering_coherent.mem_patterns_iff.mpr rfl
  obtain ⟨chart, hparse, -, hruns, -, -⟩ := wholeRuns_of_parse lettering_coherent lettering_closed
    lettering_acyclic hletter lettering_isClass hword hname hresolve
    (compileTree_repetitionText hname hresolve) rfl "ab a"
    (unreached_parse lettering_coherent lettering_closed lettering_acyclic hdepth "ab a")
  have hmatches : (match lettering.parse "ab a" 16 with
      | .ok chart => decide (chart.MatchesAt 2 0 ∧ chart.MatchesAt 2 1 ∧ ¬ chart.MatchesAt 2 2 ∧
          ¬ chart.MatchesAt 2 (-1))
      | .error _ => false) = true := by decide +kernel
  rw [hparse] at hmatches
  obtain ⟨hfirst, hsecond, hafter, hbefore⟩ := of_decide_eq_true hmatches
  have hrun : MaximalRun (chart.MatchesAt letter.id) 0 2 := by
    refine ⟨by decide, fun position hlow hhigh => ?_, hbefore, hafter⟩
    obtain rfl | rfl : position = 0 ∨ position = 1 := by omega
    · exact hfirst
    · exact hsecond
  exact ⟨chart, hparse, hrun, (hruns 0 2).mp hrun⟩

end Registry

end Motif
