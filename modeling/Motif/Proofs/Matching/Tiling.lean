import Motif.Proofs.Matching.Trials

/-!
# Tokens made of tokens

On every chart that matching can lead to, whatever patterns have been tried and with whatever depth
limits, a composite token is made of other tokens of the chart, one after another from its start to
its end without a gap. Matching never goes backwards and never beyond the end of the text, so a node
that may repeat without limit runs out of text.
-/

namespace Motif

open Chart

variable {text : String} {chart : Chart} {during : Int → Int → Registry} {registry : Registry}

/-- A chart to which matching leads, from an empty one or one that has been parsed, by trying
registered patterns at any positions. For each pattern and position it is known which registry was
in force when the outcome came to be remembered; the registry may change between the trials. -/
inductive Chart.Arises (text : String) : Chart → (Int → Int → Registry) → Prop where
  | fresh (during : Int → Int → Registry) : Arises text (ofText text) during
  | parsed {registry : Registry} (hcoherent : registry.Coherent) (hclosed : registry.Closed)
      {maxDepth : Int} {chart : Chart} (hparse : registry.parse text maxDepth = .ok chart) :
      Arises text chart fun _ _ => registry
  | tried {chart after : Chart} {during : Int → Int → Registry} (harises : Arises text chart during)
      {registry : Registry} (hcoherent : registry.Coherent) (hclosed : registry.Closed)
      {pattern : Pattern} (hpattern : pattern ∈ registry.patterns) {start maxDepth : Int}
      {result : Except Fault (Option Token)}
      (hrun : (tryPattern registry.grammar pattern start maxDepth).run chart = (result, after)) :
      Arises text after fun position id =>
        if (chart.outcome? position id).isSome then during position id else registry

/-- Every remembered token is made of what its pattern consumed when it was matched. -/
def Chart.Made (chart : Chart) (during : Int → Int → Registry) : Prop :=
  ∀ {position id token}, chart.outcome? position id = some (some token) →
    ∃ pattern, (during position id).byId? id = some pattern ∧
      chart.MadeBy (fun node id => node.Consumes id) pattern token

/-- Where patterns are found by their own ids, a tree consumes tokens of the ids to which it
refers. -/
theorem Registry.Coherent.made (hcoherent : registry.Coherent) {active : List Cell}
    {text : Array Char} {before after : Chart}
    (hextends : Extends registry.grammar (· ∈ registry.patterns) text active before after)
    {position id : Int} {token : Token} (hnone : before.outcome? position id = none)
    (hsome : after.outcome? position id = some (some token)) :
    ∃ pattern, registry.byId? id = some pattern ∧
      after.MadeBy (fun node id => node.Consumes id) pattern token := by
  obtain ⟨pattern, hpattern, rfl, hmade⟩ := hextends.made hnone hsome
  refine ⟨pattern, hcoherent.mem_patterns_iff.mp hpattern, ?_⟩
  refine hmade.mono (fun _ hmem => hmem) ?_
  rintro node id ⟨reference, found, hconsumes, hfound, rfl⟩
  rwa [hcoherent.id_eq hfound]

namespace Chart

/-- The indices of a chart that has come about agree with its outcomes, no trial is under way on it,
and its tokens are made of what their patterns consumed. -/
theorem Arises.made (harises : Arises text chart during) :
    Indexed text.toList.toArray [] chart ∧ chart.Made during := by
  induction harises with
  | fresh during =>
      refine ⟨indexed_ofText text, ?_⟩
      intro position id token hsome
      simp [outcome?, ofText] at hsome
  | @parsed registry hcoherent hclosed maxDepth chart hparse =>
      obtain ⟨other, hother, hextends⟩ := hclosed.exists_extends text maxDepth
      obtain rfl : other = chart := Except.ok.inj (hother.symm.trans hparse)
      refine ⟨hextends.indexed, ?_⟩
      intro position id token hsome
      exact hcoherent.made hextends (by simp [outcome?, ofText]) hsome
  | @tried chart after during _ registry hcoherent hclosed pattern hpattern start maxDepth result
      hrun ih =>
      obtain ⟨hindexed, hmade⟩ := ih
      obtain ⟨value, final, hfinal, hextends, -⟩ := ((yields_of_room _ hclosed.leads
        (roomFor maxDepth)).1 [] pattern hpattern start chart hindexed.extends_self).exists_ok
      obtain rfl : final = after := congrArg Prod.snd (hfinal.symm.trans hrun)
      refine ⟨hextends.indexed, ?_⟩
      intro position id token hsome
      dsimp only
      cases houtcome : chart.outcome? position id with
      | none =>
          rw [if_neg (by simp)]
          exact hcoherent.made hextends houtcome hsome
      | some outcome =>
          -- The trial leaves alone what was remembered before it.
          have hold : outcome = some token := by
            rw [hextends.grows.outcome_eq houtcome] at hsome
            exact Option.some.inj hsome
          rw [hold] at houtcome
          obtain ⟨found, hfound, htoken⟩ := hmade houtcome
          rw [if_pos (by simp)]
          refine ⟨found, hfound, ?_⟩
          exact htoken.mono (fun _ => hextends.mem_tokens) fun _ _ hconsumes => hconsumes

/-- A token that its pattern makes from the derived kind on is made of nothing only if it is
empty. -/
theorem MadeBy.children_eq_nil_iff {consumes : Node → Int → Prop} {pattern : Pattern}
    {token : Token} (hmade : MadeBy chart consumes pattern token) {root : Node}
    (hcontent : pattern.content = .tree root) (hkind : .derived ≤ pattern.kind) :
    token.children = [] ↔ token.length = 0 := by
  unfold MadeBy at hmade
  rw [hcontent] at hmade
  dsimp only at hmade
  rw [if_pos hkind] at hmade
  rw [hmade.1.eq_nil_iff]
  unfold Token.stop
  omega

/-- The operation succeeds, leaves the indices as they have to be, and gives only matches that end
between their start and the end of the text. -/
def EndsInside (text : String) (active : List Cell) (chart : Chart) (start : Int)
    (action : Action (Option Reach)) : Prop :=
  ∃ value after, action.run chart = (.ok value, after) ∧
    Indexed text.toList.toArray active after ∧
      ∀ reach, value = some reach → start ≤ reach.stop ∧ reach.stop ≤ chart.size

/-- The ids to which the node refers are registered. -/
def Resolved (registry : Registry) (node : Node) : Prop :=
  ∀ id ∈ node.references, (registry.byId? id).isSome

/-- What holds of every step of matching from a position, with room for so many levels below. -/
structure StepsOnward (registry : Registry) (text : String) (active : List Cell) (chart : Chart)
    (room : Nat) (start : Int) : Prop where
  pattern : ∀ pattern ∈ registry.patterns, ∃ value after,
    (matchPattern registry.grammar room pattern start).run chart = (.ok value, after) ∧
      Indexed text.toList.toArray active after ∧ ∀ token, value = some token →
        token.start = start ∧ start ≤ token.stop ∧ token.stop ≤ chart.size
  node : ∀ node, Resolved registry node →
    EndsInside text active chart start (matchNode registry.grammar room node start)
  once : ∀ node, Resolved registry node →
    EndsInside text active chart start (onceStep registry.grammar
      (matchPattern registry.grammar room) (matchNode registry.grammar room) node start)
  sequence : ∀ sequence, (∀ node ∈ sequence, Resolved registry node) →
    EndsInside text active chart start
      (matchSequence (matchNode registry.grammar room) sequence start)
  /-- With more tries than characters are left the number of tries plays no part, and there are at
  most as many submatches as characters left, and one more. -/
  run : ∀ node, Resolved registry node → ∀ tries : Nat, chart.size - start < tries →
    (repeatMatch (onceStep registry.grammar (matchPattern registry.grammar room)
        (matchNode registry.grammar room) node) tries start).run chart =
      (repeatMatch (onceStep registry.grammar (matchPattern registry.grammar room)
        (matchNode registry.grammar room) node) (chart.size - start + 1).toNat start).run chart ∧
    ∃ run after, (repeatMatch (onceStep registry.grammar (matchPattern registry.grammar room)
        (matchNode registry.grammar room) node) tries start).run chart = (.ok run, after) ∧
      (run.count : Int) ≤ chart.size - start + 1

section Steps

variable {grammar : Grammar} {known : Pattern → Prop} {active : List Cell} {start : Int}
  {consumed : Int → Prop}

theorem endsInside_of_yields {action : Action (Option Reach)}
    (hchart : Indexed text.toList.toArray active chart)
    (haction : Yields (Extends grammar known text.toList.toArray active) action
      (Leading consumed start) fun _ => False) : EndsInside text active chart start action := by
  obtain ⟨value, after, hrun, hafter, hvalue⟩ := (haction chart hchart.extends_self).exists_ok
  refine ⟨value, after, hrun, hafter.indexed, fun reach hreach => ?_⟩
  have honward := hvalue reach hreach
  refine ⟨honward.tiles.le, ?_⟩
  unfold Chart.size
  rw [← hafter.grows.text_eq]
  exact honward.stop_le

theorem Resolved.resolves {node : Node} (hnode : Resolved registry node) :
    Resolves registry.grammar (fun _ => False) node := by
  intro id hid hnone
  have hsome := hnode id hid
  rw [show registry.byId? id = none from hnone] at hsome
  cases hsome

/-- Every step of matching leads on. -/
theorem stepsOnward (hclosed : registry.Closed)
    (hchart : Indexed text.toList.toArray active chart) (room : Nat) (hstart : start ≤ chart.size) :
    StepsOnward registry text active chart room start := by
  obtain ⟨hpattern, hnode, -⟩ := yields_of_room text.toList.toArray hclosed.leads room
  have hsize : (chart.size : Int) = text.toList.toArray.size := by
    rw [Chart.size, hchart.text_eq]
  rw [hsize] at hstart
  have honce : ∀ node, Resolved registry node → ∀ position : Int,
      position ≤ text.toList.toArray.size →
        Yields (Extends registry.grammar (· ∈ registry.patterns) text.toList.toArray active)
          (onceStep registry.grammar (matchPattern registry.grammar room)
            (matchNode registry.grammar room) node position)
          (Leading (registry.grammar.Consumes (node.withLook .here)) position) fun _ => False :=
    fun node hresolved position hposition => yields_onceStep hclosed.leads (hpattern active)
      (hnode active) hresolved.resolves hposition
  refine ⟨?_, ?_, ?_, ?_, ?_⟩
  · intro pattern hmem
    obtain ⟨value, after, hrun, hafter, hvalue⟩ :=
      (hpattern active pattern hmem start chart hchart.extends_self).exists_ok
    refine ⟨value, after, hrun, hafter.indexed, fun token htoken => ?_⟩
    obtain ⟨hfits, -⟩ := hvalue token htoken
    have hlength := hfits.length_nonneg
    have hfrom := hfits.start_eq
    have hstop := hfits.stop_le
    rw [hafter.grows.text_eq] at hstop
    refine ⟨hfrom, ?_, hstop⟩
    unfold Token.stop
    omega
  · intro node hresolved
    exact endsInside_of_yields hchart (hnode active node hresolved.resolves start hstart)
  · intro node hresolved
    exact endsInside_of_yields hchart (honce node hresolved start hstart)
  · intro sequence hresolved
    -- What a sequence consumes is not asked for here, only where it ends.
    have hloose : ∀ node ∈ sequence, ∀ position : Int, position ≤ text.toList.toArray.size →
        Yields (Extends registry.grammar (· ∈ registry.patterns) text.toList.toArray active)
          (matchNode registry.grammar room node position) (Leading (fun _ => True) position)
          fun _ => False := by
      intro node hmem position hposition middle hmiddle
      have hleading := hnode active node (hresolved node hmem).resolves position hposition
      exact (hleading middle hmiddle).mono fun value after _ hvalue reach hreach =>
        (hvalue reach hreach).mono fun _ _ => trivial
    exact endsInside_of_yields hchart (yields_matchSequence hloose hstart)
  · intro node hresolved tries htries
    rw [hsize] at htries ⊢
    refine ⟨run_repeatMatch_eq (honce node hresolved) hstart htries (by omega)
      hchart.extends_self, ?_⟩
    obtain ⟨run, after, hrun, hafter, hran⟩ := (yields_repeatMatch (honce node hresolved) tries
      hstart chart hchart.extends_self).exists_ok
    refine ⟨run, after, hrun, ?_⟩
    have hcount := hran.count_le
    have hstop : run.stop ≤ after.text.size := hran.onward.stop_le
    rw [hafter.indexed.text_eq] at hstop
    omega

end Steps

/-- On every chart that matching leads to, each remembered token of a composite pattern that was of
at least the derived kind when it was matched is made of tokens of the chart, none of them empty,
which stand one after another from its start to its end, and to whose patterns the tree refers
outside all that looks around; other tokens are made of nothing. And every step of matching, on any
chart whose indices agree with its outcomes and with any trials under way, ends between its start
and the end of the text. -/
theorem tiles_and_steps_onward (text : String) :
    (∀ chart during, Arises text chart during → ∀ position id token,
      chart.outcome? position id = some (some token) →
        ∃ pattern, (during position id).byId? id = some pattern ∧
          chart.MadeBy (fun node id => node.Consumes id) pattern token ∧
            ∀ root, pattern.content = .tree root → .derived ≤ pattern.kind →
              (token.children = [] ↔ token.length = 0)) ∧
    (∀ chart during, Arises text chart during → Indexed text.toList.toArray [] chart) ∧
    ∀ registry : Registry, registry.Coherent → registry.Closed → ∀ active chart,
      Indexed text.toList.toArray active chart → ∀ (room : Nat) (start : Int),
        start ≤ chart.size → StepsOnward registry text active chart room start := by
  refine ⟨?_, ?_, ?_⟩
  · intro chart during harises position id token hsome
    obtain ⟨-, hmade⟩ := harises.made
    obtain ⟨pattern, hpattern, htoken⟩ := hmade hsome
    exact ⟨pattern, hpattern, htoken, fun root hcontent hkind =>
      htoken.children_eq_nil_iff hcontent hkind⟩
  · exact fun chart during harises => harises.made.1
  · exact fun registry _ hclosed active chart hchart room start hstart =>
      stepsOnward hclosed hchart room hstart

end Chart

namespace Registry

/-- Letters in a list: a letter, and another such list if one follows. -/
def listed : Registry where
  ledger := #[{ kind := .literal, content := .literal "a", id := 0 },
    { kind := .derived
      content := .tree (.plainGroup [[.plainRef 0, .ref 1 ⟨0, 1⟩ .here]])
      id := 1 }]
  entries := [(0, 0), (1, 1)]
  nextId := 2

theorem listed_coherent : listed.Coherent where
  nodup_ids := by decide
  exists_pattern {id serial} hentry := by
    simp only [listed, List.mem_cons, Prod.mk.injEq, List.not_mem_nil, or_false] at hentry
    rcases hentry with ⟨rfl, rfl⟩ | ⟨rfl, rfl⟩ <;> exact ⟨_, rfl, rfl⟩

theorem listed_closed : listed.Closed := by
  unfold Closed
  decide

end Registry

/-- The list of two letters is made of the first letter and of the list of the second. -/
theorem Chart.tiles_and_steps_onward_listed :
    (∃ chart, Registry.listed.parse "aa" = .ok chart ∧ ∃ token,
      chart.outcome? 0 1 = some (some token) ∧ token.length = 2 ∧ token.children ≠ [] ∧
        ∃ pattern, Registry.listed.byId? 1 = some pattern ∧
          chart.MadeBy (fun node id => node.Consumes id) pattern token) ∧
    StepsOnward Registry.listed "aa" [] (ofText "aa") 3 0 := by
  obtain ⟨htokens, -, hsteps⟩ := tiles_and_steps_onward "aa"
  constructor
  · have hfound : (match Registry.listed.parse "aa" with
        | .ok chart => (chart.outcome? 0 1).join.map Token.length
        | .error _ => none) = some 2 := by decide +kernel
    cases hparse : Registry.listed.parse "aa" with
    | error fault =>
        rw [hparse] at hfound
        cases hfound
    | ok chart =>
        rw [hparse] at hfound
        obtain ⟨token, htoken, hlength⟩ := Option.map_eq_some_iff.mp hfound
        have houtcome := Option.join_eq_some_iff.mp htoken
        obtain ⟨pattern, hpattern, hmade, hempty⟩ := htokens chart _
          (.parsed Registry.listed_coherent Registry.listed_closed hparse) 0 1 token houtcome
        obtain rfl : _ = pattern := Option.some.inj hpattern
        refine ⟨chart, rfl, token, houtcome, hlength, ?_, _, hpattern, hmade⟩
        rw [Ne, hempty _ rfl (by decide), hlength]
        decide
  · exact hsteps Registry.listed Registry.listed_coherent Registry.listed_closed [] (ofText "aa")
      (indexed_ofText "aa") 3 0 (by decide)

end Motif
