import Motif.Proofs.Matching.Runs
import Motif.Proofs.Registry.Taming
import Motif.Proofs.Survey.Holes
import Motif.Proofs.Survey.Stretches
import Motif.Proofs.Training.Counting

/-!
# Proposals that are compiled

The strategies that can be asked for put texts together from the identities of registered patterns
only. As long as ids are short, all these texts are compiled, whatever the patterns are called.
-/

namespace Motif

namespace Registry

open Phrase (allowed_here allowed_never_behind allowed_some)

variable {registry state : Registry}

/-! ## The texts -/

section Texts

variable (htame : registry.Tame) (hshort : registry.HasShortIds) {first second : Int}
  {leader follower : Pattern} (hleader : registry.byId? first = some leader)
include htame hshort hleader

theorem Tame.identity_eq : leader.identity = .ok leader.symbol.text :=
  Pattern.identity_eq (htame.writable hshort hleader)

theorem Tame.compiles_repetitionText :
    registry.Compiles (Proposal.repetitionText leader.symbol.text) := by
  have hwritable := htame.writable hshort hleader
  have hresolve : ∀ position, Node.Parser.resolve registry.scope none
      ⟨leader.symbol, position⟩ = .ok (registry.scope.target leader.symbol) := fun position =>
    (resolve_scope htame.coherent htame.named hleader hwritable none position).1
  exact htame.compiles_of_compileTree
    (compileTree_repetitionText (Pattern.isReference_symbol hwritable) hresolve)

variable (hfollower : registry.byId? second = some follower)
include hfollower

theorem Tame.compiles_pairTexts :
    ∀ text ∈ Proposal.pairTexts leader.symbol.text follower.symbol.text,
      registry.Compiles text := by
  have hleadable := htame.writable hshort hleader
  have hfollowable := htame.writable hshort hfollower
  intro text htext
  rcases List.mem_pair.mp htext with rfl | rfl
  · exact htame.compiles_of_compileTree (compileTree_pair htame.coherent htame.named hleader
      hleadable hfollower hfollowable none)
  · have habsent := spells_pair hleader hleadable hfollower hfollowable allowed_never_behind
    have hpairs := spells_pair hleader hleadable hfollower hfollowable allowed_some
    have hlast := spells_atom hleader hleadable (allowed_here Quantity.legal_once)
    refine htame.compiles_of_spells [(_, _), (_, _), (_, _)] (by simp)
      (by simpa using ⟨habsent, hpairs, hlast⟩) ?_
    rw [← String.toList_inj]
    simp [Look.mark, Quantity.suffix_never, Quantity.suffix_some, Quantity.suffix_once, pairText]

theorem Tame.compiles_alternationTexts (stretches : List Stretch) :
    ∀ text ∈ Proposal.alternationTexts leader.symbol.text follower.symbol.text stretches,
      registry.Compiles text := by
  have hleadable := htame.writable hshort hleader
  have hfollowable := htame.writable hshort hfollower
  intro text htext
  rcases List.mem_append.mp htext with htext | htext
  · split at htext
    next =>
      obtain rfl := List.mem_singleton.mp htext
      exact htame.compiles_of_compileTree (compileTree_pairs htame.coherent htame.named hleader
        hleadable hfollower hfollowable none)
    next => cases htext
  · split at htext
    next =>
      obtain rfl := List.mem_singleton.mp htext
      exact htame.compiles_of_compileTree (compileTree_returning htame.coherent htame.named
        hleader hleadable hfollower hfollowable none)
    next => cases htext

end Texts

/-- The identities of registered patterns, with blanks between them, are compiled. -/
theorem Tame.compiles_sequence (htame : registry.Tame) (hshort : registry.HasShortIds)
    {patterns : List Pattern} (hne : patterns ≠ [])
    (hpatterns : ∀ pattern ∈ patterns, registry.byId? pattern.id = some pattern) :
    registry.Compiles (" ".intercalate (patterns.map fun pattern => pattern.symbol.text)) := by
  refine htame.compiles_of_spells
    (patterns.map fun pattern => (pattern.symbol.text, .atom pattern.symbol .once .here))
    (by simpa using hne) ?_ (by rw [List.map_map]; rfl)
  intro piece hpiece
  obtain ⟨pattern, hpattern, rfl⟩ := List.mem_map.mp hpiece
  have hregistered := hpatterns pattern hpattern
  have hspells := spells_atom hregistered (htame.writable hshort hregistered)
    (allowed_here Quantity.legal_once)
  simpa [Look.mark, Quantity.suffix_once] using hspells

/-- Where all characters have literals, these are registered patterns with identities. -/
theorem Tame.literalIdentities_eq (htame : registry.Tame) (hshort : registry.HasShortIds)
    (cs : List Char) :
    Proposal.literalIdentities registry cs = .ok none ∨
      ∃ patterns : List Pattern, patterns.length = cs.length ∧
        (∀ pattern ∈ patterns, registry.byId? pattern.id = some pattern) ∧
        Proposal.literalIdentities registry cs =
          .ok (some (patterns.map fun pattern => pattern.symbol.text)) := by
  induction cs with
  | nil => exact .inr ⟨[], rfl, by simp, rfl⟩
  | cons c rest ih =>
      unfold Proposal.literalIdentities
      cases hliteral : (registry.literalFor? (String.ofList [c])).bind registry.pattern? with
      | none => exact .inl rfl
      | some literal =>
          obtain ⟨serial, hserial, hpattern⟩ := Option.bind_eq_some_iff.mp hliteral
          have hentry : (String.ofList [c], serial) ∈ registry.literals := mem_of_lookup hserial
          obtain ⟨found, hfound, -⟩ := htame.literals _ _ hentry
          obtain rfl := Option.some.inj (hpattern.symm.trans (mem_registered hfound).1)
          have hregistered := htame.byId?_of_registered hfound
          dsimp only
          rw [htame.identity_eq hshort hregistered]
          rcases ih with hnone | ⟨patterns, hlength, hpatterns, hsome⟩
          · rw [hnone]
            exact .inl rfl
          · rw [hsome]
            refine .inr ⟨literal :: patterns, by simp [hlength], ?_, rfl⟩
            exact List.forall_mem_cons.mpr ⟨hregistered, hpatterns⟩

/-- What is proposed for a text that is not empty is compiled. -/
theorem Tame.exists_literalSequence? (htame : registry.Tame) (hshort : registry.HasShortIds)
    {text : String} (hne : text.toList ≠ []) :
    ∃ found, Proposal.literalSequence? registry text = .ok found ∧
      ∀ sequence, found = some sequence → registry.Compiles sequence := by
  unfold Proposal.literalSequence?
  rcases htame.literalIdentities_eq hshort text.toList with
    hnone | ⟨patterns, hlength, hpatterns, hsome⟩
  · exact ⟨none, by rw [hnone]; rfl, by simp⟩
  · refine ⟨some _, by rw [hsome]; rfl, ?_⟩
    rintro sequence ⟨⟩
    refine htame.compiles_sequence hshort ?_ hpatterns
    rintro rfl
    exact hne (List.length_eq_zero_iff.mp hlength.symm)

/-! ## Asking a registry -/

/-- Both registries are one registry but for what has been stored. -/
def BothRecall (registry before after : Registry) : Prop :=
  registry.Recalls before ∧ registry.Recalls after

instance : Growth (BothRecall registry) where
  trans hfirst hsecond := ⟨hfirst.1, hsecond.2⟩
  refl_right hgrows := ⟨hgrows.2, hgrows.2⟩

/-- Whatever has been stored, the operation only stores what is right, and as long as ids are short
it ends with a value of a property. -/
def Answers {α : Type} (registry : Registry) (action : Action α) (property : α → Prop) : Prop :=
  Yields (BothRecall registry) action (fun value _ => registry.HasShortIds → property value)
    fun _ => ¬ registry.HasShortIds

namespace Answers

variable {α β : Type} {property : α → Prop}

theorem pure {value : α} (hvalue : registry.HasShortIds → property value) :
    Answers registry (pure value) property :=
  fun _ hstate => .pure hstate hvalue

theorem bind {action : Action α} {next : α → Action β} {last : β → Prop}
    (haction : Answers registry action property)
    (hnext : ∀ value, (registry.HasShortIds → property value) →
      Answers registry (next value) last) : Answers registry (action >>= next) last :=
  fun state hstate => (haction state hstate).bind fun value after hafter hvalue =>
    hnext value hvalue after (Growth.refl_right hafter)

theorem read {next : Registry → Action α}
    (hnext : ∀ state, registry.Recalls state → Answers registry (next state) property) :
    Answers registry (getThe Registry >>= next) property :=
  fun state hstate => .read (hnext state hstate.2 state hstate)

/-- What cannot fail as long as ids are short, and does not touch the registry. -/
theorem lift {result : Except Fault α}
    (hresult : registry.HasShortIds → ∃ value, result = .ok value ∧ property value) :
    Answers registry (liftM result) property := by
  refine fun state hstate => .lift hstate ?_
  cases result with
  | ok value =>
      intro hshort
      obtain ⟨_, ⟨⟩, hvalue⟩ := hresult hshort
      exact hvalue
  | error fault =>
      intro hshort
      obtain ⟨_, ⟨⟩, -⟩ := hresult hshort

theorem mapM {action : α → Action β} {xs : List α} {holds : β → Prop}
    (haction : ∀ x ∈ xs, Answers registry (action x) holds) :
    Answers registry (xs.mapM action) fun values => ∀ value ∈ values, holds value :=
  fun state hstate => (Yields.mapM haction state hstate).mono fun _ _ _ hvalues hshort value hmem =>
    hvalues value hmem hshort

/-- What ends with a value as long as ids are short, and only stores what is right in any case. -/
theorem of_settles {action : Action α}
    (hkeeps : ∀ state, registry.Recalls state → KeepsFrom registry.Recalls state action)
    (hsettles : registry.HasShortIds → ∃ value, Settles registry.Recalls action value ∧
      property value) : Answers registry action property := by
  intro state hstate
  rcases hrun : action.run state with ⟨result, after⟩
  have hafter := hkeeps state hstate.2
  rw [KeepsFrom, hrun] at hafter
  refine ⟨result, after, hrun, ⟨hstate.1, hafter⟩, ?_⟩
  have hok : registry.HasShortIds → ∃ value, result = .ok value ∧ property value := by
    intro hshort
    obtain ⟨value, hvalue, hproperty⟩ := hsettles hshort
    have heq := hvalue.run_eq hstate.2
    rw [hrun] at heq
    exact ⟨value, heq, hproperty⟩
  cases result with
  | ok value =>
      intro hshort
      obtain ⟨_, ⟨⟩, hproperty⟩ := hok hshort
      exact hproperty
  | error fault =>
      intro hshort
      obtain ⟨_, ⟨⟩, -⟩ := hok hshort

end Answers

/-- What an answer says about new texts: one that is refused is new. -/
def newness : Except Fault Bool → Except Fault Bool
  | .ok found => .ok !found
  | .error (.pattern _) => .ok true
  | .error fault => .error fault

theorem run_isNew {text : String} {after : Registry} {result : Except Fault Bool}
    (hrun : (existsEquivalent text).run state = (result, after)) :
    (Proposal.isNew text).run state = (newness result, after) := by
  rw [Proposal.isNew, run_attempt hrun]
  cases result with
  | ok found => rfl
  | error fault => cases fault <;> rfl

section Asking

variable (htame : registry.Tame)
include htame

theorem Tame.answers_existsEquivalent {text : String}
    (hcompiles : registry.HasShortIds → registry.Compiles text) :
    Answers registry (existsEquivalent text) fun _ => True := by
  refine .of_settles (fun state hstate => keepsFrom_existsEquivalent htame.sound hstate text) ?_
  intro hshort
  obtain ⟨pattern, hcompile⟩ := hcompiles hshort
  have hequivalent := settles_equivalent? htame.sound (fits_of_compile hcompile)
  have hsettles : Settles registry.Recalls (existsEquivalent text)
      (registry.firstSpelled (registry.fullText pattern.content) none
        registry.registered).isSome := by
    refine Settles.read fun state hstate => ?_
    rw [hstate.compile, hcompile]
    exact (hequivalent state hstate).bind (.pure _)
  exact ⟨_, hsettles, trivial⟩

theorem Tame.answers_isNew {text : String}
    (hcompiles : registry.HasShortIds → registry.Compiles text) :
    Answers registry (Proposal.isNew text) fun _ => True := by
  intro state hstate
  obtain ⟨result, after, hrun, hafter, hresult⟩ :=
    htame.answers_existsEquivalent hcompiles state hstate
  refine ⟨_, after, run_isNew hrun, hafter, ?_⟩
  cases result with
  | ok found => exact fun _ => trivial
  | error fault =>
      cases fault
      case pattern => exact fun _ => trivial
      all_goals exact hresult

theorem Tame.answers_identityOf {id : Int} (hid : (registry.byId? id).isSome) :
    Answers registry (Proposal.identityOf id) fun identity =>
      ∃ pattern, registry.byId? id = some pattern ∧ identity = pattern.symbol.text := by
  obtain ⟨pattern, hpattern⟩ := Option.isSome_iff_exists.mp hid
  have hget : registry.get id = .ok pattern := by rw [get, hpattern]
  refine .read fun state hstate => ?_
  rw [hstate.get, hget, lift_ok_bind]
  exact .lift fun hshort => ⟨_, htame.identity_eq hshort hpattern, pattern, hpattern, rfl⟩

end Asking

theorem answers_keepWhere {α : Type} {check : α → Action Bool} {items : List α}
    (hcheck : ∀ item ∈ items, Answers registry (check item) fun _ => True) :
    Answers registry (Proposal.keepWhere check items) fun kept => kept ⊆ items := by
  induction items with
  | nil => exact .pure fun _ => List.Subset.refl _
  | cons item rest ih =>
      refine (hcheck item List.mem_cons_self).bind fun kept _ => ?_
      refine (ih fun other hother => hcheck other (List.mem_cons_of_mem _ hother)).bind
        fun others hothers => .pure fun hshort => ?_
      cases kept with
      | true => exact List.cons_subset_cons item (hothers hshort)
      | false => exact List.subset_cons_of_subset item (hothers hshort)

/-! ## Charts -/

/-- A chart that has come about by matching, in which all patterns of tokens are registered. -/
structure HasParsed (registry : Registry) (chart : Chart) : Prop where
  indexed : ∃ text active, Chart.Indexed text active chart
  known : ∀ token ∈ chart.tokens, (registry.byId? token.id).isSome
  holes : ∀ hole ∈ chart.holes, hole.text.toList ≠ []

theorem HasParsed.grow {before after : Registry} {chart : Chart}
    (hchart : before.HasParsed chart) (hgrows : Grows before after) : after.HasParsed chart where
  indexed := hchart.indexed
  known token htoken := hgrows.isSome_byId? _ (hchart.known token htoken)
  holes := hchart.holes

section Charts

variable {chart : Chart} (hchart : registry.HasParsed chart)
include hchart

/-- Only registered patterns follow themselves. -/
theorem HasParsed.known_of_repetition {id : Int} {stretches : List Stretch}
    (hentry : (id, stretches) ∈ chart.repetitions.toList) : (registry.byId? id).isSome := by
  obtain ⟨text, active, hindexed⟩ := hchart.indexed
  have hget := ArrivalMap.mem_toList_iff.mp hentry
  obtain ⟨stretch, hstretch⟩ :=
    List.exists_mem_of_ne_nil _ (chart.repetitions_findsSome id stretches hget)
  obtain ⟨first, rfl, hleads⟩ := hindexed.repetitions_lead id stretches hget stretch hstretch
  exact hchart.known first hleads.mem_tokens

/-- Only registered patterns lead alternations. -/
theorem HasParsed.known_of_leaders {minTokens first second : Int} {key : Cell}
    {stretches : List Stretch}
    (hentry : (key, stretches) ∈ (chart.alternations minTokens).toList)
    (hleaders : Proposal.leaders stretches = some (first, second)) :
    (registry.byId? first).isSome ∧ (registry.byId? second).isSome := by
  obtain ⟨text, active, hindexed⟩ := hchart.indexed
  have hget := ArrivalMap.mem_toList_iff.mp hentry
  cases stretches with
  | nil => cases hleaders
  | cons stretch rest =>
      obtain ⟨one, other, halternates⟩ := hindexed.alternations_alternate minTokens key _ hget
        stretch List.mem_cons_self
      obtain ⟨tokens, rfl⟩ := halternates.exists_tokens hindexed
      cases hleaders
      exact ⟨hchart.known one halternates.leads.mem_tokens,
        hchart.known other halternates.next.1⟩

/-- A text that is that of several holes is not empty. -/
theorem HasParsed.ne_nil_of_duplicate {text : String} {holes : List Hole}
    (hmem : (text, holes) ∈ duplicateHoles chart.holes) : text.toList ≠ [] := by
  have htext := (List.mem_filter.mp hmem).1
  simp only [List.mem_map, List.mem_eraseDups] at htext
  obtain ⟨_, ⟨hole, hhole, rfl⟩, heq⟩ := htext
  cases heq
  exact hchart.holes hole (List.mem_filter.mp hhole).1

end Charts

/-! ## The proposals of the strategies -/

theorem exists_of_mapM_eq_some {key : PairKey} {patterns : List Pattern}
    (hmapM : key.mapM registry.byId? = some patterns) :
    ∀ pattern ∈ patterns, ∃ id, registry.byId? id = some pattern := by
  induction key generalizing patterns with
  | nil =>
      cases hmapM
      simp
  | cons id rest ih =>
      rw [List.mapM_cons] at hmapM
      obtain ⟨first, hfirst, hmapM⟩ := Option.bind_eq_some_iff.mp hmapM
      obtain ⟨others, hothers, hmapM⟩ := Option.bind_eq_some_iff.mp hmapM
      cases hmapM
      exact List.forall_mem_cons.mpr ⟨⟨id, hfirst⟩, ih hothers⟩

section Proposing

variable (htame : registry.Tame)
include htame

section Charts

variable {chart : Chart} (hchart : registry.HasParsed chart)
include hchart

theorem Tame.answers_ofRepetitions :
    Answers registry (Proposal.ofRepetitions chart) fun proposals =>
      ∀ proposal ∈ proposals, registry.Compiles proposal.text := by
  have hcandidates : Answers registry (chart.repetitions.toList.mapM fun entry => do
        let text := Proposal.repetitionText (← Proposal.identityOf entry.1)
        let fresh ← Proposal.isNew text
        return if fresh then some (text, entry.2) else none)
      fun candidates => ∀ candidate ∈ candidates, ∀ found, candidate = some found →
        registry.Compiles found.1 := by
    refine .mapM fun entry hentry => ?_
    refine (htame.answers_identityOf (hchart.known_of_repetition hentry)).bind
      fun identity hidentity => ?_
    have hcompiles : registry.HasShortIds →
        registry.Compiles (Proposal.repetitionText identity) := by
      intro hshort
      obtain ⟨pattern, hpattern, rfl⟩ := hidentity hshort
      exact htame.compiles_repetitionText hshort hpattern
    refine (htame.answers_isNew hcompiles).bind fun fresh _ => .pure fun hshort found hfound => ?_
    split at hfound
    next =>
      cases hfound
      exact hcompiles hshort
    next => cases hfound
  refine hcandidates.bind fun candidates hcompile => ?_
  split
  next => exact .pure (by simp)
  next text stretches hgreatest =>
    refine .pure fun hshort proposal hproposal => ?_
    obtain rfl := List.mem_singleton.mp hproposal
    have hmem := Proposal.mem_of_firstGreatest? hgreatest
    obtain ⟨candidate, hcandidate, hfound⟩ := List.mem_filterMap.mp hmem
    have hcompiled := hcompile hshort candidate hcandidate (text, stretches) hfound
    exact hcompiled

theorem Tame.answers_newAlternations {minAlternation : Int} {entry : Cell × List Stretch}
    (hentry : entry ∈ (chart.alternations minAlternation).toList) :
    Answers registry (Proposal.newAlternations entry.2) fun texts =>
      ∀ text ∈ texts, registry.Compiles text := by
  unfold Proposal.newAlternations
  split
  next => exact .pure (by simp)
  next first second hleaders =>
    obtain ⟨hfirst, hsecond⟩ := hchart.known_of_leaders hentry hleaders
    refine (htame.answers_identityOf hfirst).bind fun leader hleader => ?_
    refine (htame.answers_identityOf hsecond).bind fun follower hfollower => ?_
    have hcompiles : registry.HasShortIds → ∀ text ∈
        Proposal.alternationTexts leader follower entry.2, registry.Compiles text := by
      intro hshort
      obtain ⟨one, hone, rfl⟩ := hleader hshort
      obtain ⟨other, hother, rfl⟩ := hfollower hshort
      exact htame.compiles_alternationTexts hshort hone hother entry.2
    have hkept := answers_keepWhere fun text htext =>
      htame.answers_isNew fun hshort => hcompiles hshort text htext
    intro state hstate
    exact (hkept state hstate).mono fun kept _ _ hsubset hshort text htext =>
      hcompiles hshort text (hsubset hshort htext)

theorem Tame.answers_ofAlternations (minAlternation : Int) :
    Answers registry (Proposal.ofAlternations chart minAlternation) fun proposals =>
      ∀ proposal ∈ proposals, registry.Compiles proposal.text := by
  have hcandidates : Answers registry ((chart.alternations minAlternation).toList.mapM
        fun entry => do
          let texts ← Proposal.newAlternations entry.2
          return (texts, entry.2))
      fun candidates => ∀ candidate ∈ candidates, ∀ text ∈ candidate.1,
        registry.Compiles text := by
    refine .mapM fun entry hentry => ?_
    exact (htame.answers_newAlternations hchart hentry).bind fun texts htexts => .pure htexts
  refine hcandidates.bind fun candidates hcompile => ?_
  dsimp only
  split
  next => exact .pure (by simp)
  next texts stretches hgreatest =>
    refine .pure fun hshort proposal hproposal => ?_
    obtain ⟨text, htext, rfl⟩ := List.mem_map.mp hproposal
    have hcandidate := (List.mem_filter.mp (Proposal.mem_of_firstGreatest? hgreatest)).1
    exact hcompile hshort _ hcandidate text htext

theorem Tame.answers_ofHoles :
    Answers registry (Proposal.ofHoles chart) fun proposals =>
      ∀ proposal ∈ proposals, registry.Compiles proposal.text := by
  unfold Proposal.ofHoles
  split
  next => exact .pure (by simp)
  next hole holes hgreatest =>
    have hne := hchart.ne_nil_of_duplicate (Proposal.mem_of_firstGreatest? hgreatest)
    refine .read fun state hstate => ?_
    have hsequence : Answers registry (liftM (Proposal.literalSequence? state hole))
        fun found => ∀ sequence, found = some sequence → registry.Compiles sequence := by
      refine .lift fun hshort => ?_
      obtain ⟨found, hfound, hcompiles⟩ := (htame.recalled hstate).exists_literalSequence?
        (hstate.hasShortIds_iff.mpr hshort) hne
      refine ⟨found, hfound, fun sequence hsequence => ?_⟩
      obtain ⟨pattern, hcompile⟩ := hcompiles sequence hsequence
      exact ⟨pattern, hstate.compile sequence ▸ hcompile⟩
    refine hsequence.bind fun found hcompiles => ?_
    cases found with
    | none => exact .pure (by simp)
    | some sequence =>
        refine (htame.answers_isNew fun hshort => hcompiles hshort sequence rfl).bind
          fun fresh _ => .pure fun hshort proposal hproposal => ?_
        split at hproposal
        next =>
          obtain rfl := List.mem_singleton.mp hproposal
          exact hcompiles hshort sequence rfl
        next => cases hproposal

theorem Tame.answers_ofChart (minAlternation : Int) :
    Answers registry (Proposal.ofChart minAlternation chart) fun proposals =>
      ∀ proposal ∈ proposals, registry.Compiles proposal.text := by
  refine (htame.answers_ofRepetitions hchart).bind fun repetitions hrepetitions => ?_
  refine (htame.answers_ofAlternations hchart minAlternation).bind
    fun alternations halternations => ?_
  refine (htame.answers_ofHoles hchart).bind fun holes hholes => .pure fun hshort => ?_
  simp only [List.mem_append]
  rintro proposal ((hproposal | hproposal) | hproposal)
  · exact hrepetitions hshort proposal hproposal
  · exact halternations hshort proposal hproposal
  · exact hholes hshort proposal hproposal

end Charts

theorem Tame.exists_ofPair (hshort : registry.HasShortIds) (key : PairKey) (count : Int) :
    ∃ proposals, Proposal.ofPair registry key count = .ok proposals ∧
      ∀ proposal ∈ proposals, registry.Compiles proposal.text := by
  unfold Proposal.ofPair
  cases hpatterns : key.mapM registry.byId? with
  | none => exact ⟨[], rfl, by simp⟩
  | some patterns =>
      have hregistered := exists_of_mapM_eq_some hpatterns
      have hidentities : patterns.mapM Pattern.identity =
          .ok (patterns.map fun pattern => pattern.symbol.text) := by
        refine mapM_eq_ok fun pattern hpattern => ?_
        obtain ⟨id, hid⟩ := hregistered pattern hpattern
        exact htame.identity_eq hshort hid
      dsimp only
      rw [hidentities]
      refine ⟨_, rfl, fun proposal hproposal => ?_⟩
      obtain ⟨text, htext, rfl⟩ := List.mem_map.mp hproposal
      cases patterns with
      | nil => cases htext
      | cons leader rest =>
          obtain ⟨first, hleader⟩ := hregistered leader List.mem_cons_self
          cases rest with
          | nil =>
              obtain rfl := List.mem_singleton.mp htext
              exact htame.compiles_repetitionText hshort hleader
          | cons follower others =>
              obtain ⟨second, hfollower⟩ :=
                hregistered follower (List.mem_cons_of_mem _ List.mem_cons_self)
              exact htame.compiles_pairTexts hshort hleader hfollower text htext

theorem Tame.exists_ofPairs (hshort : registry.HasShortIds) (survey : Survey)
    (threshold limit : Limit) :
    ∃ proposals, ((Proposal.ofPairs registry (.ok threshold) (.ok limit)).run survey).1 =
      .ok proposals ∧ ∀ proposal ∈ proposals, registry.Compiles proposal.text := by
  have hfresh : ∃ fresh, Proposal.freshPairs survey (.ok threshold) (.ok limit) = .ok fresh := by
    unfold Proposal.freshPairs Survey.bestPairs
    split <;> exact ⟨_, rfl⟩
  obtain ⟨fresh, hfresh⟩ := hfresh
  have hpair := fun entry : PairKey × Int => htame.exists_ofPair hshort entry.1 entry.2
  choose proposals hproposals hcompiles using hpair
  have hmapM : (fresh.mapM fun entry => Proposal.ofPair registry entry.1 entry.2) =
      .ok (fresh.map proposals) := mapM_eq_ok fun entry _ => hproposals entry
  refine ⟨_, Proposal.run_ofPairs_eq_ok_iff.mpr ⟨fresh, _, hfresh, hmapM, rfl⟩, ?_⟩
  intro proposal hproposal
  obtain ⟨group, hgroup, hproposal⟩ := List.mem_flatten.mp hproposal
  obtain ⟨entry, -, rfl⟩ := List.mem_map.mp hgroup
  exact hcompiles entry proposal hproposal

end Proposing

end Registry

namespace Strategy

open Registry

variable {registry : Registry}

/-- A strategy that can be asked for, with settings that can be used. -/
inductive IsUsable : Strategy → Prop where
  | pairs (threshold limit : Limit) : IsUsable (.pairs (.ok threshold) (.ok limit))
  | stretches (minAlternation : Int) : IsUsable (.stretches minAlternation)

/-- All that is proposed by a strategy that can be asked for is compiled. -/
theorem IsUsable.answers_propose {strategy : Strategy} (husable : strategy.IsUsable)
    (htame : registry.Tame) {charts : List Chart}
    (hcharts : ∀ chart ∈ charts, registry.HasParsed chart) (survey : Survey) :
    Answers registry (strategy.propose survey charts) fun proposals =>
      ∀ proposal ∈ proposals, registry.Compiles proposal.text := by
  cases husable with
  | pairs threshold limit =>
      refine .read fun state hstate => .lift fun hshort => ?_
      obtain ⟨proposals, hofPairs, hcompiles⟩ := (htame.recalled hstate).exists_ofPairs
        (hstate.hasShortIds_iff.mpr hshort) survey threshold limit
      refine ⟨_, hofPairs, fun proposal hproposal => ?_⟩
      obtain ⟨pattern, hcompile⟩ := hcompiles proposal hproposal
      exact ⟨pattern, hstate.compile proposal.text ▸ hcompile⟩
  | stretches minAlternation =>
      have hproposals : Answers registry (charts.mapM (Proposal.ofChart minAlternation))
          fun groups => ∀ group ∈ groups, ∀ proposal ∈ group, registry.Compiles proposal.text :=
        .mapM fun chart hchart => htame.answers_ofChart (hcharts chart hchart) minAlternation
      refine hproposals.bind fun groups hgroups => .pure fun hshort proposal hproposal => ?_
      obtain ⟨group, hgroup, hproposal⟩ := List.mem_flatten.mp hproposal
      exact hgroups hshort group hgroup proposal hproposal

/-- Proposing does not change how many examples are kept. -/
theorem maxExamples_surveyAfter (strategy : Strategy) (registry : Registry) (survey : Survey) :
    (strategy.surveyAfter registry survey).maxExamples = survey.maxExamples := by
  cases strategy with
  | pairs threshold limit =>
      obtain ⟨retired, hretired⟩ :=
        survey.exists_retireAll (Proposal.tried registry threshold limit survey)
      rw [surveyAfter, Proposal.run_ofPairs, hretired]
  | stretches minAlternation => rfl
  | fixed texts => rfl

end Strategy

end Motif
