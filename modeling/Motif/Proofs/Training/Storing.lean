import Motif.Proofs.Registry.Rolls
import Motif.Proofs.Training.Proposing
import Motif.Training.Trainer

/-!
# Operations that only store

Describing patterns, comparing them, looking for an experiment of a shape and making proposals store
trees and descriptions in a registry. They change nothing else in it, whatever the registry is and
whether or not they fail. So a text that is registered as an experiment either leaves all patterns
as they are or adds one under the next id.
-/

namespace Motif

namespace Node

/-- A tree without empty groups refers to something. -/
theorem exists_mem_references {node : Node} (hfull : Everywhere IsFull node) :
    ∃ id, id ∈ node.references := by
  induction node using Node.memberInduction with
  | ref id quantity look => exact ⟨id, mem_references_ref.mpr rfl⟩
  | group alternatives quantity look ih =>
      obtain ⟨⟨hsome, hfilled⟩, hinside⟩ := everywhere_group_iff.mp hfull
      obtain ⟨sequence, hsequence⟩ := List.exists_mem_of_ne_nil _ hsome
      obtain ⟨child, hchild⟩ := List.exists_mem_of_ne_nil _ (hfilled sequence hsequence)
      have hfilledChild := hinside sequence hsequence child hchild
      obtain ⟨id, hid⟩ := ih sequence hsequence child hchild hfilledChild
      exact ⟨id, mem_references_group.mpr ⟨sequence, hsequence, child, hchild, hid⟩⟩

end Node

namespace Registry

open Trainer (firstExperiment experimentOfShape)

variable {α β : Type} {registry before after : Registry}

instance : Growth OnlyStores where
  trans {first second third} hfirst hsecond := by
    unfold OnlyStores at *
    rw [hsecond, hfirst]
  refl_right _ := rfl

/-- Whatever comes of it the operation only stores, and what it gives has a property. -/
def StoresFor (action : Action α) (property : α → Prop) : Prop :=
  Yields OnlyStores action (fun value _ => property value) fun _ => True

/-- Whatever comes of it, the operation only stores. -/
abbrev Storing (action : Action α) : Prop :=
  StoresFor action fun _ => True

namespace StoresFor

variable {property : α → Prop} {last : β → Prop}

theorem pure {value : α} (hvalue : property value) : StoresFor (pure value) property :=
  fun _ hstate => .pure hstate hvalue

theorem bind {action : Action α} {next : α → Action β} (haction : StoresFor action property)
    (hnext : ∀ value, property value → StoresFor (next value) last) :
    StoresFor (action >>= next) last := fun state hstate =>
  (haction state hstate).bind fun value after hafter hvalue =>
    hnext value hvalue after (Growth.refl_right hafter)

theorem andThen {action : Action α} {next : α → Action β} (haction : Storing action)
    (hnext : ∀ value, StoresFor (next value) last) : StoresFor (action >>= next) last :=
  haction.bind fun value _ => hnext value

theorem mono {other : α → Prop} {action : Action α} (haction : StoresFor action property)
    (hproperty : ∀ value, property value → other value) : StoresFor action other :=
  fun state hstate => (haction state hstate).mono fun value _ _ => hproperty value

theorem onlyStores {action : Action α} (haction : StoresFor action property)
    {result : Except Fault α} (hrun : action.run before = (result, after)) :
    OnlyStores before after := by
  obtain ⟨_, _, hagain, hafter, -⟩ := haction before rfl
  rw [hrun] at hagain
  cases hagain
  exact hafter

theorem of_run {action : Action α} (haction : StoresFor action property)
    {value : α} (hrun : action.run before = (.ok value, after)) : property value := by
  obtain ⟨_, _, hagain, -, hresult⟩ := haction before rfl
  rw [hrun] at hagain
  cases hagain
  exact hresult

theorem discard {action : Action α} (haction : Storing action) :
    Storing (discard action) :=
  haction.andThen fun _ => .pure trivial

theorem read {next : Registry → Action α} (hnext : ∀ state, StoresFor (next state) property) :
    StoresFor (getThe Registry >>= next) property :=
  fun state hstate => .read (hnext state state hstate)

theorem fail (fault : Fault) : StoresFor (throw fault) property :=
  fun state hstate => ⟨_, state, rfl, hstate, trivial⟩

theorem lift {result : Except Fault α} (hresult : ∀ value, result = .ok value → property value) :
    StoresFor (liftM result) property := by
  cases result with
  | error fault => exact .fail fault
  | ok value => exact .pure (hresult value rfl)

theorem lift_bind {result : Except Fault α} {next : α → Action β}
    (hnext : ∀ value, StoresFor (next value) last) :
    StoresFor ((liftM result : Action α) >>= next) last := by
  cases result with
  | error fault => exact .fail fault
  | ok value => exact hnext value

theorem store {change : Registry → Registry} (hchange : ∀ state, OnlyStores state (change state)) :
    Storing (modify change : Action PUnit) :=
  fun state _ => ⟨_, _, rfl, hchange state, trivial⟩

theorem mapM {action : α → Action β} (haction : ∀ x, Storing (action x)) (xs : List α) :
    Storing (xs.mapM action) := by
  induction xs with
  | nil => exact .pure trivial
  | cons first rest ih =>
      rw [List.mapM_cons]
      exact (haction first).andThen fun _ => ih.andThen fun _ => .pure trivial

end StoresFor

/-! ## Describing -/

section Describing

theorem storing_mapReferences {replace : Int → Quantity → Look → Action Node}
    (hreplace : ∀ id quantity look, Storing (replace id quantity look)) (node : Node) :
    Storing (mapReferences replace node) := by
  have hsequence (sequence : List Node)
      (hnode : ∀ node ∈ sequence, Storing (mapReferences replace node)) :
      Storing (mapReferencesOfSequence replace sequence) := by
    induction sequence with
    | nil => exact .pure trivial
    | cons first rest ih =>
        refine (hnode first List.mem_cons_self).andThen fun _ => ?_
        exact (ih fun node hmem => hnode node (List.mem_cons_of_mem _ hmem)).andThen
          fun _ => .pure trivial
  induction node using Node.memberInduction with
  | ref id quantity look => exact hreplace id quantity look
  | group alternatives quantity look ih =>
      refine StoresFor.andThen (?_ : Storing (mapReferencesOfAlternatives replace alternatives))
        fun _ => .pure trivial
      induction alternatives with
      | nil => exact .pure trivial
      | cons first rest hrest =>
          refine (hsequence first (ih first List.mem_cons_self)).andThen fun _ => ?_
          exact (hrest fun sequence hmem => ih sequence (List.mem_cons_of_mem _ hmem)).andThen
            fun _ => .pure trivial

theorem storing_expandOnce (serial : Serial) {compute : Action Node} (hcompute : Storing compute) :
    Storing (expandOnce serial compute) := by
  refine .read fun registry => ?_
  split
  next => exact .pure trivial
  next =>
    exact hcompute.andThen fun _ => (StoresFor.store fun _ => by rfl).andThen
      fun _ => .pure trivial

theorem storing_expandTree (depth : Nat) (root : Node) : Storing (expandTree depth root) := by
  induction depth generalizing root with
  | zero => exact .fail _
  | succ depth ih =>
      refine StoresFor.andThen (storing_mapReferences (fun id quantity look => ?_) root)
        fun _ => .lift fun _ _ => trivial
      refine .read fun registry => .lift_bind fun target => ?_
      split
      next serial tree _ _ =>
        exact (storing_expandOnce serial (ih tree)).andThen fun _ => .pure trivial
      next => exact .pure trivial

theorem storing_describeFully (serial : Option Serial) (pattern : Pattern) :
    Storing (describeFully serial pattern) := by
  unfold describeFully
  split
  next => exact .pure trivial
  next root _ =>
    have hexpand : Storing (expand serial root) := by
      refine .read fun registry => ?_
      cases serial with
      | none => exact storing_expandTree _ root
      | some serial => exact storing_expandOnce serial (storing_expandTree _ root)
    exact hexpand.andThen fun _ => .read fun _ => .lift fun _ _ => trivial

theorem storing_fullDescription (serial : Serial) (pattern : Pattern) :
    Storing (fullDescription serial pattern) := by
  refine .read fun registry => ?_
  split
  next =>
    split
    next => exact .pure trivial
    next =>
      exact (storing_describeFully _ pattern).andThen fun _ =>
        (StoresFor.store fun _ => by rfl).andThen fun _ => .pure trivial
  next => exact storing_describeFully none pattern

/-- What is found is one of the patterns given. -/
theorem storesFor_firstDescribed (wanted : String) (self : Option Serial)
    (entries : List (Serial × Pattern)) :
    StoresFor (firstDescribed wanted self entries) fun found =>
      ∀ serial, found = some serial → ∃ pattern, (serial, pattern) ∈ entries := by
  induction entries with
  | nil => exact .pure (by simp)
  | cons entry rest ih =>
      have hrest : StoresFor (firstDescribed wanted self rest) fun found =>
          ∀ serial, found = some serial → ∃ pattern, (serial, pattern) ∈ entry :: rest := by
        refine ih.mono fun found hfound serial hserial => ?_
        obtain ⟨pattern, hpattern⟩ := hfound serial hserial
        exact ⟨pattern, List.mem_cons_of_mem _ hpattern⟩
      unfold firstDescribed
      split
      next => exact hrest
      next =>
        refine (storing_fullDescription entry.1 entry.2).andThen fun description => ?_
        split
        next =>
          refine .pure ?_
          rintro serial ⟨⟩
          exact ⟨entry.2, List.mem_cons_self⟩
        next => exact hrest

theorem storing_equivalent? (pattern : Pattern) (self : Option Serial) :
    Storing (equivalent? pattern self) :=
  .read fun _ => (storing_describeFully _ pattern).andThen fun wanted =>
    (storesFor_firstDescribed wanted _ _).mono fun _ _ => trivial

theorem storing_existsEquivalent (text : String) : Storing (existsEquivalent text) :=
  .read fun _ => .lift_bind fun pattern =>
    (storing_equivalent? pattern none).andThen fun _ => .pure trivial

end Describing

/-! ## Proposing -/

section Proposing

open Proposal

theorem storing_isNew (text : String) : Storing (isNew text) := by
  intro state hstate
  obtain ⟨result, after, hrun, hafter, -⟩ := storing_existsEquivalent text state hstate
  exact ⟨_, after, run_isNew hrun, hafter, by split <;> trivial⟩

theorem storing_identityOf (id : Int) : Storing (identityOf id) :=
  .read fun _ => .lift_bind fun _ => .lift fun _ _ => trivial

theorem storing_keepWhere {check : α → Action Bool} (hcheck : ∀ item, Storing (check item))
    (items : List α) : Storing (keepWhere check items) := by
  induction items with
  | nil => exact .pure trivial
  | cons item rest ih => exact (hcheck item).andThen fun _ => ih.andThen fun _ => .pure trivial

theorem storing_ofRepetitions (chart : Chart) : Storing (ofRepetitions chart) := by
  refine StoresFor.andThen (.mapM (fun entry => ?_) _) fun candidates => ?_
  · exact (storing_identityOf entry.1).andThen fun _ => (storing_isNew _).andThen
      fun _ => .pure trivial
  · split <;> exact .pure trivial

theorem storing_newAlternations (stretches : List Stretch) :
    Storing (newAlternations stretches) := by
  unfold newAlternations
  split
  next => exact .pure trivial
  next first second _ =>
    exact (storing_identityOf first).andThen fun _ => (storing_identityOf second).andThen fun _ =>
      storing_keepWhere storing_isNew _

theorem storing_ofAlternations (chart : Chart) (minAlternation : Int) :
    Storing (ofAlternations chart minAlternation) := by
  refine StoresFor.andThen (.mapM (fun entry => ?_) _) fun candidates => ?_
  · exact (storing_newAlternations entry.2).andThen fun _ => .pure trivial
  · dsimp only
    split <;> exact .pure trivial

theorem storing_ofHoles (chart : Chart) : Storing (ofHoles chart) := by
  unfold ofHoles
  split
  next => exact .pure trivial
  next =>
    refine .read fun registry => .lift_bind fun text => ?_
    split
    next => exact .pure trivial
    next => exact (storing_isNew _).andThen fun _ => .pure trivial

theorem storing_propose (strategy : Strategy) (survey : Survey) (charts : List Chart) :
    Storing (strategy.propose survey charts) := by
  cases strategy with
  | pairs threshold limit => exact .read fun _ => .lift fun _ _ => trivial
  | stretches minAlternation =>
      refine StoresFor.andThen (.mapM (fun chart => ?_) charts) fun _ => .pure trivial
      exact (storing_ofRepetitions chart).andThen fun _ =>
        (storing_ofAlternations chart minAlternation).andThen fun _ =>
          (storing_ofHoles chart).andThen fun _ => .pure trivial
  | fixed texts => exact .pure trivial

end Proposing

/-! ## Experiments of a shape -/

/-- What is found is a registered experiment. -/
theorem storesFor_firstExperiment (wanted : String) (entries : List (Serial × Pattern)) :
    StoresFor (firstExperiment wanted entries) fun found =>
      ∀ entry, found = some entry → entry ∈ entries ∧ entry.2.kind = .experimental := by
  induction entries with
  | nil => exact .pure (by simp)
  | cons first rest ih =>
      have hrest : StoresFor (firstExperiment wanted rest) fun found =>
          ∀ entry, found = some entry → entry ∈ first :: rest ∧ entry.2.kind = .experimental :=
        ih.mono fun found hfound entry hentry =>
          ⟨List.mem_cons_of_mem _ (hfound entry hentry).1, (hfound entry hentry).2⟩
      unfold firstExperiment
      split
      next => exact hrest
      next hkind =>
        refine (storing_fullDescription first.1 first.2).andThen fun description => ?_
        split
        next =>
          refine .pure ?_
          rintro entry ⟨⟩
          exact ⟨List.mem_cons_self, not_not.mp hkind⟩
        next => exact hrest

theorem storing_experimentOfShape (text : String) : Storing (experimentOfShape text) := by
  refine .read fun registry => ?_
  split
  next => exact .pure trivial
  next => exact .fail _
  next shape _ =>
    exact (storing_describeFully none shape).andThen fun wanted =>
      (storesFor_firstExperiment wanted _).mono fun _ _ => trivial

/-- Looking for an experiment of a shape only stores, and what it finds is a registered one. -/
theorem run_experimentOfShape {text : String} {found : Option (Serial × Pattern)}
    (hrun : (experimentOfShape text).run before = (.ok found, after)) :
    OnlyStores before after ∧ ∀ entry, found = some entry →
      entry ∈ before.registered ∧ entry.2.kind = .experimental := by
  rw [experimentOfShape, run_read_bind] at hrun
  cases hcompile : before.compile text with
  | ok shape =>
      rw [hcompile] at hrun
      have hfound := (storing_describeFully none shape).andThen fun wanted =>
        storesFor_firstExperiment wanted before.registered
      exact ⟨hfound.onlyStores hrun, hfound.of_run hrun⟩
  | error fault =>
      rw [hcompile] at hrun
      cases fault
      case pattern =>
        cases hrun
        exact ⟨rfl, by simp⟩
      all_goals cases hrun

/-! ## Registering an experiment -/

/-- A pattern that stands for another one is registered. -/
theorem run_equivalent? {pattern : Pattern} {result : Except Fault (Option Serial)}
    (hrun : (equivalent? pattern).run before = (result, after)) :
    OnlyStores before after ∧ ∀ serial, result = .ok (some serial) →
      ∃ other, (serial, other) ∈ before.registered := by
  rw [equivalent?, run_read_bind] at hrun
  have hfound := (storing_describeFully (Option.bind none before.ifRegistered) pattern).andThen
    fun wanted => storesFor_firstDescribed wanted none before.registered
  refine ⟨hfound.onlyStores hrun, ?_⟩
  rintro serial rfl
  exact hfound.of_run hrun serial rfl

/-- What is compiled refers to a registered pattern. -/
theorem entries_ne_nil_of_compile {text : String} {pattern : Pattern}
    (hcompile : before.compile text = .ok pattern) : before.entries ≠ [] := by
  obtain ⟨alternatives, penalty, -, hcanonical, hknown, rfl⟩ := compile_eq_ok hcompile
  obtain ⟨id, hid⟩ := Node.exists_mem_references hcanonical.full
  intro hnone
  have hfound := hknown id hid
  simp [byId?, serialOf?, hnone] at hfound

theorem identity_ne_pattern {pattern : Pattern} (hname : pattern.name = none)
    (fault : PatternFault) : pattern.identity ≠ .error (.pattern fault) := by
  unfold Pattern.identity
  rw [hname]
  dsimp only
  split
  next =>
    unfold Pattern.writeId
    split <;> exact nofun
  next => exact nofun

/-- A text that compiles has been added as the next pattern. The answer, if there is one, is its
serial; the text is not refused, also if the id of the pattern has too many digits to be written. -/
structure AddsNext (before : Registry) (text : String) (result : Except Fault Serial)
    (after : Registry) : Prop where
  exists_pattern : ∃ pattern middle, before.compile text = .ok pattern ∧
    OnlyStores before middle ∧ after = middle.withNext pattern
  serial : ∀ serial, result = .ok serial → serial = before.ledger.size
  not_refused : ∀ fault, result ≠ .error (.pattern fault)

theorem addsNext_of_run {text : String} {pattern : Pattern} {middle : Registry}
    {result : Except Fault Serial} (hcompile : before.compile text = .ok pattern)
    (hstores : OnlyStores before middle) (hrun : (add pattern).run middle = (result, after)) :
    before.AddsNext text result after := by
  obtain ⟨alternatives, penalty, -, -, -, rfl⟩ := compile_eq_ok hcompile
  have hsize : middle.ledger.size = before.ledger.size := by rw [hstores]
  rw [run_add_of_free ⟨by simp, by simp⟩, hsize] at hrun
  obtain ⟨rfl, rfl⟩ := Prod.mk.inj hrun
  cases hidentity : Pattern.identity _ with
  | ok identity =>
      refine ⟨⟨_, middle, hcompile, hstores, rfl⟩, ?_, fun _ => nofun⟩
      rintro _ ⟨⟩
      rfl
  | error fault =>
      refine ⟨⟨_, middle, hcompile, hstores, rfl⟩, fun _ => nofun, ?_⟩
      rintro cause ⟨⟩
      exact identity_ne_pattern rfl cause hidentity

section Adding

variable {text : String} {result : Except Fault Serial} (hadds : before.AddsNext text result after)
include hadds

theorem AddsNext.ids_ne_nil : before.ids ≠ [] := by
  obtain ⟨pattern, middle, hcompile, -, -⟩ := hadds.exists_pattern
  exact fun hnone => entries_ne_nil_of_compile hcompile (List.map_eq_nil_iff.mp hnone)

theorem AddsNext.size_eq : after.size = before.size + 1 := by
  obtain ⟨pattern, middle, -, hstores, rfl⟩ := hadds.exists_pattern
  rw [hstores]
  simp [size, withNext, extend]

theorem AddsNext.pattern?_eq {serial : Serial} (hresult : result = .ok serial) :
    ∃ pattern, after.pattern? serial = some pattern ∧ pattern.id = before.nextId := by
  obtain ⟨pattern, middle, -, hstores, rfl⟩ := hadds.exists_pattern
  have hserial : serial = middle.ledger.size := by
    rw [hadds.serial serial hresult, hstores]
  have hnextId : middle.nextId = before.nextId := by rw [hstores]
  rw [hserial, withNext, pattern?_extend_size]
  exact ⟨_, rfl, hnextId⟩

theorem AddsNext.numbered (hnumbered : before.Numbered) : after.Numbered := by
  obtain ⟨pattern, middle, -, hstores, rfl⟩ := hadds.exists_pattern
  exact (hstores.numbered hnumbered).withNext pattern

theorem AddsNext.roll_eq (hnumbered : before.Numbered) : after.roll = before.roll.added := by
  obtain ⟨pattern, middle, hcompile, hstores, rfl⟩ := hadds.exists_pattern
  obtain ⟨alternatives, penalty, -, -, -, rfl⟩ := compile_eq_ok hcompile
  rw [(hstores.numbered hnumbered).roll_withNext _ rfl rfl, hstores.roll_eq]

end Adding

/-- Registering an experiment only stores and gives a registered pattern if it gives one, unless it
adds the next pattern. -/
theorem registerExperiment_cases {text : String} {result : Except Fault Serial}
    (hrun : (registerExperiment text).run before = (result, after)) :
    (OnlyStores before after ∧
      ∀ serial, result = .ok serial → ∃ pattern, (serial, pattern) ∈ before.registered) ∨
    before.AddsNext text result after := by
  rw [registerExperiment, run_read_bind, run_lift_bind] at hrun
  cases hcompile : before.compile text with
  | error fault =>
      rw [hcompile] at hrun
      cases hrun
      exact .inl ⟨rfl, by simp⟩
  | ok pattern =>
      rw [hcompile] at hrun
      dsimp only at hrun
      rcases hequivalent : (equivalent? pattern).run before with ⟨found, middle⟩
      obtain ⟨hstores, hregistered⟩ := run_equivalent? hequivalent
      cases found with
      | error fault =>
          rw [run_bind_of_error hequivalent] at hrun
          cases hrun
          exact .inl ⟨hstores, by simp⟩
      | ok found =>
          rw [run_bind_of_ok hequivalent] at hrun
          cases found with
          | none => exact .inr (addsNext_of_run hcompile hstores hrun)
          | some serial =>
              cases hrun
              refine .inl ⟨hstores, ?_⟩
              rintro _ ⟨⟩
              exact hregistered serial rfl

end Registry

end Motif
