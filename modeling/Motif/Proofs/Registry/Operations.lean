import Motif.Proofs.Node.Penalty
import Motif.Proofs.Registry.Consistency
import Motif.Registry.Alphabet

/-!
# Operations on registries

Every operation keeps a registry consistent, also one that fails on the way. So whatever a registry
has gone through, it is consistent.
-/

namespace Motif.Registry

open Node (Canonical plainGroup)

variable {registry state : Registry}

theorem Recalls.consistent (hconsistent : registry.Consistent) (hrecalls : registry.Recalls state) :
    state.Consistent := by
  obtain ⟨hsame, htrees, hdescriptions⟩ := hrecalls
  rw [hsame]
  exact ⟨⟨⟨hconsistent.coherent.nodup_ids, hconsistent.coherent.exists_pattern⟩,
    hconsistent.descends, hconsistent.canonical, hconsistent.named, hconsistent.bounded,
    hconsistent.counter⟩, rfl, htrees, hdescriptions⟩

/-! ## Compiling -/

/-- A text is compiled if its tree is and all references are registered. -/
theorem exists_compile {text : String} {name : Option String} {root : Node}
    (hroot : compileTree registry.scope text name = .ok root)
    (hknown : ∀ id ∈ root.references, (registry.byId? id).isSome) (kind : Kind) :
    ∃ penalty, registry.compile text name kind =
        .ok { kind, name, content := .tree root, penalty } := by
  have hcost : ∀ id ∈ root.references,
      ∃ found, (registry.get id).map Pattern.penalty = .ok found := by
    intro id hid
    obtain ⟨pattern, hpattern⟩ := Option.isSome_iff_exists.mp (hknown id hid)
    rw [Registry.get, hpattern]
    exact ⟨_, rfl⟩
  obtain ⟨penalty, hpenalty⟩ := Node.exists_penalty_iff.mpr hcost
  refine ⟨penalty, ?_⟩
  rw [compile, hroot]
  change (do let penalty ← root.penalty _; _) = _
  rw [hpenalty]
  rfl

/-- A compiled pattern has the name and the kind it was given, no id yet, and a canonical tree of
registered patterns. -/
theorem compile_eq_ok {text : String} {name : Option String} {kind : Kind} {pattern : Pattern}
    (hcompile : registry.compile text name kind = .ok pattern) :
    ∃ alternatives penalty, compileTree registry.scope text name = .ok (plainGroup alternatives) ∧
      Canonical alternatives ∧ registry.Knows alternatives ∧
        pattern = { kind, name, content := .tree (plainGroup alternatives), penalty } := by
  obtain ⟨root, hroot, hcompile⟩ := bind_eq_ok_iff.mp hcompile
  obtain ⟨penalty, hpenalty, hpattern⟩ := bind_eq_ok_iff.mp hcompile
  obtain ⟨alternatives, rfl, hcanonical, -⟩ := canonical_of_compileTree (fun _ => True)
    (fun _ _ _ _ => trivial) (fun _ _ _ => trivial) hroot
  refine ⟨alternatives, penalty, hroot, hcanonical, fun id hid => ?_, (Except.ok.inj hpattern).symm⟩
  obtain ⟨found, hfound⟩ := Node.exists_penalty_iff.mp ⟨penalty, hpenalty⟩ id hid
  rw [Registry.get] at hfound
  cases hpattern : registry.byId? id with
  | some pattern => rfl
  | none =>
      rw [hpattern] at hfound
      cases hfound

theorem fits_of_compile {text : String} {name : Option String} {kind : Kind} {pattern : Pattern}
    (hcompile : registry.compile text name kind = .ok pattern) : registry.Fits pattern.content := by
  obtain ⟨alternatives, penalty, -, hcanonical, hknown, rfl⟩ := compile_eq_ok hcompile
  refine ⟨hknown, ?_⟩
  rintro root ⟨⟩
  exact ⟨alternatives, rfl, hcanonical⟩

/-- A text is compiled alike where the patterns to which it refers are known, too. -/
theorem compileTree_widen {scope wider : Node.Scope} {text : String} {name : Option String}
    (hresolve : ∀ lexemes, Lexeme.read text name = .ok lexemes → ∀ lexeme ∈ lexemes, ∀ id,
      Node.Grammar.Resolves scope lexeme.symbol id → Node.Grammar.Resolves wider lexeme.symbol id)
    {root : Node} (hcompile : compileTree scope text name = .ok root) :
    compileTree wider text name = .ok root := by
  obtain ⟨lexemes, hlexemes, hcompile⟩ := bind_eq_ok_iff.mp hcompile
  have hread := eq_ok_of_mapError hlexemes
  obtain ⟨parsed, hparsed, hcheck⟩ := bind_eq_ok_iff.mp hcompile
  obtain ⟨progress, hfold, hfinish⟩ := bind_eq_ok_iff.mp hparsed
  refine bind_eq_ok_iff.mpr ⟨lexemes, hlexemes, bind_eq_ok_iff.mpr ⟨parsed, ?_, hcheck⟩⟩
  exact bind_eq_ok_iff.mpr
    ⟨progress, Node.Parser.foldlM_step_widen (hresolve lexemes hread) hfold, hfinish⟩

/-- A text that is compiled is compiled alike where more patterns are known. -/
theorem compile_widen {wider : Registry} (hwithin : registry.scope.Within wider.scope)
    (hsame : ∀ id, (registry.byId? id).isSome → wider.byId? id = registry.byId? id) {text : String}
    {name : Option String} {kind : Kind} {pattern : Pattern}
    (hcompile : registry.compile text name kind = .ok pattern) :
    wider.compile text name kind = .ok pattern := by
  have hfits := fits_of_compile hcompile
  obtain ⟨root, hroot, hrest⟩ := bind_eq_ok_iff.mp hcompile
  obtain ⟨penalty, hpenalty, hpattern⟩ := bind_eq_ok_iff.mp hrest
  cases hpattern
  have hwider : compileTree wider.scope text name = .ok root := by
    apply compileTree_widen _ hroot
    intro _ _ _ _ _ hresolves
    exact hresolves.widen hwithin
  refine bind_eq_ok_iff.mpr ⟨root, hwider,
    bind_eq_ok_iff.mpr ⟨penalty, ?_, rfl⟩⟩
  rw [← hpenalty]
  refine Node.penalty_congr fun id hid => ?_
  rw [Registry.get, Registry.get, hsame id (hfits.known id hid)]

theorem Fits.literal (text : String) : registry.Fits (.literal text) :=
  ⟨by simp [Content.references], by simp⟩

/-! ## Registering, renaming, removing -/

/-- The id under which a pattern would be registered. -/
def idFor (registry : Registry) (pattern : Pattern) : Int :=
  if pattern.id < 0 then registry.nextId else pattern.id

/-- The name and the id of a pattern are free. -/
structure Free (registry : Registry) (pattern : Pattern) : Prop where
  name : ∀ name, pattern.name = some name → registry.named? name = none
  id : 0 ≤ pattern.id → registry.serialOf? pattern.id = none

theorem run_keep (pattern : Pattern) : (keep pattern).run registry =
    (.ok registry.ledger.size, { registry with ledger := registry.ledger.push pattern }) :=
  rfl

theorem checkName_eq_ok_iff {name : Option String} :
    registry.checkName name = .ok () ↔
      ∀ given, name = some given → registry.named? given = none := by
  unfold checkName
  cases name with
  | none => simp
  | some given => cases hfound : registry.named? given <;> simp [hfound]

/-- The registry with a pattern of its ledger registered under the id that it carries. -/
def enlist (registry : Registry) (serial : Serial) (pattern : Pattern) : Registry :=
  { registry with
    entries := registry.entries ++ [(pattern.id, serial)]
    nextId := max registry.nextId (pattern.id + 1)
    names := match pattern.name with
      | some name => (name, serial) :: registry.names
      | none => registry.names
    literals := match pattern.literal? with
      | some text =>
        if (registry.literalFor? text).isSome then registry.literals
        else (text, serial) :: registry.literals
      | none => registry.literals }

/-- A pattern whose name or id is taken is not registered. -/
theorem run_enroll_of_taken (place : Pattern → Action Serial) {pattern : Pattern}
    (htaken : ¬ registry.Free pattern) :
    ∃ fault, (enroll place pattern).run registry = (.error fault, registry) := by
  unfold enroll
  rw [run_read_bind, run_lift_bind]
  cases hcheck : registry.checkName pattern.name with
  | error fault => exact ⟨fault, rfl⟩
  | ok checked =>
      have hid : (decide (0 ≤ pattern.id) && (registry.serialOf? pattern.id).isSome) = true := by
        by_contra hfree
        refine htaken ⟨checkName_eq_ok_iff.mp hcheck, fun hnonneg => ?_⟩
        simpa [hnonneg] using hfree
      dsimp only
      rw [if_pos hid]
      exact ⟨.idTaken pattern.id, rfl⟩

/-- A pattern whose name and id are free is registered, even if its identity cannot be written. -/
theorem run_enroll_of_free {place : Pattern → Action Serial} {pattern : Pattern}
    (hfree : registry.Free pattern) {serial : Serial} {middle : Registry}
    (hplace : (place { pattern with id := registry.idFor pattern }).run registry =
      (.ok serial, middle)) :
    (enroll place pattern).run registry =
      (({ pattern with id := registry.idFor pattern } : Pattern).identity.map fun _ => serial,
        middle.enlist serial { pattern with id := registry.idFor pattern }) := by
  have hid : ¬ (decide (0 ≤ pattern.id) && (registry.serialOf? pattern.id).isSome) = true := by
    by_cases hnonneg : 0 ≤ pattern.id
    · simp [hfree.id hnonneg]
    · simp [hnonneg]
  unfold enroll
  rw [run_read_bind, run_lift_bind, checkName_eq_ok_iff.mpr hfree.name]
  dsimp only
  rw [if_neg hid, ← idFor, run_bind_of_ok hplace, run_modify_bind, run_lift_bind]
  cases hidentity : ({ pattern with id := registry.idFor pattern } : Pattern).identity <;> rfl

theorem run_add_of_taken {pattern : Pattern} (htaken : ¬ registry.Free pattern) :
    ∃ fault, (add pattern).run registry = (.error fault, registry) :=
  run_enroll_of_taken keep htaken

theorem run_add_of_free {pattern : Pattern} (hfree : registry.Free pattern) :
    (add pattern).run registry =
      (({ pattern with id := registry.idFor pattern } : Pattern).identity.map
          fun _ => registry.ledger.size,
        registry.extend { pattern with id := registry.idFor pattern }) :=
  run_enroll_of_free hfree (run_keep _)

/-- A text that is compiled under a name that is free is registered as the pattern it is compiled
to. -/
theorem run_register {name : Option String} {kind : Kind} {text : String} {pattern : Pattern}
    (hname : ∀ given, name = some given → registry.named? given = none)
    (hcompile : registry.compile text name kind = .ok pattern) (id : Int) :
    (register name kind text id).run registry = (add { pattern with id }).run registry := by
  rw [register, run_read_bind, run_lift_bind, checkName_eq_ok_iff.mpr hname]
  dsimp only
  rw [run_lift_bind, hcompile]

theorem Numbered.idFor_nonneg (hnumbered : registry.Numbered) (pattern : Pattern) :
    0 ≤ registry.idFor pattern := by
  have hcounter := hnumbered.counter
  unfold idFor
  split <;> omega

theorem Numbered.serialOf?_idFor (hnumbered : registry.Numbered) {pattern : Pattern}
    (hfree : registry.Free pattern) : registry.serialOf? (registry.idFor pattern) = none := by
  unfold idFor
  split
  next => exact hnumbered.serialOf?_nextId
  next hid => exact hfree.id (by omega)

theorem Consistent.idFor_nonneg (hconsistent : registry.Consistent) (pattern : Pattern) :
    0 ≤ registry.idFor pattern :=
  hconsistent.numbered.idFor_nonneg pattern

theorem Consistent.serialOf?_idFor (hconsistent : registry.Consistent) {pattern : Pattern}
    (hfree : registry.Free pattern) : registry.serialOf? (registry.idFor pattern) = none :=
  hconsistent.numbered.serialOf?_idFor hfree

/-- A pattern that has been registered was free. -/
theorem exists_of_run_add {pattern : Pattern} {serial : Serial} {after : Registry}
    (hadd : (add pattern).run registry = (.ok serial, after)) :
    registry.Free pattern ∧
      after = registry.extend { pattern with id := registry.idFor pattern } := by
  by_cases hfree : registry.Free pattern
  · rw [run_add_of_free hfree] at hadd
    exact ⟨hfree, (Prod.mk.inj hadd).2.symm⟩
  · obtain ⟨fault, hrun⟩ := run_add_of_taken hfree
    rw [hrun] at hadd
    cases hadd

/-- The serial of a pattern that has been registered is the next one of the ledger. -/
theorem serial_of_run_add {pattern : Pattern} {serial : Serial}
    (hadd : ((add pattern).run registry).1 = .ok serial) : serial = registry.ledger.size := by
  by_cases hfree : registry.Free pattern
  · rw [run_add_of_free hfree] at hadd
    cases hidentity : ({ pattern with id := registry.idFor pattern } : Pattern).identity with
    | error fault =>
        rw [hidentity] at hadd
        cases hadd
    | ok identity =>
        rw [hidentity] at hadd
        exact (Except.ok.inj hadd).symm
  · obtain ⟨fault, hrun⟩ := run_add_of_taken hfree
    rw [hrun] at hadd
    cases hadd

/-! ### What operations keep -/

section Keeping

variable {invariant : Registry → Prop} (hregistry : invariant registry)
include hregistry

/-- Registering a pattern keeps what holds of a registry extended by it. -/
theorem keepsFrom_add {pattern : Pattern} (hextend : registry.Free pattern →
    invariant (registry.extend { pattern with id := registry.idFor pattern })) :
    KeepsFrom invariant registry (add pattern) := by
  unfold KeepsFrom
  by_cases hfree : registry.Free pattern
  · rw [run_add_of_free hfree]
    exact hextend hfree
  · obtain ⟨fault, hrun⟩ := run_add_of_taken hfree
    rw [hrun]
    exact hregistry

theorem keepsFrom_register {name : Option String} {kind : Kind} {text : String} {id : Int}
    (hadd : ∀ pattern, registry.compile text name kind = .ok pattern →
      KeepsFrom invariant registry (add { pattern with id })) :
    KeepsFrom invariant registry (register name kind text id) :=
  .read (.lift hregistry fun _ _ => .lift hregistry hadd)

/-- The basic patterns are literals first and classes then. -/
theorem keepsFrom_registerBasics
    (hliteral : ∀ c ∈ printableAscii, ∀ state, invariant state →
      KeepsFrom invariant state (addLiteral (single c) (literalName c)))
    (hclass : ∀ entry ∈ basicClasses, ∀ state, invariant state →
      KeepsFrom invariant state (register entry.1 .basics entry.2)) :
    KeepsFrom invariant registry registerBasics := by
  refine KeepsFrom.bind (.forM (fun c hc state hstate => ?_) hregistry) fun _ after _ hafter =>
    .forM (fun entry hentry state hstate => ?_) hafter
  · exact (hliteral c hc state hstate).discard
  · exact (hclass entry hentry state hstate).discard

end Keeping

theorem Consistent.keeps_add (hconsistent : registry.Consistent) {pattern : Pattern}
    (hfits : registry.Fits pattern.content) : KeepsFrom Consistent registry (add pattern) :=
  keepsFrom_add hconsistent fun hfree => hconsistent.extend hfits
    (hconsistent.idFor_nonneg pattern) (hconsistent.serialOf?_idFor hfree) hfree.name

theorem Consistent.keeps_addLiteral (hconsistent : registry.Consistent) (text : String)
    (name : Option String) (id : Int) (kind : Kind) :
    KeepsFrom Consistent registry (addLiteral text name id kind) :=
  hconsistent.keeps_add (.literal text)

theorem Consistent.keeps_register (hconsistent : registry.Consistent) (name : Option String)
    (kind : Kind) (text : String) (id : Int) :
    KeepsFrom Consistent registry (register name kind text id) := by
  refine keepsFrom_register hconsistent fun pattern hpattern => ?_
  have hfits := fits_of_compile hpattern
  exact hconsistent.keeps_add hfits

theorem Consistent.keeps_registerBasics (hconsistent : registry.Consistent) :
    KeepsFrom Consistent registry registerBasics :=
  keepsFrom_registerBasics hconsistent
    (fun _ _ _ hstate => hstate.keeps_addLiteral _ _ _ _)
    fun _ _ _ hstate => hstate.keeps_register _ _ _ _

/-- What comes of registering a text as an experiment: it is refused, a registered pattern with the
same full description stands for it, or it is added. -/
inductive Experiment (registry : Registry) (text : String) : Except Fault Serial × Registry → Prop
    where
  | refused {fault : Fault} (hcompile : registry.compile text = .error fault) :
      Experiment registry text (.error fault, registry)
  | known {pattern : Pattern} {serial : Serial} {after : Registry}
      (hcompile : registry.compile text = .ok pattern)
      (hfirst : registry.firstSpelled (registry.fullText pattern.content) none registry.registered =
        some serial)
      (hrecalls : registry.Recalls after) : Experiment registry text (.ok serial, after)
  | added {pattern : Pattern} {middle : Registry} (hcompile : registry.compile text = .ok pattern)
      (hfirst : registry.firstSpelled (registry.fullText pattern.content) none registry.registered =
        none)
      (hrecalls : registry.Recalls middle) : Experiment registry text ((add pattern).run middle)

theorem Consistent.experiment (hconsistent : registry.Consistent) (text : String) :
    registry.Experiment text ((registerExperiment text).run registry) := by
  rw [registerExperiment, run_read_bind, run_lift_bind]
  cases hcompile : registry.compile text with
  | error fault => exact .refused hcompile
  | ok pattern =>
      obtain ⟨middle, hrun, hrecalls⟩ := settles_equivalent? hconsistent.sound
        (fits_of_compile hcompile) registry hconsistent.recalls
      dsimp only
      rw [run_bind_of_ok hrun]
      cases hfirst : registry.firstSpelled (registry.fullText pattern.content) none
          registry.registered with
      | some serial => exact .known hcompile hfirst hrecalls
      | none => exact .added hcompile hfirst hrecalls

theorem Recalls.fits (hrecalls : registry.Recalls state) {content : Content}
    (hfits : registry.Fits content) : state.Fits content where
  known id hid := by
    rw [hrecalls.byId?]
    exact hfits.known id hid
  canonical := hfits.canonical

/-- Registering an experiment keeps what searching keeps and what registering then keeps. -/
theorem Consistent.keepsFrom_registerExperiment (hconsistent : registry.Consistent) {text : String}
    {invariant : Registry → Prop} (hrecalled : ∀ state, registry.Recalls state → invariant state)
    (hadd : ∀ pattern middle, registry.compile text = .ok pattern →
      registry.firstSpelled (registry.fullText pattern.content) none registry.registered = none →
        registry.Recalls middle → KeepsFrom invariant middle (add pattern)) :
    KeepsFrom invariant registry (registerExperiment text) := by
  have hexperiment := hconsistent.experiment text
  unfold KeepsFrom
  generalize (registerExperiment text).run registry = outcome at hexperiment
  cases hexperiment with
  | refused => exact hrecalled registry hconsistent.recalls
  | known _ _ hrecalls => exact hrecalled _ hrecalls
  | added hcompile hfirst hrecalls => exact hadd _ _ hcompile hfirst hrecalls

theorem Consistent.keeps_registerExperiment (hconsistent : registry.Consistent) (text : String) :
    KeepsFrom Consistent registry (registerExperiment text) :=
  hconsistent.keepsFrom_registerExperiment
    (fun _ hrecalls => hrecalls.consistent hconsistent)
    fun _ _ hcompile _ hrecalls =>
      (hrecalls.consistent hconsistent).keeps_add (hrecalls.fits (fits_of_compile hcompile))

/-- A pattern is renamed unless another one has the name. -/
theorem rename_cases (registry : Registry) (serial : Serial) (pattern : Pattern) (name : String)
    (kind : Option Kind) :
    (∃ fault, (rename serial pattern name kind).run registry = (.error fault, registry)) ∨
      (∀ other, registry.named? name = some other → other = serial) ∧
        (rename serial pattern name kind).run registry =
          (.ok (), registry.renamed serial pattern name kind) := by
  rw [rename, run_read_bind]
  by_cases htaken : (registry.named? name).any (· ≠ serial) = true
  · rw [if_pos htaken]
    exact .inl ⟨_, rfl⟩
  · rw [if_neg htaken]
    refine .inr ⟨fun other hother => ?_, rfl⟩
    simpa [hother] using htaken

theorem run_rename_of_free {name : String} (hname : registry.named? name = none) (serial : Serial)
    (pattern : Pattern) (kind : Option Kind) :
    (rename serial pattern name kind).run registry =
      (.ok (), registry.renamed serial pattern name kind) := by
  rw [rename, run_read_bind, if_neg (by simp [hname])]
  rfl

/-- A pattern to which no other one refers is removed if it is registered. -/
theorem run_unregister_of_unused {serial : Serial} {pattern : Pattern}
    (hunused : registry.dependents serial pattern.id = []) :
    (unregister serial pattern).run registry =
      (.ok (), if registry.isRegistered serial then registry.without serial pattern
        else registry) := by
  rw [unregister, run_read_bind]
  dsimp only
  rw [if_neg (by simp [hunused])]
  by_cases hregistered : registry.isRegistered serial = true
  · rw [if_pos hregistered, if_pos hregistered]
    rfl
  · rw [if_neg hregistered, if_neg hregistered]
    rfl

/-- A pattern is removed unless others refer to it. -/
theorem unregister_cases (registry : Registry) (serial : Serial) (pattern : Pattern) :
    (∃ fault, (unregister serial pattern).run registry = (.error fault, registry)) ∨
      registry.dependents serial pattern.id = [] ∧
        (unregister serial pattern).run registry =
          (.ok (), if registry.isRegistered serial then registry.without serial pattern
            else registry) := by
  by_cases hunused : registry.dependents serial pattern.id = []
  · exact .inr ⟨hunused, run_unregister_of_unused hunused⟩
  · rw [unregister, run_read_bind]
    dsimp only
    rw [if_pos (by simpa using hunused), run_lift_bind]
    refine .inl ?_
    cases pattern.identity with
    | error fault => exact ⟨fault, rfl⟩
    | ok identity =>
        dsimp only
        have hothers := run_mapM_lift (f := fun user : Serial × Pattern => user.2.identity)
          (registry.dependents serial pattern.id) registry
        cases hidentities : (registry.dependents serial pattern.id).mapM fun user =>
            user.2.identity with
        | error fault =>
            rw [hidentities] at hothers
            exact ⟨fault, run_bind_of_error hothers⟩
        | ok identities =>
            rw [hidentities] at hothers
            exact ⟨_, run_bind_of_ok hothers⟩

section Keeping

variable {invariant : Registry → Prop} (hregistry : invariant registry) {serial : Serial}
  {pattern : Pattern}
include hregistry

theorem keepsFrom_rename {name : String} {kind : Option Kind}
    (hrenamed : (∀ other, registry.named? name = some other → other = serial) →
      invariant (registry.renamed serial pattern name kind)) :
    KeepsFrom invariant registry (rename serial pattern name kind) := by
  unfold KeepsFrom
  rcases rename_cases registry serial pattern name kind with ⟨fault, hrun⟩ | ⟨hname, hrun⟩
  · rw [hrun]
    exact hregistry
  · rw [hrun]
    exact hrenamed hname

theorem keepsFrom_unregister (hwithout : registry.dependents serial pattern.id = [] →
    invariant (registry.without serial pattern)) :
    KeepsFrom invariant registry (unregister serial pattern) := by
  unfold KeepsFrom
  rcases unregister_cases registry serial pattern with ⟨fault, hrun⟩ | ⟨hunused, hrun⟩
  · rw [hrun]
    exact hregistry
  · rw [hrun]
    dsimp only
    split
    next => exact hwithout hunused
    next => exact hregistry

end Keeping

theorem Consistent.keeps_rename (hconsistent : registry.Consistent) {serial : Serial}
    {pattern : Pattern} (hpattern : registry.pattern? serial = some pattern) (name : String)
    (kind : Option Kind) : KeepsFrom Consistent registry (rename serial pattern name kind) :=
  keepsFrom_rename hconsistent fun hname => hconsistent.renamed hpattern hname

theorem Consistent.keeps_unregister (hconsistent : registry.Consistent) {serial : Serial}
    {pattern : Pattern} (hpattern : registry.pattern? serial = some pattern) :
    KeepsFrom Consistent registry (unregister serial pattern) :=
  keepsFrom_unregister hconsistent fun hunused => hconsistent.without hpattern hunused

/-! ## Histories -/

/-- A registry that has come from the empty one by operations, some of which may have failed. -/
inductive Built : Registry → Prop where
  | empty : Built {}
  | registerBasics {registry : Registry} (hbuilt : Built registry) :
      Built (Registry.registerBasics.run registry).2
  | register {registry : Registry} (hbuilt : Built registry) (name : Option String) (kind : Kind)
      (text : String) (id : Int) : Built ((Registry.register name kind text id).run registry).2
  | addLiteral {registry : Registry} (hbuilt : Built registry) (text : String)
    (name : Option String)
      (id : Int) (kind : Kind) : Built ((Registry.addLiteral text name id kind).run registry).2
  | registerExperiment {registry : Registry} (hbuilt : Built registry) (text : String) :
      Built ((Registry.registerExperiment text).run registry).2
  | rename {registry : Registry} (hbuilt : Built registry) {serial : Serial} {pattern : Pattern}
      (hpattern : registry.pattern? serial = some pattern) (name : String) (kind : Option Kind) :
      Built ((Registry.rename serial pattern name kind).run registry).2
  | unregister {registry : Registry} (hbuilt : Built registry) {serial : Serial} {pattern : Pattern}
      (hpattern : registry.pattern? serial = some pattern) :
      Built ((Registry.unregister serial pattern).run registry).2
  | fullDescription {registry : Registry} (hbuilt : Built registry) {serial : Serial}
      {pattern : Pattern} (hpattern : (serial, pattern) ∈ registry.registered) :
      Built ((Registry.fullDescription serial pattern).run registry).2

/-- Whatever a registry has gone through, it is consistent. -/
theorem Built.consistent (hbuilt : registry.Built) : registry.Consistent := by
  induction hbuilt with
  | empty => exact consistent_empty
  | registerBasics _ ih => exact ih.keeps_registerBasics
  | register _ name kind text id ih => exact ih.keeps_register name kind text id
  | addLiteral _ text name id kind ih => exact ih.keeps_addLiteral text name id kind
  | registerExperiment _ text ih => exact ih.keeps_registerExperiment text
  | rename _ hpattern name kind ih => exact ih.keeps_rename hpattern name kind
  | unregister _ hpattern ih => exact ih.keeps_unregister hpattern
  | fullDescription _ hpattern ih =>
      obtain ⟨hserial, hmem⟩ := mem_registered hpattern
      exact (settles_fullDescription ih.sound hserial (ih.sound.fits hmem) _ ih.recalls).keeps
        fun _ hrecalls => hrecalls.consistent ih

end Motif.Registry
