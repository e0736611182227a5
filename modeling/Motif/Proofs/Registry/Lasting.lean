import Motif.Proofs.Registry.Histories

/-!
# What lasts

All that operations do to a registry is that they register, rename and remove single patterns and
store trees and descriptions. What each of these changes keeps is kept by every operation, also by
one that fails on the way.
-/

namespace Motif.Registry

/-- A property of registries that is kept by registering a literal or a text, also where that fails
on the way. -/
structure Additive (invariant : Registry → Prop) : Prop where
  addLiteral : ∀ {registry}, invariant registry → ∀ text name id kind,
    KeepsFrom invariant registry (addLiteral text name id kind)
  register : ∀ {registry}, invariant registry → ∀ name kind text id,
    KeepsFrom invariant registry (register name kind text id)

namespace Additive

variable {invariant : Registry → Prop} (hadditive : Additive invariant) {registry : Registry}
  (hregistry : invariant registry)
include hadditive hregistry

theorem keeps_registerBasics : KeepsFrom invariant registry registerBasics :=
  keepsFrom_registerBasics hregistry
    (fun _ _ _ hstate => hadditive.addLiteral hstate _ _ _ _)
    fun _ _ _ hstate => hadditive.register hstate _ _ _ _

theorem keeps_readRow (number : Nat) (line : String) :
    KeepsFrom invariant registry (Table.readRow number line) := by
  unfold Table.readRow
  split
  next rawId rawName rawKind description _ =>
    refine .lift hregistry fun id _ => ?_
    cases Kind.ofName? (String.ofList rawKind) with
    | none => exact hregistry
    | some kind =>
        dsimp only
        rw [pure_bind]
        split
        next => exact (hadditive.addLiteral hregistry _ _ id kind).discard
        next => exact (hadditive.register hregistry _ kind _ id).discard
  next => exact hregistry

theorem keeps_readRows (number : Nat) (lines : List String) :
    KeepsFrom invariant registry (Table.readRows number lines) := by
  induction lines generalizing number registry with
  | nil => exact hregistry
  | cons line rest ih =>
      rw [Table.readRows]
      exact (hadditive.keeps_readRow hregistry number line).bind fun _ _ _ hafter =>
        ih hafter (number + 1)

theorem keeps_read (text : String) : KeepsFrom invariant registry (Table.read text) := by
  unfold Table.read
  generalize ((Text.lines text).filter fun line => !(line.toList.all Text.isBlank)) = lines
  cases lines with
  | nil => exact hregistry
  | cons first rest =>
    dsimp only
    split
    next => exact hadditive.keeps_readRows hregistry 2 rest
    next => exact hregistry

end Additive

/-- A property of registries that is kept by registering a text, by registering an experiment and by
renaming and removing a pattern, also where that fails on the way. -/
structure Durable (invariant : Registry → Prop) : Prop extends Additive invariant where
  registerExperiment : ∀ {registry}, invariant registry → ∀ text,
    KeepsFrom invariant registry (registerExperiment text)
  rename : ∀ {registry serial pattern}, invariant registry →
    (serial, pattern) ∈ registry.registered → ∀ name kind,
      KeepsFrom invariant registry (rename serial pattern name kind)
  unregister : ∀ {registry serial pattern}, invariant registry →
    registry.pattern? serial = some pattern →
      KeepsFrom invariant registry (unregister serial pattern)

namespace Durable

variable {invariant : Registry → Prop} (hdurable : Durable invariant) {registry : Registry}
  (hregistry : invariant registry)
include hdurable hregistry

/-- What these operations keep is kept by every operation of a history. -/
theorem applyTo (operation : Operation) : invariant (operation.applyTo registry) := by
  cases operation with
  | registerBasics => exact hdurable.keeps_registerBasics hregistry
  | register name kind text id => exact (hdurable.register hregistry name kind text id).discard
  | addLiteral text name id kind =>
      exact (hdurable.addLiteral hregistry text name id kind).discard
  | registerExperiment text => exact (hdurable.registerExperiment hregistry text).discard
  | readTable text => exact hdurable.keeps_read hregistry text
  | unregister serial =>
      rw [Operation.applyTo, Operation.perform, run_read_bind]
      cases hpattern : registry.pattern? serial with
      | none => exact hregistry
      | some pattern => exact hdurable.unregister hregistry hpattern
  | rename id name kind =>
      rw [Operation.applyTo, Operation.perform, run_read_bind]
      cases hfound : registry.registered.find? fun entry => entry.2.id = id with
      | none => exact hregistry
      | some entry =>
          exact hdurable.rename hregistry (List.mem_of_find?_eq_some hfound) name kind

end Durable

/-- A property of tidy registries that every single change keeps. -/
structure Lasting (invariant : Registry → Prop) : Prop where
  tidy : ∀ {registry}, invariant registry → registry.Tidy
  recalled : ∀ {registry state}, invariant registry → registry.Recalls state → invariant state
  extend : ∀ {registry pattern}, invariant registry → registry.Free pattern →
    registry.Fits pattern.content →
      invariant (registry.extend { pattern with id := registry.idFor pattern })
  renamed : ∀ {registry serial pattern name} (kind : Option Kind), invariant registry →
    (serial, pattern) ∈ registry.registered →
      (∀ other, registry.named? name = some other → other = serial) →
        invariant (registry.renamed serial pattern name kind)
  without : ∀ {registry serial pattern}, invariant registry →
    registry.pattern? serial = some pattern → registry.dependents serial pattern.id = [] →
      invariant (registry.without serial pattern)

namespace Lasting

variable {invariant : Registry → Prop} (hlasting : Lasting invariant) {registry : Registry}
  (hregistry : invariant registry)
include hlasting hregistry

theorem keeps_add {pattern : Pattern} (hfits : registry.Fits pattern.content) :
    KeepsFrom invariant registry (add pattern) :=
  keepsFrom_add hregistry fun hfree => hlasting.extend hregistry hfree hfits

theorem keeps_addLiteral (text : String) (name : Option String) (id : Int) (kind : Kind) :
    KeepsFrom invariant registry (addLiteral text name id kind) :=
  hlasting.keeps_add hregistry (.literal text)

theorem keeps_register (name : Option String) (kind : Kind) (text : String) (id : Int) :
    KeepsFrom invariant registry (register name kind text id) := by
  refine keepsFrom_register hregistry fun pattern hpattern => ?_
  have hfits := fits_of_compile hpattern
  exact hlasting.keeps_add hregistry hfits

theorem keeps_registerExperiment (text : String) :
    KeepsFrom invariant registry (registerExperiment text) :=
  (hlasting.tidy hregistry).keepsFrom_registerExperiment
    (fun _ hrecalls => hlasting.recalled hregistry hrecalls)
    fun _ _ hcompile _ hrecalls => hlasting.keeps_add (hlasting.recalled hregistry hrecalls)
      (hrecalls.fits (fits_of_compile hcompile))

theorem keeps_rename {serial : Serial} {pattern : Pattern}
    (hregistered : (serial, pattern) ∈ registry.registered) (name : String) (kind : Option Kind) :
    KeepsFrom invariant registry (rename serial pattern name kind) :=
  keepsFrom_rename hregistry (hlasting.renamed kind hregistry hregistered)

theorem keeps_unregister {serial : Serial} {pattern : Pattern}
    (hpattern : registry.pattern? serial = some pattern) :
    KeepsFrom invariant registry (unregister serial pattern) :=
  keepsFrom_unregister hregistry (hlasting.without hregistry hpattern)

omit hregistry in
theorem durable : Durable invariant where
  addLiteral hregistry := hlasting.keeps_addLiteral hregistry
  register hregistry := hlasting.keeps_register hregistry
  registerExperiment hregistry := hlasting.keeps_registerExperiment hregistry
  rename hregistry hregistered := hlasting.keeps_rename hregistry hregistered
  unregister hregistry hpattern := hlasting.keeps_unregister hregistry hpattern

/-- What lasts through every single change lasts through every operation. -/
theorem applyTo (operation : Operation) : invariant (operation.applyTo registry) :=
  hlasting.durable.applyTo hregistry operation

end Lasting

end Motif.Registry
