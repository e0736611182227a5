import Motif.Proofs.Registry.Rows
import Motif.Proofs.Registry.Tidiness

/-!
# Histories of registries

A history is a list of operations on a registry that is empty at first. Whichever of them fail, and
however far they come before they do, references lead to patterns registered earlier, names lead to
the patterns that have them, and no id that the counter gives has been held before.
-/

namespace Motif.Registry

variable {registry before after : Registry}

/-! ## Ids -/

/-- What a registration asks for: an id of its own, or else the next one of the counter. -/
def ask (id : Int) : Option Int :=
  if id < 0 then none else some id

/-- The counter does not go back, patterns keep their ids, and new patterns have been made in the
order of what is asked for. One that asks for an id has it, and one that asks for none has a greater
id than all patterns made before. -/
structure Follows (asks : List (Option Int)) (before after : Registry) : Prop where
  nextId_le : before.nextId ≤ after.nextId
  id_eq : ∀ serial pattern, before.pattern? serial = some pattern →
    ∃ same, after.pattern? serial = some same ∧ same.id = pattern.id
  size_le : before.ledger.size ≤ after.ledger.size ∧
    after.ledger.size ≤ before.ledger.size + asks.length
  asked : ∀ (place : Nat) id pattern, asks[place]? = some (some id) →
    after.pattern? (before.ledger.size + place) = some pattern → pattern.id = id
  counted : ∀ (place : Nat) pattern, asks[place]? = some none →
    after.pattern? (before.ledger.size + place) = some pattern →
      ∀ (serial : Nat) other, serial < before.ledger.size + place →
        after.pattern? serial = some other → other.id < pattern.id

theorem pattern?_eq_none_of_le {serial : Nat} (hsize : registry.ledger.size ≤ serial) :
    registry.pattern? serial = none :=
  Array.getElem?_eq_none hsize

theorem lt_size_of_pattern? {serial : Nat} {pattern : Pattern}
    (hpattern : registry.pattern? serial = some pattern) : serial < registry.ledger.size :=
  (Array.getElem?_eq_some_iff.mp hpattern).1

/-- Where no pattern has been made, only the counter and the ids matter. -/
theorem Follows.of_same_size {asks : List (Option Int)} (hnext : before.nextId ≤ after.nextId)
    (hsize : after.ledger.size = before.ledger.size)
    (hid : ∀ serial pattern, before.pattern? serial = some pattern →
      ∃ same, after.pattern? serial = some same ∧ same.id = pattern.id) :
    Follows asks before after := by
  have hnone (place : Nat) : after.pattern? (before.ledger.size + place) = none :=
    pattern?_eq_none_of_le (by omega)
  refine ⟨hnext, hid, by omega, ?_, ?_⟩
  · intro place id pattern _ hpattern
    rw [hnone] at hpattern
    cases hpattern
  · intro place pattern _ hpattern
    rw [hnone] at hpattern
    cases hpattern

theorem Follows.refl (asks : List (Option Int)) (registry : Registry) :
    Follows asks registry registry :=
  .of_same_size (le_refl _) rfl fun _ pattern hpattern => ⟨pattern, hpattern, rfl⟩

/-- A pattern that is not new had its id before. -/
theorem Follows.exists_origin {asks : List (Option Int)} (hfollows : Follows asks before after)
    {serial : Nat} {pattern : Pattern} (hpattern : after.pattern? serial = some pattern)
    (hold : serial < before.ledger.size) :
    ∃ origin, before.pattern? serial = some origin ∧ origin.id = pattern.id := by
  have horigin : before.pattern? serial = some before.ledger[serial] :=
    Array.getElem?_eq_getElem hold
  obtain ⟨same, hsame, hid⟩ := hfollows.id_eq serial _ horigin
  obtain rfl : pattern = same := Option.some.inj (hpattern.symm.trans hsame)
  exact ⟨_, horigin, hid.symm⟩

/-- What is asked for after the last pattern that has been made does not matter. -/
theorem Follows.weaken {asks : List (Option Int)} (hfollows : Follows asks before after)
    (more : List (Option Int)) : Follows (asks ++ more) before after := by
  have hplace : ∀ (place : Nat) pattern,
      after.pattern? (before.ledger.size + place) = some pattern →
      (asks ++ more)[place]? = asks[place]? := by
    intro place pattern hpattern
    have hlt := lt_size_of_pattern? hpattern
    have hsize := hfollows.size_le.2
    exact List.getElem?_append_left (by omega)
  refine ⟨hfollows.nextId_le, hfollows.id_eq, ⟨hfollows.size_le.1, ?_⟩, ?_, ?_⟩
  · have hsize := hfollows.size_le.2
    rw [List.length_append]
    omega
  · intro place id pattern hask hpattern
    rw [hplace place pattern hpattern] at hask
    exact hfollows.asked place id pattern hask hpattern
  · intro place pattern hask hpattern
    rw [hplace place pattern hpattern] at hask
    exact hfollows.counted place pattern hask hpattern

/-- Patterns made in two stretches are those asked for in the first, all of which have been made,
and then those asked for in the second. -/
theorem Follows.trans {middle : Registry} {first second : List (Option Int)}
    (hfirst : Follows first before middle)
    (hall : middle.ledger.size = before.ledger.size + first.length)
    (hsecond : Follows second middle after) : Follows (first ++ second) before after := by
  have hsizes := hsecond.size_le
  have hlate : ∀ place, first.length ≤ place →
      before.ledger.size + place = middle.ledger.size + (place - first.length) := by
    intro place hle
    omega
  refine ⟨hfirst.nextId_le.trans hsecond.nextId_le, ?_, ?_, ?_, ?_⟩
  · intro serial pattern hpattern
    obtain ⟨between, hbetween, hid⟩ := hfirst.id_eq serial pattern hpattern
    obtain ⟨same, hsame, hidSame⟩ := hsecond.id_eq serial between hbetween
    exact ⟨same, hsame, hidSame.trans hid⟩
  · rw [List.length_append]
    omega
  · intro place id pattern hask hpattern
    by_cases hplace : place < first.length
    · rw [List.getElem?_append_left hplace] at hask
      obtain ⟨origin, horigin, hid⟩ := hsecond.exists_origin hpattern (by omega)
      exact hid.symm.trans (hfirst.asked place id origin hask horigin)
    · rw [List.getElem?_append_right (by omega)] at hask
      rw [hlate place (by omega)] at hpattern
      exact hsecond.asked _ id pattern hask hpattern
  · intro place pattern hask hpattern serial other hserial hother
    by_cases hplace : place < first.length
    · -- Both patterns were there in between, with the same ids.
      rw [List.getElem?_append_left hplace] at hask
      obtain ⟨origin, horigin, hid⟩ := hsecond.exists_origin hpattern (by omega)
      obtain ⟨earlier, hearlier, hidEarlier⟩ := hsecond.exists_origin hother (by omega)
      have hlt := hfirst.counted place origin hask horigin serial earlier hserial hearlier
      omega
    · rw [List.getElem?_append_right (by omega)] at hask
      rw [hlate place (by omega)] at hpattern hserial
      exact hsecond.counted _ pattern hask hpattern serial other hserial hother

/-! ## Operations that make patterns -/

section Entering

variable {α β : Type} {asks : List (Option Int)}

/-- Run on a registry, an operation leaves it tidy and makes patterns as they are asked for, all of
them if it succeeds. -/
def Enters (asks : List (Option Int)) (registry : Registry) (action : Action α) : Prop :=
  ∃ result after, action.run registry = (result, after) ∧ after.Tidy ∧
    Follows asks registry after ∧
      ∀ value, result = .ok value → after.ledger.size = registry.ledger.size + asks.length

theorem Enters.pure (htidy : registry.Tidy) (value : α) :
    Enters [] registry (pure value : Action α) :=
  ⟨.ok value, registry, rfl, htidy, .refl _ _, fun _ _ => rfl⟩

theorem Enters.fail (htidy : registry.Tidy) {action : Action α} {fault : Fault}
    (hrun : action.run registry = (.error fault, registry)) : Enters asks registry action :=
  ⟨.error fault, registry, hrun, htidy, .refl _ _, fun _ hvalue => by cases hvalue⟩

theorem Enters.read {next : Registry → Action α}
    (hnext : Enters asks registry (next registry)) :
    Enters asks registry (getThe Registry >>= next) := by
  obtain ⟨result, after, hrun, hafter⟩ := hnext
  exact ⟨result, after, (run_read_bind registry).trans hrun, hafter⟩

theorem Enters.lift (htidy : registry.Tidy) {result : Except Fault α} {next : α → Action β}
    (hnext : ∀ value, result = .ok value → Enters asks registry (next value)) :
    Enters asks registry ((liftM result : Action α) >>= next) := by
  cases result with
  | error fault => exact .fail htidy (run_lift_bind registry)
  | ok value =>
      obtain ⟨result, after, hrun, hafter⟩ := hnext value rfl
      exact ⟨result, after, (run_lift_bind registry).trans hrun, hafter⟩

theorem Enters.bind {more : List (Option Int)} {action : Action α} {next : α → Action β}
    (haction : Enters asks registry action)
    (hnext : ∀ value after, after.Tidy → Enters more after (next value)) :
    Enters (asks ++ more) registry (action >>= next) := by
  obtain ⟨result, middle, hrun, hmiddle, hfollows, hall⟩ := haction
  cases result with
  | error fault =>
      refine ⟨.error fault, middle, run_bind_of_error hrun, hmiddle, hfollows.weaken more, ?_⟩
      intro value hvalue
      cases hvalue
  | ok value =>
      have hsize := hall value rfl
      obtain ⟨final, after, hafter, htidy, hmore, hrest⟩ := hnext value middle hmiddle
      refine ⟨final, after, (run_bind_of_ok hrun).trans hafter, htidy, hfollows.trans hsize hmore,
        fun value hvalue => ?_⟩
      rw [hrest value hvalue, hsize, List.length_append, Nat.add_assoc]

/-- An operation that makes no pattern may come after another one. -/
theorem Enters.discard {action : Action α} (haction : Enters asks registry action) :
    Enters asks registry (discard action) := by
  have hbind : Enters (asks ++ []) registry (action >>= fun _ => Pure.pure PUnit.unit) :=
    haction.bind fun _ _ htidy => .pure htidy PUnit.unit
  rwa [List.append_nil] at hbind

theorem Enters.forM {xs : List α} {asked : α → Option Int} {action : α → Action PUnit}
    (haction : ∀ x ∈ xs, ∀ registry, registry.Tidy → Enters [asked x] registry (action x))
    (htidy : registry.Tidy) : Enters (xs.map asked) registry (xs.forM action) := by
  induction xs generalizing registry with
  | nil => exact .pure htidy _
  | cons first rest ih =>
      change Enters ([asked first] ++ rest.map asked) registry
        (action first >>= fun _ => rest.forM action)
      refine (haction first List.mem_cons_self registry htidy).bind fun _ after hafter => ?_
      exact ih (fun x hx => haction x (List.mem_cons_of_mem _ hx)) hafter

end Entering

theorem ask_eq_some_iff {id other : Int} : ask id = some other ↔ 0 ≤ id ∧ id = other := by
  unfold ask
  split <;> simp <;> omega

theorem ask_eq_none_iff {id : Int} : ask id = none ↔ id < 0 := by
  unfold ask
  split <;> simp <;> omega

/-- Registering a pattern whose name and id are free makes it with the id for which it asks. -/
theorem Tidy.follows_extend (htidy : registry.Tidy) (pattern : Pattern) :
    Follows [ask pattern.id] registry
      (registry.extend { pattern with id := registry.idFor pattern }) := by
  have hsize : (registry.extend { pattern with id := registry.idFor pattern }).ledger.size =
      registry.ledger.size + 1 := by
    simp [Registry.extend]
  have hnew : ∀ (place : Nat) found wanted, [ask pattern.id][place]? = some wanted →
      (registry.extend { pattern with id := registry.idFor pattern }).pattern?
        (registry.ledger.size + place) = some found →
      place = 0 ∧ ask pattern.id = wanted ∧ found.id = registry.idFor pattern := by
    intro place found wanted hask hfound
    obtain ⟨hplace, hwanted⟩ := List.getElem?_eq_some_iff.mp hask
    obtain rfl : place = 0 := by simpa using hplace
    rw [Nat.add_zero, pattern?_extend_size] at hfound
    obtain rfl := Option.some.inj hfound
    exact ⟨rfl, hwanted, rfl⟩
  refine ⟨le_max_left _ _, ?_, ⟨by omega, by simp [hsize]⟩, ?_, ?_⟩
  · intro serial found hfound
    refine ⟨found, ?_, rfl⟩
    rw [pattern?_extend, if_neg (Nat.ne_of_lt (lt_size_of_pattern? hfound)), hfound]
  · intro place id found hask hfound
    obtain ⟨-, hwanted, hid⟩ := hnew place found _ hask hfound
    obtain ⟨hnonneg, rfl⟩ := ask_eq_some_iff.mp hwanted
    rw [hid, idFor, if_neg (by omega)]
  · intro place found hask hfound serial other hserial hother
    obtain ⟨rfl, hwanted, hid⟩ := hnew place found _ hask hfound
    rw [Nat.add_zero] at hserial
    rw [pattern?_extend, if_neg (Nat.ne_of_lt hserial)] at hother
    rw [hid, idFor, if_pos (ask_eq_none_iff.mp hwanted)]
    exact htidy.counted serial other hother

theorem Tidy.enters_add (htidy : registry.Tidy) {pattern : Pattern}
    (hfits : registry.Fits pattern.content) : Enters [ask pattern.id] registry (add pattern) := by
  by_cases hfree : registry.Free pattern
  · refine ⟨_, _, run_add_of_free hfree, ?_, htidy.follows_extend pattern, fun _ _ => ?_⟩
    · exact htidy.extend hfits (htidy.idFor_nonneg pattern) (htidy.serialOf?_idFor hfree) hfree.name
    · simp [Registry.extend]
  · obtain ⟨fault, hrun⟩ := run_add_of_taken hfree
    exact .fail htidy hrun

theorem Tidy.enters_addLiteral (htidy : registry.Tidy) (text : String) (name : Option String)
    (id : Int) (kind : Kind) : Enters [ask id] registry (addLiteral text name id kind) :=
  htidy.enters_add (.literal text)

theorem Tidy.enters_register (htidy : registry.Tidy) (name : Option String) (kind : Kind)
    (text : String) (id : Int) : Enters [ask id] registry (register name kind text id) := by
  refine .read (.lift htidy fun _ _ => .lift htidy fun pattern hpattern => ?_)
  have hfits := fits_of_compile hpattern
  have hentered : Enters [ask id] registry (add { pattern with id }) := htidy.enters_add hfits
  exact hentered

/-- The basic patterns ask for no ids. -/
theorem Tidy.enters_registerBasics (htidy : registry.Tidy) :
    Enters (printableAscii.map (fun _ => ask (-1)) ++ basicClasses.map fun _ => ask (-1)) registry
      registerBasics := by
  refine Enters.bind ?_ fun _ after hafter => ?_
  · refine .forM (fun c _ registry htidy => ?_) htidy
    exact (htidy.enters_addLiteral _ _ _ _).discard
  · refine .forM (fun entry _ registry htidy => ?_) hafter
    exact (htidy.enters_register _ _ _ _).discard

/-- After another registry comes a tidy one, with patterns made as they are asked for. -/
def TidilyFollows (asks : List (Option Int)) (before after : Registry) : Prop :=
  after.Tidy ∧ Follows asks before after

/-- What has been stored beside the patterns does not matter. -/
theorem Recalls.follows (hrecalls : registry.Recalls after) (asks : List (Option Int)) :
    Follows asks registry after := by
  rw [hrecalls.same]
  exact .of_same_size (le_refl _) rfl fun _ pattern hpattern => ⟨pattern, hpattern, rfl⟩

/-- An experiment is made, unless an equivalent pattern is there. -/
theorem Tidy.follows_registerExperiment (htidy : registry.Tidy) (text : String) :
    KeepsFrom (TidilyFollows [none] registry) registry (registerExperiment text) := by
  refine htidy.keepsFrom_registerExperiment
    (fun state hrecalls => ⟨hrecalls.tidy htidy, hrecalls.follows _⟩)
    fun pattern middle hcompile _ hrecalls => ?_
  have hsize : middle.ledger.size = registry.ledger.size := by
    rw [hrecalls.same]
  have hask : ask pattern.id = none := by
    obtain ⟨alternatives, penalty, -, -, -, rfl⟩ := compile_eq_ok hcompile
    rfl
  obtain ⟨result, after, hadd, hafter, hfollows, -⟩ :=
    (hrecalls.tidy htidy).enters_add (hrecalls.fits (fits_of_compile hcompile))
  rw [hask] at hfollows
  rw [KeepsFrom, hadd]
  exact ⟨hafter, (hrecalls.follows []).trans hsize hfollows⟩

/-! ## Tables -/

namespace Table

/-- The id for which a row asks; a row that has none is refused. -/
def rowAsk (line : String) : Option Int :=
  match Text.cutFields separator 3 line.toList with
  | [rawId, _, _, _] =>
    match Quantity.readBound (Text.trim rawId) with
    | .ok id => ask id
    | .error _ => none
  | _ => none

/-- What the rows of a table ask for, in order. -/
def tableAsks (text : String) : List (Option Int) :=
  match (Text.lines text).filter fun line => !(line.toList.all Text.isBlank) with
  | [] => []
  | first :: rest => if Text.trim first.toList = header.toList then rest.map rowAsk else []

theorem enters_readRow (htidy : registry.Tidy) (number : Nat) (line : String) :
    Enters [rowAsk line] registry (readRow number line) := by
  unfold readRow rowAsk
  generalize Text.cutFields separator 3 line.toList = fields
  -- A row of any other number of fields is refused before an id is read.
  rcases fields with _ | ⟨rawId, _ | ⟨rawName, _ | ⟨rawKind, _ | ⟨description, _ | ⟨_, _⟩⟩⟩⟩⟩
  case cons.cons.cons.cons.nil =>
    dsimp only
    refine .lift htidy fun id hid => ?_
    rw [hid]
    dsimp only
    cases Kind.ofName? (String.ofList rawKind) with
    | none => exact .fail htidy rfl
    | some kind =>
        dsimp only
        rw [pure_bind]
        split
        · exact (htidy.enters_addLiteral _ _ id kind).discard
        · exact (htidy.enters_register _ kind _ id).discard
  all_goals exact .fail htidy rfl

theorem enters_readRows (htidy : registry.Tidy) (number : Nat) (lines : List String) :
    Enters (lines.map rowAsk) registry (readRows number lines) := by
  induction lines generalizing number registry with
  | nil => exact .pure htidy ()
  | cons line rest ih =>
      rw [readRows, List.map_cons]
      exact (enters_readRow htidy number line).bind fun _ after hafter => ih hafter (number + 1)

theorem enters_read (htidy : registry.Tidy) (text : String) :
    Enters (tableAsks text) registry (read text) := by
  unfold read tableAsks
  generalize ((Text.lines text).filter fun line => !(line.toList.all Text.isBlank)) = lines
  cases lines with
  | nil => exact .pure htidy ()
  | cons first rest =>
    dsimp only
    split
    next => exact enters_readRows htidy 2 rest
    next => exact .fail htidy rfl

end Table

/-! ## Histories -/

/-- An operation that a registry offers. A pattern may be removed that is registered no longer; only
a registered one is renamed. -/
inductive Operation where
  | registerBasics
  | register (name : Option String) (kind : Kind) (text : String) (id : Int)
  | addLiteral (text : String) (name : Option String) (id : Int) (kind : Kind)
  | registerExperiment (text : String)
  | readTable (text : String)
  | unregister (serial : Serial)
  | rename (id : Int) (name : String) (kind : Option Kind)

namespace Operation

/-- What an operation does. -/
def perform : Operation → Action Unit
  | registerBasics => Registry.registerBasics
  | register name kind text id => discard (Registry.register name kind text id)
  | addLiteral text name id kind => discard (Registry.addLiteral text name id kind)
  | registerExperiment text => discard (Registry.registerExperiment text)
  | readTable text => Table.read text
  | unregister serial => do
    match (← getThe Registry).pattern? serial with
    | some pattern => Registry.unregister serial pattern
    | none => return
  | rename id name kind => do
    let registry ← getThe Registry
    match registry.registered.find? fun entry => entry.2.id = id with
    | some (serial, pattern) => Registry.rename serial pattern name kind
    | none => return

/-- The registry that an operation leaves, whether it has failed or not. -/
def applyTo (operation : Operation) (registry : Registry) : Registry :=
  (operation.perform.run registry).2

/-- What an operation asks for the patterns that it makes, in order. -/
def asks : Operation → List (Option Int)
  | registerBasics => printableAscii.map (fun _ => none) ++ basicClasses.map fun _ => none
  | register _ _ _ id => [ask id]
  | addLiteral _ _ id _ => [ask id]
  | registerExperiment _ => [none]
  | readTable text => Table.tableAsks text
  | unregister _ => []
  | rename _ _ _ => []

end Operation

theorem Enters.tidilyFollows {α : Type} {asks : List (Option Int)} {action : Action α}
    (henters : Enters asks registry action) :
    TidilyFollows asks registry (action.run registry).2 := by
  obtain ⟨result, after, hrun, htidy, hfollows, -⟩ := henters
  rw [hrun]
  exact ⟨htidy, hfollows⟩

theorem run_discard {α : Type} (action : Action α) :
    ((discard action).run registry).2 = (action.run registry).2 := by
  rcases hrun : action.run registry with ⟨result, after⟩
  cases result with
  | ok value => exact congrArg Prod.snd ((run_bind_of_ok hrun).trans rfl)
  | error fault => exact congrArg Prod.snd (run_bind_of_error hrun)

/-- Removing a pattern makes none. -/
theorem Tidy.keeps_unregister (htidy : registry.Tidy) {serial : Serial} {pattern : Pattern}
    (hpattern : registry.pattern? serial = some pattern) :
    KeepsFrom (TidilyFollows [] registry) registry
      (unregister serial pattern) := by
  refine keepsFrom_unregister ⟨htidy, .refl _ _⟩ fun hunused => ?_
  refine ⟨htidy.without hpattern hunused, ?_⟩
  exact .of_same_size (le_refl _) rfl fun _ found hfound => ⟨found, hfound, rfl⟩

/-- Renaming a pattern makes none. -/
theorem Tidy.keeps_rename (htidy : registry.Tidy) {serial : Serial} {pattern : Pattern}
    (hregistered : (serial, pattern) ∈ registry.registered) (name : String) (kind : Option Kind) :
    KeepsFrom (TidilyFollows [] registry) registry
      (rename serial pattern name kind) := by
  have hpattern := (mem_registered hregistered).1
  have hentry := htidy.coherent.mem_entries_of_registered hregistered
  refine keepsFrom_rename ⟨htidy, .refl _ _⟩ fun hname => ?_
  refine ⟨htidy.renamed hentry hpattern hname, ?_⟩
  refine .of_same_size (le_refl _) Array.size_setIfInBounds fun other found hfound => ?_
  obtain ⟨same, hsame, -, hid⟩ := exists_pattern?_renamed hpattern hfound
  exact ⟨same, hsame, hid⟩

/-- One operation leaves a tidy registry tidy and makes patterns as it asks for them. -/
theorem Operation.tidilyFollows (htidy : registry.Tidy) (operation : Operation) :
    TidilyFollows operation.asks registry (operation.applyTo registry) := by
  cases operation with
  | registerBasics => exact htidy.enters_registerBasics.tidilyFollows
  | register name kind text id =>
      exact (htidy.enters_register name kind text id).discard.tidilyFollows
  | addLiteral text name id kind =>
      exact (htidy.enters_addLiteral text name id kind).discard.tidilyFollows
  | registerExperiment text =>
      rw [applyTo, perform, run_discard]
      exact htidy.follows_registerExperiment text
  | readTable text => exact (Table.enters_read htidy text).tidilyFollows
  | unregister serial =>
      rw [applyTo, perform, run_read_bind]
      cases hpattern : registry.pattern? serial with
      | none => exact ⟨htidy, .refl _ _⟩
      | some pattern => exact htidy.keeps_unregister hpattern
  | rename id name kind =>
      rw [applyTo, perform, run_read_bind]
      cases hfound : registry.registered.find? fun entry => entry.2.id = id with
      | none => exact ⟨htidy, .refl _ _⟩
      | some entry => exact htidy.keeps_rename (List.mem_of_find?_eq_some hfound) name kind

/-- What operations, one after another, make of a registry that is empty at first. -/
def history (operations : List Operation) : Registry :=
  operations.foldl (fun registry operation => operation.applyTo registry) {}

/-- A history grows at its end, by the operation that comes last. -/
theorem history_append (operations : List Operation) (operation : Operation) :
    history (operations ++ [operation]) = operation.applyTo (history operations) := by
  rw [history, List.foldl_append]
  rfl

theorem tidy_history (operations : List Operation) : (history operations).Tidy := by
  induction operations using List.reverseRecOn with
  | nil => exact tidy_empty
  | append_singleton earlier operation ih =>
      rw [history_append]
      exact (operation.tidilyFollows ih).1

/-- References lead to patterns registered earlier, every id leads to the pattern that has it, the
counter exceeds the id of every pattern ever made, and a name leads to a pattern exactly if that is
registered and has it. -/
structure WellFormed (registry : Registry) : Prop where
  resolves : ∀ earlier entry later, registry.registered = earlier ++ entry :: later →
    ∀ id ∈ entry.2.content.references, ∃ target ∈ earlier, registry.byId? id = some target.2
  id_eq : ∀ id pattern, registry.byId? id = some pattern → pattern.id = id
  id_lt : ∀ serial pattern, registry.pattern? serial = some pattern → pattern.id < registry.nextId
  named?_eq_some_iff : ∀ name serial, registry.named? name = some serial ↔
    ∃ pattern, (serial, pattern) ∈ registry.registered ∧ pattern.name = some name

theorem Tidy.pairwise_registered (htidy : registry.Tidy) :
    registry.registered.Pairwise fun first second => first.1 < second.1 := by
  refine List.pairwise_filterMap.mpr (htidy.ascending.imp fun {first second} hlt => ?_)
  intro entry hentry other hother
  obtain ⟨found, -, rfl⟩ := Option.map_eq_some_iff.mp hentry
  obtain ⟨foundOther, -, rfl⟩ := Option.map_eq_some_iff.mp hother
  exact hlt

theorem Tidy.wellFormed (htidy : registry.Tidy) : registry.WellFormed := by
  refine ⟨?_, fun id pattern => htidy.coherent.id_eq, htidy.counted, ?_⟩
  · intro earlier entry later hregistered id hid
    have hmem : entry ∈ registry.registered := by simp [hregistered]
    obtain ⟨lower, hlower, hlt⟩ := htidy.descends _ _ _
      (htidy.coherent.mem_entries_of_registered hmem) (mem_registered hmem).1 id hid
    obtain ⟨target, htarget, -⟩ := htidy.coherent.exists_pattern hlower
    refine ⟨(lower, target), ?_, htidy.coherent.byId?_eq_some_iff.mpr ⟨lower, hlower, htarget⟩⟩
    -- The target has a lower serial, so it stands neither at the entry nor after it.
    have hordered := htidy.pairwise_registered
    have hmemTarget := mem_registered_of_entry hlower htarget
    rw [hregistered] at hordered hmemTarget
    rcases List.mem_append.mp hmemTarget with hearlier | hrest
    · exact hearlier
    · rcases List.mem_cons.mp hrest with rfl | hlater
      · exact absurd hlt (Nat.lt_irrefl _)
      · have hgreater := (List.pairwise_cons.mp (List.pairwise_append.mp hordered).2.1).1 _ hlater
        exact absurd hlt (Nat.lt_asymm hgreater)
  · intro name serial
    rw [named?, lookup_eq_some_iff_mem htidy.nodup_names]
    constructor
    · intro hentry
      obtain ⟨pattern, hmem, hpattern, hname⟩ := htidy.registered_of_named name serial hentry
      exact ⟨pattern, mem_registered_of_entry hmem hpattern, hname⟩
    · rintro ⟨pattern, hmem, hname⟩
      have hnamed := htidy.named _ _ _ (htidy.coherent.mem_entries_of_registered hmem)
        (mem_registered hmem).1 name hname
      exact (lookup_eq_some_iff_mem htidy.nodup_names).mp hnamed

/-- Whatever a registry has gone through, it is well-formed, and every further operation makes
patterns as it asks for them. -/
theorem wellFormed_history (operations : List Operation) :
    (history operations).WellFormed ∧ ∀ operation : Operation,
      Follows operation.asks (history operations) (history (operations ++ [operation])) := by
  have htidy := tidy_history operations
  refine ⟨htidy.wellFormed, fun operation => ?_⟩
  have happend : history (operations ++ [operation]) = operation.applyTo (history operations) := by
    rw [history, List.foldl_append]
    rfl
  rw [happend]
  exact (operation.tidilyFollows htidy).2

end Motif.Registry
