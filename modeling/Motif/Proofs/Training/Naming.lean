import Motif.Proofs.Training.Iterating
import Motif.Proofs.Training.Shapes
import Motif.Proofs.Training.Storing

/-!
# Naming known shapes

The shapes are gone through in order. If the name of a shape is free and its text can be compiled,
the first experiment with its full description gets the name. What comes of it depends on what is
known at that moment, so each shape is considered by itself, and a whole run is put together from
these steps.
-/

namespace Motif

namespace Trainer

open Registry

variable {trainer after : Trainer} {shapes : List (String × String)} {name text : String}

/-! ## One shape -/

/-- What comes of considering one shape. Its name is taken; or it is passed over, since its text is
refused or no experiment is like it; or its text or a pattern cannot be told; or the first
experiment that is like it gets its name. -/
inductive Considers (trainer : Trainer) (name text : String) :
    Except Fault (List Serial) × Trainer → Prop where
  | taken {serial : Serial} (htaken : trainer.registry.named? name = some serial) :
      Considers trainer name text (.ok [], trainer)
  | passed {registry : Registry} (hfree : trainer.registry.named? name = none)
      (hnone : trainer.registry.shaped text = .ok none)
      (hremembers : trainer.registry.Remembers registry) :
      Considers trainer name text (.ok [], { trainer with registry })
  | failed {fault : Fault} {registry : Registry} (hfree : trainer.registry.named? name = none)
      (hfault : trainer.registry.shaped text = .error fault)
      (hremembers : trainer.registry.Remembers registry) :
      Considers trainer name text (.error fault, { trainer with registry })
  | named {serial : Serial} {pattern : Pattern} {registry : Registry}
      (hfree : trainer.registry.named? name = none)
      (hfound : trainer.registry.shaped text = .ok (some (serial, pattern)))
      (hremembers : trainer.registry.Remembers registry) :
      Considers trainer name text (.ok [serial],
        { trainer with
          registry := registry.renamed serial pattern name (some .derived)
          events := (trainer.iteration, .patternNamed pattern.id name) :: trainer.events })

theorem considers_nameShapes (hregular : trainer.registry.Regular) (name text : String) :
    Considers trainer name text ((nameShapes [(name, text)]).run trainer) := by
  unfold nameShapes
  rw [run_read_bind]
  cases hnamed : trainer.registry.named? name with
  | some serial => exact .taken hnamed
  | none =>
      obtain ⟨registry, hrun, hremembers⟩ := hregular.toRooted.gives_experimentOfShape text
        trainer.registry hregular.remembers
      have hasked := run_onRegistry hrun
      rw [if_neg (by simp)]
      cases hshaped : trainer.registry.shaped text with
      | error fault =>
          rw [hshaped] at hasked
          rw [run_bind_of_error hasked]
          exact .failed hnamed hshaped hremembers
      | ok found =>
          rw [hshaped] at hasked
          rw [run_bind_of_ok hasked]
          cases found with
          | none => exact .passed hnamed hshaped hremembers
          | some entry =>
              have hfree := (hremembers.named? name).trans hnamed
              have hrename : (onRegistry (rename entry.1 entry.2 name (some .derived))).run
                  { trainer with registry } = _ :=
                run_onRegistry (run_rename_of_free hfree entry.1 entry.2 (some .derived))
              dsimp only
              rw [run_bind_of_ok hrename]
              exact .named hnamed hshaped hremembers

theorem nameShapes_cons (shape : String × String) (rest : List (String × String)) :
    nameShapes (shape :: rest) = (do
      let first ← nameShapes [shape]
      let others ← nameShapes rest
      return first ++ others) := by
  obtain ⟨name, text⟩ := shape
  simp only [nameShapes, bind_assoc]
  congr 1
  funext trainer
  split
  · simp
  · simp only [bind_assoc]
    congr 1
    funext found
    cases found <;> simp

theorem nameShapes_append (shapes more : List (String × String)) :
    nameShapes (shapes ++ more) = (do
      let first ← nameShapes shapes
      let others ← nameShapes more
      return first ++ others) := by
  induction shapes with
  | nil => simp [nameShapes]
  | cons shape rest ih =>
      rw [List.cons_append, nameShapes_cons, ih, nameShapes_cons shape rest]
      simp only [bind_assoc, pure_bind, List.append_assoc]

/-! ## All shapes -/

/-- The turn of a shape comes when the earlier ones have been gone through. By then `others` have got
names, and this is what the trainer is at that moment. -/
def Reaches (trainer : Trainer) (shapes : List (String × String)) (name text : String)
    (others : List Serial) (moment : Trainer) : Prop :=
  ∃ earlier later, shapes = earlier ++ (name, text) :: later ∧
    (nameShapes earlier).run trainer = (.ok others, moment)

/-- The name of a shape is free when its turn comes. -/
def FreeInTurn (trainer : Trainer) (shapes : List (String × String)) (name text : String) : Prop :=
  ∃ others moment, trainer.Reaches shapes name text others moment ∧
    moment.registry.named? name = none

/-- The name of a shape is given to an experiment. When the turn of the shape comes the name is free,
given up by then if a pattern had it before, and the experiment is the first one with the full
description of the shape. -/
def Grants (trainer : Trainer) (shapes : List (String × String)) (serial : Serial) (name : String) :
    Prop :=
  ∃ text others moment pattern, trainer.Reaches shapes name text others moment ∧
    moment.registry.named? name = none ∧
    (∀ other, trainer.registry.named? name = some other → other ∈ others) ∧
    moment.registry.Matches text (serial, pattern)

theorem Reaches.append {others : List Serial} {moment : Trainer}
    (hreaches : trainer.Reaches shapes name text others moment) (more : List (String × String)) :
    trainer.Reaches (shapes ++ more) name text others moment := by
  obtain ⟨earlier, later, rfl, hrun⟩ := hreaches
  exact ⟨earlier, later ++ more, by simp, hrun⟩

theorem Grants.append {serial : Serial} (hgrants : trainer.Grants shapes serial name)
    (more : List (String × String)) : trainer.Grants (shapes ++ more) serial name := by
  obtain ⟨text, others, moment, pattern, hreaches, hgranted⟩ := hgrants
  exact ⟨text, others, moment, pattern, hreaches.append more, hgranted⟩

/-- What naming has done, whether or not it has come to an end: names of shapes have been given to
experiments, in the order of the shapes. -/
structure HasNamed (trainer : Trainer) (shapes : List (String × String))
    (granted : List (Serial × String)) (after : Trainer) : Prop where
  regular : after.registry.Regular
  christens : trainer.registry.Christens granted after.registry
  sublist : (granted.map Prod.snd).Sublist (shapes.map Prod.fst)
  grants : ∀ serial name, (serial, name) ∈ granted → trainer.Grants shapes serial name
  same : ∃ events, after = { trainer with registry := after.registry, events }

/-- Naming returns those that have got names, or it fails at a shape for which no experiment can be
looked for. -/
def Returns (after : Trainer) (shapes : List (String × String)) (serials : List Serial) :
    Except Fault (List Serial) → Prop
  | .ok found => found = serials
  | .error fault => ∃ shape ∈ shapes, after.registry.shaped shape.2 = .error fault

namespace HasNamed

variable {granted : List (Serial × String)} (hnamed : trainer.HasNamed shapes granted after)
include hnamed

theorem append (more : List (String × String)) :
    trainer.HasNamed (shapes ++ more) granted after :=
  { hnamed with
    sublist := hnamed.sublist.trans ((List.sublist_append_left shapes more).map _)
    grants := fun serial name hentry => (hnamed.grants serial name hentry).append more }

theorem recalled {registry : Registry} (hremembers : after.registry.Remembers registry) :
    trainer.HasNamed shapes granted { after with registry } where
  regular := hnamed.regular.recalled hremembers
  christens := hnamed.christens.stores hremembers.same
  sublist := hnamed.sublist
  grants := hnamed.grants
  same := by
    obtain ⟨events, hsame⟩ := hnamed.same
    refine ⟨events, ?_⟩
    rw [hsame]

/-- A pattern that may have got a name has the full description that it had. -/
theorem descriptionOf_eq (hregular : trainer.registry.Regular) {entry : Serial × Pattern}
    (hentry : entry ∈ trainer.registry.registered) :
    after.registry.descriptionOf (entry.1, christened granted entry.1 entry.2) =
      trainer.registry.descriptionOf entry := by
  have hafter : (entry.1, christened granted entry.1 entry.2) ∈ after.registry.registered := by
    rw [hnamed.christens.registered_eq]
    exact List.mem_map_of_mem hentry
  have hsuits := hregular.toRooted.suits hentry
  rw [hnamed.regular.descriptionOf_eq hafter, hregular.descriptionOf_eq hentry,
    ← hnamed.christens.describeAnew_eq hregular.toRooted hsuits]
  exact describeAnew_congr (content_christened granted entry.1 entry.2)

/-- The name of the next shape is free, and an experiment has the shape. -/
theorem grants_of_shaped
    (hrun : (nameShapes shapes).run trainer = (.ok (granted.map Prod.fst), after))
    (hfree : after.registry.named? name = none) {serial : Serial} {pattern : Pattern}
    (hfound : after.registry.shaped text = .ok (some (serial, pattern))) :
    trainer.Grants (shapes ++ [(name, text)]) serial name := by
  refine ⟨text, granted.map Prod.fst, after, pattern, ⟨shapes, [], rfl, hrun⟩, hfree, ?_,
    hnamed.regular.matches_of_shaped hfound⟩
  -- Who had the name and has it no longer has got another one.
  intro other hbefore
  have hlost : after.registry.named? name ≠ some other := by simp [hfree]
  obtain ⟨given, hgiven⟩ := hnamed.christens.kept name other hbefore hlost
  exact List.mem_map_of_mem hgiven

/-- The name of the next shape is given to the experiment that has the shape. -/
theorem named (hrun : (nameShapes shapes).run trainer = (.ok (granted.map Prod.fst), after))
    (hfree : after.registry.named? name = none) {serial : Serial} {pattern : Pattern}
    (hfound : after.registry.shaped text = .ok (some (serial, pattern))) {registry : Registry}
    (hremembers : after.registry.Remembers registry) (events : List (Int × Event)) :
    trainer.HasNamed (shapes ++ [(name, text)]) (granted ++ [(serial, name)])
      { after with registry := registry.renamed serial pattern name (some .derived), events } := by
  obtain ⟨hmem, hkind⟩ := mem_registered_of_shaped hfound
  have hstored : (serial, pattern) ∈ registry.registered := by
    rw [hremembers.registered]
    exact hmem
  have hregular := hnamed.regular.recalled hremembers
  have hstill : registry.named? name = none := (hremembers.named? name).trans hfree
  constructor
  case regular => exact hregular.renamed (mem_registered hstored).1
  case christens =>
    exact (hnamed.christens.stores hremembers.same).trans
      (hregular.christens_renamed hstored hkind hstill)
  case sublist =>
    rw [List.map_append, List.map_append]
    exact hnamed.sublist.append (List.Sublist.refl [name])
  case grants =>
    intro other given hentry
    rcases List.mem_append.mp hentry with hold | hnew
    · exact (hnamed.grants other given hold).append _
    · cases List.mem_singleton.mp hnew
      exact hnamed.grants_of_shaped hrun hfree hfound
  case same =>
    obtain ⟨_, hsame⟩ := hnamed.same
    refine ⟨events, ?_⟩
    rw [hsame]

/-- One more shape. -/
theorem step (hrun : (nameShapes shapes).run trainer = (.ok (granted.map Prod.fst), after))
    (name text : String) :
    ∃ more, trainer.HasNamed (shapes ++ [(name, text)]) (granted ++ more)
        ((nameShapes [(name, text)]).run after).2 ∧
      Returns ((nameShapes [(name, text)]).run after).2 [(name, text)] (more.map Prod.fst)
        ((nameShapes [(name, text)]).run after).1 := by
  have hconsiders := considers_nameShapes hnamed.regular name text
  generalize (nameShapes [(name, text)]).run after = outcome at hconsiders
  have hidle {registry : Registry} (hremembers : after.registry.Remembers registry) :
      trainer.HasNamed (shapes ++ [(name, text)]) (granted ++ []) { after with registry } := by
    rw [List.append_nil]
    exact (hnamed.append _).recalled hremembers
  cases hconsiders with
  | taken htaken => exact ⟨[], hidle hnamed.regular.remembers, rfl⟩
  | passed hfree hnone hremembers => exact ⟨[], hidle hremembers, rfl⟩
  | failed hfree hfault hremembers =>
      refine ⟨[], hidle hremembers, (name, text), List.mem_singleton_self _, ?_⟩
      exact (hremembers.shaped_eq hnamed.regular.toRooted text).trans hfault
  | named hfree hfound hremembers =>
      exact ⟨[(_, name)], hnamed.named hrun hfree hfound hremembers _, rfl⟩

end HasNamed

/-- Whatever comes of it, naming does nothing but give names of shapes to experiments, and it returns
those that have got one. -/
theorem hasNamed_nameShapes (hregular : trainer.registry.Regular)
    (shapes : List (String × String)) :
    ∃ granted, trainer.HasNamed shapes granted ((nameShapes shapes).run trainer).2 ∧
      Returns ((nameShapes shapes).run trainer).2 shapes (granted.map Prod.fst)
        ((nameShapes shapes).run trainer).1 := by
  induction shapes using List.reverseRecOn with
  | nil =>
      exact ⟨[], ⟨hregular, .refl _, List.Sublist.refl _, nofun, trainer.events, rfl⟩, rfl⟩
  | append_singleton shapes shape ih =>
      obtain ⟨name, text⟩ := shape
      obtain ⟨granted, hnamed, hreturns⟩ := ih
      rcases hrun : (nameShapes shapes).run trainer with ⟨result, middle⟩
      rw [hrun] at hnamed hreturns
      rw [nameShapes_append]
      cases result with
      | error fault =>
          obtain ⟨shape, hshape, hfault⟩ := hreturns
          rw [run_bind_of_error hrun]
          exact ⟨granted, hnamed.append _, shape, List.mem_append_left _ hshape, hfault⟩
      | ok serials =>
          obtain rfl : serials = granted.map Prod.fst := hreturns
          rw [run_bind_of_ok hrun]
          obtain ⟨more, hmore, hadded⟩ := hnamed.step hrun name text
          rcases hlast : (nameShapes [(name, text)]).run middle with ⟨result, after⟩
          rw [hlast] at hmore hadded
          cases result with
          | error fault =>
              obtain ⟨shape, hshape, hfault⟩ := hadded
              rw [run_bind_of_error hlast]
              exact ⟨granted ++ more, hmore, shape, List.mem_append_right _ hshape, hfault⟩
          | ok added =>
              obtain rfl : added = more.map Prod.fst := hadded
              rw [run_bind_of_ok hlast]
              exact ⟨granted ++ more, hmore, List.map_append.symm⟩

/-- What naming has done if it has come to an end. -/
theorem hasNamed_of_run (hregular : trainer.registry.Regular) {serials : List Serial}
    (hrun : (nameShapes shapes).run trainer = (.ok serials, after)) :
    ∃ granted, trainer.HasNamed shapes granted after ∧ serials = granted.map Prod.fst := by
  obtain ⟨granted, hnamed, hreturns⟩ := hasNamed_nameShapes hregular shapes
  rw [hrun] at hnamed hreturns
  exact ⟨granted, hnamed, hreturns⟩

/-! ## Shapes that are passed over -/

/-- The text of a shape can be read, and it does not refer to the names of later shapes. -/
structure Ordered (shapes : List (String × String)) : Prop where
  ranges : ∀ shape ∈ shapes, Lexeme.ReadsRanges shape.2
  unmentioned : shapes.Pairwise fun shape later => ¬ Lexeme.Mentions shape.2 later.1

/-- If the name of a shape was free in its turn and still is, the shape is passed over also in the
end. -/
theorem shaped_eq_none_of_free (hordered : Ordered shapes) (hregular : trainer.registry.Regular)
    {serials : List Serial} (hrun : (nameShapes shapes).run trainer = (.ok serials, after))
    (hturn : trainer.FreeInTurn shapes name text) (hafter : after.registry.named? name = none) :
    after.registry.shaped text = .ok none := by
  -- The run is cut before and behind the turn of the shape; the name is free at both places.
  obtain ⟨_, moment, ⟨earlier, later, rfl, hearlier⟩, hfree⟩ := hturn
  rw [nameShapes_append, run_bind_of_ok hearlier, nameShapes_cons] at hrun
  obtain ⟨_, last, hrun, hlast⟩ := run_bind_eq_ok_iff.mp hrun
  obtain ⟨_, middle, hmoment, hrun⟩ := run_bind_eq_ok_iff.mp hrun
  obtain ⟨_, other, hlater, hother⟩ := run_bind_eq_ok_iff.mp hrun
  cases hother
  cases hlast
  obtain ⟨first, hfirst, -⟩ := hasNamed_of_run hregular hearlier
  obtain ⟨second, hsecond, -⟩ := hasNamed_of_run hfirst.regular hmoment
  obtain ⟨third, hthird, -⟩ := hasNamed_of_run hsecond.regular hlater
  have hstill : middle.registry.named? name = none :=
    hsecond.christens.free_between hthird.christens hfree hafter
  have hconsiders := considers_nameShapes hfirst.regular name text
  rw [hmoment] at hconsiders
  cases hconsiders with
  | taken htaken =>
      rw [hfree] at htaken
      cases htaken
  | named hfree hfound hremembers => simp [named?, Registry.renamed] at hstill
  | passed hfree hnone hremembers =>
      -- What comes later gives only names that the text does not mention.
      have hchristens := ((Christens.refl moment.registry).stores hremembers.same).trans
        hthird.christens
      have hranges := hordered.ranges _ (List.mem_append_right _ List.mem_cons_self)
      apply hchristens.shaped_eq_none hfirst.regular.toRooted hranges _ hnone
      intro given hgiven
      obtain ⟨entry, hentry, rfl⟩ := List.mem_map.mp (hthird.sublist.subset hgiven)
      have hpairwise := (List.pairwise_append.mp hordered.unmentioned).2.1
      exact (List.pairwise_cons.mp hpairwise).1 entry hentry

/-- Naming does nothing where every shape whose name is free is passed over. -/
theorem run_nameShapes_of_settled (hregular : trainer.registry.Regular)
    (hsettled : ∀ shape ∈ shapes, trainer.registry.named? shape.1 = none →
      trainer.registry.shaped shape.2 = .ok none) :
    ∃ registry, (nameShapes shapes).run trainer = (.ok [], { trainer with registry }) ∧
      trainer.registry.OnlyStores registry := by
  induction shapes generalizing trainer with
  | nil => exact ⟨trainer.registry, rfl, rfl⟩
  | cons shape rest ih =>
      obtain ⟨name, text⟩ := shape
      obtain ⟨hshape, hrest⟩ := List.forall_mem_cons.mp hsettled
      have hlater {registry : Registry} (hremembers : trainer.registry.Remembers registry)
          (hrun : (nameShapes [(name, text)]).run trainer = (.ok [], { trainer with registry })) :
          ∃ registry, (nameShapes ((name, text) :: rest)).run trainer =
              (.ok [], { trainer with registry }) ∧ trainer.registry.OnlyStores registry := by
        have hstill : ∀ shape ∈ rest, registry.named? shape.1 = none →
            registry.shaped shape.2 = .ok none := by
          intro shape hshape hfree
          rw [hremembers.shaped_eq hregular.toRooted]
          exact hrest shape hshape ((hremembers.named? shape.1).symm.trans hfree)
        obtain ⟨last, hlast, hstores⟩ :=
          @ih { trainer with registry } (hregular.recalled hremembers) hstill
        refine ⟨last, ?_, Growth.trans hremembers.same hstores⟩
        rw [nameShapes_cons, run_bind_of_ok hrun, run_bind_of_ok hlast]
        rfl
      have hconsiders := considers_nameShapes hregular name text
      generalize hrun : (nameShapes [(name, text)]).run trainer = outcome at hconsiders
      cases hconsiders with
      | taken htaken => exact hlater hregular.remembers hrun
      | passed hfree hnone hremembers => exact hlater hremembers hrun
      | failed hfree hfault hremembers => cases hfault.symm.trans (hshape hfree)
      | named hfree hfound hremembers => cases hfound.symm.trans (hshape hfree)

/-! ## The known shapes -/

theorem ordered_knownShapes : Ordered knownShapes where
  ranges shape hshape := (legible_knownShapes shape hshape).2
  unmentioned := by decide +kernel

/-- Naming gives names of known shapes to experiments, each name to one of them at most, and changes
nothing else. No full description is another one after it. It fails only where something cannot be
told. If it ends it returns those that have got names; no experiment has a shape whose name was free
in its turn and still is; and naming once more does nothing if all the names that are free now were
free in their turn. -/
theorem naming_exact (hregular : trainer.registry.Regular) {result : Except Fault (List Serial)}
    (hrun : nameKnownPatterns.run trainer = (result, after)) :
    ∃ granted, trainer.HasNamed knownShapes granted after ∧ (granted.map Prod.snd).Nodup ∧
      (∀ entry ∈ trainer.registry.registered,
        after.registry.descriptionOf (entry.1, christened granted entry.1 entry.2) =
          trainer.registry.descriptionOf entry) ∧
      (∀ fault, result = .error fault →
        ∃ shape ∈ knownShapes, after.registry.Untold shape.2 fault) ∧
      ∀ serials, result = .ok serials → serials = granted.map Prod.fst ∧
        (∀ name text, trainer.FreeInTurn knownShapes name text →
          after.registry.named? name = none → after.registry.Unmatched text) ∧
        ((∀ shape ∈ knownShapes, after.registry.named? shape.1 = none →
            trainer.FreeInTurn knownShapes shape.1 shape.2) →
          ∃ registry, nameKnownPatterns.run after = (.ok [], { after with registry }) ∧
            after.registry.OnlyStores registry) := by
  obtain ⟨granted, hnamed, hreturns⟩ := hasNamed_nameShapes hregular knownShapes
  change (nameShapes knownShapes).run trainer = (result, after) at hrun
  rw [hrun] at hnamed hreturns
  have hnames : (knownShapes.map Prod.fst).Nodup := by decide
  refine ⟨granted, hnamed, hnames.sublist hnamed.sublist, fun entry hentry =>
    hnamed.descriptionOf_eq hregular hentry, ?_, ?_⟩
  · rintro fault rfl
    obtain ⟨shape, hshape, hfault⟩ := hreturns
    exact ⟨shape, hshape, hnamed.regular.untold_of_shaped hfault⟩
  · rintro serials rfl
    have hpassed {name text : String} (hturn : trainer.FreeInTurn knownShapes name text)
        (hfree : after.registry.named? name = none) : after.registry.shaped text = .ok none :=
      shaped_eq_none_of_free ordered_knownShapes hregular hrun hturn hfree
    refine ⟨hreturns, ?_, ?_⟩
    · intro name text hturn hfree
      exact hnamed.regular.unmatched_of_shaped (hpassed hturn hfree)
    · intro hturns
      apply run_nameShapes_of_settled hnamed.regular
      intro shape hshape hfree
      exact hpassed (hturns shape hshape hfree) hfree

/-- A trainer on the registry that operations leave. -/
def onHistory (operations : List Operation) : Trainer where
  registry := history operations

theorem regular_onHistory (operations : List Operation) :
    (onHistory operations).registry.Regular :=
  (tidy_history operations).regular

theorem exists_run_of_toOption {serials : List Serial}
    (hrun : (nameKnownPatterns.run trainer).1.toOption = some serials) :
    ∃ after, nameKnownPatterns.run trainer = (.ok serials, after) ∧
      after = (nameKnownPatterns.run trainer).2 := by
  rcases hpair : nameKnownPatterns.run trainer with ⟨result, after⟩
  rw [hpair] at hrun
  cases result with
  | error fault => cases hrun
  | ok found =>
      obtain rfl : found = serials := Option.some.inj hrun
      exact ⟨after, rfl, rfl⟩

/-- Operations after which there is an experiment of each shape. -/
def unnamed : List Operation := [
  .addLiteral "a" (some "Letter") (-1) .literal,
  .addLiteral "0" (some "Digit") (-1) .literal,
  .addLiteral " " (some "Space") (-1) .literal,
  .registerExperiment "<Letter! Letter+",
  .registerExperiment "<Digit! Digit+",
  .registerExperiment "<Space! Space+",
  .registerExperiment "<( [3] Space )! ( [3] Space )+ [3]"]

theorem naming_exact_unnamed :
    ∃ after registry granted, nameKnownPatterns.run (onHistory unnamed) =
        (.ok [3, 4, 5, 6], after) ∧
      granted.map Prod.fst = [3, 4, 5, 6] ∧ (onHistory unnamed).HasNamed knownShapes granted after ∧
      nameKnownPatterns.run after = (.ok [], { after with registry }) := by
  obtain ⟨hfirst, htaken⟩ :
      (nameKnownPatterns.run (onHistory unnamed)).1.toOption = some [3, 4, 5, 6] ∧
        ∀ shape ∈ knownShapes,
          (nameKnownPatterns.run (onHistory unnamed)).2.registry.named? shape.1 ≠ none := by
    decide +kernel
  obtain ⟨after, hrun, hafter⟩ := exists_run_of_toOption hfirst
  rw [← hafter] at htaken
  obtain ⟨granted, hnamed, -, -, -, hends⟩ := naming_exact (regular_onHistory unnamed) hrun
  obtain ⟨hserials, -, hagain⟩ := hends _ rfl
  obtain ⟨registry, hsecond, -⟩ := hagain fun shape hshape hfree =>
    absurd hfree (htaken shape hshape)
  exact ⟨after, registry, granted, hrun, hserials.symm, hnamed, hsecond⟩

/-- Operations after which there are experiments that have names of other shapes. -/
def misnamed : List Operation := [
  .addLiteral "a" (some "Letter") (-1) .literal,
  .addLiteral "0" (some "Digit") (-1) .literal,
  .addLiteral " " (some "Space") (-1) .literal,
  .register (some "Number") .experimental "<Letter! Letter+" (-1),
  .registerExperiment "<Digit! Digit+",
  .register (some "Spaces") .experimental "<( Number Space )! ( Number Space )+ Number" (-1),
  .registerExperiment "<Space! Space+"]

/-- A name that an experiment gives up for another one may go to a later experiment, at once or only
when naming is repeated. -/
theorem naming_repeats_misnamed :
    (onHistory misnamed).registry.Regular ∧
      (onHistory misnamed).registry.named? "Number" = some 3 ∧
      ∃ middle last, nameKnownPatterns.run (onHistory misnamed) = (.ok [3, 4, 5], middle) ∧
        middle.registry.named? "Number" = some 4 ∧ middle.registry.named? "Spaces" = none ∧
        nameKnownPatterns.run middle = (.ok [6], last) := by
  obtain ⟨hfirst, hnumber, hspaces, hsecond⟩ :
      (nameKnownPatterns.run (onHistory misnamed)).1.toOption = some [3, 4, 5] ∧
        (nameKnownPatterns.run (onHistory misnamed)).2.registry.named? "Number" = some 4 ∧
        (nameKnownPatterns.run (onHistory misnamed)).2.registry.named? "Spaces" = none ∧
        (nameKnownPatterns.run
          (nameKnownPatterns.run (onHistory misnamed)).2).1.toOption = some [6] := by
    decide +kernel
  obtain ⟨middle, hrun, hmiddle⟩ := exists_run_of_toOption hfirst
  rw [← hmiddle] at hnumber hspaces hsecond
  obtain ⟨last, hagain, -⟩ := exists_run_of_toOption hsecond
  exact ⟨regular_onHistory misnamed, by decide +kernel, middle, last, hrun, hnumber, hspaces,
    hagain⟩

end Trainer

end Motif
