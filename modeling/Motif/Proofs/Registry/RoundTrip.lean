import Motif.Proofs.Registry.Operations

/-!
# Describing and compiling again

The description of a compiled pattern is compiled to a pattern with the same full description.
-/

namespace Motif.Registry

variable {registry : Registry}

/-- Names and ids with which text can refer to every registered pattern. -/
theorem Orderly.names (horderly : registry.Orderly)
    (hnames : ∀ pattern ∈ registry.patterns, ∀ name, pattern.name = some name →
      name ≠ "" ∧ name.toList.getLast? ≠ some '\n')
    (hids : ∀ pattern ∈ registry.patterns, pattern.id < 10 ^ 9) {alternatives : List (List Node)}
    (hknown : registry.Knows alternatives) : registry.Names alternatives := by
  intro id hid
  obtain ⟨pattern, hfound⟩ := Option.isSome_iff_exists.mp (hknown id hid)
  have hpattern := horderly.coherent.mem_patterns hfound
  refine ⟨pattern, hfound, hnames pattern hpattern, fun _ => ⟨?_, hids pattern hpattern⟩⟩
  obtain ⟨serial, hentry, -⟩ := horderly.coherent.exists_entry hpattern
  exact (horderly.bounded _ _ hentry).1

/-- In every registry that operations lead to, the description of a compiled pattern is compiled to a
pattern that has the same full description, whatever the two are named. -/
theorem compile_describe (hbuilt : registry.Built)
    (hnames : ∀ pattern ∈ registry.patterns, ∀ name, pattern.name = some name →
      name ≠ "" ∧ name.toList.getLast? ≠ some '\n')
    (hids : ∀ pattern ∈ registry.patterns, pattern.id < 10 ^ 9)
    {text : String} {name : Option String} {kind : Kind} {pattern : Pattern}
    (hcompile : registry.compile text name kind = .ok pattern) (other : Option String)
    (level : Kind) :
    ∃ description again full, registry.describe pattern = .ok description ∧
      registry.compile description other level = .ok again ∧
        ((do
          let first ← describeFully none pattern
          let second ← describeFully none again
          return (first, second) : Action (String × String)).run registry).1 = .ok (full, full) := by
  have hconsistent := hbuilt.consistent
  have hsound := hconsistent.sound
  have hfits := fits_of_compile hcompile
  obtain ⟨alternatives, penalty, -, hcanonical, hknown, rfl⟩ := compile_eq_ok hcompile
  have hwritable := hconsistent.toOrderly.names hnames hids hknown
  have hlegible : registry.Legible := fun found hfound =>
    hconsistent.toOrderly.names hnames hids
      (hsound.knows (hconsistent.coherent.mem_patterns_iff.mp hfound))
  have hdescribe : registry.describe
      { kind, name, content := .tree (.plainGroup alternatives), penalty } =
        .ok (Phrase.textOf (registry.phrases false alternatives)) :=
    describe_eq hsound hlegible false rfl hcanonical hwritable
  have htree := compileTree_phrases hsound hconsistent.named hlegible false hcanonical
    hwritable other
  have hknownAgain := knows_recompiled hsound hconsistent.named hlegible false hcanonical
    hwritable
  obtain ⟨cost, hagain⟩ := exists_compile htree hknownAgain level
  have hfitsAgain := fits_of_compile hagain
  refine ⟨_, _, registry.fullText (.tree (.plainGroup alternatives)), hdescribe, hagain, ?_⟩
  have hfirst := settles_describeFully hsound hfits (standsAt_none _)
  have hsecond := settles_describeFully hsound hfitsAgain (standsAt_none _)
  have hsame := fullPhrases_recompiled hsound hconsistent.named hlegible false hwritable
  have htext : registry.fullText (.tree (Node.plainGroup (Phrase.treesOfAlternatives
      registry.scope.target (registry.phrases false alternatives))).reduceRoot) =
        registry.fullText (.tree (.plainGroup alternatives)) := by
    rw [Node.reduceRoot_plainGroup]
    exact congrArg Phrase.textOf hsame
  dsimp only at hfirst hsecond
  rw [htext] at hsecond
  refine Settles.run_eq (hfirst.bind ?_) hconsistent.recalls
  exact hsecond.bind (.pure _)

/-- A registry of a single literal. -/
def lettered : Registry where
  ledger := #[{ kind := .literal, name := some "A", content := .literal "a", id := 0 }]
  entries := [(0, 0)]
  names := [("A", 0)]
  literals := [("a", 0)]
  nextId := 1

/-- A registry of a literal and a nameless pattern that repeats it. -/
def repeating : Registry where
  ledger := #[{ kind := .literal, name := some "A", content := .literal "a", id := 0 },
    { kind := .derived, content := .tree (.plainGroup [[.ref 0 ⟨1, -1⟩ .here]]), penalty := 3, id := 1 }]
  entries := [(0, 0), (1, 1)]
  names := [("A", 0)]
  literals := [("a", 0)]
  nextId := 2

theorem built_repeating : repeating.Built := by
  have hlettered : ((addLiteral "a" (some "A") (-1) .literal).run {}).2 = lettered := rfl
  have hcheck : lettered.checkName none = .ok () := rfl
  have hcompile : lettered.compile "A+" none .derived = .ok {
      kind := .derived, content := .tree (.plainGroup [[.ref 0 ⟨1, -1⟩ .here]]), penalty := 3 } := rfl
  have hrepeating : ((register none .derived "A+" (-1)).run lettered).2 = repeating := by
    unfold register
    rw [run_read_bind, run_lift_bind, hcheck]
    dsimp only
    rw [run_lift_bind, hcompile]
    rfl
  rw [← hrepeating, ← hlettered]
  exact .register (.addLiteral .empty "a" (some "A") (-1) .literal) none .derived "A+" (-1)

theorem compile_describe_repeating :
    ∃ pattern description again full, repeating.compile "<[1] [1]?" = .ok pattern ∧
      repeating.describe pattern = .ok description ∧ repeating.compile description = .ok again ∧
        ((do
          let first ← describeFully none pattern
          let second ← describeFully none again
          return (first, second) : Action (String × String)).run repeating).1 = .ok (full, full) := by
  have hpatterns : repeating.patterns =
      [{ kind := .literal, name := some "A", content := .literal "a", id := 0 },
       { kind := .derived, content := .tree (.plainGroup [[.ref 0 ⟨1, -1⟩ .here]]), penalty := 3, id := 1 }] :=
    rfl
  have hcompiles : (repeating.compile "<[1] [1]?").toOption.isSome = true := by decide +kernel
  cases hcompile : repeating.compile "<[1] [1]?" with
  | error fault =>
      rw [hcompile] at hcompiles
      cases hcompiles
  | ok pattern =>
      obtain ⟨description, again, full, hdescribe, hagain, hfull⟩ :=
        compile_describe built_repeating (by simp [hpatterns]) (by simp [hpatterns]) hcompile none
          .experimental
      exact ⟨pattern, description, again, full, rfl, hdescribe, hagain, hfull⟩

end Motif.Registry
