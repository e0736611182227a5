import Motif.Proofs.Registry.Anew
import Motif.Proofs.Registry.Rolls

/-!
# Experiments that get names

Where experiments are given free names and become derived patterns, nothing else changes: ids,
contents and full descriptions are the same as before, and a text that does not mention any of the
names is compiled as before, unless a name that it mentions has been given up.
-/

namespace Motif

/-- The name by which a symbol refers to a pattern. -/
def Symbol.name? : Symbol → Option String
  | .name text => some text
  | .quoted text => some (Text.unquote text)
  | _ => none

namespace Lexeme

/-- The pattern text refers to the pattern of a name. -/
def Mentions (text name : String) : Prop :=
  ∃ lexemes, read text = .ok lexemes ∧ ∃ lexeme ∈ lexemes, lexeme.symbol.name? = some name

instance (text name : String) : Decidable (Mentions text name) :=
  decidable_of_iff (∃ lexemes ∈ (read text).toOption,
    ∃ lexeme ∈ lexemes, lexeme.symbol.name? = some name) <| by
    unfold Mentions
    cases read text <;> simp [Except.toOption]

end Lexeme

namespace Registry

variable {registry state first second third : Registry}

/-! ## The same contents -/

/-- What a pattern is, whatever its name and its kind are. -/
def substance (pattern : Pattern) : Int × Content × Int :=
  (pattern.id, pattern.content, pattern.penalty)

/-- The same ids lead to patterns with the same contents. -/
structure SameContents (first second : Registry) : Prop where
  entries_eq : second.entries = first.entries
  substance_eq : ∀ serial,
    (second.pattern? serial).map substance = (first.pattern? serial).map substance

namespace SameContents

variable (hsame : SameContents first second)
include hsame

theorem symm : SameContents second first where
  entries_eq := hsame.entries_eq.symm
  substance_eq serial := (hsame.substance_eq serial).symm

theorem exists_pattern {serial : Serial} {pattern : Pattern}
    (hpattern : first.pattern? serial = some pattern) :
    ∃ other, second.pattern? serial = some other ∧ substance other = substance pattern := by
  have hsubstance := hsame.substance_eq serial
  rw [hpattern, Option.map_some, Option.map_eq_some_iff] at hsubstance
  exact hsubstance

theorem exists_registered {serial : Serial} {pattern : Pattern}
    (hregistered : (serial, pattern) ∈ first.registered) :
    ∃ other, (serial, other) ∈ second.registered ∧ substance other = substance pattern := by
  simp only [registered, List.mem_filterMap, Option.map_eq_some_iff] at hregistered
  obtain ⟨⟨id, serial⟩, hentry, pattern, hpattern, ⟨⟩⟩ := hregistered
  obtain ⟨other, hother, hsubstance⟩ := hsame.exists_pattern hpattern
  rw [← hsame.entries_eq] at hentry
  exact ⟨other, mem_registered_of_entry hentry hother, hsubstance⟩

theorem substance_byId? (id : Int) :
    (second.byId? id).map substance = (first.byId? id).map substance := by
  rw [byId?, byId?, serialOf?, serialOf?, hsame.entries_eq]
  cases first.entries.lookup id with
  | none => rfl
  | some serial => exact hsame.substance_eq serial

theorem agrees : Agrees first second := by
  intro id pattern hpattern
  have hsubstance := hsame.substance_byId? id
  rw [hpattern, Option.map_some, Option.map_eq_some_iff] at hsubstance
  obtain ⟨other, hother, hsubstance⟩ := hsubstance
  exact ⟨other, hother, congrArg (fun known => known.2.1) hsubstance⟩

theorem known {id : Int} (hid : (first.byId? id).isSome) : (second.byId? id).isSome := by
  obtain ⟨pattern, hpattern⟩ := Option.isSome_iff_exists.mp hid
  obtain ⟨other, hother, -⟩ := hsame.agrees id pattern hpattern
  exact Option.isSome_of_eq_some hother

theorem coherent (hcoherent : first.Coherent) : second.Coherent where
  nodup_ids := by
    rw [hsame.entries_eq]
    exact hcoherent.nodup_ids
  exists_pattern {id serial} hentry := by
    rw [hsame.entries_eq] at hentry
    obtain ⟨pattern, hpattern, hid⟩ := hcoherent.exists_pattern hentry
    obtain ⟨other, hother, hsubstance⟩ := hsame.exists_pattern hpattern
    exact ⟨other, hother, (congrArg Prod.fst hsubstance).trans hid⟩

/-- A registered pattern has its content from one that was registered. -/
theorem exists_origin (hcoherent : first.Coherent) {pattern : Pattern}
    (hpattern : pattern ∈ second.patterns) :
    ∃ origin ∈ first.patterns, origin.content = pattern.content := by
  have hfound := (hsame.coherent hcoherent).mem_patterns_iff.mp hpattern
  obtain ⟨origin, horigin, hcontent⟩ := hsame.symm.agrees _ pattern hfound
  exact ⟨origin, hcoherent.mem_patterns horigin, hcontent⟩

theorem rooted (hrooted : first.Rooted) : second.Rooted where
  coherent := hsame.coherent hrooted.coherent
  closed := by
    intro pattern hpattern id hid
    obtain ⟨origin, horigin, hcontent⟩ := hsame.exists_origin hrooted.coherent hpattern
    rw [← hcontent] at hid
    exact hsame.known (hrooted.closed origin horigin id hid)
  acyclic := by
    have hrefers : ∀ id other, second.Refers id other → first.Refers id other := by
      rintro id other ⟨pattern, hpattern, hother⟩
      obtain ⟨origin, horigin, hcontent⟩ := hsame.symm.agrees id pattern hpattern
      rw [← hcontent] at hother
      exact ⟨origin, horigin, hother⟩
    intro id hcycle
    exact hrooted.acyclic id (Relation.TransGen.mono hrefers id id hcycle)
  isGroup := by
    intro pattern hpattern root hroot
    obtain ⟨origin, horigin, hcontent⟩ := hsame.exists_origin hrooted.coherent hpattern
    exact hrooted.isGroup origin horigin root (hcontent.trans hroot)

theorem penalty_get (id : Int) :
    (second.get id).map Pattern.penalty = (first.get id).map Pattern.penalty := by
  have hsubstance := hsame.substance_byId? id
  rw [get, get]
  cases hsecond : second.byId? id with
  | none =>
      rw [hsecond, Option.map_none, eq_comm, Option.map_eq_none_iff] at hsubstance
      rw [hsubstance]
  | some pattern =>
      rw [hsecond, Option.map_some, eq_comm, Option.map_eq_some_iff] at hsubstance
      obtain ⟨other, hother, hsubstance⟩ := hsubstance
      rw [hother]
      exact congrArg Except.ok (congrArg (fun known => known.2.2) hsubstance).symm

/-- What was right to store in the first registry is so in the second one. -/
theorem remembers (hrooted : first.Rooted) (hremembers : first.Remembers state)
    (htrees : second.trees = state.trees) (hdescriptions : second.descriptions = state.descriptions) :
    second.Remembers second where
  same := rfl
  trees := by
    intro serial tree hstored
    rw [htrees] at hstored
    obtain ⟨id, hentry, hexpansion⟩ := hremembers.trees serial tree hstored
    have hknown : (first.byId? id).isSome :=
      hrooted.coherent.byId?_isSome_iff.mpr (List.mem_map_of_mem hentry)
    refine ⟨id, hsame.entries_eq ▸ hentry, ?_⟩
    rw [← hexpansion]
    exact (expansion_eq_of_agrees hrooted.toGrounded (hsame.rooted hrooted).toGrounded hsame.agrees
      hknown).symm
  descriptions := by
    intro serial text hstored
    rw [hdescriptions] at hstored
    obtain ⟨pattern, hregistered, hdescribe⟩ := hremembers.descriptions serial text hstored
    obtain ⟨other, hother, hsubstance⟩ := hsame.exists_registered hregistered
    refine ⟨other, hother, ?_⟩
    rw [describeAnew_congr (congrArg (fun known => known.2.1) hsubstance), ← hdescribe]
    exact hsame.agrees.describeAnew_eq hrooted (hsame.rooted hrooted) (hrooted.suits hregistered)

theorem idOf_scope {name : String} {id : Int}
    (hnamed : ∀ serial, second.named? name = some serial → first.named? name = some serial)
    (hid : second.scope.idOf name = some id) : first.scope.idOf name = some id := by
  obtain ⟨pattern, hpattern, rfl⟩ := Option.map_eq_some_iff.mp hid
  obtain ⟨serial, hserial, hfound⟩ := Option.bind_eq_some_iff.mp hpattern
  obtain ⟨other, hother, hsubstance⟩ := hsame.symm.exists_pattern hfound
  have hid : other.id = pattern.id := congrArg Prod.fst hsubstance
  simp [scope, hnamed serial hserial, hother, hid]

theorem compile_eq_of_compileTree {text : String} {root : Node}
    (hfirst : compileTree first.scope text = .ok root)
    (hsecond : compileTree second.scope text = .ok root) :
    second.compile text = first.compile text := by
  have hpenalty : (root.penalty fun id => (second.get id).map Pattern.penalty) =
      root.penalty fun id => (first.get id).map Pattern.penalty :=
    Node.penalty_congr fun id _ => hsame.penalty_get id
  rw [compile, compile, hfirst, hsecond]
  change (do let penalty ← root.penalty _; _) = (do let penalty ← root.penalty _; _)
  rw [hpenalty]

/-- A text is compiled as before, or it is refused since a name is unknown to which it refers. -/
theorem compile_eq_or_refused {text : String} (hranges : Lexeme.ReadsRanges text)
    (hnames : ∀ name, Lexeme.Mentions text name → ∀ serial, second.named? name = some serial →
      first.named? name = some serial) :
    second.compile text = first.compile text ∨
      ∃ fault, second.compile text = .error (.pattern fault) := by
  cases hroot : compileTree second.scope text with
  | error fault =>
      have hblames := (accuses_compileTree second.scope text none).blames hranges.not_isRangeFault
      obtain ⟨cause, rfl⟩ := hblames fault hroot
      refine .inr ⟨cause, ?_⟩
      rw [compile, hroot]
      rfl
  | ok root =>
      -- Whatever a symbol of the text leads to now it has led to before.
      left
      apply hsame.compile_eq_of_compileTree _ hroot
      apply compileTree_widen _ hroot
      intro lexemes hread lexeme hlexeme id hresolves
      generalize hsymbol : lexeme.symbol = symbol at hresolves
      have hmentioned {name : String} (hname : symbol.name? = some name) :
          Lexeme.Mentions text name :=
        ⟨lexemes, hread, lexeme, hlexeme, hsymbol ▸ hname⟩
      cases hresolves with
      | id hnumber hknown => exact .id hnumber (hsame.symm.known hknown)
      | name hknown => exact .name (hsame.idOf_scope (hnames _ (hmentioned rfl)) hknown)
      | quoted hknown => exact .quoted (hsame.idOf_scope (hnames _ (hmentioned rfl)) hknown)

end SameContents

/-! ## Regular registries -/

/-- References can be followed to their end, trees are groups, no name is given twice, and nothing
is stored but what would be computed anew. -/
structure Regular (registry : Registry) : Prop extends Rooted registry where
  nodup_names : (registry.names.map Prod.fst).Nodup
  trees : ∀ serial tree, registry.trees[serial]? = some tree →
    ∃ pattern root, (serial, pattern) ∈ registry.registered ∧ pattern.content = .tree root ∧
      registry.expandAnew root = .ok tree
  descriptions : ∀ serial text, registry.descriptions[serial]? = some text →
    ∃ pattern, (serial, pattern) ∈ registry.registered ∧ registry.describeAnew pattern = .ok text

theorem Tidy.regular (htidy : registry.Tidy) : registry.Regular where
  toRooted := htidy.sound.rooted
  nodup_names := htidy.nodup_names
  trees _ _ := htidy.exists_of_stored_tree
  descriptions _ _ := htidy.exists_of_stored_description

theorem Rooted.expandAnew_eq_expansion (hrooted : registry.Rooted) {serial : Serial}
    {pattern : Pattern} {root : Node} (hregistered : (serial, pattern) ∈ registry.registered)
    (hcontent : pattern.content = .tree root) :
    ∃ tree, registry.expandAnew root = .ok tree ∧ registry.expansion pattern.id = some tree := by
  have hsuits := hrooted.suits hregistered
  have hknown := hsuits.known
  rw [hcontent] at hknown
  have hfound := hrooted.coherent.mem_patterns_iff.mp (mem_registered hregistered).2
  have hexpansion := expansion_eq hrooted.toGrounded hfound
  rw [hcontent, expandContent] at hexpansion
  obtain ⟨alternatives, quantity, look, rfl⟩ := hsuits.isGroup root hcontent
  exact ⟨_, expandAnew_eq hrooted hknown, hexpansion⟩

theorem Regular.remembers (hregular : registry.Regular) : registry.Remembers registry where
  same := rfl
  trees := by
    intro serial tree hstored
    obtain ⟨pattern, root, hregistered, hcontent, hanew⟩ := hregular.trees serial tree hstored
    obtain ⟨other, hother, hexpansion⟩ :=
      hregular.toRooted.expandAnew_eq_expansion hregistered hcontent
    obtain rfl : tree = other := Except.ok.inj (hanew.symm.trans hother)
    exact ⟨pattern.id, hregular.coherent.mem_entries_of_registered hregistered, hexpansion⟩
  descriptions := hregular.descriptions

theorem Remembers.regular (hremembers : registry.Remembers registry) (hrooted : registry.Rooted)
    (hnames : (registry.names.map Prod.fst).Nodup) : registry.Regular where
  toRooted := hrooted
  nodup_names := hnames
  trees := by
    intro serial tree hstored
    obtain ⟨id, hentry, hexpansion⟩ := hremembers.trees serial tree hstored
    obtain ⟨pattern, hpattern, rfl⟩ := hrooted.coherent.exists_pattern hentry
    have hregistered := mem_registered_of_entry hentry hpattern
    cases hcontent : pattern.content with
    | literal text =>
        have hfound := hrooted.coherent.byId?_eq_some_iff.mpr ⟨serial, hentry, hpattern⟩
        rw [expansion_eq hrooted.toGrounded hfound, hcontent] at hexpansion
        cases hexpansion
    | tree root =>
        obtain ⟨other, hother, hsame⟩ := hrooted.expandAnew_eq_expansion hregistered hcontent
        obtain rfl : tree = other := Option.some.inj (hexpansion.symm.trans hsame)
        exact ⟨pattern, root, hregistered, hcontent, hother⟩
  descriptions := hremembers.descriptions

theorem OnlyStores.sameContents (hstores : registry.OnlyStores state) :
    SameContents registry state := by
  rw [hstores]
  exact ⟨rfl, fun _ => rfl⟩

/-- What is right to store may be stored. -/
theorem Regular.recalled (hregular : registry.Regular) (hremembers : registry.Remembers state) :
    state.Regular := by
  have hsame := hremembers.same.sameContents
  apply (hsame.remembers hregular.toRooted hremembers rfl rfl).regular
    (hsame.rooted hregular.toRooted)
  rw [hremembers.same]
  exact hregular.nodup_names

section Renaming

variable {serial : Serial} {pattern : Pattern} {name : String} {kind : Option Kind}

theorem sameContents_renamed (hpattern : registry.pattern? serial = some pattern) :
    SameContents registry (registry.renamed serial pattern name kind) where
  entries_eq := rfl
  substance_eq other := by
    rw [pattern?_renamed hpattern]
    split
    next hother =>
      subst hother
      rw [hpattern]
      rfl
    next => rfl

theorem nodup_names_renamed (hnames : (registry.names.map Prod.fst).Nodup) :
    ((registry.renamed serial pattern name kind).names.map Prod.fst).Nodup := by
  simp only [renamed, List.map_cons, List.nodup_cons]
  constructor
  · simp
  · apply List.Nodup.sublist _ hnames
    apply List.Sublist.map
    exact List.filter_sublist.trans List.filter_sublist

theorem Regular.renamed (hregular : registry.Regular)
    (hpattern : registry.pattern? serial = some pattern) :
    (registry.renamed serial pattern name kind).Regular := by
  have hsame : SameContents registry (registry.renamed serial pattern name kind) :=
    sameContents_renamed hpattern
  exact (hsame.remembers hregular.toRooted hregular.remembers rfl rfl).regular
    (hsame.rooted hregular.toRooted) (nodup_names_renamed hregular.nodup_names)

end Renaming

/-! ## Names that are given -/

/-- The pattern of a serial with the name that it has been given; then it is a derived one. -/
def christened (granted : List (Serial × String)) (serial : Serial) (pattern : Pattern) : Pattern :=
  match granted.lookup serial with
  | none => pattern
  | some name => { pattern with name := some name, kind := .derived }

@[simp]
theorem content_christened (granted : List (Serial × String)) (serial : Serial)
    (pattern : Pattern) : (christened granted serial pattern).content = pattern.content := by
  unfold christened
  split <;> rfl

/-- The registries differ in what has been stored and in the names that have been given to
experiments, each of which is a derived pattern now and has given up the name that it had. -/
structure Christens (first : Registry) (granted : List (Serial × String)) (second : Registry) :
    Prop where
  entries_eq : second.entries = first.entries
  nextId_eq : second.nextId = first.nextId
  literals_eq : second.literals = first.literals
  pattern?_eq : ∀ serial,
    second.pattern? serial = (first.pattern? serial).map (christened granted serial)
  nodup : (granted.map Prod.fst).Nodup
  experimental : ∀ serial name, (serial, name) ∈ granted →
    ∃ pattern, (serial, pattern) ∈ first.registered ∧ pattern.kind = .experimental
  named : ∀ serial name, (serial, name) ∈ granted → second.named? name = some serial
  kept : ∀ name serial, first.named? name = some serial → second.named? name ≠ some serial →
    ∃ other, (serial, other) ∈ granted
  origin : ∀ name serial, second.named? name = some serial →
    (serial, name) ∈ granted ∨ first.named? name = some serial

theorem christened_christened {granted more : List (Serial × String)} {serial : Serial}
    (hdisjoint : serial ∈ granted.map Prod.fst → serial ∉ more.map Prod.fst) (pattern : Pattern) :
    christened more serial (christened granted serial pattern) =
      christened (granted ++ more) serial pattern := by
  unfold christened
  rw [List.lookup_append]
  cases hgranted : granted.lookup serial with
  | none => rfl
  | some name =>
      cases hmore : more.lookup serial with
      | none => rfl
      | some other =>
          have hgiven : serial ∈ granted.map Prod.fst :=
            List.mem_map_of_mem (mem_of_lookup hgranted)
          have hagain : serial ∈ more.map Prod.fst := List.mem_map_of_mem (mem_of_lookup hmore)
          exact absurd hagain (hdisjoint hgiven)

namespace Christens

variable {granted more : List (Serial × String)}

theorem sameContents (hchristens : first.Christens granted second) : SameContents first second where
  entries_eq := hchristens.entries_eq
  substance_eq serial := by
    rw [hchristens.pattern?_eq, Option.map_map]
    congr 1
    funext pattern
    simp only [Function.comp_apply, christened]
    split <;> rfl

theorem registered_eq (hchristens : first.Christens granted second) : second.registered =
    first.registered.map fun entry => (entry.1, christened granted entry.1 entry.2) := by
  rw [registered, registered, hchristens.entries_eq, List.map_filterMap]
  apply List.filterMap_congr
  intro entry _
  rw [hchristens.pattern?_eq, Option.map_map, Option.map_map]
  rfl

/-- What is an experiment now was the same experiment before. -/
theorem mem_registered (hchristens : first.Christens granted second) {entry : Serial × Pattern}
    (hentry : entry ∈ second.registered) (hkind : entry.2.kind = .experimental) :
    entry ∈ first.registered ∧ entry.1 ∉ granted.map Prod.fst := by
  rw [hchristens.registered_eq, List.mem_map] at hentry
  obtain ⟨⟨serial, pattern⟩, hregistered, rfl⟩ := hentry
  cases hlookup : granted.lookup serial with
  | none =>
      rw [christened, hlookup]
      exact ⟨hregistered, lookup_eq_none_iff_not_mem.mp hlookup⟩
  | some name =>
      rw [christened, hlookup] at hkind
      cases hkind

/-- Nothing that has been given a name is given another one. -/
theorem disjoint (hfirst : first.Christens granted second) (hsecond : second.Christens more third)
    {serial : Serial} (hserial : serial ∈ granted.map Prod.fst) : serial ∉ more.map Prod.fst := by
  intro hmore
  obtain ⟨⟨serial, name⟩, hentry, rfl⟩ := List.mem_map.mp hmore
  obtain ⟨pattern, hregistered, hkind⟩ := hsecond.experimental serial name hentry
  exact (hfirst.mem_registered hregistered hkind).2 hserial

theorem refl (registry : Registry) : registry.Christens [] registry where
  entries_eq := rfl
  nextId_eq := rfl
  literals_eq := rfl
  pattern?_eq serial := by cases registry.pattern? serial <;> rfl
  nodup := .nil
  experimental := nofun
  named := nofun
  kept _ _ hnamed hlost := absurd hnamed hlost
  origin _ _ := .inr

theorem stores (hchristens : first.Christens granted second) (hstores : second.OnlyStores third) :
    first.Christens granted third := by
  rw [hstores]
  exact { hchristens with }

theorem trans (hfirst : first.Christens granted second) (hsecond : second.Christens more third) :
    first.Christens (granted ++ more) third where
  entries_eq := hsecond.entries_eq.trans hfirst.entries_eq
  nextId_eq := hsecond.nextId_eq.trans hfirst.nextId_eq
  literals_eq := hsecond.literals_eq.trans hfirst.literals_eq
  pattern?_eq serial := by
    rw [hsecond.pattern?_eq, hfirst.pattern?_eq, Option.map_map]
    congr 1
    funext pattern
    exact christened_christened (hfirst.disjoint hsecond) pattern
  nodup := by
    rw [List.map_append, List.nodup_append]
    refine ⟨hfirst.nodup, hsecond.nodup, ?_⟩
    rintro serial hserial _ hmore rfl
    exact hfirst.disjoint hsecond hserial hmore
  experimental serial name hentry := by
    rcases List.mem_append.mp hentry with hentry | hentry
    · exact hfirst.experimental serial name hentry
    · obtain ⟨pattern, hregistered, hkind⟩ := hsecond.experimental serial name hentry
      exact ⟨pattern, (hfirst.mem_registered hregistered hkind).1, hkind⟩
  named serial name hentry := by
    rcases List.mem_append.mp hentry with hentry | hentry
    · by_contra hlost
      obtain ⟨other, hother⟩ := hsecond.kept name serial (hfirst.named serial name hentry) hlost
      have hagain : serial ∈ more.map Prod.fst := List.mem_map_of_mem hother
      exact hfirst.disjoint hsecond (List.mem_map_of_mem hentry) hagain
    · exact hsecond.named serial name hentry
  kept name serial hnamed hlost := by
    by_cases hmiddle : second.named? name = some serial
    · obtain ⟨other, hother⟩ := hsecond.kept name serial hmiddle hlost
      exact ⟨other, List.mem_append_right _ hother⟩
    · obtain ⟨other, hother⟩ := hfirst.kept name serial hnamed hmiddle
      exact ⟨other, List.mem_append_left _ hother⟩
  origin name serial hnamed := by
    rcases hsecond.origin name serial hnamed with hentry | hmiddle
    · exact .inl (List.mem_append_right _ hentry)
    · exact (hfirst.origin name serial hmiddle).imp_left (List.mem_append_left _)

/-- A name that is free at the end and was so at the beginning was free all the time. -/
theorem free_between (hfirst : first.Christens granted second)
    (hsecond : second.Christens more third) {name : String} (hbefore : first.named? name = none)
    (hafter : third.named? name = none) : second.named? name = none := by
  cases hnamed : second.named? name with
  | none => rfl
  | some serial =>
      rcases hfirst.origin name serial hnamed with hentry | hold
      · have hlast := (hfirst.trans hsecond).named serial name (List.mem_append_left _ hentry)
        rw [hafter] at hlast
        cases hlast
      · rw [hbefore] at hold
        cases hold

end Christens

/-- An experiment is given a free name. -/
theorem Regular.christens_renamed (hregular : registry.Regular) {serial : Serial}
    {pattern : Pattern} {name : String} (hregistered : (serial, pattern) ∈ registry.registered)
    (hkind : pattern.kind = .experimental) (hfree : registry.named? name = none) :
    registry.Christens [(serial, name)]
      (registry.renamed serial pattern name (some .derived)) where
  entries_eq := rfl
  nextId_eq := rfl
  literals_eq := rfl
  pattern?_eq other := by
    have hpattern := (mem_registered hregistered).1
    rw [pattern?_renamed hpattern]
    by_cases hother : other = serial
    · subst hother
      rw [if_pos rfl, hpattern]
      simp [christened]
    · have hbeq : (other == serial) = false := beq_eq_false_iff_ne.mpr hother
      rw [if_neg hother]
      cases registry.pattern? other <;> simp [christened, List.lookup_cons, hbeq]
  nodup := List.nodup_singleton _
  experimental other given hentry := by
    cases List.mem_singleton.mp hentry
    exact ⟨pattern, hregistered, hkind⟩
  named other given hentry := by
    cases List.mem_singleton.mp hentry
    exact List.lookup_cons_self
  kept given other hnamed hlost := by
    by_cases hother : other = serial
    · subst hother
      exact ⟨name, List.mem_singleton_self _⟩
    · have hne : given ≠ name := by
        rintro rfl
        rw [hfree] at hnamed
        cases hnamed
      have hbeq : (given == name) = false := beq_eq_false_iff_ne.mpr hne
      have hkeep : decide ((given, other).1 ≠ name) = true := decide_eq_true hne
      have hfound : (registry.renamed serial pattern name (some .derived)).named? given =
          some other := by
        rw [named?, Registry.renamed, List.lookup_cons, hbeq]
        exact lookup_filter (lookup_dropEntry hnamed hother) hkeep
      exact absurd hfound hlost
  origin given other hnamed := by
    rw [named?, Registry.renamed, List.lookup_cons] at hnamed
    split at hnamed
    next hsame =>
      cases hnamed
      rw [beq_iff_eq.mp hsame]
      exact .inl (List.mem_singleton_self _)
    next =>
      have hmem := List.mem_of_mem_filter (List.mem_of_mem_filter (mem_of_lookup hnamed))
      exact .inr ((lookup_eq_some_iff_mem hregular.nodup_names).mpr hmem)

end Registry

end Motif
