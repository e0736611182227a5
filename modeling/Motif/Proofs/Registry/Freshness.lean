import Motif.Proofs.Registry.Lasting

/-!
# Fresh descriptions

What a registry has stored is what it would compute anew. Asking for descriptions and equivalents,
of registered patterns or of any others, stores more of it and changes nothing else, also where no
answer is found; and as long as a pattern is registered its full description stays the same.
-/

namespace Motif.Registry

open Node (plainGroup)

variable {registry state : Registry}

/-! ## Computing anew -/

/-- The expanded tree of a tree, computed without anything that has been stored. -/
def expandAnew (registry : Registry) (root : Node) : Except Fault Node :=
  ((expandWith (fun _ compute => compute) registry.depthBound root).run registry).1

/-- The full description of a pattern, computed without anything that has been stored. -/
def describeAnew (registry : Registry) (pattern : Pattern) : Except Fault String := do
  match pattern.content with
  | .literal text => return Text.quote text
  | .tree root =>
    let expanded ← registry.expandAnew root
    render registry (registry.describeWithin registry.depthBound false) { full := true } true false
      expanded

theorem expandAnew_eq (hrooted : registry.Rooted) {alternatives : List (List Node)}
    {quantity : Quantity} {look : Look}
    (hknown : ∀ id ∈ (Node.group alternatives quantity look).references,
      (registry.byId? id).isSome) :
    registry.expandAnew (.group alternatives quantity look) =
      .ok ((Node.group alternatives quantity look).substitute
        (inPlace registry.expansion)).reduceRoot := by
  have hsettles : Settles (· = registry)
      (expandWith (fun _ compute => compute) registry.depthBound
        (.group alternatives quantity look))
      ((Node.group alternatives quantity look).substitute
        (inPlace registry.expansion)).reduceRoot := by
    refine settles_expandWith ?_ (fun _ _ hcompute => hcompute) hrooted hknown fun id hid => ?_
    · rintro state rfl
      exact ⟨fun _ => rfl, fun _ => rfl⟩
    · exact rank_lt_size hrooted.coherent hrooted.acyclic (hknown id hid)
  exact hsettles.run_eq rfl

/-- The expanded tree of a registered pattern is the one that would be computed anew. -/
theorem expandAnew_of_expansion (hsound : registry.Sound) {id : Int} {pattern : Pattern}
    (hpattern : registry.byId? id = some pattern) {tree : Node}
    (hexpansion : registry.expansion id = some tree) :
    ∃ root, pattern.content = .tree root ∧ registry.expandAnew root = .ok tree := by
  rw [expansion_eq hsound.toGrounded hpattern] at hexpansion
  cases hcontent : pattern.content with
  | literal text =>
      rw [hcontent] at hexpansion
      cases hexpansion
  | tree root =>
      rw [hcontent] at hexpansion
      obtain ⟨rfl, -⟩ := hsound.alternatives_eq hpattern hcontent
      refine ⟨_, rfl, ?_⟩
      rw [plainGroup, expandAnew_eq hsound.rooted (hsound.knows hpattern)]
      exact congrArg Except.ok (Option.some.inj hexpansion)

theorem describeAnew_eq (hsound : registry.Sound) {pattern : Pattern}
    (hfits : registry.Fits pattern.content) :
    registry.describeAnew pattern = .ok (registry.fullText pattern.content) := by
  unfold describeAnew
  cases hcontent : pattern.content with
  | literal text => rfl
  | tree root =>
      obtain ⟨alternatives, rfl, hcanonical⟩ := hfits.canonical root hcontent
      have hknown : registry.Knows alternatives := by
        intro id hid
        apply hfits.known id
        rwa [hcontent]
      obtain ⟨expanded, hreduced, hexpands⟩ := exists_expands hsound hcanonical hknown
      dsimp only
      rw [plainGroup, expandAnew_eq hsound.rooted hknown, ← plainGroup, hreduced]
      exact render_expanded hsound hexpands

/-! ## Questions -/

section Mapping

variable {invariant : Registry → Prop} {replace : Int → Quantity → Look → Action Node}

theorem keepsFrom_mapReferencesOfSequence {sequence : List Node}
    (hnodes : ∀ node ∈ sequence, ∀ state, invariant state →
      KeepsFrom invariant state (mapReferences replace node)) (hstate : invariant state) :
    KeepsFrom invariant state (mapReferencesOfSequence replace sequence) := by
  induction sequence generalizing state with
  | nil => exact hstate
  | cons first rest ih =>
      rw [mapReferencesOfSequence]
      refine (hnodes first List.mem_cons_self state hstate).bind fun _ after _ hafter => ?_
      have hrest := ih (fun node hnode => hnodes node (List.mem_cons_of_mem _ hnode)) hafter
      exact hrest.bind fun _ _ _ hlast => .pure hlast _

theorem keepsFrom_mapReferencesOfAlternatives {alternatives : List (List Node)}
    (hnodes : ∀ sequence ∈ alternatives, ∀ node ∈ sequence, ∀ state, invariant state →
      KeepsFrom invariant state (mapReferences replace node)) (hstate : invariant state) :
    KeepsFrom invariant state (mapReferencesOfAlternatives replace alternatives) := by
  induction alternatives generalizing state with
  | nil => exact hstate
  | cons first rest ih =>
      rw [mapReferencesOfAlternatives]
      refine (keepsFrom_mapReferencesOfSequence (hnodes first List.mem_cons_self) hstate).bind
        fun _ after _ hafter => ?_
      have hrest := ih (fun sequence hmem => hnodes sequence (List.mem_cons_of_mem _ hmem)) hafter
      exact hrest.bind fun _ _ _ hlast => .pure hlast _

/-- Replacing the references of a tree keeps what replacing each of them does. -/
theorem keepsFrom_mapReferences (hreplace : ∀ id quantity look state, invariant state →
      KeepsFrom invariant state (replace id quantity look)) (node : Node)
    (hstate : invariant state) : KeepsFrom invariant state (mapReferences replace node) := by
  induction node using Node.memberInduction generalizing state with
  | ref id quantity look => exact hreplace id quantity look state hstate
  | group alternatives quantity look ih =>
      rw [mapReferences]
      refine (keepsFrom_mapReferencesOfAlternatives ?_ hstate).bind fun _ _ _ hlast => .pure hlast _
      exact fun sequence hsequence node hnode _ hstate => ih sequence hsequence node hnode hstate

end Mapping

section Asking

variable (hsound : registry.Sound) (hstate : registry.Recalls state)
include hsound hstate

/-- A reference is replaced, or it leads nowhere. -/
theorem keepsFrom_replaceWith (id : Int) (quantity : Quantity) (look : Look) :
    KeepsFrom registry.Recalls state
      (replaceWith expandOnce (expandWith expandOnce registry.size) id quantity look) := by
  cases hpattern : registry.byId? id with
  | none =>
      refine .read (.lift hstate fun target htarget => ?_)
      rw [hstate.get, Registry.get, hpattern] at htarget
      cases htarget
  | some pattern =>
      have hknown : (registry.byId? id).isSome := by simp [hpattern]
      have hrank := rank_lt_size hsound.coherent hsound.acyclic hknown
      have hsettles := (backs_recalls registry).settles_reference hsound.rooted hknown hrank
      exact (hsettles quantity look state hstate).keeps fun _ hafter => hafter

/-- Describing a pattern that is not registered stores what is right, however far it comes. -/
theorem keepsFrom_describeFully (pattern : Pattern) :
    KeepsFrom registry.Recalls state (describeFully none pattern) := by
  unfold describeFully
  cases pattern.content with
  | literal text => exact hstate
  | tree root =>
      have hexpand : KeepsFrom registry.Recalls state (expand none root) := by
        refine .read ?_
        dsimp only
        rw [hstate.depthBound, expandTree_eq_expandWith, depthBound, expandWith]
        refine (keepsFrom_mapReferences (fun id quantity look _ hmiddle =>
          keepsFrom_replaceWith hsound hmiddle id quantity look) root hstate).bind ?_
        exact fun _ _ _ hafter => .lifted hafter
      exact hexpand.bind fun _ _ _ hafter => .read (.lifted hafter)

theorem keepsFrom_fullDescription {serial : Serial} {pattern : Pattern}
    (hpattern : registry.pattern? serial = some pattern) :
    KeepsFrom registry.Recalls state (fullDescription serial pattern) := by
  by_cases hregistered : registry.isRegistered serial = true
  · have hentry := mem_entries_of_isRegistered hsound.coherent hpattern hregistered
    have hmem := (mem_registered (mem_registered_of_entry hentry hpattern)).2
    exact (settles_fullDescription hsound hpattern (hsound.fits hmem) state hstate).keeps
      fun _ hafter => hafter
  · unfold fullDescription
    refine .read ?_
    rw [hstate.isRegistered, if_neg hregistered]
    exact keepsFrom_describeFully hsound hstate pattern

/-- Looking for an equivalent of a pattern, be it registered or not. -/
theorem keepsFrom_equivalent? {self : Option Serial} {pattern : Pattern}
    (hself : ∀ serial, self = some serial → registry.pattern? serial = some pattern) :
    KeepsFrom registry.Recalls state (equivalent? pattern self) := by
  have hdescribe : KeepsFrom registry.Recalls state
      (describeFully (self.bind state.ifRegistered) pattern) := by
    cases hserial : self.bind state.ifRegistered with
    | none => exact keepsFrom_describeFully hsound hstate pattern
    | some serial =>
        obtain ⟨known, hknown, hfound⟩ := Option.bind_eq_some_iff.mp hserial
        obtain ⟨hregistered, hsame⟩ := Option.ite_none_right_eq_some.mp hfound
        obtain rfl : known = serial := Option.some.inj hsame
        rw [hstate.isRegistered] at hregistered
        have hpattern := hself known hknown
        have hentry := mem_entries_of_isRegistered hsound.coherent hpattern hregistered
        have hmem := (mem_registered (mem_registered_of_entry hentry hpattern)).2
        have hstands : registry.StandsAt (some known) pattern.content := by
          rintro serial ⟨⟩
          exact ⟨pattern.id, pattern, hentry, hpattern, rfl⟩
        exact (settles_describeFully hsound (hsound.fits hmem) hstands state hstate).keeps
          fun _ hafter => hafter
  refine .read (hdescribe.bind fun wanted middle _ hmiddle => ?_)
  rw [hstate.registered]
  refine (settles_firstDescribed hsound wanted self (fun entry hentry => ?_) middle hmiddle).keeps
    fun _ hafter => hafter
  obtain ⟨hpattern, hmem⟩ := mem_registered hentry
  exact ⟨hpattern, hsound.fits hmem⟩

theorem keepsFrom_existsEquivalent (text : String) :
    KeepsFrom registry.Recalls state (existsEquivalent text) := by
  refine .read (.lift hstate fun pattern _ => ?_)
  exact (keepsFrom_equivalent? hsound hstate (fun _ hnone => by cases hnone)).bind
    fun _ _ _ hafter => .pure hafter _

end Asking

/-- What may be asked of a registry. A pattern that has been made is told by its serial, whether it
is still registered or not; any other pattern is given itself. -/
inductive Question where
  | fullDescription (serial : Serial)
  | describe (pattern : Pattern)
  | equivalent (serial : Serial)
  | equivalentOf (pattern : Pattern)
  | existsEquivalent (text : String)

/-- Asks a question and drops the answer. -/
def Question.pose : Question → Action Unit
  | fullDescription serial => do
    match (← getThe Registry).pattern? serial with
    | some pattern => discard (Registry.fullDescription serial pattern)
    | none => return
  | describe pattern => discard (Registry.describeFully none pattern)
  | equivalent serial => do
    match (← getThe Registry).pattern? serial with
    | some pattern => discard (Registry.equivalent? pattern (some serial))
    | none => return
  | equivalentOf pattern => discard (Registry.equivalent? pattern)
  | existsEquivalent text => discard (Registry.existsEquivalent text)

/-- A question, answered or not, only stores what is right. -/
theorem Tidy.recalls_pose (htidy : registry.Tidy) (question : Question) :
    KeepsFrom registry.Recalls registry question.pose := by
  have hsound := htidy.sound
  cases question with
  | fullDescription serial =>
      refine .read ?_
      cases hpattern : registry.pattern? serial with
      | none => exact htidy.recalls
      | some pattern => exact (keepsFrom_fullDescription hsound htidy.recalls hpattern).discard
  | describe pattern => exact (keepsFrom_describeFully hsound htidy.recalls pattern).discard
  | equivalent serial =>
      refine .read ?_
      cases hpattern : registry.pattern? serial with
      | none => exact htidy.recalls
      | some pattern =>
          refine (keepsFrom_equivalent? hsound htidy.recalls ?_).discard
          rintro known ⟨⟩
          exact hpattern
  | equivalentOf pattern =>
      exact (keepsFrom_equivalent? hsound htidy.recalls fun _ hnone => by cases hnone).discard
  | existsEquivalent text => exact (keepsFrom_existsEquivalent hsound htidy.recalls text).discard

/-! ## Runs -/

/-- An operation on a registry, or a question to it. -/
inductive Step where
  | operation (operation : Operation)
  | question (question : Question)

/-- The registry that a step leaves, whether it has failed or not. -/
def Step.applyTo : Step → Registry → Registry
  | .operation performed, registry => performed.applyTo registry
  | .question posed, registry => (posed.pose.run registry).2

/-- What steps, one after another, make of a registry. -/
def run (registry : Registry) (steps : List Step) : Registry :=
  steps.foldl (fun registry step => step.applyTo registry) registry

theorem run_append (registry : Registry) (steps more : List Step) :
    registry.run (steps ++ more) = (registry.run steps).run more :=
  List.foldl_append

theorem Lasting.run {invariant : Registry → Prop} (hlasting : Lasting invariant)
    (hregistry : invariant registry) (steps : List Step) : invariant (registry.run steps) := by
  induction steps generalizing registry with
  | nil => exact hregistry
  | cons step rest ih =>
      apply ih
      cases step with
      | operation operation => exact hlasting.applyTo hregistry operation
      | question question =>
          exact hlasting.recalled hregistry ((hlasting.tidy hregistry).recalls_pose question)

theorem lasting_tidy : Lasting Tidy where
  tidy := id
  recalled htidy hrecalls := hrecalls.tidy htidy
  extend htidy hfree hfits := htidy.extend hfits (htidy.idFor_nonneg _)
    (htidy.serialOf?_idFor hfree) hfree.name
  renamed _ htidy hregistered hname := htidy.renamed
    (htidy.coherent.mem_entries_of_registered hregistered) (mem_registered hregistered).1 hname
  without htidy hpattern hunused := htidy.without hpattern hunused

/-! ## Descriptions that stay -/

variable {first second third : Registry}

/-- No serial is given again, and a pattern of the first registry that is registered in the second
one was registered in the first, too, and with the same full description. -/
structure Persists (first second : Registry) : Prop where
  size_le : first.ledger.size ≤ second.ledger.size
  exists_origin : ∀ {id serial pattern}, (id, serial) ∈ second.entries →
    second.pattern? serial = some pattern → serial < first.ledger.size →
      ∃ origin, (id, serial) ∈ first.entries ∧ first.pattern? serial = some origin ∧
        first.fullText origin.content = second.fullText pattern.content

theorem Persists.refl (registry : Registry) : Persists registry registry :=
  ⟨le_refl _, fun hentry hpattern _ => ⟨_, hentry, hpattern, rfl⟩⟩

theorem Persists.trans (hfirst : Persists first second) (hsecond : Persists second third) :
    Persists first third := by
  refine ⟨hfirst.size_le.trans hsecond.size_le, fun hentry hpattern hlt => ?_⟩
  obtain ⟨middle, hmiddle, hfound, htext⟩ :=
    hsecond.exists_origin hentry hpattern (Nat.lt_of_lt_of_le hlt hfirst.size_le)
  obtain ⟨origin, horigin, hold, hsame⟩ := hfirst.exists_origin hmiddle hfound hlt
  exact ⟨origin, horigin, hold, hsame.trans htext⟩

/-- Where patterns keep their contents their full descriptions stay. -/
theorem Persists.of_agrees (hfirst : first.Grounded) (hsecond : second.Grounded)
    (hagrees : Agrees first second ∨ Agrees second first)
    (hsize : first.ledger.size ≤ second.ledger.size)
    (horigin : ∀ {id serial pattern}, (id, serial) ∈ second.entries →
      second.pattern? serial = some pattern → serial < first.ledger.size →
        ∃ origin, (id, serial) ∈ first.entries ∧ first.pattern? serial = some origin ∧
          origin.content = pattern.content) :
    Persists first second := by
  refine ⟨hsize, fun hentry hpattern hlt => ?_⟩
  obtain ⟨origin, hold, hfound, hcontent⟩ := horigin hentry hpattern hlt
  refine ⟨origin, hold, hfound, ?_⟩
  rw [hcontent]
  obtain hagrees | hagrees := hagrees
  · apply fullText_eq_of_agrees hfirst hsecond hagrees
    rw [← hcontent]
    exact hfirst.closed origin (hfirst.coherent.mem_patterns_of_entry hold hfound)
  · refine (fullText_eq_of_agrees hsecond hfirst hagrees ?_).symm
    exact hsecond.closed _ (hsecond.coherent.mem_patterns_of_entry hentry hpattern)

theorem Recalls.persists (hrecalls : registry.Recalls state) : Persists registry state := by
  rw [hrecalls.same]
  exact ⟨le_refl _, fun hentry hpattern _ => ⟨_, hentry, hpattern, rfl⟩⟩

/-- Since a first registry every step keeps it tidy and lets what is registered persist. -/
theorem lasting_persists (start : Registry) :
    Lasting fun state => state.Tidy ∧ Persists start state where
  tidy := And.left
  recalled hstate hrecalls := ⟨hrecalls.tidy hstate.1, hstate.2.trans hrecalls.persists⟩
  extend {state pattern} hstate hfree hfits := by
    have hid := hstate.1.serialOf?_idFor hfree
    have hextended := lasting_tidy.extend hstate.1 hfree hfits
    refine ⟨hextended, hstate.2.trans (.of_agrees hstate.1.grounded hextended.grounded
      (.inl (hstate.1.toOrderly.agrees_extend hid)) ?_ fun hentry hpattern hlt => ?_)⟩
    · simp [Registry.extend]
    · obtain ⟨hold, hfound⟩ | ⟨-, rfl, -⟩ := hstate.1.coherent.cases_extend hentry hpattern
      · exact ⟨_, hold, hfound, rfl⟩
      · exact absurd hlt (lt_irrefl _)
  renamed {state serial pattern name} kind hstate hregistered hname := by
    have hpattern := (mem_registered hregistered).1
    have hrenamed := lasting_tidy.renamed kind hstate.1 hregistered hname
    refine ⟨hrenamed, hstate.2.trans (.of_agrees hstate.1.grounded hrenamed.grounded
      (.inl (hstate.1.coherent.agrees_renamed hpattern)) ?_ fun hentry hfound _ => ?_)⟩
    · simp [Registry.renamed]
    · obtain ⟨origin, horigin, hsame, -, -⟩ := origin_of_renamed hpattern hfound
      exact ⟨origin, hentry, horigin, hsame⟩
  without {state serial pattern} hstate hpattern hunused := by
    have hwithout := lasting_tidy.without hstate.1 hpattern hunused
    refine ⟨hwithout, hstate.2.trans (.of_agrees hstate.1.grounded hwithout.grounded
      (.inr (hstate.1.coherent.agrees_without serial pattern)) (le_refl _)
      fun hentry hfound _ => ?_)⟩
    exact ⟨_, (mem_entries_without.mp hentry).1, hfound, rfl⟩

/-! ## Nothing stale -/

/-- A registered pattern is described in full by what would be computed anew. -/
theorem Tidy.fullDescription_eq (htidy : registry.Tidy) {serial : Serial} {pattern : Pattern}
    (hregistered : (serial, pattern) ∈ registry.registered) :
    ((fullDescription serial pattern).run registry).1 = .ok (registry.fullText pattern.content) ∧
      registry.describeAnew pattern = .ok (registry.fullText pattern.content) := by
  obtain ⟨hpattern, hmem⟩ := mem_registered hregistered
  have hfits := htidy.sound.fits hmem
  exact ⟨(settles_fullDescription htidy.sound hpattern hfits).run_eq htidy.recalls,
    describeAnew_eq htidy.sound hfits⟩

/-- Every stored tree is the expanded tree of a registered pattern, as it would be computed anew. -/
theorem Tidy.exists_of_stored_tree (htidy : registry.Tidy) {serial : Serial} {tree : Node}
    (hstored : registry.trees[serial]? = some tree) :
    ∃ pattern root, (serial, pattern) ∈ registry.registered ∧ pattern.content = .tree root ∧
      registry.expandAnew root = .ok tree := by
  obtain ⟨id, hentry, hexpansion⟩ := htidy.recalls.trees serial tree hstored
  obtain ⟨pattern, hpattern, -⟩ := htidy.coherent.exists_pattern hentry
  obtain ⟨root, hcontent, hanew⟩ := expandAnew_of_expansion htidy.sound
    (htidy.coherent.byId?_eq_some_iff.mpr ⟨serial, hentry, hpattern⟩) hexpansion
  exact ⟨pattern, root, mem_registered_of_entry hentry hpattern, hcontent, hanew⟩

/-- Every stored description is that of a registered pattern, as it would be computed anew. -/
theorem Tidy.exists_of_stored_description (htidy : registry.Tidy) {serial : Serial} {text : String}
    (hstored : registry.descriptions[serial]? = some text) :
    ∃ pattern, (serial, pattern) ∈ registry.registered ∧
      registry.describeAnew pattern = .ok text := by
  obtain ⟨id, pattern, hentry, hpattern, rfl⟩ := htidy.recalls.descriptions serial text hstored
  have hregistered := mem_registered_of_entry hentry hpattern
  exact ⟨pattern, hregistered, (htidy.fullDescription_eq hregistered).2⟩

/-- Whatever is done with a registry and asked of it: all that it has stored belongs to registered
patterns and is what would be computed anew; and a pattern that is registered, and still is later,
has the same full description then, the one that would be computed anew. -/
theorem stored_fresh (steps : List Step) :
    (∀ serial tree, (run {} steps).trees[serial]? = some tree →
      ∃ pattern root, (serial, pattern) ∈ (run {} steps).registered ∧
        pattern.content = .tree root ∧ (run {} steps).expandAnew root = .ok tree) ∧
    (∀ serial text, (run {} steps).descriptions[serial]? = some text →
      ∃ pattern, (serial, pattern) ∈ (run {} steps).registered ∧
        (run {} steps).describeAnew pattern = .ok text) ∧
    ∀ more serial first last, (serial, first) ∈ (run {} steps).registered →
      (serial, last) ∈ (run {} (steps ++ more)).registered →
        ∃ text, ((fullDescription serial first).run (run {} steps)).1 = .ok text ∧
          (run {} steps).describeAnew first = .ok text ∧
          ((fullDescription serial last).run (run {} (steps ++ more))).1 = .ok text ∧
          (run {} (steps ++ more)).describeAnew last = .ok text := by
  have htidy : (run {} steps).Tidy := lasting_tidy.run tidy_empty steps
  refine ⟨fun _ _ hstored => htidy.exists_of_stored_tree hstored,
    fun _ _ hstored => htidy.exists_of_stored_description hstored, ?_⟩
  intro more serial first last hfirst hlast
  rw [run_append] at hlast ⊢
  obtain ⟨hlater, hpersists⟩ :=
    (lasting_persists (run {} steps)).run ⟨htidy, .refl _⟩ more
  have hentry := hlater.coherent.mem_entries_of_registered hlast
  have hsize := htidy.coherent.serial_lt (htidy.coherent.mem_entries_of_registered hfirst)
  obtain ⟨origin, -, horigin, htext⟩ :=
    hpersists.exists_origin hentry (mem_registered hlast).1 hsize
  obtain rfl : first = origin :=
    Option.some.inj ((mem_registered hfirst).1.symm.trans horigin)
  obtain ⟨hread, hanew⟩ := htidy.fullDescription_eq hfirst
  obtain ⟨hreadLast, hanewLast⟩ := hlater.fullDescription_eq hlast
  exact ⟨_, hread, hanew, htext ▸ hreadLast, htext ▸ hanewLast⟩

/-- A description is asked for, a part of the pattern is renamed, and the pattern is removed. -/
def relay : List Step :=
  [.operation (.addLiteral "a" (some "a") (-1) .literal),
    .operation (.register (some "Run") .derived "a+" (-1)),
    .operation (.register (some "Runs") .derived "Run Run" (-1)),
    .question (.fullDescription 2), .operation (.rename 1 "Row" none),
    .operation (.unregister 2)]

example : (run {} (relay.take 5)).descriptions.toList = [(2, "'a'+ 'a'+")] ∧
    (run {} relay).descriptions.toList = [] := by
  decide +kernel

end Motif.Registry
