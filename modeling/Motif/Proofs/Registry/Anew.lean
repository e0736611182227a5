import Motif.Proofs.Registry.Experiments
import Motif.Proofs.Registry.Freshness

/-!
# Descriptions of trees of any form

To describe a pattern in full its tree need not be as if it had been compiled: the trees have to be
groups, and all references have to lead somewhere. Asking for the description, whatever has been
stored of it, ends as if it were computed anew, with the same text or the same fault; and it ends so
in every registry in which the contents of the patterns are the same.
-/

namespace Motif.Registry

variable {registry state first second : Registry}

/-! ## What is left of a tree -/

/-- The pattern registered under the id is a literal. -/
def LeadsToLiteral (registry : Registry) (id : Int) : Prop :=
  ∃ pattern text, registry.byId? id = some pattern ∧ pattern.content = .literal text

/-- What takes the place of a reference refers to literals only. -/
theorem Grounded.leadsToLiteral_inPlace (hgrounded : registry.Grounded) {id : Int}
    (hid : (registry.byId? id).isSome) {quantity : Quantity} {look : Look} {other : Int}
    (hother : other ∈ (inPlace registry.expansion id quantity look).references) :
    registry.LeadsToLiteral other := by
  refine hgrounded.induction (motive := fun id => ∀ quantity look other,
    other ∈ (inPlace registry.expansion id quantity look).references →
      registry.LeadsToLiteral other) ?_ hid quantity look other hother
  intro id pattern hpattern hbelow quantity look other hother
  have hexpansion := expansion_eq hgrounded hpattern
  cases hcontent : pattern.content with
  | literal text =>
      rw [hcontent, expandContent] at hexpansion
      rw [inPlace, hexpansion, Node.mem_references_ref] at hother
      subst hother
      exact ⟨pattern, text, hpattern, hcontent⟩
  | tree root =>
      rw [hcontent, expandContent] at hexpansion
      rw [inPlace, hexpansion] at hother
      have hreduced := Content.mem_references (.tree _) hother
      obtain ⟨origin, horigin, range, sight, hinside⟩ :=
        Node.mem_references_substitute (Node.mem_references_reduceRoot.mp hreduced)
      apply (hbelow origin _).2 range sight other hinside
      rw [hcontent]
      exact horigin

/-- An expanded tree refers to literals only. -/
theorem Grounded.leadsToLiteral_expanded (hgrounded : registry.Grounded) {root : Node}
    (hknown : ∀ id ∈ root.references, (registry.byId? id).isSome) :
    ∀ id ∈ ((root.substitute (inPlace registry.expansion)).reduceRoot).references,
      registry.LeadsToLiteral id := by
  intro id hid
  obtain ⟨origin, horigin, quantity, look, hinside⟩ :=
    Node.mem_references_substitute (Node.mem_references_reduceRoot.mp hid)
  exact hgrounded.leadsToLiteral_inPlace (hknown origin horigin) hinside

/-- A tree that refers to literals only is written in full without regard to names. -/
theorem Agrees.render_eq (hagrees : Agrees first second) {node : Node}
    (hliterals : ∀ id ∈ node.references, first.LeadsToLiteral id)
    (inline other : Pattern → Except Fault String) (top behind : Bool) :
    second.render inline { full := true } top behind node =
      first.render other { full := true } top behind node := by
  induction node using Node.memberInduction generalizing top behind with
  | ref id quantity look =>
      obtain ⟨pattern, text, hpattern, hcontent⟩ := hliterals id (Node.mem_references_ref.mpr rfl)
      obtain ⟨again, hagain, hsame⟩ := hagrees id pattern hpattern
      rw [render, render, referenceText_eq hpattern, referenceText_eq hagain, hsame, hcontent]
      rfl
  | group alternatives quantity look ih =>
      rw [render, render, Recalls.renderAlternatives_congr]
      intro sequence hsequence node hnode top behind
      apply ih sequence hsequence node hnode
      intro id hid
      exact hliterals id (Node.mem_references_group.mpr ⟨sequence, hsequence, node, hnode, hid⟩)

/-! ## Computing anew -/

/-- A content whose references are registered and whose tree, if it has one, is a group. -/
structure Suits (registry : Registry) (content : Content) : Prop where
  known : ∀ id ∈ content.references, (registry.byId? id).isSome
  isGroup : ∀ root, content = .tree root →
    ∃ alternatives quantity look, root = .group alternatives quantity look

theorem Rooted.suits (hrooted : registry.Rooted) {entry : Serial × Pattern}
    (hentry : entry ∈ registry.registered) : registry.Suits entry.2.content where
  known := hrooted.closed entry.2 (mem_registered hentry).2
  isGroup := hrooted.isGroup entry.2 (mem_registered hentry).2

theorem Fits.suits {content : Content} (hfits : registry.Fits content) :
    registry.Suits content where
  known := hfits.known
  isGroup root hroot := by
    obtain ⟨alternatives, rfl, -⟩ := hfits.canonical root hroot
    exact ⟨alternatives, .once, .here, rfl⟩

theorem describeAnew_congr {pattern other : Pattern} (hcontent : pattern.content = other.content) :
    registry.describeAnew pattern = registry.describeAnew other := by
  rw [describeAnew, describeAnew, hcontent]

theorem Rooted.describeAnew_eq (hrooted : registry.Rooted) {pattern : Pattern} {root : Node}
    (hsuits : registry.Suits pattern.content) (hcontent : pattern.content = .tree root) :
    registry.describeAnew pattern =
      registry.render (registry.describeWithin registry.depthBound false) { full := true } true
        false (root.substitute (inPlace registry.expansion)).reduceRoot := by
  have hknown := hsuits.known
  rw [hcontent] at hknown
  obtain ⟨alternatives, quantity, look, rfl⟩ := hsuits.isGroup root hcontent
  rw [describeAnew, hcontent]
  dsimp only
  rw [expandAnew_eq hrooted hknown]
  rfl

/-- A description computed anew depends on the contents of the registered patterns alone. -/
theorem Agrees.describeAnew_eq (hagrees : Agrees first second) (hfirst : first.Rooted)
    (hsecond : second.Rooted) {pattern : Pattern} (hsuits : first.Suits pattern.content) :
    second.describeAnew pattern = first.describeAnew pattern := by
  have hsuitsToo : second.Suits pattern.content := by
    refine ⟨fun id hid => ?_, hsuits.isGroup⟩
    obtain ⟨found, hfound⟩ := Option.isSome_iff_exists.mp (hsuits.known id hid)
    obtain ⟨again, hagain, -⟩ := hagrees id found hfound
    exact Option.isSome_of_eq_some hagain
  cases hcontent : pattern.content with
  | literal text => rw [describeAnew, describeAnew, hcontent]
  | tree root =>
      have hknown := hsuits.known
      rw [hcontent] at hknown
      have hsame : root.substitute (inPlace second.expansion) =
          root.substitute (inPlace first.expansion) := by
        apply Node.substitute_congr
        intro id hid
        funext quantity look
        rw [inPlace, inPlace, expansion_eq_of_agrees hfirst.toGrounded hsecond.toGrounded hagrees
          (hknown id hid)]
      rw [hsecond.describeAnew_eq hsuitsToo hcontent, hfirst.describeAnew_eq hsuits hcontent, hsame]
      apply hagrees.render_eq
      exact hfirst.leadsToLiteral_expanded hknown

/-! ## Asking -/

/-- The state differs from the registry only in what it has stored, and everything stored is what
would be computed anew. -/
structure Remembers (registry state : Registry) : Prop where
  same : registry.OnlyStores state
  trees : registry.HoldsTrees state
  descriptions : ∀ serial text, state.descriptions[serial]? = some text →
    ∃ pattern, (serial, pattern) ∈ registry.registered ∧ registry.describeAnew pattern = .ok text

namespace Remembers

variable (hremembers : registry.Remembers state)
include hremembers

theorem byId? (id : Int) : state.byId? id = registry.byId? id := by
  rw [hremembers.same]
  rfl

theorem agrees : Agrees registry state := by
  intro id pattern hpattern
  exact ⟨pattern, (hremembers.byId? id).trans hpattern, rfl⟩

theorem named? (name : String) : state.named? name = registry.named? name := by
  rw [hremembers.same]
  rfl

theorem isRegistered (serial : Serial) :
    state.isRegistered serial = registry.isRegistered serial := by
  rw [hremembers.same]
  rfl

theorem compile (text : String) : state.compile text = registry.compile text := by
  rw [hremembers.same]
  rfl

theorem registered : state.registered = registry.registered := by
  rw [hremembers.same]
  rfl

/-- A description that is right may be stored. -/
theorem describe {serial : Serial} {pattern : Pattern} {text : String}
    (hregistered : (serial, pattern) ∈ registry.registered)
    (hdescribe : registry.describeAnew pattern = .ok text) :
    registry.Remembers { state with descriptions := state.descriptions.insert serial text } := by
  refine ⟨?_, hremembers.trees, ?_⟩
  · rw [OnlyStores]
    conv_lhs => rw [hremembers.same]
  · exact forall_stored_insert hremembers.descriptions ⟨pattern, hregistered, hdescribe⟩

end Remembers

theorem backs_remembers (registry : Registry) : registry.Backs registry.Remembers where
  lookups state hstate := by
    rw [hstate.same]
    exact ⟨fun _ => rfl, fun _ => rfl⟩
  depthBound state hstate := by
    rw [hstate.same]
    rfl
  holds _ hstate := hstate.trees
  store state trees hstate htrees := by
    refine ⟨?_, htrees, hstate.descriptions⟩
    rw [OnlyStores]
    conv_lhs => rw [hstate.same]

section Asking

variable (hrooted : registry.Rooted)
include hrooted

theorem Rooted.gives_describeFully {serial : Option Serial} {pattern : Pattern}
    (hsuits : registry.Suits pattern.content) (hserial : registry.StandsAt serial pattern.content) :
    Gives registry.Remembers (describeFully serial pattern) (registry.describeAnew pattern) := by
  intro state hstate
  unfold describeFully
  cases hcontent : pattern.content with
  | literal text =>
      rw [describeAnew, hcontent]
      exact ⟨state, rfl, hstate⟩
  | tree root =>
      have hknown := hsuits.known
      rw [hcontent] at hknown hserial
      rw [hrooted.describeAnew_eq hsuits hcontent]
      have hliterals := hrooted.leadsToLiteral_expanded hknown
      obtain ⟨alternatives, quantity, look, rfl⟩ := hsuits.isGroup root hcontent
      obtain ⟨middle, hrun, hmiddle⟩ :=
        (backs_remembers registry).settles_expand hrooted hknown hserial state hstate
      have hrender := hmiddle.agrees.render_eq hliterals
        (middle.describeWithin middle.depthBound false)
        (registry.describeWithin registry.depthBound false) true false
      rw [← hrender]
      refine ⟨middle, (run_bind_of_ok hrun).trans ?_, hmiddle⟩
      rw [run_read_bind]
      cases middle.render _ _ _ _ _ <;> rfl

/-- The full description of a registered pattern is what would be computed anew. -/
theorem Rooted.gives_fullDescription {entry : Serial × Pattern}
    (hentry : entry ∈ registry.registered) :
    Gives registry.Remembers (fullDescription entry.1 entry.2)
      (registry.describeAnew entry.2) := by
  obtain ⟨serial, pattern⟩ := entry
  have hpattern := (mem_registered hentry).1
  have hid := hrooted.coherent.mem_entries_of_registered hentry
  have hregistered : registry.isRegistered serial = true := by
    rw [isRegistered, hpattern]
    exact decide_eq_true (hrooted.coherent.serialOf?_eq_some_iff.mpr hid)
  intro state hstate
  apply GivesFrom.read
  rw [hstate.isRegistered, if_pos hregistered]
  cases hstored : state.descriptions[serial]? with
  | some text =>
      obtain ⟨found, hfound, hdescribe⟩ := hstate.descriptions serial text hstored
      cases eq_of_mem_registered hentry hfound rfl
      rw [hdescribe]
      exact ⟨state, rfl, hstate⟩
  | none =>
      have hstands : registry.StandsAt (some serial) pattern.content := by
        rintro known ⟨⟩
        exact ⟨pattern.id, pattern, hid, hpattern, rfl⟩
      have hdescribed := hrooted.gives_describeFully (hrooted.suits hentry) hstands state hstate
      rw [← bind_pure (registry.describeAnew pattern)]
      apply hdescribed.bind
      intro text htext after hafter
      exact ⟨_, rfl, hafter.describe hentry htext⟩

end Asking

end Motif.Registry
