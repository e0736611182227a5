import Motif.Proofs.Registry.Expanding

/-!
# Stored trees and descriptions

What a registry has stored are expanded trees and full descriptions of its registered patterns.
Describing a pattern in full may store more of them and changes nothing else; and it gives the same
text whether or not something has been stored.
-/

namespace Motif.Registry

open Node (Canonical Everywhere plainGroup)

variable {registry : Registry}

/-- The state differs from the registry only in what it has stored, and everything stored is
right. -/
structure Recalls (registry state : Registry) : Prop where
  same : state = { registry with trees := state.trees, descriptions := state.descriptions }
  trees : ∀ serial tree, state.trees[serial]? = some tree →
    ∃ id, (id, serial) ∈ registry.entries ∧ registry.expansion id = some tree
  descriptions : ∀ serial text, state.descriptions[serial]? = some text →
    ∃ id pattern, (id, serial) ∈ registry.entries ∧ registry.pattern? serial = some pattern ∧
      text = registry.fullText pattern.content

namespace Recalls

variable {state : Registry}

theorem byId? (hrecalls : registry.Recalls state) (id : Int) :
    state.byId? id = registry.byId? id := by
  rw [hrecalls.same]
  rfl

theorem serialOf? (hrecalls : registry.Recalls state) (id : Int) :
    state.serialOf? id = registry.serialOf? id := by
  rw [hrecalls.same]
  rfl

theorem get (hrecalls : registry.Recalls state) (id : Int) : state.get id = registry.get id := by
  rw [Registry.get, Registry.get, hrecalls.byId?]

theorem depthBound (hrecalls : registry.Recalls state) :
    state.depthBound = registry.depthBound := by
  rw [hrecalls.same]
  rfl

theorem isRegistered (hrecalls : registry.Recalls state) (serial : Serial) :
    state.isRegistered serial = registry.isRegistered serial := by
  rw [hrecalls.same]
  rfl

theorem registered (hrecalls : registry.Recalls state) :
    state.registered = registry.registered := by
  rw [hrecalls.same]
  rfl

theorem renderSequence_congr {inline other : Pattern → Except Fault String} {style : Style}
    {behind : Bool} {sequence : List Node}
    (hnodes : ∀ node ∈ sequence, ∀ top behind, state.render inline style top behind node =
      registry.render other style top behind node) :
    state.renderSequence inline style behind sequence =
      registry.renderSequence other style behind sequence := by
  induction sequence with
  | nil => rfl
  | cons first rest ih =>
      rw [renderSequence, renderSequence, hnodes first List.mem_cons_self,
        ih fun node hnode => hnodes node (List.mem_cons_of_mem _ hnode)]

theorem renderAlternatives_congr {inline other : Pattern → Except Fault String} {style : Style}
    {behind : Bool} {alternatives : List (List Node)}
    (hnodes : ∀ sequence ∈ alternatives, ∀ node ∈ sequence, ∀ top behind,
      state.render inline style top behind node = registry.render other style top behind node) :
    state.renderAlternatives inline style behind alternatives =
      registry.renderAlternatives other style behind alternatives := by
  induction alternatives with
  | nil => rfl
  | cons first others ih =>
      rw [renderAlternatives, renderAlternatives,
        renderSequence_congr (hnodes first List.mem_cons_self),
        ih fun sequence hmem => hnodes sequence (List.mem_cons_of_mem _ hmem)]

theorem render (hrecalls : registry.Recalls state) (inline : Pattern → Except Fault String)
    (style : Style) (top behind : Bool) (node : Node) :
    state.render inline style top behind node = registry.render inline style top behind node := by
  induction node using Node.memberInduction generalizing top behind with
  | ref id quantity look =>
      rw [Registry.render, Registry.render, referenceText, referenceText, hrecalls.get]
  | group alternatives quantity look ih =>
      rw [Registry.render, Registry.render, renderAlternatives_congr
        fun sequence hmem node hnode top behind => ih sequence hmem node hnode top behind]

end Recalls

/-! ## Expanding settles -/

section Mapping

variable {invariant : Registry → Prop} {action : Int → Quantity → Look → Action Node}
  {value : Int → Quantity → Look → Node}

theorem settles_mapReferencesOfSequence {sequence : List Node}
    (hnodes : ∀ node ∈ sequence,
      Settles invariant (mapReferences action node) (node.substitute value)) :
    Settles invariant (mapReferencesOfSequence action sequence)
      (Node.substituteSequence value sequence) := by
  induction sequence with
  | nil => exact .pure _
  | cons first rest ih =>
      rw [mapReferencesOfSequence]
      refine (hnodes first List.mem_cons_self).bind ?_
      exact (ih fun node hnode => hnodes node (List.mem_cons_of_mem _ hnode)).bind (.pure _)

theorem settles_mapReferencesOfAlternatives {alternatives : List (List Node)}
    (hnodes : ∀ sequence ∈ alternatives, ∀ node ∈ sequence,
      Settles invariant (mapReferences action node) (node.substitute value)) :
    Settles invariant (mapReferencesOfAlternatives action alternatives)
      (Node.substituteAlternatives value alternatives) := by
  induction alternatives with
  | nil => exact .pure _
  | cons first others ih =>
      rw [mapReferencesOfAlternatives]
      refine (settles_mapReferencesOfSequence (hnodes first List.mem_cons_self)).bind ?_
      have hothers := ih fun sequence hmem => hnodes sequence (List.mem_cons_of_mem _ hmem)
      exact hothers.bind (.pure _)

theorem settles_mapReferences {node : Node}
    (haction : ∀ id ∈ node.references, ∀ quantity look,
      Settles invariant (action id quantity look) (value id quantity look)) :
    Settles invariant (mapReferences action node) (node.substitute value) := by
  induction node using Node.memberInduction with
  | ref id quantity look => exact haction id (by simp) quantity look
  | group alternatives quantity look ih =>
      rw [mapReferences]
      refine (settles_mapReferencesOfAlternatives fun sequence hsequence node hnode => ?_).bind
        (.pure _)
      refine ih sequence hsequence node hnode fun id hid => haction id ?_
      exact Node.mem_references_group.mpr ⟨sequence, hsequence, node, hnode, hid⟩

end Mapping

/-- What holds of all stored values, and of the one that is stored now, holds of all afterwards. -/
theorem forall_stored_insert {α : Type} {property : Serial → α → Prop}
    {stored : Std.TreeMap Serial α}
    (hstored : ∀ serial value, stored[serial]? = some value → property serial value)
    {serial : Serial} {value : α} (hvalue : property serial value) :
    ∀ other found, (stored.insert serial value)[other]? = some found → property other found := by
  intro other found hfound
  rw [Std.TreeMap.getElem?_insert] at hfound
  split at hfound
  next hserial =>
    obtain rfl : serial = other := Std.LawfulEqCmp.eq_of_compare hserial
    cases hfound
    exact hvalue
  next => exact hstored other found hfound

/-- Every stored tree is the expanded tree of a registered pattern. -/
def HoldsTrees (registry state : Registry) : Prop :=
  ∀ serial tree, state.trees[serial]? = some tree →
    ∃ id, (id, serial) ∈ registry.entries ∧ registry.expansion id = some tree

theorem HoldsTrees.insert {state : Registry} (hholds : registry.HoldsTrees state) {id : Int}
    {serial : Serial} {tree : Node} (hentry : (id, serial) ∈ registry.entries)
    (hexpansion : registry.expansion id = some tree) :
    registry.HoldsTrees { state with trees := state.trees.insert serial tree } :=
  forall_stored_insert hholds ⟨id, hentry, hexpansion⟩

/-- In the states with the invariant the same patterns are known and the stored trees are right, and
the invariant does not depend on which of them are stored. -/
structure Backs (registry : Registry) (invariant : Registry → Prop) : Prop where
  lookups : ∀ state, invariant state →
    (∀ id, state.get id = registry.get id) ∧ ∀ id, state.serialOf? id = registry.serialOf? id
  depthBound : ∀ state, invariant state → state.depthBound = registry.depthBound
  holds : ∀ state, invariant state → registry.HoldsTrees state
  store : ∀ state trees, invariant state → registry.HoldsTrees { state with trees } →
    invariant { state with trees }

theorem backs_recalls (registry : Registry) : registry.Backs registry.Recalls where
  lookups _ hstate := ⟨hstate.get, hstate.serialOf?⟩
  depthBound _ hstate := hstate.depthBound
  holds _ hstate := hstate.trees
  store state trees hstate htrees := by
    refine ⟨?_, htrees, hstate.descriptions⟩
    conv_lhs => rw [hstate.same]

theorem Backs.settles_expandOnce {invariant : Registry → Prop} (hbacks : registry.Backs invariant)
    (hcoherent : registry.Coherent) {id : Int} {serial : Serial} {tree : Node}
    (hentry : (id, serial) ∈ registry.entries) (hexpansion : registry.expansion id = some tree)
    {compute : Action Node} (hcompute : Settles invariant compute tree) :
    Settles invariant (expandOnce serial compute) tree := by
  unfold expandOnce
  refine .read fun state hstate => ?_
  cases hstored : state.trees[serial]? with
  | some found =>
      obtain ⟨other, hother, hfound⟩ := hbacks.holds state hstate serial found hstored
      obtain ⟨pattern, hpattern, hid⟩ := hcoherent.exists_pattern hentry
      obtain ⟨again, hagain, hsame⟩ := hcoherent.exists_pattern hother
      obtain rfl : pattern = again := Option.some.inj (hpattern.symm.trans hagain)
      rw [← hsame, hid, hexpansion] at hfound
      obtain rfl : tree = found := Option.some.inj hfound
      exact .pure hstate _
  | none =>
      refine (hcompute state hstate).bind ?_
      refine Settles.bind (.modify fun state hstate => ?_) (.pure _)
      exact hbacks.store state _ hstate ((hbacks.holds state hstate).insert hentry hexpansion)

/-! ### With a store or without -/

/-- What stands in place of a reference: the reference itself if its target is a literal, and else
the alternatives of what `inner` gives for the tree, `once` deciding what is stored of it. -/
def replaceWith (once : Serial → Action Node → Action Node) (inner : Node → Action Node) (id : Int)
    (quantity : Quantity) (look : Look) : Action Node := do
  let registry ← getThe Registry
  let target ← registry.get id
  match registry.serialOf? id, target.content with
  | some serial, .tree tree =>
    let expanded ← once serial (inner tree)
    return .group expanded.alternatives quantity look
  | _, _ => return .ref id quantity look

/-- The expanded tree of a tree, `once` deciding what is stored of the patterns in it. -/
def expandWith (once : Serial → Action Node → Action Node) : Nat → Node → Action Node
  | 0, _ => throw .endless
  | depth + 1, root => do
    let expanded ← mapReferences (replaceWith once (expandWith once depth)) root
    reducedExpansion expanded

theorem expandTree_eq_expandWith (depth : Nat) (root : Node) :
    expandTree depth root = expandWith expandOnce depth root := by
  induction depth generalizing root with
  | zero => rfl
  | succ depth ih =>
      have hinner : expandTree depth = expandWith expandOnce depth := funext ih
      rw [expandTree, expandWith, hinner]
      rfl

section Expanding

variable {invariant : Registry → Prop} {once : Serial → Action Node → Action Node}
  (hsame : ∀ state, invariant state →
    (∀ id, state.get id = registry.get id) ∧ ∀ id, state.serialOf? id = registry.serialOf? id)
  (honce : ∀ {id serial tree compute}, (id, serial) ∈ registry.entries →
    registry.expansion id = some tree → Settles invariant compute tree →
      Settles invariant (once serial compute) tree)
include hsame honce

theorem settles_replaceWith (hgrounded : registry.Grounded) {id : Int} {pattern : Pattern}
    (hpattern : registry.byId? id = some pattern) {inner : Node → Action Node}
    (hinner : ∀ tree, pattern.content = .tree tree → ∀ expanded,
      registry.expansion id = some expanded → Settles invariant (inner tree) expanded)
    (quantity : Quantity) (look : Look) :
    Settles invariant (replaceWith once inner id quantity look)
      (inPlace registry.expansion id quantity look) := by
  obtain ⟨serial, hentry, hserial⟩ := hgrounded.coherent.byId?_eq_some_iff.mp hpattern
  refine .read fun state hstate => ?_
  have hget : state.get id = .ok pattern := by
    rw [(hsame state hstate).1, Registry.get, hpattern]
  have hlookup : state.serialOf? id = some serial := by
    rw [(hsame state hstate).2, hgrounded.coherent.serialOf?_eq_some_iff]
    exact hentry
  rw [hget, hlookup]
  have hfound : Settles invariant (liftM (.ok pattern : Except Fault Pattern)) pattern := .lift rfl
  refine hfound.bind ?_ state hstate
  have hexpansion := expansion_eq hgrounded hpattern
  cases hcontent : pattern.content with
  | literal text =>
      rw [hcontent, expandContent] at hexpansion
      rw [inPlace, hexpansion]
      exact .pure _
  | tree root =>
      rw [hcontent, expandContent] at hexpansion
      rw [inPlace, hexpansion]
      exact (honce hentry hexpansion (hinner root hcontent _ hexpansion)).bind (.pure _)

/-- A reference to a registered pattern settles on what stands in its place, if the depth exceeds
its rank: the depth falls with the ranks. -/
theorem settles_reference (hrooted : registry.Rooted) {depth : Nat} {id : Int}
    (hknown : (registry.byId? id).isSome) (hrank : registry.rank id < depth) (quantity : Quantity)
    (look : Look) :
    Settles invariant (replaceWith once (expandWith once depth) id quantity look)
      (inPlace registry.expansion id quantity look) := by
  induction depth generalizing id quantity look with
  | zero => exact absurd hrank (Nat.not_lt_zero _)
  | succ depth ih =>
      obtain ⟨pattern, hpattern⟩ := Option.isSome_iff_exists.mp hknown
      refine settles_replaceWith hsame honce hrooted.toGrounded hpattern ?_ quantity look
      intro root hcontent expanded hexpanded
      have hmem := hrooted.coherent.mem_patterns hpattern
      have hexpansion := expansion_eq hrooted.toGrounded hpattern
      obtain ⟨alternatives, range, sight, rfl⟩ := hrooted.isGroup pattern hmem root hcontent
      rw [hcontent, expandContent, hexpanded] at hexpansion
      rw [Option.some.inj hexpansion, expandWith]
      refine Settles.bind (settles_mapReferences fun other hother => ?_) (.lift rfl)
      have hreference : other ∈ pattern.content.references := by
        rw [hcontent]
        exact hother
      have hlower := (hrooted.layered.refers hpattern other hreference).2
      exact ih (hrooted.closed pattern hmem other hreference) (by omega)

theorem settles_expandWith (hrooted : registry.Rooted) {depth : Nat}
    {alternatives : List (List Node)} {quantity : Quantity} {look : Look}
    (hknown : ∀ id ∈ (Node.group alternatives quantity look).references,
      (registry.byId? id).isSome)
    (hdepth : ∀ id ∈ (Node.group alternatives quantity look).references,
      registry.rank id < depth) :
    Settles invariant (expandWith once (depth + 1) (.group alternatives quantity look))
      ((Node.group alternatives quantity look).substitute
        (inPlace registry.expansion)).reduceRoot := by
  rw [expandWith]
  refine Settles.bind (settles_mapReferences fun id hid => ?_) (.lift rfl)
  exact settles_reference hsame honce hrooted (hknown id hid) (hdepth id hid)

end Expanding

/-- A serial that stands for an unregistered pattern, or for a registered one of this content. -/
def StandsAt (registry : Registry) (serial : Option Serial) (content : Content) : Prop :=
  ∀ known, serial = some known → ∃ id pattern, (id, known) ∈ registry.entries ∧
    registry.pattern? known = some pattern ∧ pattern.content = content

theorem standsAt_none (content : Content) : registry.StandsAt none content :=
  fun _ hnone => by cases hnone

section Backing

variable {invariant : Registry → Prop} (hbacks : registry.Backs invariant)
  (hrooted : registry.Rooted)
include hbacks hrooted

theorem Backs.settles_reference {depth : Nat} {id : Int} (hknown : (registry.byId? id).isSome)
    (hrank : registry.rank id < depth) (quantity : Quantity) (look : Look) :
    Settles invariant (replaceWith expandOnce (expandWith expandOnce depth) id quantity look)
      (inPlace registry.expansion id quantity look) := by
  apply Registry.settles_reference hbacks.lookups _ hrooted hknown hrank
  exact fun hentry hexpansion hcompute =>
    hbacks.settles_expandOnce hrooted.coherent hentry hexpansion hcompute

theorem Backs.settles_expand {serial : Option Serial} {alternatives : List (List Node)}
    {quantity : Quantity} {look : Look}
    (hknown : ∀ id ∈ (Node.group alternatives quantity look).references,
      (registry.byId? id).isSome)
    (hserial : registry.StandsAt serial (.tree (.group alternatives quantity look))) :
    Settles invariant (expand serial (.group alternatives quantity look))
      ((Node.group alternatives quantity look).substitute
        (inPlace registry.expansion)).reduceRoot := by
  unfold expand
  refine .read fun state hstate => ?_
  have hcompute : Settles invariant
      (expandTree state.depthBound (.group alternatives quantity look))
      ((Node.group alternatives quantity look).substitute
        (inPlace registry.expansion)).reduceRoot := by
    rw [hbacks.depthBound state hstate, expandTree_eq_expandWith]
    refine settles_expandWith hbacks.lookups ?_ hrooted hknown fun id hid => ?_
    · exact fun hentry hexpansion hcompute =>
        hbacks.settles_expandOnce hrooted.coherent hentry hexpansion hcompute
    · exact rank_lt_size hrooted.coherent hrooted.acyclic (hknown id hid)
  cases serial with
  | none => exact hcompute state hstate
  | some known =>
      obtain ⟨id, pattern, hentry, hpattern, hcontent⟩ := hserial known rfl
      have hfound := hrooted.coherent.byId?_eq_some_iff.mpr ⟨known, hentry, hpattern⟩
      refine hbacks.settles_expandOnce hrooted.coherent hentry ?_ hcompute state hstate
      rw [expansion_eq hrooted.toGrounded hfound, hcontent, expandContent]

end Backing

/-- The content of a pattern that is registered or could be. -/
structure Fits (registry : Registry) (content : Content) : Prop where
  known : ∀ id ∈ content.references, (registry.byId? id).isSome
  canonical : ∀ root, content = .tree root →
    ∃ alternatives, root = plainGroup alternatives ∧ Canonical alternatives

theorem Sound.fits (hsound : registry.Sound) {pattern : Pattern}
    (hpattern : pattern ∈ registry.patterns) : registry.Fits pattern.content :=
  ⟨hsound.closed pattern hpattern, hsound.canonical pattern hpattern⟩

/-- Describing a pattern in full ends with the text of its content, and only stores what is
right. -/
theorem settles_describeFully (hsound : registry.Sound) {serial : Option Serial} {pattern : Pattern}
    (hfits : registry.Fits pattern.content) (hserial : registry.StandsAt serial pattern.content) :
    Settles registry.Recalls (describeFully serial pattern)
        (registry.fullText pattern.content) := by
  unfold describeFully
  cases hcontent : pattern.content with
  | literal text => exact .pure _
  | tree root =>
      obtain ⟨alternatives, rfl, hcanonical⟩ := hfits.canonical root hcontent
      have hknown : registry.Knows alternatives := by
        intro id hid
        refine hfits.known id ?_
        rw [hcontent]
        exact hid
      rw [hcontent] at hserial
      obtain ⟨expanded, hreduced, hexpands⟩ := exists_expands hsound hcanonical hknown
      have hexpand : Settles registry.Recalls (expand serial (plainGroup alternatives))
          ((plainGroup alternatives).substitute (inPlace registry.expansion)).reduceRoot :=
        (backs_recalls registry).settles_expand hsound.rooted hknown hserial
      rw [hreduced] at hexpand
      refine hexpand.bind (.read fun state hstate => ?_)
      rw [hstate.render, render_expanded hsound hexpands]
      exact Settles.lift rfl state hstate

theorem mem_entries_of_isRegistered (hcoherent : registry.Coherent) {serial : Serial}
    {pattern : Pattern} (hpattern : registry.pattern? serial = some pattern)
    (hregistered : registry.isRegistered serial = true) :
    (pattern.id, serial) ∈ registry.entries := by
  rw [isRegistered, hpattern] at hregistered
  simpa [hcoherent.serialOf?_eq_some_iff] using hregistered

theorem settles_fullDescription (hsound : registry.Sound) {serial : Serial} {pattern : Pattern}
    (hpattern : registry.pattern? serial = some pattern) (hfits : registry.Fits pattern.content) :
    Settles registry.Recalls (fullDescription serial pattern)
      (registry.fullText pattern.content) := by
  unfold fullDescription
  refine .read fun state hstate => ?_
  rw [hstate.isRegistered]
  split
  next hregistered =>
    have hentry := mem_entries_of_isRegistered hsound.coherent hpattern hregistered
    cases hstored : state.descriptions[serial]? with
    | some text =>
        obtain ⟨id, found, -, hfound, rfl⟩ := hstate.descriptions serial text hstored
        obtain rfl : pattern = found := Option.some.inj (hpattern.symm.trans hfound)
        exact .pure hstate _
    | none =>
        have hstands : registry.StandsAt (some serial) pattern.content := by
          rintro known ⟨⟩
          exact ⟨pattern.id, pattern, hentry, hpattern, rfl⟩
        refine (settles_describeFully hsound hfits hstands state hstate).bind ?_
        refine Settles.bind (.modify fun state hstate => ?_) (.pure _)
        refine ⟨?_, hstate.trees, ?_⟩
        · conv_lhs => rw [hstate.same]
        · exact forall_stored_insert hstate.descriptions
            ⟨pattern.id, pattern, hentry, hpattern, rfl⟩
  next =>
    exact settles_describeFully hsound hfits (standsAt_none _) state hstate

/-! ## Equivalent patterns -/

/-- The first of the given patterns, other than one, with a full description. -/
def firstSpelled (registry : Registry) (wanted : String) (self : Option Serial)
    (patterns : List (Serial × Pattern)) : Option Serial :=
  (patterns.find? fun entry =>
    self ≠ some entry.1 && registry.fullText entry.2.content = wanted).map Prod.fst

theorem mem_registered_of_firstSpelled {wanted : String} {patterns : List (Serial × Pattern)}
    {serial : Serial} (hfirst : registry.firstSpelled wanted none patterns = some serial) :
    ∃ pattern, (serial, pattern) ∈ patterns ∧ registry.fullText pattern.content = wanted := by
  obtain ⟨entry, hentry, rfl⟩ := Option.map_eq_some_iff.mp hfirst
  have htext := List.find?_some hentry
  refine ⟨entry.2, List.mem_of_find?_eq_some hentry, by simpa using htext⟩

theorem ne_of_firstSpelled_eq_none {wanted : String} {patterns : List (Serial × Pattern)}
    (hfirst : registry.firstSpelled wanted none patterns = none) {entry : Serial × Pattern}
    (hentry : entry ∈ patterns) : registry.fullText entry.2.content ≠ wanted := by
  have hnone := List.find?_eq_none.mp (Option.map_eq_none_iff.mp hfirst) entry hentry
  simpa using hnone

theorem settles_firstDescribed (hsound : registry.Sound) (wanted : String) (self : Option Serial)
    {patterns : List (Serial × Pattern)}
    (hpatterns : ∀ entry ∈ patterns, registry.pattern? entry.1 = some entry.2 ∧
      registry.Fits entry.2.content) :
    Settles registry.Recalls (firstDescribed wanted self patterns)
      (registry.firstSpelled wanted self patterns) := by
  induction patterns with
  | nil => exact .pure _
  | cons entry rest ih =>
      obtain ⟨serial, pattern⟩ := entry
      obtain ⟨hpattern, hfits⟩ := hpatterns _ List.mem_cons_self
      have hrest := ih fun other hother => hpatterns other (List.mem_cons_of_mem _ hother)
      rw [firstDescribed]
      by_cases hself : self = some serial
      · rw [if_pos hself]
        have hskip : registry.firstSpelled wanted self ((serial, pattern) :: rest) =
            registry.firstSpelled wanted self rest := by
          simp [firstSpelled, hself]
        rw [hskip]
        exact hrest
      · rw [if_neg hself]
        refine (settles_fullDescription hsound hpattern hfits).bind ?_
        by_cases hwanted : registry.fullText pattern.content = wanted
        · rw [if_pos hwanted]
          have hfound : registry.firstSpelled wanted self ((serial, pattern) :: rest) =
              some serial := by
            simp [firstSpelled, hself, hwanted]
          rw [hfound]
          exact .pure _
        · rw [if_neg hwanted]
          have hskip : registry.firstSpelled wanted self ((serial, pattern) :: rest) =
              registry.firstSpelled wanted self rest := by
            simp [firstSpelled, hwanted]
          rw [hskip]
          exact hrest

theorem mem_registered {serial : Serial} {pattern : Pattern}
    (hmem : (serial, pattern) ∈ registry.registered) :
    registry.pattern? serial = some pattern ∧ pattern ∈ registry.patterns := by
  refine ⟨?_, List.mem_map_of_mem hmem⟩
  simp only [registered, List.mem_filterMap, Option.map_eq_some_iff] at hmem
  obtain ⟨entry, -, found, hfound, hsame⟩ := hmem
  cases hsame
  exact hfound

/-- Looking for an equivalent of an unregistered pattern finds the first registered one with the
same full description. -/
theorem settles_equivalent? (hsound : registry.Sound) {pattern : Pattern}
    (hfits : registry.Fits pattern.content) :
    Settles registry.Recalls (equivalent? pattern)
      (registry.firstSpelled (registry.fullText pattern.content) none registry.registered) := by
  unfold equivalent?
  refine .read fun state hstate => ?_
  refine (settles_describeFully hsound hfits (standsAt_none _) state hstate).bind ?_
  rw [hstate.registered]
  refine settles_firstDescribed hsound _ none fun entry hentry => ?_
  obtain ⟨hpattern, hmem⟩ := mem_registered hentry
  exact ⟨hpattern, hsound.fits hmem⟩

end Motif.Registry
