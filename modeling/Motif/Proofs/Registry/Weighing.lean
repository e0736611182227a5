import Motif.Proofs.Node.Paring
import Motif.Proofs.Registry.Operations

/-!
# Weighed registries

In a weighed registry the penalty of every pattern is that of its tree, given the penalties of the
patterns to which it refers. It stays so when patterns are registered, renamed and removed, since
the penalty of a registered pattern never changes.
-/

namespace Motif

namespace Content

/-- What a content costs, `cost` giving the penalty of each pattern. A literal costs nothing. -/
def penalty (cost : Int → Except Fault Int) : Content → Except Fault Int
  | literal _ => .ok 0
  | tree root => root.penalty cost

/-- The content with a pared tree. -/
def pared : Content → Content
  | literal text => literal text
  | tree root => tree root.pared

/-- The tree, if there is one, has no superfluous group. -/
def IsPared : Content → Prop
  | literal _ => True
  | tree root => root.IsPared

theorem penalty_congr {cost other : Int → Except Fault Int} {content : Content}
    (hcost : ∀ id ∈ content.references, cost id = other id) :
    content.penalty cost = content.penalty other := by
  cases content with
  | literal text => rfl
  | tree root => exact Node.penalty_congr hcost

theorem atMost_penalty_pared {cost dearer : Int → Except Fault Int} {content : Content}
    (hcost : ∀ id ∈ content.references, Node.AtMost (cost id) (dearer id)) :
    Node.AtMost (content.pared.penalty cost) (content.penalty dearer) := by
  cases content with
  | literal text => exact .refl _
  | tree root => exact Node.atMost_penalty_pared hcost

end Content

namespace Registry

variable {registry first second : Registry} {pattern : Pattern}

/-- The penalty of the pattern registered under an id. -/
def cost (registry : Registry) (id : Int) : Except Fault Int :=
  (registry.get id).map Pattern.penalty

/-- The pattern has the penalty that its content costs in the registry. -/
def Weighs (registry : Registry) (pattern : Pattern) : Prop :=
  pattern.content.penalty registry.cost = .ok pattern.penalty

/-- Every registered pattern has the penalty that its content costs. -/
def Weighed (registry : Registry) : Prop :=
  ∀ pattern ∈ registry.patterns, registry.Weighs pattern

theorem cost_eq {id : Int} (hpattern : registry.byId? id = some pattern) :
    registry.cost id = .ok pattern.penalty := by
  rw [cost, get, hpattern]
  rfl

theorem Weighs.transfer (hweighs : first.Weighs pattern)
    (hcost : ∀ id ∈ pattern.content.references, second.cost id = first.cost id) :
    second.Weighs pattern :=
  (Content.penalty_congr hcost).trans hweighs

theorem weighs_of_compile {text : String} {name : Option String} {kind : Kind}
    (hcompile : registry.compile text name kind = .ok pattern) : registry.Weighs pattern := by
  obtain ⟨root, -, hcompile⟩ := bind_eq_ok_iff.mp hcompile
  obtain ⟨penalty, hpenalty, hpattern⟩ := bind_eq_ok_iff.mp hcompile
  cases hpattern
  exact hpenalty

theorem weighed_empty : Weighed {} := by
  simp [Weighed, patterns, registered]

/-- Every pattern of the second registry has in the first one its content and its penalty. -/
def Preserves (first second : Registry) : Prop :=
  ∀ id pattern, second.byId? id = some pattern →
    ∃ origin, first.byId? id = some origin ∧ origin.content = pattern.content ∧
      origin.penalty = pattern.penalty

/-- Patterns stay weighed if they keep their contents and penalties, and others may go. -/
theorem Weighed.transfer (hweighed : first.Weighed) (hfirst : first.Coherent)
    (hsecond : second.Grounded) (hpreserves : Preserves first second) : second.Weighed := by
  intro pattern hpattern
  obtain ⟨origin, horigin, hcontent, hpenalty⟩ :=
    hpreserves _ _ (hsecond.coherent.mem_patterns_iff.mp hpattern)
  have hweighs := hweighed origin (hfirst.mem_patterns horigin)
  unfold Weighs at hweighs ⊢
  rw [← hcontent, ← hpenalty, ← hweighs]
  refine Content.penalty_congr fun id hid => ?_
  obtain ⟨found, hfound⟩ :=
    Option.isSome_iff_exists.mp (hsecond.closed pattern hpattern id (hcontent ▸ hid))
  obtain ⟨lower, hlower, -, hsame⟩ := hpreserves id found hfound
  rw [cost_eq hfound, cost_eq hlower, hsame]

theorem Orderly.weighed_extend (horderly : registry.Orderly) (hweighed : registry.Weighed)
    (hid : registry.serialOf? pattern.id = none) (hfits : registry.Fits pattern.content)
    (hweighs : registry.Weighs pattern) : (registry.extend pattern).Weighed := by
  have hcost : ∀ id, (registry.byId? id).isSome →
      (registry.extend pattern).cost id = registry.cost id := by
    intro id hknown
    obtain ⟨found, hfound⟩ := Option.isSome_iff_exists.mp hknown
    rw [cost_eq hfound, cost_eq (horderly.byId?_extend hid hfound)]
  intro found hfound
  obtain ⟨serial, hentry, hserial⟩ := (horderly.coherent.extend hid).exists_entry hfound
  rcases horderly.coherent.cases_extend hentry hserial with ⟨hold, hserial⟩ | ⟨-, -, rfl⟩
  · have hmem := horderly.coherent.mem_patterns_of_entry hold hserial
    exact (hweighed found hmem).transfer fun id hreference =>
      hcost id (horderly.grounded.closed found hmem id hreference)
  · exact hweighs.transfer fun id hreference => hcost id (hfits.known id hreference)

theorem Consistent.weighed_renamed (hconsistent : registry.Consistent)
    (hweighed : registry.Weighed) {serial : Serial}
    (hpattern : registry.pattern? serial = some pattern) {name : String}
    (hname : ∀ other, registry.named? name = some other → other = serial) (kind : Option Kind) :
    (registry.renamed serial pattern name kind).Weighed := by
  have hrenamed : (registry.renamed serial pattern name kind).Consistent :=
    hconsistent.renamed hpattern hname
  refine hweighed.transfer hconsistent.coherent hrenamed.grounded fun id found hfound => ?_
  obtain ⟨other, hentry, hother⟩ := hrenamed.coherent.byId?_eq_some_iff.mp hfound
  rw [pattern?_renamed hpattern] at hother
  split at hother
  next hserial =>
    obtain rfl := Option.some.inj hother
    rw [hserial] at hentry
    exact ⟨pattern, hconsistent.coherent.byId?_eq_some_iff.mpr ⟨serial, hentry, hpattern⟩, rfl, rfl⟩
  next =>
    exact ⟨found, hconsistent.coherent.byId?_eq_some_iff.mpr ⟨other, hentry, hother⟩, rfl, rfl⟩

theorem Consistent.weighed_without (hconsistent : registry.Consistent)
    (hweighed : registry.Weighed) {serial : Serial}
    (hpattern : registry.pattern? serial = some pattern)
    (hunused : registry.dependents serial pattern.id = []) :
    (registry.without serial pattern).Weighed := by
  have hwithout := hconsistent.without hpattern hunused
  refine hweighed.transfer hconsistent.coherent hwithout.grounded fun id found hfound => ?_
  obtain ⟨other, hentry, hother⟩ := hwithout.coherent.byId?_eq_some_iff.mp hfound
  have hold := (mem_entries_without.mp hentry).1
  exact ⟨found, hconsistent.coherent.byId?_eq_some_iff.mpr ⟨other, hold, hother⟩, rfl, rfl⟩

end Registry

end Motif
