import Motif.Node.LookBehind
import Motif.Proofs.Node.Rendering

/-!
# Reduced trees

A reduced tree has the references of the tree from which it comes. It has no groups that could be
spliced, no empty sequences if there were none, and no other quantifiers and looks; and what stands
inside a look behind stays undecorated.
-/

namespace Motif.Node

theorem mem_reduceSequence {node : Node} {sequence : List Node} :
    node ∈ reduceSequence sequence ↔ ∃ origin ∈ sequence, node ∈ origin.reduce.spliced := by
  induction sequence with
  | nil => simp [reduceSequence]
  | cons first rest ih => simp [reduceSequence, ih]

theorem reduceAlternatives_eq_map (alternatives : List (List Node)) :
    reduceAlternatives alternatives = alternatives.map reduceSequence := by
  induction alternatives with
  | nil => rfl
  | cons first rest ih => rw [reduceAlternatives, ih, List.map_cons]

/-- A node is spliced into its own nodes or stays as it is. -/
theorem spliced_cases (node : Node) :
    (∃ sequence, node = plainGroup [sequence] ∧ node.spliced = sequence) ∨
      node.isTransparent = false ∧ node.spliced = [node] := by
  unfold spliced
  split
  next sequence => exact .inl ⟨sequence, rfl, rfl⟩
  next hsolid =>
    refine .inr ⟨?_, rfl⟩
    unfold isTransparent
    split
    next sequence => exact absurd rfl (hsolid sequence)
    next => rfl

theorem everywhere_of_mem_spliced {property : Node → Prop} {node child : Node}
    (hnode : Everywhere property node) (hchild : child ∈ node.spliced) :
    Everywhere property child := by
  rcases spliced_cases node with ⟨sequence, rfl, hspliced⟩ | ⟨-, hspliced⟩
  · rw [hspliced] at hchild
    exact (everywhere_group_iff.mp hnode).2 sequence List.mem_cons_self child hchild
  · rw [hspliced, List.mem_singleton] at hchild
    exact hchild ▸ hnode

theorem exists_of_mem_reduceAlternatives {alternatives : List (List Node)} {sequence : List Node}
    {child : Node} (hsequence : sequence ∈ reduceAlternatives alternatives)
    (hchild : child ∈ sequence) :
    ∃ origins ∈ alternatives, ∃ origin ∈ origins, child ∈ origin.reduce.spliced := by
  rw [reduceAlternatives_eq_map] at hsequence
  obtain ⟨origins, horigins, rfl⟩ := List.mem_map.mp hsequence
  obtain ⟨origin, horigin, hspliced⟩ := mem_reduceSequence.mp hchild
  exact ⟨origins, horigins, origin, horigin, hspliced⟩

/-- A property of all nodes of a reduced tree, established from the leaves to the root. -/
theorem everywhere_reduce (given property : Node → Prop) {node : Node}
    (href : ∀ id quantity look, given (ref id quantity look) → property (ref id quantity look))
    (hgroup : ∀ alternatives quantity look, given (group alternatives quantity look) →
      (∀ sequence ∈ alternatives, ∀ child ∈ sequence, Everywhere property child.reduce) →
        property (group (reduceAlternatives alternatives) quantity look))
    (hnode : Everywhere given node) : Everywhere property node.reduce := by
  induction node using Node.memberInduction with
  | ref id quantity look =>
      rw [everywhere_ref_iff] at hnode
      exact everywhere_ref_iff.mpr (href id quantity look hnode)
  | group alternatives quantity look ih =>
      obtain ⟨hgiven, hinside⟩ := everywhere_group_iff.mp hnode
      have hchildren : ∀ sequence ∈ alternatives, ∀ child ∈ sequence,
          Everywhere property child.reduce := fun sequence hsequence child hchild =>
        ih sequence hsequence child hchild (hinside sequence hsequence child hchild)
      rw [reduce, everywhere_group_iff]
      refine ⟨hgroup alternatives quantity look hgiven hchildren, ?_⟩
      intro sequence hsequence child hchild
      obtain ⟨origins, horigins, origin, horigin, hspliced⟩ :=
        exists_of_mem_reduceAlternatives hsequence hchild
      exact everywhere_of_mem_spliced (hchildren origins horigins origin horigin) hspliced

theorem everywhere_unwrap {property : Node → Prop} {alternatives : List (List Node)}
    (hroot : Everywhere property (plainGroup alternatives)) :
    Everywhere property (plainGroup (unwrap alternatives)) := by
  induction alternatives using unwrap.induct with
  | case1 inner ih =>
      rw [unwrap]
      refine ih ?_
      exact (everywhere_group_iff.mp hroot).2 _ List.mem_cons_self _ List.mem_cons_self
  | case2 alternatives hother => rwa [unwrap.eq_2 _ hother]

theorem reduceRoot_plainGroup (alternatives : List (List Node)) :
    (plainGroup alternatives).reduceRoot =
      plainGroup (unwrap (reduceAlternatives alternatives)) := by
  unfold reduceRoot
  rw [plainGroup, reduce]
  split
  next inner _ _ heq =>
    obtain ⟨halternatives, -, -⟩ := Node.group.inj heq
    rw [halternatives, unwrap]
  next hother =>
    rw [unwrap.eq_2]
    · rfl
    · intro inner halternatives
      exact hother inner .once .here (by rw [halternatives])

/-- Reduction of a whole tree keeps what reduction keeps. -/
theorem everywhere_reduceRoot {property : Node → Prop} {alternatives : List (List Node)}
    (hreduce : Everywhere property (plainGroup alternatives).reduce) :
    Everywhere property (plainGroup alternatives).reduceRoot := by
  rw [reduceRoot_plainGroup]
  exact everywhere_unwrap hreduce

theorem wrap_spellAlternatives_reduceRoot (leaf : Bool → Int → List (List Phrase))
    (alternatives : List (List Node)) (quantity : Quantity) (look : Look) :
    Phrase.wrap (spellAlternatives leaf false (unwrap (reduceAlternatives alternatives)))
        quantity look =
      Phrase.wrap (spellAlternatives leaf false alternatives) quantity look := by
  rw [wrap_spellAlternatives_unwrap, spellAlternatives_reduceAlternatives]
  exact fun _ _ node _ => spell_reduce false node

theorem isFull_reduce {node : Node} (hnode : Everywhere IsFull node) :
    Everywhere IsFull node.reduce := by
  refine everywhere_reduce IsFull IsFull (fun _ _ _ _ => trivial) ?_ hnode
  rintro alternatives quantity look ⟨hne, hsequences⟩ hchildren
  rw [reduceAlternatives_eq_map]
  refine ⟨by simpa using hne, ?_⟩
  intro sequence hsequence
  obtain ⟨origins, horigins, rfl⟩ := List.mem_map.mp hsequence
  obtain ⟨origin, rest, rfl⟩ := List.exists_cons_of_ne_nil (hsequences origins horigins)
  have hfull := hchildren _ horigins origin List.mem_cons_self
  rw [reduceSequence]
  intro hempty
  have hspliced := (List.append_eq_nil_iff.mp hempty).1
  rcases spliced_cases origin.reduce with ⟨sequence, hreduce, hsame⟩ | ⟨-, hsame⟩
  · rw [hreduce] at hfull
    rw [hsame] at hspliced
    exact (everywhere_group_iff.mp hfull).1.2 sequence List.mem_cons_self hspliced
  · rw [hsame] at hspliced
    cases hspliced

theorem isTight_reduce (node : Node) : Everywhere IsTight node.reduce := by
  refine everywhere_reduce (fun _ => True) IsTight (fun _ _ _ _ => trivial) ?_ fun _ _ => trivial
  intro alternatives quantity look _ hchildren sequence hsequence child hchild
  obtain ⟨origins, horigins, origin, horigin, hspliced⟩ :=
    exists_of_mem_reduceAlternatives hsequence hchild
  have htight := hchildren origins horigins origin horigin
  rcases spliced_cases origin.reduce with ⟨sequence, hreduce, hsame⟩ | ⟨hsolid, hsame⟩
  · rw [hreduce] at htight
    rw [hsame] at hspliced
    exact (everywhere_group_iff.mp htight).1 sequence List.mem_cons_self child hspliced
  · rw [hsame, List.mem_singleton] at hspliced
    exact hspliced ▸ hsolid

/-- Properties of quantifiers and looks alone are kept. -/
theorem everywhere_reduce_of_decoration (property : Quantity → Look → Prop) {node : Node}
    (hnode : Everywhere (fun child => property child.quantity child.look) node) :
    Everywhere (fun child => property child.quantity child.look) node.reduce :=
  everywhere_reduce _ _ (fun _ _ _ hgiven => hgiven) (fun _ _ _ hgiven _ => hgiven) hnode

/-- Every node inside a group that looks behind is undecorated. -/
def LooksBehindPlainly : Node → Prop
  | group alternatives _ .behind => ∀ sequence ∈ alternatives, ∀ node ∈ sequence,
      Everywhere (fun child => child.quantity = .once ∧ child.look = .here) node
  | _ => True

theorem looksBehindPlainly_reduce {node : Node} (hnode : Everywhere LooksBehindPlainly node) :
    Everywhere LooksBehindPlainly node.reduce := by
  refine everywhere_reduce LooksBehindPlainly LooksBehindPlainly (fun _ _ _ _ => trivial) ?_ hnode
  intro alternatives quantity look hgiven hchildren
  cases look with
  | here => trivial
  | ahead => trivial
  | behind =>
      intro sequence hsequence child hchild
      obtain ⟨origins, horigins, origin, horigin, hspliced⟩ :=
        exists_of_mem_reduceAlternatives hsequence hchild
      refine everywhere_of_mem_spliced ?_ hspliced
      exact everywhere_reduce_of_decoration (fun quantity look => quantity = .once ∧ look = .here)
        (hgiven origins horigins origin horigin)

theorem exists_mem_spliced_iff {node : Node} {id : Int} :
    (∃ child ∈ node.spliced, id ∈ child.references) ↔ id ∈ node.references := by
  rcases spliced_cases node with ⟨sequence, rfl, hspliced⟩ | ⟨-, hspliced⟩
  · rw [hspliced, plainGroup, mem_references_group]
    simp
  · simp [hspliced]

theorem mem_references_reduce {node : Node} {id : Int} :
    id ∈ node.reduce.references ↔ id ∈ node.references := by
  induction node using Node.memberInduction with
  | ref other quantity look => rfl
  | group alternatives quantity look ih =>
      rw [reduce, mem_references_group, mem_references_group]
      constructor
      · rintro ⟨sequence, hsequence, child, hchild, hid⟩
        obtain ⟨origins, horigins, origin, horigin, hspliced⟩ :=
          exists_of_mem_reduceAlternatives hsequence hchild
        refine ⟨origins, horigins, origin, horigin, ?_⟩
        exact (ih origins horigins origin horigin).mp
          (exists_mem_spliced_iff.mp ⟨child, hspliced, hid⟩)
      · rintro ⟨origins, horigins, origin, horigin, hid⟩
        obtain ⟨child, hspliced, hchild⟩ := exists_mem_spliced_iff.mpr
          ((ih origins horigins origin horigin).mpr hid)
        rw [reduceAlternatives_eq_map]
        exact ⟨reduceSequence origins, List.mem_map_of_mem horigins, child,
          mem_reduceSequence.mpr ⟨origin, horigin, hspliced⟩, hchild⟩

theorem mem_references_unwrap {alternatives : List (List Node)} {id : Int} :
    id ∈ (plainGroup (unwrap alternatives)).references ↔
      id ∈ (plainGroup alternatives).references := by
  induction alternatives using unwrap.induct with
  | case1 inner ih =>
      rw [unwrap, ih]
      simp [plainGroup]
  | case2 alternatives hother => rw [unwrap.eq_2 _ hother]

theorem mem_references_reduceRoot {node : Node} {id : Int} :
    id ∈ node.reduceRoot.references ↔ id ∈ node.references := by
  have hreduce : id ∈ node.reduce.references ↔ id ∈ node.references := mem_references_reduce
  rw [← hreduce, reduceRoot]
  split
  next inner quantity look hreduced =>
    rw [hreduced, mem_references_unwrap]
    simp [plainGroup]
  next => rfl

/-! ## The check of what stands inside a look behind -/

theorem decorationFault?_eq_none_iff {quantity : Quantity} {look : Look} :
    decorationFault? quantity look = none ↔ quantity = .once ∧ look = .here := by
  obtain ⟨least, most⟩ := quantity
  cases look with
  | here =>
      by_cases hleast : least = 1 <;> by_cases hmost : most = 1 <;>
        simp [decorationFault?, Quantity.once, hleast, hmost]
  | ahead => simp [decorationFault?]
  | behind => simp [decorationFault?]

theorem insideFaultOfAlternatives?_eq_none_iff {alternatives : List (List Node)} :
    insideFaultOfAlternatives? alternatives = none ↔
      ∀ sequence ∈ alternatives, ∀ node ∈ sequence, node.insideFault? = none := by
  induction alternatives with
  | nil => simp [insideFaultOfAlternatives?]
  | cons first rest ih =>
      have hsequence : ∀ sequence : List Node, insideFaultOfSequence? sequence = none ↔
          ∀ node ∈ sequence, node.insideFault? = none := by
        intro sequence
        induction sequence with
        | nil => simp [insideFaultOfSequence?]
        | cons node rest ih => simp [insideFaultOfSequence?, ih]
      simp [insideFaultOfAlternatives?, hsequence, ih]

theorem insideFault?_eq_none_iff {node : Node} :
    node.insideFault? = none ↔
      Everywhere (fun child => child.quantity = .once ∧ child.look = .here) node := by
  induction node using Node.memberInduction with
  | ref id quantity look =>
      rw [insideFault?, decorationFault?_eq_none_iff, everywhere_ref_iff]
      rfl
  | group alternatives quantity look ih =>
      rw [insideFault?, Option.or_eq_none_iff, decorationFault?_eq_none_iff,
        insideFaultOfAlternatives?_eq_none_iff, everywhere_group_iff]
      refine and_congr_right fun _ => ?_
      refine forall₂_congr fun sequence hsequence => forall₂_congr fun child hchild => ?_
      exact ih sequence hsequence child hchild

theorem behindFault?_eq_none_iff {node : Node} :
    node.behindFault? = none ↔ node.LooksBehindPlainly := by
  cases node with
  | ref id quantity look => simp [behindFault?, LooksBehindPlainly]
  | group alternatives quantity look =>
      cases look with
      | here => simp [behindFault?, LooksBehindPlainly]
      | ahead => simp [behindFault?, LooksBehindPlainly]
      | behind =>
          rw [behindFault?, insideFaultOfAlternatives?_eq_none_iff, LooksBehindPlainly]
          refine forall₂_congr fun sequence hsequence => forall₂_congr fun child hchild => ?_
          exact insideFault?_eq_none_iff

theorem lookBehindFaultOfAlternatives?_eq_none_iff {alternatives : List (List Node)} :
    lookBehindFaultOfAlternatives? alternatives = none ↔
      ∀ sequence ∈ alternatives, ∀ node ∈ sequence,
        node.behindFault? = none ∧ node.lookBehindFault? = none := by
  induction alternatives with
  | nil => simp [lookBehindFaultOfAlternatives?]
  | cons first rest ih =>
      have hsequence : ∀ sequence : List Node, lookBehindFaultOfSequence? sequence = none ↔
          ∀ node ∈ sequence, node.behindFault? = none ∧ node.lookBehindFault? = none := by
        intro sequence
        induction sequence with
        | nil => simp [lookBehindFaultOfSequence?]
        | cons node rest ih => simp [lookBehindFaultOfSequence?, ih, and_assoc]
      simp [lookBehindFaultOfAlternatives?, hsequence, ih]

/-- A tree passes the check if every group in it that looks behind does so plainly. -/
theorem lookBehindFault?_eq_none_iff {alternatives : List (List Node)} :
    (plainGroup alternatives).lookBehindFault? = none ↔
      Everywhere LooksBehindPlainly (plainGroup alternatives) := by
  have hnode : ∀ node : Node, node.behindFault? = none ∧ node.lookBehindFault? = none ↔
      Everywhere LooksBehindPlainly node := by
    intro node
    induction node using Node.memberInduction with
    | ref id quantity look =>
        simp [behindFault?, lookBehindFault?, everywhere_ref_iff, LooksBehindPlainly]
    | group alternatives quantity look ih =>
        rw [behindFault?_eq_none_iff, lookBehindFault?,
          lookBehindFaultOfAlternatives?_eq_none_iff, everywhere_group_iff]
        refine and_congr_right fun _ => ?_
        refine forall₂_congr fun sequence hsequence => forall₂_congr fun child hchild => ?_
        exact ih sequence hsequence child hchild
  rw [← hnode, behindFault?_eq_none_iff]
  simp [plainGroup, LooksBehindPlainly]

end Motif.Node
