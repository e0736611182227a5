import Motif.Proofs.Registry.Describing

/-!
# Compiling descriptions

A description can be compiled again in the registry that has given it. The tree that results need
not be the one described, but it is spelled in full in the same way.
-/

namespace Motif.Registry

open Node (Canonical Everywhere LooksBehindPlainly StandsFor WritesAtoms plainGroup spell
  spellAlternatives)
open Phrase (Mentions Readable wrap treesOfAlternatives)

variable {registry : Registry}

/-- Every registered pattern that has a name is found by it. -/
def Named (registry : Registry) : Prop :=
  ∀ id serial pattern, (id, serial) ∈ registry.entries → registry.pattern? serial = some pattern →
    ∀ name, pattern.name = some name → registry.named? name = some serial

theorem hasId_scope {id : Int} {pattern : Pattern} (hpattern : registry.byId? id = some pattern) :
    registry.scope.hasId id = true := by
  simp [scope, hpattern]

theorem Named.idOf_scope (hnamed : registry.Named) (hcoherent : registry.Coherent) {id : Int}
    {pattern : Pattern} (hpattern : registry.byId? id = some pattern) {name : String}
    (hname : pattern.name = some name) : registry.scope.idOf name = some pattern.id := by
  obtain ⟨serial, hentry, hserial⟩ := hcoherent.byId?_eq_some_iff.mp hpattern
  have hfound := hnamed id serial pattern hentry hserial name hname
  simp [scope, hfound, hserial]

/-- In the scope of a registry the lexeme of each of its patterns leads to it. -/
theorem resolve_scope (hcoherent : registry.Coherent) (hnamed : registry.Named)
    {id : Int} {pattern : Pattern} (hpattern : registry.byId? id = some pattern)
    (hwritable : pattern.Writable) (name : Option String) (position : Nat) :
    Node.Parser.resolve registry.scope name ⟨pattern.symbol, position⟩ =
      .ok (registry.scope.target pattern.symbol) ∧ registry.scope.target pattern.symbol = id := by
  have hid := hcoherent.id_eq hpattern
  have hknown : registry.scope.hasId pattern.id = true := by
    rw [hid]
    exact hasId_scope hpattern
  have hidOf := fun (name : String) (hname : pattern.name = some name) =>
    hnamed.idOf_scope hcoherent hpattern hname
  rw [Pattern.target_symbol hwritable hknown hidOf, Pattern.resolve_symbol hwritable hknown hidOf]
  exact ⟨rfl, hid⟩

/-- These phrases can be read again in the registry, and nothing is decorated inside their looks
behind. -/
structure Rereads (registry : Registry) (alternatives : List (List Phrase)) : Prop where
  readable : Readable alternatives
  mentions : ∀ sequence ∈ alternatives, ∀ phrase ∈ sequence, ∀ symbol, Mentions symbol phrase →
    ∃ id pattern, registry.byId? id = some pattern ∧ pattern.Writable ∧ symbol = pattern.symbol
  behind : ∀ sequence ∈ alternatives, ∀ phrase ∈ sequence,
    Everywhere LooksBehindPlainly (phrase.tree registry.scope.target)

theorem rereads_spellAlternatives {leaf : Bool → Int → List (List Phrase)}
    {alternatives : List (List Node)} (hcanonical : Canonical alternatives)
    (hatoms : ∀ id ∈ (plainGroup alternatives).references, WritesAtoms leaf id)
    (hleaf : ∀ id ∈ (plainGroup alternatives).references, ∀ behind,
      registry.Rereads (leaf behind id)) :
    registry.Rereads (spellAlternatives leaf false alternatives) where
  readable := Node.readable_spellAlternatives hcanonical.full hcanonical.allowed
    (fun id hid behind => (hleaf id hid behind).readable) false
  mentions := by
    intro phrases hphrases phrase hphrase symbol hmention
    obtain ⟨sequence, hsequence, node, hnode, hspelled⟩ :=
      Node.mem_spellAlternatives hphrases hphrase
    obtain ⟨id, hid, behind, inner, hinner, other, hother, hmention⟩ :=
      Node.mentions_spell hspelled hmention
    have hreference : id ∈ (plainGroup alternatives).references :=
      Node.mem_references_group.mpr ⟨sequence, hsequence, node, hnode, hid⟩
    exact (hleaf id hreference behind).mentions inner hinner other hother symbol hmention
  behind := by
    intro phrases hphrases phrase hphrase
    obtain ⟨sequence, hsequence, node, hnode, hspelled⟩ :=
      Node.mem_spellAlternatives hphrases hphrase
    have hreference : ∀ id ∈ node.references, id ∈ (plainGroup alternatives).references :=
      fun id hid => Node.mem_references_group.mpr ⟨sequence, hsequence, node, hnode, hid⟩
    have hbehind := (Node.everywhere_group_iff.mp hcanonical.behind).2 sequence hsequence node hnode
    exact Node.looksBehindPlainly_tree hbehind (fun id hid => hatoms id (hreference id hid))
      (fun id hid behind => (hleaf id (hreference id hid) behind).behind) hspelled

theorem Rereads.singleton {phrase : Phrase} (hlegible : phrase.Legible)
    (hmentions : ∀ symbol, Mentions symbol phrase →
      ∃ id pattern, registry.byId? id = some pattern ∧ pattern.Writable ∧ symbol = pattern.symbol)
    (hbehind : Everywhere LooksBehindPlainly (phrase.tree registry.scope.target)) :
    registry.Rereads [[phrase]] where
  readable := .singleton hlegible
  mentions := by
    intro sequence hsequence other hother
    obtain rfl := List.mem_singleton.mp hsequence
    obtain rfl := List.mem_singleton.mp hother
    exact hmentions
  behind := by
    intro sequence hsequence other hother
    obtain rfl := List.mem_singleton.mp hsequence
    obtain rfl := List.mem_singleton.mp hother
    exact hbehind

theorem Rereads.symbol {id : Int} {pattern : Pattern} (hpattern : registry.byId? id = some pattern)
    (hwritable : pattern.Writable) :
    registry.Rereads [[.atom pattern.symbol .once .here]] := by
  refine .singleton (.atom (Pattern.isReference_symbol hwritable)
    (Phrase.allowed_here Quantity.legal_once)) ?_ (Node.everywhere_ref_iff.mpr trivial)
  intro symbol hmention
  cases hmention
  exact ⟨id, pattern, hpattern, hwritable, rfl⟩

theorem Rereads.parens {alternatives : List (List Phrase)}
    (hrereads : registry.Rereads alternatives) :
    registry.Rereads [[.parens alternatives .once .here]] := by
  refine .singleton (hrereads.readable.parens (Phrase.allowed_here Quantity.legal_once)) ?_ ?_
  · intro symbol hmention
    cases hmention with
    | parens hinner hother hmention =>
        exact hrereads.mentions _ hinner _ hother symbol hmention
  · refine Node.everywhere_group_iff.mpr ⟨trivial, fun sequence hsequence node hnode => ?_⟩
    obtain ⟨phrases, hphrases, phrase, hphrase, rfl⟩ :=
      Phrase.exists_of_mem_treesOfAlternatives hsequence hnode
    exact hrereads.behind phrases hphrases phrase hphrase

/-- Where all lexemes of phrases lead to registered patterns, a text of these phrases is compiled to
their tree. -/
theorem Rereads.compileTree (hcoherent : registry.Coherent) (hnamed : registry.Named)
    {alternatives : List (List Phrase)} (hrereads : registry.Rereads alternatives) {text : String}
    (hreads : Lexeme.ReadsAs text.toList
      ([Symbol.bar].intercalate (Phrase.symbolsOfAlternatives alternatives)) [])
    (name : Option String) :
    compileTree registry.scope text name = .ok (plainGroup
      (Phrase.treesOfAlternatives registry.scope.target alternatives)).reduceRoot := by
  refine compileTree_of_readsAs hrereads.readable ?_ hrereads.behind hreads
  intro sequence hsequence phrase hphrase symbol hmention position
  obtain ⟨id, pattern, hpattern, hwritable, rfl⟩ :=
    hrereads.mentions sequence hsequence phrase hphrase symbol hmention
  exact (resolve_scope hcoherent hnamed hpattern hwritable name position).1

theorem writesAtoms_reference {useIds : Bool} {inline : Int → List (List Phrase)} {id : Int}
    (hid : (registry.byId? id).isSome) : WritesAtoms (registry.reference useIds inline) id := by
  obtain ⟨pattern, hpattern⟩ := Option.isSome_iff_exists.mp hid
  exact ⟨pattern.symbol, by simp [reference, hpattern]⟩

theorem rereads_reference {useIds : Bool} {inline : Int → List (List Phrase)} {id : Int}
    {pattern : Pattern} (hpattern : registry.byId? id = some pattern) (hwritable : pattern.Writable)
    (hinline : pattern.literal? = none → registry.Rereads (inline id)) (behind : Bool) :
    registry.Rereads (registry.reference useIds inline behind id) := by
  simp only [reference, hpattern]
  split
  next => exact .symbol hpattern hwritable
  next hplain =>
    refine (hinline ?_).parens
    cases hliteral : pattern.literal? with
    | none => rfl
    | some text => simp [hliteral] at hplain

theorem rereads_inlined (hsound : registry.Sound) (hlegible : registry.Legible) {id : Int}
    (hid : (registry.byId? id).isSome) {pattern : Pattern}
    (hpattern : registry.byId? id = some pattern) (htree : pattern.literal? = none) :
    registry.Rereads (registry.inlined id) := by
  refine hsound.toGrounded.induction (motive := fun id =>
    ∀ pattern, registry.byId? id = some pattern →
    pattern.literal? = none → registry.Rereads (registry.inlined id)) ?_ hid pattern hpattern htree
  intro id found hfound hbelow pattern hpattern htree
  cases hcontent : pattern.content with
  | literal text => simp [Pattern.literal?, hcontent, Content.literal?] at htree
  | tree root =>
      obtain ⟨rfl, hcanonical⟩ := hsound.alternatives_eq hpattern hcontent
      have hnames := hlegible pattern (hsound.coherent.mem_patterns hpattern)
      rw [inlined_eq hsound.toGrounded hpattern]
      refine rereads_spellAlternatives hcanonical (fun other hother =>
        writesAtoms_reference (hnames.knows other hother)) fun other hother behind => ?_
      obtain ⟨target, htarget, hwritable⟩ := hnames other hother
      obtain rfl : found = pattern := Option.some.inj (hfound.symm.trans hpattern)
      exact rereads_reference htarget hwritable
        ((hbelow other (Content.mem_references _ hother)).2 target htarget) behind

/-- The phrases of a description can be read again. -/
theorem rereads_phrases (hsound : registry.Sound) (hlegible : registry.Legible) (useIds : Bool)
    {alternatives : List (List Node)} (hcanonical : Canonical alternatives)
    (hnames : registry.Names alternatives) :
    registry.Rereads (registry.phrases useIds alternatives) := by
  refine rereads_spellAlternatives hcanonical
    (fun id hid => writesAtoms_reference (hnames.knows id hid)) fun id hid behind => ?_
  obtain ⟨pattern, hpattern, hwritable⟩ := hnames id hid
  exact rereads_reference hpattern hwritable
    (rereads_inlined hsound hlegible (hnames.knows id hid) hpattern) behind

/-- The tree that a description is compiled to. -/
theorem compileTree_phrases (hsound : registry.Sound) (hnamed : registry.Named)
    (hlegible : registry.Legible) (useIds : Bool) {alternatives : List (List Node)}
    (hcanonical : Canonical alternatives) (hnames : registry.Names alternatives)
    (name : Option String) :
    compileTree registry.scope (Phrase.textOf (registry.phrases useIds alternatives)) name =
      .ok (plainGroup (treesOfAlternatives registry.scope.target
        (registry.phrases useIds alternatives))).reduceRoot := by
  have hrereads := rereads_phrases hsound hlegible useIds hcanonical hnames
  exact hrereads.compileTree hsound.coherent hnamed
    (Lexeme.readsAs_textOf hrereads.readable.legible Lexeme.breaks_nil) name

/-! ## What has been compiled again is spelled alike -/

theorem standsFor_of_atom {leaf written : Bool → Int → List (List Phrase)} {target : Symbol → Int}
    {id : Int} (symbol : Symbol) (htarget : target symbol = id) {behind : Bool}
    (hwritten : written behind id = [[.atom symbol .once .here]]) (quantity : Quantity)
    (look : Look) :
    wrap (spellAlternatives leaf behind (treesOfAlternatives target (written behind id)))
      quantity look = wrap (leaf behind id) quantity look := by
  rw [hwritten, Phrase.treesOfAlternatives, Phrase.treesOfAlternatives, Phrase.treesOfSequence,
    Phrase.treesOfSequence, Node.spellAlternatives, Node.spellAlternatives, Node.spellSequence,
    Node.spellSequence, List.append_nil, Phrase.tree, Node.spell, htarget]
  simp only [reduceCtorEq, decide_false, Bool.or_false]
  exact Phrase.wrap_wrap _ _ _

/-- What stands for a reference in a description is spelled in full as the pattern itself. -/
theorem standsFor_reference (hsound : registry.Sound) (hnamed : registry.Named)
    (hlegible : registry.Legible) (useIds : Bool) {id : Int} {pattern : Pattern}
    (hpattern : registry.byId? id = some pattern) (hwritable : pattern.Writable) :
    StandsFor (fun _ => registry.spelling) (registry.reference useIds registry.inlined)
      registry.scope.target id := by
  have hid : (registry.byId? id).isSome := by simp [hpattern]
  refine hsound.toGrounded.induction (motive := fun id => ∀ useIds pattern,
    registry.byId? id = some pattern → pattern.Writable →
      StandsFor (fun _ => registry.spelling) (registry.reference useIds registry.inlined)
        registry.scope.target id) ?_ hid useIds pattern hpattern hwritable
  -- What is written out is written without ids, so the induction holds for both ways of writing.
  intro id pattern hpattern hbelow useIds other hother hwritable behind quantity look
  obtain rfl : pattern = other := Option.some.inj (hpattern.symm.trans hother)
  by_cases hatom : (pattern.literal?.isSome || pattern.name.isSome || useIds || behind) = true
  · refine standsFor_of_atom pattern.symbol ?_ ?_ quantity look
    · exact (resolve_scope hsound.coherent hnamed hpattern hwritable none 0).2
    · simp only [reference, hpattern]
      rw [if_pos hatom]
  · have hwritten : registry.reference useIds registry.inlined behind id =
        [[.parens (registry.inlined id) .once .here]] := by
      simp only [reference, hpattern]
      rw [if_neg hatom]
    have htree : pattern.literal? = none := by
      cases hliteral : pattern.literal? with
      | none => rfl
      | some text => simp [hliteral] at hatom
    cases hcontent : pattern.content with
    | literal text => simp [Pattern.literal?, hcontent, Content.literal?] at htree
    | tree root =>
        have hinner : spellAlternatives (fun _ => registry.spelling) false
            (treesOfAlternatives registry.scope.target
              (registry.phrases false pattern.content.alternatives)) =
            registry.spelling id := by
          have hnames := hlegible pattern (hsound.coherent.mem_patterns hpattern)
          have hstands : ∀ other ∈ (plainGroup pattern.content.alternatives).references,
              StandsFor (fun _ => registry.spelling) (registry.reference false registry.inlined)
                registry.scope.target other := by
            intro other hother
            obtain ⟨target, htarget, htargetWritable⟩ := hnames other hother
            exact (hbelow other (Content.mem_references _ hother)).2 false target htarget
              htargetWritable
          rw [phrases, Node.spellAlternatives_spellAlternatives hstands,
            spelling_eq hsound.toGrounded hpattern, hcontent]
          rfl
        rw [hwritten, Phrase.treesOfAlternatives, Phrase.treesOfAlternatives,
          Phrase.treesOfSequence, Phrase.treesOfSequence, Node.spellAlternatives,
          Node.spellAlternatives, Node.spellSequence, Node.spellSequence, List.append_nil,
          Phrase.tree, Node.spell, Phrase.wrap_wrap, inlined_eq hsound.toGrounded hpattern,
          Node.spellAlternatives_of_uniform registry.spelling _ false, hinner]

/-- A description that is compiled again is spelled in full like the pattern described, up to plain
parentheses around all of it. -/
theorem fullPhrases_recompiled (hsound : registry.Sound) (hnamed : registry.Named)
    (hlegible : registry.Legible) (useIds : Bool) {alternatives : List (List Node)}
    (hnames : registry.Names alternatives) :
    Phrase.unwrapped (registry.fullPhrases (Node.unwrap (Node.reduceAlternatives
        (treesOfAlternatives registry.scope.target (registry.phrases useIds alternatives))))) =
      Phrase.unwrapped (registry.fullPhrases alternatives) := by
  apply Phrase.unwrapped_eq_of_wrap_eq
  have hstands : ∀ id ∈ (plainGroup alternatives).references,
      StandsFor (fun _ => registry.spelling) (registry.reference useIds registry.inlined)
        registry.scope.target id := by
    intro id hid
    obtain ⟨pattern, hpattern, hwritable⟩ := hnames id hid
    exact standsFor_reference hsound hnamed hlegible useIds hpattern hwritable
  rw [fullPhrases, Node.wrap_spellAlternatives_reduceRoot, phrases,
    Node.spellAlternatives_spellAlternatives hstands]
  rfl

/-- What a description is compiled to refers to registered patterns only. -/
theorem knows_recompiled (hsound : registry.Sound) (hnamed : registry.Named)
    (hlegible : registry.Legible) (useIds : Bool) {alternatives : List (List Node)}
    (hcanonical : Canonical alternatives) (hnames : registry.Names alternatives) :
    ∀ id ∈ (plainGroup (treesOfAlternatives registry.scope.target
      (registry.phrases useIds alternatives))).reduceRoot.references,
      (registry.byId? id).isSome := by
  intro id hid
  rw [Node.mem_references_reduceRoot] at hid
  obtain ⟨sequence, hsequence, node, hnode, hid⟩ := Node.mem_references_group.mp hid
  obtain ⟨phrases, hphrases, phrase, hphrase, rfl⟩ :=
    Phrase.exists_of_mem_treesOfAlternatives hsequence hnode
  obtain ⟨symbol, hmention, rfl⟩ := Phrase.mentions_of_mem_references hid
  have hrereads := rereads_phrases hsound hlegible useIds hcanonical hnames
  obtain ⟨found, pattern, hpattern, hwritable, rfl⟩ := hrereads.mentions phrases hphrases phrase
    hphrase symbol hmention
  rw [(resolve_scope hsound.coherent hnamed hpattern hwritable none 0).2, hpattern]
  rfl

end Motif.Registry
