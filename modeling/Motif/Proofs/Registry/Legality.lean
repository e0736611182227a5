import Mathlib
import Motif.Proofs.Registry.RoundTrip

/-!
# Legality of compiled trees

Every tree that is compiled from a text is legal: its groups and sequences are not empty, no group
in it could be spliced, its quantities and looks are those that can be written, and nothing below a
look behind is decorated. A text that can be parsed is refused only for what stands below a look
behind. What a tree refers to is registered, unless a name leads to a pattern that is not.
-/

namespace Motif

namespace Node

variable {node root : Node} {alternatives : List (List Node)} {quantity : Quantity} {look : Look}

/-- A node stands somewhere in a tree, the root not counted. -/
def Below (node : Node) : Node → Prop
  | ref _ _ _ => False
  | group alternatives _ _ =>
    ∃ sequence ∈ alternatives, ∃ child ∈ sequence, Within node child

theorem within_iff_below : Within node root ↔ node = root ∨ Below node root := by
  cases root with
  | ref id quantity look => simp [Below]
  | group alternatives quantity look => exact within_group_iff

theorem forall_below_group_iff {property : Node → Prop} :
    (∀ node, Below node (group alternatives quantity look) → property node) ↔
      ∀ sequence ∈ alternatives, ∀ child ∈ sequence, Everywhere property child := by
  constructor
  · intro hall sequence hsequence child hchild node hnode
    exact hall node ⟨sequence, hsequence, child, hchild, hnode⟩
  · rintro hall node ⟨sequence, hsequence, child, hchild, hnode⟩
    exact hall sequence hsequence child hchild node hnode

theorem isTransparent_eq_false_of_below (htight : Everywhere IsTight root)
    (hbelow : Below node root) : node.isTransparent = false := by
  induction root using Node.memberInduction with
  | ref id quantity look => cases hbelow
  | group alternatives quantity look ih =>
      obtain ⟨hroot, hinside⟩ := everywhere_group_iff.mp htight
      obtain ⟨sequence, hsequence, child, hchild, hnode⟩ := hbelow
      rcases within_iff_below.mp hnode with rfl | hnode
      · exact hroot sequence hsequence node hchild
      · exact ih sequence hsequence child hchild (hinside sequence hsequence child hchild) hnode

/-- A group that looks behind does so plainly if nothing below it is decorated. -/
theorem looksBehindPlainly_iff : LooksBehindPlainly root ↔
    (root.look = .behind → ∀ node, Below node root → node.isDecorated = false) := by
  cases root with
  | ref id quantity look => simp [LooksBehindPlainly, Below]
  | group alternatives quantity look =>
      cases look with
      | here => simp [LooksBehindPlainly, Node.look]
      | ahead => simp [LooksBehindPlainly, Node.look]
      | behind =>
          simp only [Registry.isDecorated_eq_false_iff, forall_below_group_iff, Node.look,
            forall_const, LooksBehindPlainly]

/-- Somewhere in a tree a group looks behind, and something below it has a quantifier or a look. -/
def DecoratesBehind (root : Node) : Prop :=
  ∃ group node, Within group root ∧ group.look = .behind ∧ Below node group ∧
    node.isDecorated = true

theorem not_decoratesBehind_iff : ¬ root.DecoratesBehind ↔ Everywhere LooksBehindPlainly root := by
  simp only [DecoratesBehind, Everywhere, looksBehindPlainly_iff, not_exists, not_and,
    Bool.not_eq_true]
  constructor
  · intro hnone group hgroup hlook node hnode
    exact hnone group node hgroup hlook hnode
  · intro hall group node hgroup hlook hnode
    exact hall group hgroup hlook node hnode

/-- The form of a whole tree with which a pattern may be registered. -/
structure IsLegal (root : Node) : Prop where
  /-- The root is a group without quantifier or look. -/
  undecorated : ∃ alternatives, root = plainGroup alternatives
  /-- The tree is not a lone group of that kind once more. -/
  unwrapped : ∀ inner, root ≠ plainGroup [[plainGroup inner]]
  full : ∀ alternatives quantity look, Within (group alternatives quantity look) root →
    alternatives ≠ [] ∧ ∀ sequence ∈ alternatives, sequence ≠ []
  solid : ∀ node, Below node root → node.isTransparent = false
  bounded : ∀ node, Within node root → 0 ≤ node.quantity.least ∧
    (node.quantity.most = Quantity.unlimited ∨ node.quantity.least ≤ node.quantity.most)
  once_or_never : ∀ node, Within node root → node.look = .behind →
    node.quantity = .once ∨ node.quantity = .never
  plain : ∀ group, Within group root → group.look = .behind →
    ∀ node, Below node group → node.quantity = .once ∧ node.look = .here

theorem Canonical.isLegal (hcanonical : Canonical alternatives) :
    (plainGroup alternatives).IsLegal where
  undecorated := ⟨alternatives, rfl⟩
  unwrapped inner hroot := by
    obtain ⟨halternatives, -, -⟩ := Node.group.inj hroot
    exact Registry.unwrap_ne alternatives inner (hcanonical.unwrapped.trans halternatives)
  full _ _ _ hgroup := hcanonical.full _ hgroup
  solid _ hnode := isTransparent_eq_false_of_below hcanonical.tight hnode
  bounded node hnode := by
    have hlegal := (hcanonical.allowed node hnode).1
    exact ⟨hlegal.least_short.1, hlegal.most.imp_right And.left⟩
  once_or_never node hnode := (hcanonical.allowed node hnode).2
  plain group hgroup hlook node hnode := by
    have hplain := looksBehindPlainly_iff.mp (hcanonical.behind group hgroup) hlook node hnode
    exact Registry.isDecorated_eq_false_iff.mp hplain

end Node

namespace Registry

open Node (plainGroup plainRef)

variable {scope : Node.Scope} {text : String} {name : Option String}

/-- A text that can be parsed is compiled to its reduced tree, unless something that stands below a
look behind there is decorated. -/
theorem compileTree_of_parsed {lexemes : List Lexeme} {parsed : Node}
    (hread : Lexeme.read text name = .ok lexemes)
    (hparsed : Node.ofLexemes scope lexemes name = .ok parsed) :
    (¬ parsed.reduceRoot.DecoratesBehind → compileTree scope text name = .ok parsed.reduceRoot) ∧
      (parsed.reduceRoot.DecoratesBehind → ∃ fault, compileTree scope text name =
        .error (.pattern { cause := .lookBehindContent fault, name })) := by
  have hnone (id : Int) (_ : 0 ≤ id) (_ : id < 10 ^ 9) (_ : scope.hasId id = true) : True := trivial
  obtain ⟨alternatives, rfl, -⟩ := Node.parsed_ofLexemes hnone (fun _ _ _ => trivial)
    (Lexeme.isModest_of_mem_readFrom hread) hparsed
  have hplain : ¬ (plainGroup alternatives).reduceRoot.DecoratesBehind ↔
      (plainGroup alternatives).reduceRoot.lookBehindFault? = none := by
    rw [Node.not_decoratesBehind_iff, Node.reduceRoot_plainGroup]
    exact Node.lookBehindFault?_eq_none_iff.symm
  cases hfault : (plainGroup alternatives).reduceRoot.lookBehindFault? with
  | none =>
      refine ⟨fun _ => ?_, fun hdecorates => absurd hdecorates (hplain.mpr hfault)⟩
      simp [compileTree, hread, hparsed, hfault, Except.mapError, bind, Except.bind, pure,
        Except.pure]
  | some fault =>
      refine ⟨fun hnone => ?_, fun _ => ⟨fault, ?_⟩⟩
      · rw [hplain.mp hnone] at hfault
        cases hfault
      · simp [compileTree, hread, hparsed, hfault, Except.mapError, bind, Except.bind, throw,
          throwThe, MonadExceptOf.throw]

/-- The text of a reference is compiled to nothing but the reference. -/
theorem compileTree_reference {symbol : Symbol} {id : Int} (hsymbol : symbol.IsReference)
    (hresolve : ∀ position, Node.Parser.resolve scope name ⟨symbol, position⟩ = .ok id) :
    compileTree scope symbol.text name = .ok (plainGroup [[plainRef id]]) := by
  have htext : Phrase.textOf [[.atom symbol .once .here]] = symbol.text := by
    simp [Phrase.textOf, Phrase.textsOfAlternatives, Phrase.textsOfSequence, Phrase.text, Look.mark,
      Quantity.suffix_once]
  have hmentioned : ∀ sequence ∈ [[Phrase.atom symbol .once .here]],
      ∀ phrase ∈ sequence, ∀ mentioned, Phrase.Mentions mentioned phrase →
        ∀ position, Node.Parser.resolve scope name ⟨mentioned, position⟩ = .ok id := by
    intro sequence hsequence phrase hphrase mentioned hmentions
    obtain rfl := List.mem_singleton.mp hsequence
    obtain rfl := List.mem_singleton.mp hphrase
    cases hmentions
    exact hresolve
  have hlegible := Phrase.Legible.atom hsymbol (Phrase.allowed_here Quantity.legal_once)
  rw [← htext, compileTree_textOf (.singleton hlegible) hmentioned]
  · rfl
  · intro sequence hsequence phrase hphrase
    obtain rfl := List.mem_singleton.mp hsequence
    obtain rfl := List.mem_singleton.mp hphrase
    exact Node.everywhere_ref_iff.mpr trivial

/-- A name between quotes is compiled to a reference to whatever the name leads to. -/
theorem compileTree_quote {target : String} {id : Int} (hnonempty : target ≠ "")
    (hid : scope.idOf target = some id) :
    compileTree scope (Text.quote target) name = .ok (plainGroup [[plainRef id]]) := by
  have hreference : (Symbol.quoted (Text.quote target)).IsReference := ⟨target, hnonempty, rfl⟩
  have hresolve : ∀ position, Node.Parser.resolve scope name
      ⟨.quoted (Text.quote target), position⟩ = .ok id := fun position => by
    simp [Node.Parser.resolve, Text.unquote_quote, hid]
  have hcompile := compileTree_reference hreference hresolve
  rwa [Symbol.text] at hcompile

/-- What is compiled from a text is legal, and refers to registered patterns or to those that names
lead to. Every name is compiled to a reference, whether its pattern is registered or not. A text
that can be parsed is refused exactly if something below a look behind of its reduced tree is
decorated. -/
theorem isLegal_of_compileTree (registry : Registry) :
    (∀ text name root, compileTree registry.scope text name = .ok root →
      root.IsLegal ∧ ∀ id ∈ root.references, registry.byId? id = none →
        ∃ target, registry.scope.idOf target = some id) ∧
    (∀ target id name, target ≠ "" → registry.scope.idOf target = some id →
      compileTree registry.scope (Text.quote target) name = .ok (plainGroup [[plainRef id]])) ∧
    ∀ text name lexemes parsed, Lexeme.read text name = .ok lexemes →
      Node.ofLexemes registry.scope lexemes name = .ok parsed →
        (¬ parsed.reduceRoot.DecoratesBehind →
          compileTree registry.scope text name = .ok parsed.reduceRoot) ∧
        (parsed.reduceRoot.DecoratesBehind → ∃ fault, compileTree registry.scope text name =
          .error (.pattern { cause := .lookBehindContent fault, name })) := by
  refine ⟨fun text name root hcompile => ?_, fun target id name hnonempty hid => ?_, ?_⟩
  · obtain ⟨alternatives, rfl, hcanonical, hknown⟩ := canonical_of_compileTree
      (fun id => registry.byId? id = none → ∃ target, registry.scope.idOf target = some id)
      (fun id _ _ hhas hnone => by simp [scope, hnone] at hhas)
      (fun target id hid _ => ⟨target, hid⟩) hcompile
    exact ⟨hcanonical.isLegal, hknown⟩
  · exact compileTree_quote hnonempty hid
  · intro text name lexemes parsed hread hparsed
    exact compileTree_of_parsed hread hparsed

/-- A registry without patterns, in which a name leads to a literal that has been removed. -/
def forsaken : Registry where
  ledger := #[{ kind := .literal, name := some "B", content := .literal "a", id := 0 }]
  names := [("B", 0)]
  nextId := 1

theorem built_forsaken : forsaken.Built := by
  let letter : Pattern := ⟨.literal, some "A", .literal "a", 0, 0⟩
  let emptied : Registry := { lettered with entries := [], names := [], literals := [] }
  have hlettered : ((addLiteral "a" (some "A") (-1) .literal).run {}).2 = lettered := rfl
  have hemptied : ((unregister 0 letter).run lettered).2 = emptied := rfl
  have hforsaken : ((rename 0 letter "B" none).run emptied).2 = forsaken := rfl
  have hfirst : lettered.Built := by
    rw [← hlettered]
    exact .addLiteral .empty "a" (some "A") (-1) .literal
  have hsecond : emptied.Built := by
    rw [← hemptied]
    exact .unregister hfirst rfl
  rw [← hforsaken]
  exact .rename hsecond rfl "B" none

/-- The name of a pattern that has been removed is compiled to a reference to an id that no pattern
has. -/
theorem exists_reference_forsaken : forsaken.Built ∧
    ∃ root, compileTree forsaken.scope "B" = .ok root ∧
      ¬ ∀ id ∈ root.references, (forsaken.byId? id).isSome :=
  ⟨built_forsaken, plainGroup [[plainRef 0]], rfl, by decide⟩

theorem isLegal_of_compileTree_samples :
    (compileTree lettered.scope "((A) A) | ^(A (A))" =
      .ok (plainGroup [[plainRef 0, plainRef 0],
        [.group [[plainRef 0, plainRef 0]] .never .behind]]) ∧
      (plainGroup [[plainRef 0, plainRef 0],
        [.group [[plainRef 0, plainRef 0]] .never .behind]]).IsLegal) ∧
    (forsaken.scope.idOf "B" = some 0 ∧
      compileTree forsaken.scope (Text.quote "B") = .ok (plainGroup [[plainRef 0]])) ∧
    ∃ fault, compileTree lettered.scope "A <(A+)" =
      .error (.pattern { cause := .lookBehindContent fault, name := none }) := by
  refine ⟨?_, ⟨rfl, ?_⟩, ?_⟩
  · have hcompile : compileTree lettered.scope "((A) A) | ^(A (A))" =
        .ok (plainGroup [[plainRef 0, plainRef 0],
          [.group [[plainRef 0, plainRef 0]] .never .behind]]) := by cbv
    exact ⟨hcompile, ((isLegal_of_compileTree lettered).1 _ none _ hcompile).1⟩
  · exact (isLegal_of_compileTree forsaken).2.1 "B" 0 none (by decide) rfl
  · obtain ⟨lexemes, hread⟩ : ∃ lexemes, Lexeme.read "A <(A+)" = .ok lexemes := ⟨_, rfl⟩
    have hparsed : Node.ofLexemes lettered.scope lexemes = .ok (plainGroup
        [[plainRef 0, .group [[.ref 0 ⟨1, Quantity.unlimited⟩ .here]] .once .behind]]) := by
      cases hread
      rfl
    refine ((isLegal_of_compileTree lettered).2.2 _ none _ _ hread hparsed).2 ?_
    refine ⟨.group [[.ref 0 ⟨1, Quantity.unlimited⟩ .here]] .once .behind,
      .ref 0 ⟨1, Quantity.unlimited⟩ .here, ?_, rfl, ?_, rfl⟩
    · simp [Node.reduceRoot, Node.reduce, Node.reduceAlternatives, Node.reduceSequence,
        Node.spliced, plainGroup, plainRef]
    · simp [Node.Below]

end Registry

end Motif
