import Motif.Node.Parser
import Motif.Proofs.Lexeme.Reading

/-!
# Parsing phrases

The lexemes of legible phrases are parsed as their tree, in which every reference is the id to which
its lexeme resolves.
-/

namespace Motif

namespace Phrase

mutual

/-- The tree that a phrase is read as, given the ids of its references. -/
def tree (target : Symbol → Int) : Phrase → Node
  | atom symbol quantity look => .ref (target symbol) quantity look
  | parens alternatives quantity look =>
      .group (treesOfAlternatives target alternatives) quantity look

/-- The trees of the phrases of a sequence. -/
def treesOfSequence (target : Symbol → Int) : List Phrase → List Node
  | [] => []
  | phrase :: rest => phrase.tree target :: treesOfSequence target rest

/-- The trees of each of the alternatives. -/
def treesOfAlternatives (target : Symbol → Int) : List (List Phrase) → List (List Node)
  | [] => []
  | sequence :: rest => treesOfSequence target sequence :: treesOfAlternatives target rest

end

theorem treesOfSequence_eq_map (target : Symbol → Int) (sequence : List Phrase) :
    treesOfSequence target sequence = sequence.map (tree target) := by
  induction sequence with
  | nil => rfl
  | cons first rest ih => rw [treesOfSequence, ih, List.map_cons]

theorem treesOfSequence_append (target : Symbol → Int) (first second : List Phrase) :
    treesOfSequence target (first ++ second) =
      treesOfSequence target first ++ treesOfSequence target second := by
  rw [treesOfSequence_eq_map, treesOfSequence_eq_map, treesOfSequence_eq_map, List.map_append]

theorem treesOfAlternatives_eq_map (target : Symbol → Int) (alternatives : List (List Phrase)) :
    treesOfAlternatives target alternatives =
      alternatives.map fun sequence => sequence.map (tree target) := by
  induction alternatives with
  | nil => rfl
  | cons first rest ih =>
      rw [treesOfAlternatives, ih, List.map_cons, treesOfSequence_eq_map]

theorem exists_of_mem_treesOfAlternatives {target : Symbol → Int}
    {alternatives : List (List Phrase)} {sequence : List Node} {node : Node}
    (hsequence : sequence ∈ treesOfAlternatives target alternatives) (hnode : node ∈ sequence) :
    ∃ phrases ∈ alternatives, ∃ phrase ∈ phrases, node = phrase.tree target := by
  rw [treesOfAlternatives_eq_map] at hsequence
  obtain ⟨phrases, hphrases, rfl⟩ := List.mem_map.mp hsequence
  obtain ⟨phrase, hphrase, rfl⟩ := List.mem_map.mp hnode
  exact ⟨phrases, hphrases, phrase, hphrase, rfl⟩

/-- The lexeme stands for a reference in a phrase. -/
inductive Mentions (symbol : Symbol) : Phrase → Prop where
  | atom (quantity : Quantity) (look : Look) : Mentions symbol (.atom symbol quantity look)
  | parens {alternatives : List (List Phrase)} {quantity : Quantity} {look : Look}
      {sequence : List Phrase} {phrase : Phrase} (hsequence : sequence ∈ alternatives)
      (hphrase : phrase ∈ sequence) (hmention : Mentions symbol phrase) :
      Mentions symbol (.parens alternatives quantity look)

theorem mentions_of_mem_references {target : Symbol → Int} {phrase : Phrase} {id : Int}
    (hid : id ∈ (phrase.tree target).references) :
    ∃ symbol, Mentions symbol phrase ∧ id = target symbol := by
  induction phrase using Phrase.memberInduction with
  | atom symbol quantity look => exact ⟨symbol, .atom _ _, by simpa [tree] using hid⟩
  | parens alternatives quantity look ih =>
      rw [tree] at hid
      obtain ⟨sequence, hsequence, node, hnode, hid⟩ := Node.mem_references_group.mp hid
      obtain ⟨phrases, hphrases, phrase, hphrase, rfl⟩ :=
        exists_of_mem_treesOfAlternatives hsequence hnode
      obtain ⟨symbol, hmention, rfl⟩ := ih phrases hphrases phrase hphrase hid
      exact ⟨symbol, .parens hphrases hphrase hmention, rfl⟩

end Phrase

namespace Node.Parser

open Phrase (Legible Mentions)

variable {scope : Scope} {name : Option String}

/-- Lexemes of these symbols lead from what has been read to something with a property. -/
def Feeds (scope : Scope) (name : Option String) (symbols : List Symbol) (progress : Progress)
    (property : Progress → Prop) : Prop :=
  ∀ lexemes : List Lexeme, lexemes.map Lexeme.symbol = symbols →
    ∃ after, lexemes.foldlM (step scope name) progress = .ok after ∧ property after

theorem Feeds.nil {progress : Progress} {property : Progress → Prop}
    (hproperty : property progress) :
    Feeds scope name [] progress property := by
  intro lexemes hlexemes
  obtain rfl := List.map_eq_nil_iff.mp hlexemes
  exact ⟨progress, rfl, hproperty⟩

theorem Feeds.append {symbols others : List Symbol} {progress : Progress}
    {middle property : Progress → Prop} (hfirst : Feeds scope name symbols progress middle)
    (hnext : ∀ between, middle between → Feeds scope name others between property) :
    Feeds scope name (symbols ++ others) progress property := by
  intro lexemes hlexemes
  obtain ⟨first, second, rfl, hsymbols, hothers⟩ := List.map_eq_append_iff.mp hlexemes
  obtain ⟨between, hread, hmiddle⟩ := hfirst first hsymbols
  obtain ⟨after, hafter, hproperty⟩ := hnext between hmiddle second hothers
  refine ⟨after, ?_, hproperty⟩
  rw [List.foldlM_append, hread]
  exact hafter

theorem Feeds.step {symbol : Symbol} {progress : Progress} {property : Progress → Prop}
    (hstep : ∀ position, ∃ after,
      step scope name progress ⟨symbol, position⟩ = .ok after ∧ property after) :
    Feeds scope name [symbol] progress property := by
  intro lexemes hlexemes
  obtain ⟨lexeme, rfl, rfl⟩ := List.map_eq_singleton_iff.mp hlexemes
  obtain ⟨after, hafter, hproperty⟩ := hstep lexeme.position
  refine ⟨after, ?_, hproperty⟩
  rw [List.foldlM_cons, hafter]
  rfl

theorem Feeds.mono {symbols : List Symbol} {progress : Progress} {first second : Progress → Prop}
    (hfirst : Feeds scope name symbols progress first)
    (hsecond : ∀ after, first after → second after) :
    Feeds scope name symbols progress second := by
  intro lexemes hlexemes
  obtain ⟨after, hafter, hproperty⟩ := hfirst lexemes hlexemes
  exact ⟨after, hafter, hsecond after hproperty⟩

/-- The innermost group is now this one, up to what a quantifier would apply to; the groups around
it are those of an earlier point. -/
structure Reaches (progress : Progress) (group : OpenGroup) (after : Progress) : Prop where
  inner : ∃ target, after.inner = { group with target }
  outer : after.outer = progress.outer
  previous : after.previous.isSome

/-- A group waits for an atom with this look. -/
def Expects (look : Look) (group : OpenGroup) : Prop :=
  match look with
  | .here => group.pending = none
  | .ahead => ∃ position, group.pending = some (.ahead, position)
  | .behind => ∃ position, group.pending = some (.behind, position)

theorem push_of_expects {look : Look} {group : OpenGroup} (hexpects : Expects look group)
    {atom : Node} (hatom : atom.look = .here) :
    group.push atom =
      { group with
        sequence := atom.withLook look :: group.sequence
        pending := none
        target := .atom } := by
  cases look with
  | here =>
      have hpending : group.pending = none := hexpects
      have hself : atom.withLook .here = atom := by
        cases atom <;> simp_all [withLook, Node.look]
      unfold OpenGroup.push
      rw [hpending, hself]
  | ahead =>
      obtain ⟨position, hpending⟩ := hexpects
      unfold OpenGroup.push
      rw [hpending]
      rfl
  | behind =>
      obtain ⟨position, hpending⟩ := hexpects
      unfold OpenGroup.push
      rw [hpending]
      rfl

/-- The innermost group has got an atom. -/
structure Pushes (progress : Progress) (atom : Node) (after : Progress) : Prop where
  inner : after.inner = progress.inner.push atom
  outer : after.outer = progress.outer
  previous : after.previous.isSome

/-- The innermost group has got an atom to which a quantifier can be given. -/
structure Takes (progress : Progress) (atom : Node) (after : Progress) : Prop where
  inner : after.inner = { progress.inner with
    sequence := atom :: progress.inner.sequence, pending := none, target := .atom }
  outer : after.outer = progress.outer
  previous : after.previous.isSome

theorem Pushes.takes {progress after : Progress} {atom : Node}
    (hpushes : Pushes progress atom after)
    {look : Look} (hexpects : Expects look progress.inner) (hatom : atom.look = .here) :
    Takes progress (atom.withLook look) after :=
  ⟨hpushes.inner.trans (push_of_expects hexpects hatom), hpushes.outer, hpushes.previous⟩

theorem feeds_look {progress : Progress} (hpending : progress.inner.pending = none) (look : Look) :
    Feeds scope name look.symbol?.toList progress fun after =>
      (∃ pending, after.inner = { progress.inner with pending }) ∧ Expects look after.inner ∧
        after.outer = progress.outer := by
  have hmark : ∀ mark position, step scope name progress ⟨.look mark, position⟩ = .ok {
      progress with
      inner := { progress.inner with pending := some (mark, position) }
      previous := some ⟨.look mark, position⟩ } := by
    intro mark position
    simp only [step, hpending]
  cases look with
  | here => exact .nil ⟨⟨progress.inner.pending, rfl⟩, hpending, rfl⟩
  | ahead => exact .step fun position => ⟨_, hmark .ahead position, ⟨_, rfl⟩, ⟨position, rfl⟩, rfl⟩
  | behind => exact .step fun position =>
      ⟨_, hmark .behind position, ⟨_, rfl⟩, ⟨position, rfl⟩, rfl⟩

theorem feeds_reference (progress : Progress) {symbol : Symbol} (hreference : symbol.IsReference)
    {id : Int} (hresolve : ∀ position, resolve scope name ⟨symbol, position⟩ = .ok id) :
    Feeds scope name [symbol] progress (Pushes progress (plainRef id)) := by
  refine .step fun position => ?_
  have hstep : step scope name progress ⟨symbol, position⟩ = .ok { progress with
      inner := progress.inner.push (plainRef id), previous := some ⟨symbol, position⟩ } := by
    cases symbol <;> first
      | exact hreference.elim
      | (simp only [step, hresolve position]; rfl)
  exact ⟨_, hstep, rfl, rfl, rfl⟩

theorem quantityOf_of_symbol? {quantity : Quantity} (hlegal : quantity.Legal) {symbol : Symbol}
    (hsymbol : quantity.symbol? = some symbol) (position : Nat) :
    quantityOf name ⟨symbol, position⟩ = .ok quantity := by
  rcases Lexeme.symbol?_eq_range hlegal hsymbol with ⟨mark, rfl, hmark⟩ | ⟨bound, hbound, rfl⟩
  · rw [← hmark]
    rfl
  · have hordered : (!quantity.isUnlimited && decide (quantity.most < quantity.least)) = false := by
      rcases hlegal.most with hmost | ⟨hmost, -⟩
      · simp [Quantity.isUnlimited, hmost]
      · simp [hmost]
    have hread := Lexeme.ofRange_eq hlegal hbound
    simp only [quantityOf, Symbol.text, hread]
    change (if _ then _ else _) = _
    rw [if_neg (by simpa using hordered)]
    rfl

theorem feeds_suffix {progress middle : Progress} {atom : Node}
    (htakes : Takes progress atom middle) (hplain : atom.quantity = .once) {quantity : Quantity}
    (hallowed : Phrase.Allowed quantity atom.look) :
    Feeds scope name quantity.symbol?.toList middle (Reaches progress { progress.inner with
      sequence := atom.withQuantity quantity :: progress.inner.sequence, pending := none }) := by
  obtain ⟨hinner, houter, hprevious⟩ := htakes
  cases hsymbol : quantity.symbol? with
  | none =>
      have honce : quantity = .once := by
        unfold Quantity.symbol? at hsymbol
        grind
      have hself : atom.withQuantity quantity = atom := by
        rw [honce, ← hplain]
        cases atom <;> rfl
      rw [hself]
      exact .nil ⟨⟨.atom, hinner⟩, houter, hprevious⟩
  | some symbol =>
      have hread : ∀ position, quantityOf name ⟨symbol, position⟩ = .ok quantity :=
        quantityOf_of_symbol? hallowed.legal hsymbol
      have hbehind : (decide (atom.look = .behind) && decide (quantity ≠ .never)) = false := by
        by_cases hlook : atom.look = .behind
        · rcases hallowed.behind hlook with rfl | rfl
          · cases hsymbol
          · simp
        · simp [hlook]
      refine .step fun position => ?_
      have hquantify : quantify name middle ⟨symbol, position⟩ = .ok { progress.inner with
          sequence := atom.withQuantity quantity :: progress.inner.sequence
          pending := none
          target := .nothing } := by
        unfold quantify
        rw [hinner]
        simp only [hread]
        change (if _ then _ else _) = _
        rw [if_neg (by simpa using hbehind)]
        rfl
      have hstep : step scope name middle ⟨symbol, position⟩ = .ok { middle with
          inner := { progress.inner with
            sequence := atom.withQuantity quantity :: progress.inner.sequence
            pending := none
            target := .nothing }
          previous := some ⟨symbol, position⟩ } := by
        rcases Lexeme.symbol?_eq_range hallowed.legal hsymbol with ⟨mark, rfl, -⟩ | ⟨bound, -, rfl⟩
        · simp only [step, hquantify]
          rfl
        · simp only [step, hquantify]
          rfl
      exact ⟨_, hstep, ⟨.nothing, rfl⟩, houter, rfl⟩

/-- An undecorated atom takes the look that is written before it and the quantifier behind it. -/
theorem feeds_decorated {progress : Progress} {atom : Node} {symbols : List Symbol}
    {quantity : Quantity} {look : Look} (hpending : progress.inner.pending = none)
    (hallowed : Phrase.Allowed quantity look) (hhere : atom.look = .here)
    (honce : atom.quantity = .once)
    (hatom : ∀ between, Feeds scope name symbols between (Pushes between atom)) :
    Feeds scope name (look.symbol?.toList ++ (symbols ++ quantity.symbol?.toList)) progress
      (Reaches progress { progress.inner with
        sequence := (atom.withLook look).withQuantity quantity :: progress.inner.sequence }) := by
  have hlook : (atom.withLook look).look = look := by cases atom <;> rfl
  have hquantity : (atom.withLook look).quantity = .once := by cases atom <;> exact honce
  refine (feeds_look hpending look).append fun between hbetween => ?_
  obtain ⟨⟨pending, hinner⟩, hexpects, houter⟩ := hbetween
  refine (hatom between).append fun middle hmiddle => ?_
  refine (feeds_suffix (hmiddle.takes hexpects hhere) hquantity ?_).mono fun after hafter => ?_
  · rwa [hlook]
  obtain ⟨⟨point, hinside⟩, haround, hprevious⟩ := hafter
  refine ⟨⟨point, ?_⟩, haround.trans houter, hprevious⟩
  rw [hinside, hinner, hpending]

/-- Wherever no look waits, a phrase is parsed as its tree. -/
def Parses (scope : Scope) (name : Option String) (target : Symbol → Int)
    (phrase : Phrase) : Prop :=
  ∀ progress : Progress, progress.inner.pending = none →
    Feeds scope name phrase.symbols progress (Reaches progress { progress.inner with
      sequence := phrase.tree target :: progress.inner.sequence })

theorem feeds_sequence {target : Symbol → Int} {sequence : List Phrase} {progress : Progress}
    (hpending : progress.inner.pending = none)
    (hprevious : progress.previous.isSome ∨ sequence ≠ [])
    (hphrases : ∀ phrase ∈ sequence, Parses scope name target phrase) :
    Feeds scope name (Phrase.symbolsOfSequence sequence) progress
      (Reaches progress { progress.inner with
        sequence := (Phrase.treesOfSequence target sequence).reverse ++
          progress.inner.sequence }) := by
  induction sequence generalizing progress with
  | nil => exact .nil ⟨⟨progress.inner.target, rfl⟩, rfl, hprevious.resolve_right fun h => h rfl⟩
  | cons first rest ih =>
      have hfirst := hphrases first List.mem_cons_self progress hpending
      refine hfirst.append fun between hbetween => ?_
      obtain ⟨⟨point, hinner⟩, houter, hprevious⟩ := hbetween
      have hclear : between.inner.pending = none := by rw [hinner, hpending]
      refine (ih hclear (.inl hprevious) fun phrase hphrase =>
        hphrases phrase (List.mem_cons_of_mem _ hphrase)).mono fun after hafter => ?_
      obtain ⟨⟨target, hinside⟩, haround, hlast⟩ := hafter
      refine ⟨⟨target, ?_⟩, haround.trans houter, hlast⟩
      rw [hinside, hinner]
      simp [Phrase.treesOfSequence]

/-- A group that was open at an earlier point has got alternatives and could end now. -/
structure Completes (progress : Progress) (alternatives : List (List Node)) (after : Progress) :
    Prop where
  nodes : (after.inner.sequence.reverse :: after.inner.finished).reverse =
    progress.inner.finished.reverse ++ alternatives
  nonempty : after.inner.sequence ≠ []
  pending : after.inner.pending = none
  opening : after.inner.opening = progress.inner.opening
  outer : after.outer = progress.outer
  previous : after.previous.isSome

theorem Completes.checkEnd {progress after : Progress} {alternatives : List (List Node)}
    (hcomplete : Completes progress alternatives after) (lexeme : Lexeme) :
    after.inner.checkEnd name lexeme = .ok () := by
  simp [OpenGroup.checkEnd, hcomplete.pending, hcomplete.nonempty]

/-- A sequence that starts an alternative can be all of it. -/
theorem Reaches.completes {progress after : Progress} {nodes : List Node}
    (hreaches : Reaches progress { progress.inner with
      sequence := nodes.reverse ++ progress.inner.sequence } after)
    (hpending : progress.inner.pending = none) (hstart : progress.inner.sequence = [])
    (hnodes : nodes ≠ []) : Completes progress [nodes] after := by
  obtain ⟨⟨point, hinner⟩, houter, hprevious⟩ := hreaches
  refine ⟨?_, ?_, ?_, ?_, houter, hprevious⟩
  · rw [hinner, hstart]
    simp
  · rw [hinner, hstart]
    simpa using hnodes
  · rw [hinner, hpending]
  · rw [hinner]

/-- Before a bar an alternative ends, and the next one starts. -/
theorem Completes.feeds_bar {progress between : Progress} {nodes : List Node}
    {alternatives : List (List Node)} {symbols : List Symbol}
    (hbetween : Completes progress [nodes] between)
    (hrest : ∀ started : Progress, started.inner.pending = none → started.inner.sequence = [] →
      Feeds scope name symbols started (Completes started alternatives)) :
    Feeds scope name (.bar :: symbols) between (Completes progress (nodes :: alternatives)) := by
  have hbar : ∀ position, ∃ started, step scope name between ⟨.bar, position⟩ = .ok started ∧
      started.inner.finished = between.inner.sequence.reverse :: between.inner.finished ∧
      started.inner.sequence = [] ∧ started.inner.pending = none ∧
      started.inner.opening = progress.inner.opening ∧ started.outer = progress.outer := by
    intro position
    have hstep : step scope name between ⟨.bar, position⟩ = .ok { between with
        inner := { between.inner with
          finished := between.inner.sequence.reverse :: between.inner.finished
          sequence := []
          target := if between.inner.target = .assertion then .assertion else .nothing }
        previous := some ⟨.bar, position⟩ } := by
      simp only [step, hbetween.checkEnd]
      rfl
    exact ⟨_, hstep, rfl, rfl, hbetween.pending, hbetween.opening, hbetween.outer⟩
  rw [← List.singleton_append]
  apply (Feeds.step hbar).append
  rintro started ⟨hfinished, hempty, hclear, hopening, houter⟩
  refine (hrest started hclear hempty).mono fun last hlast => ?_
  refine ⟨?_, hlast.nonempty, hlast.pending, hlast.opening.trans hopening,
    hlast.outer.trans houter, hlast.previous⟩
  rw [hlast.nodes, hfinished, hbetween.nodes, List.append_assoc]
  rfl

/-- What fills a new group makes an atom of it when it stands between parentheses. -/
theorem feeds_parens (progress : Progress) {alternatives : List (List Node)} {symbols : List Symbol}
    (hinside : ∀ opened : Progress, opened.inner.pending = none → opened.inner.sequence = [] →
      Feeds scope name symbols opened (Completes opened alternatives)) :
    Feeds scope name (.opening :: symbols ++ [.closing]) progress
      (Pushes progress (plainGroup alternatives)) := by
  have hopening : ∀ position, ∃ after, step scope name progress ⟨.opening, position⟩ = .ok after ∧
      (∃ opening, after.inner = { opening }) ∧ after.outer = progress.inner :: progress.outer :=
    fun position => ⟨_, rfl, ⟨_, rfl⟩, rfl⟩
  rw [← List.singleton_append, List.append_assoc]
  apply (Feeds.step hopening).append
  rintro opened ⟨⟨opening, hopen⟩, hstack⟩
  apply (hinside opened (by rw [hopen]) (by rw [hopen])).append
  intro filled hfilled
  have hnode : filled.inner.toNode = plainGroup alternatives := by
    unfold OpenGroup.toNode
    rw [hfilled.nodes, hopen]
    rfl
  have houtside : filled.outer = progress.inner :: progress.outer := hfilled.outer.trans hstack
  apply Feeds.step
  intro position
  have hstep : step scope name filled ⟨.closing, position⟩ = .ok {
      inner := progress.inner.push (plainGroup alternatives)
      outer := progress.outer
      previous := some ⟨.closing, position⟩ } := by
    simp only [step, hfilled.checkEnd, houtside, hnode]
    rfl
  exact ⟨_, hstep, rfl, rfl, rfl⟩

theorem feeds_alternatives {target : Symbol → Int} {alternatives : List (List Phrase)}
    {progress : Progress} (hpending : progress.inner.pending = none)
    (hstart : progress.inner.sequence = []) (halternatives : alternatives ≠ [])
    (hsequences : ∀ sequence ∈ alternatives, sequence ≠ [])
    (hphrases : ∀ sequence ∈ alternatives, ∀ phrase ∈ sequence, Parses scope name target phrase) :
    Feeds scope name ([Symbol.bar].intercalate (Phrase.symbolsOfAlternatives alternatives)) progress
      (Completes progress (Phrase.treesOfAlternatives target alternatives)) := by
  induction alternatives generalizing progress with
  | nil => exact absurd rfl halternatives
  | cons first rest ih =>
      have hne := hsequences first List.mem_cons_self
      have hfirst : Feeds scope name (Phrase.symbolsOfSequence first) progress
          (Completes progress [Phrase.treesOfSequence target first]) := by
        have htrees : Phrase.treesOfSequence target first ≠ [] := by
          simpa [Phrase.treesOfSequence_eq_map] using hne
        exact (feeds_sequence hpending (.inr hne) (hphrases first List.mem_cons_self)).mono
          fun after hafter => hafter.completes hpending hstart htrees
      cases rest with
      | nil =>
          rw [Phrase.symbolsOfAlternatives, Phrase.symbolsOfAlternatives,
            List.intercalate_singleton]
          exact hfirst
      | cons second more =>
          rw [Phrase.symbolsOfAlternatives, Phrase.symbolsOfAlternatives,
            List.intercalate_cons_cons, ← Phrase.symbolsOfAlternatives, List.append_assoc]
          refine hfirst.append fun between hbetween =>
            hbetween.feeds_bar fun started hclear hempty => ?_
          exact ih hclear hempty (List.cons_ne_nil _ _)
            (fun sequence hmem => hsequences sequence (List.mem_cons_of_mem _ hmem))
            (fun sequence hmem => hphrases sequence (List.mem_cons_of_mem _ hmem))

/-- A legible phrase is parsed as its tree if its references are resolved. -/
theorem parses_of_legible {target : Symbol → Int} {phrase : Phrase} (hphrase : phrase.Legible)
    (hresolve : ∀ symbol, Mentions symbol phrase → ∀ position,
      resolve scope name ⟨symbol, position⟩ = .ok (target symbol)) :
    Parses scope name target phrase := by
  induction hphrase with
  | @atom symbol quantity look hsymbol hallowed =>
      intro progress hpending
      rw [Phrase.symbols]
      exact feeds_decorated hpending hallowed rfl rfl fun between =>
        feeds_reference between hsymbol (hresolve symbol (.atom _ _))
  | @parens alternatives quantity look halternatives hsequences _ hallowed ih =>
      intro progress hpending
      have hphrases : ∀ sequence ∈ alternatives, ∀ phrase ∈ sequence,
          Parses scope name target phrase := fun sequence hsequence phrase hphrase =>
        ih sequence hsequence phrase hphrase fun symbol hsymbol =>
          hresolve symbol (.parens hsequence hphrase hsymbol)
      rw [Phrase.symbols, List.append_assoc]
      exact feeds_decorated hpending hallowed rfl rfl fun between =>
        feeds_parens between fun opened hclear hempty =>
          feeds_alternatives hclear hempty halternatives hsequences hphrases

end Node.Parser

namespace Node

open Phrase (Legible Mentions)

/-- Lexemes that complete a new group are parsed as the group. -/
theorem ofLexemes_of_feeds {scope : Scope} {name : Option String} {alternatives : List (List Node)}
    {symbols : List Symbol}
    (hfeeds : Parser.Feeds scope name symbols {} (Parser.Completes {} alternatives))
    {lexemes : List Lexeme} (hlexemes : lexemes.map Lexeme.symbol = symbols) :
    ofLexemes scope lexemes name = .ok (plainGroup alternatives) := by
  obtain ⟨after, hread, hcomplete⟩ := hfeeds lexemes hlexemes
  have hnodes := hcomplete.nodes
  obtain ⟨last, hlast⟩ := Option.isSome_iff_exists.mp hcomplete.previous
  have hopening : after.inner.opening = none := hcomplete.opening
  rw [ofLexemes, hread]
  change Parser.finish name after = _
  simp only [Parser.finish, hcomplete.pending, hlast, hopening]
  rw [if_neg (by simpa using hcomplete.nonempty), Parser.OpenGroup.toNode, hnodes]
  rfl

/-- The lexemes of legible alternatives are parsed as their trees. -/
theorem ofLexemes_symbols (scope : Scope) (name : Option String) {target : Symbol → Int}
    {alternatives : List (List Phrase)} (halternatives : alternatives ≠ [])
    (hsequences : ∀ sequence ∈ alternatives, sequence ≠ [])
    (hphrases : ∀ sequence ∈ alternatives, ∀ phrase ∈ sequence, phrase.Legible)
    (hresolve : ∀ sequence ∈ alternatives, ∀ phrase ∈ sequence, ∀ symbol, Mentions symbol phrase →
      ∀ position, Parser.resolve scope name ⟨symbol, position⟩ = .ok (target symbol))
    {lexemes : List Lexeme} (hlexemes : lexemes.map Lexeme.symbol =
      [Symbol.bar].intercalate (Phrase.symbolsOfAlternatives alternatives)) :
    ofLexemes scope lexemes name =
      .ok (plainGroup (Phrase.treesOfAlternatives target alternatives)) := by
  have hparses : ∀ sequence ∈ alternatives, ∀ phrase ∈ sequence,
      Parser.Parses scope name target phrase := fun sequence hsequence phrase hphrase =>
    Parser.parses_of_legible (hphrases sequence hsequence phrase hphrase)
      (hresolve sequence hsequence phrase hphrase)
  exact ofLexemes_of_feeds
    (Parser.feeds_alternatives rfl rfl halternatives hsequences hparses) hlexemes

end Node

end Motif
