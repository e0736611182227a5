import Motif.Proofs.Lexeme.Ranges
import Motif.Proofs.Node.Grammar

/-!
# What is accepted

A list of lexemes is parsed exactly if the grammar derives it. What has been read of a pattern is a
stack of open groups, and each of them holds what its own lexemes derive: the alternatives before
the last bar, the terms after it, and a mark that waits for its atom.
-/

namespace Motif.Node

variable {scope : Scope} {name : Option String}

namespace Grammar

theorem Sequence.snoc {nodes : List Node} {symbols others : List Symbol} {node : Node}
    (hsequence : Sequence scope nodes symbols) (hterm : Term scope node others) :
    Sequence scope (nodes ++ [node]) (symbols ++ others) := by
  induction nodes generalizing symbols with
  | nil => exact absurd rfl hsequence.ne_nil
  | cons first rest ih =>
      cases hsequence with
      | one hfirst => exact .more hfirst (.one hterm)
      | more hfirst hrest =>
          rw [List.append_assoc]
          exact .more hfirst (ih hrest)

theorem Group.snoc {alternatives : List (List Node)} {symbols others : List Symbol}
    {nodes : List Node} (hgroup : Group scope alternatives symbols)
    (hsequence : Sequence scope nodes others) :
    Group scope (alternatives ++ [nodes]) (symbols ++ .bar :: others) := by
  induction alternatives generalizing symbols with
  | nil => cases hgroup
  | cons first rest ih =>
      cases hgroup with
      | one hfirst => exact .more hfirst (.one hsequence)
      | more hfirst hrest =>
          rw [List.append_assoc]
          exact .more hfirst (ih hrest)

/-- The symbols are nothing or a sequence. -/
def Starts (scope : Scope) (nodes : List Node) (symbols : List Symbol) : Prop :=
  nodes = [] ∧ symbols = [] ∨ Sequence scope nodes symbols

theorem Starts.snoc {nodes : List Node} {symbols others : List Symbol} {node : Node}
    (hstarts : Starts scope nodes symbols) (hterm : Term scope node others) :
    Sequence scope (nodes ++ [node]) (symbols ++ others) := by
  rcases hstarts with ⟨rfl, rfl⟩ | hsequence
  · exact .one hterm
  · exact hsequence.snoc hterm

end Grammar

namespace Parser

open Grammar

/-- What has been read of an alternative, the last node first. If a quantifier could apply, then to
a last term that has none. -/
inductive Collects (scope : Scope) : Target → List Node → List Symbol → Prop where
  | closed {target : Target} {nodes : List Node} {symbols : List Symbol} (htarget : target ≠ .atom)
      (hstarts : Starts scope nodes.reverse symbols) : Collects scope target nodes symbols
  | bare (target : Target) {mark : Option LookMark} {atom : Node} {nodes : List Node}
      {symbols others : List Symbol} (hmark : mark ≠ some .notBehind)
      (hstarts : Starts scope nodes.reverse symbols) (hatom : Atom scope atom others) :
      Collects scope target (marked mark atom :: nodes)
        (symbols ++ (mark.toList.map Symbol.look ++ others))

theorem Collects.starts {target : Target} {nodes : List Node} {symbols : List Symbol}
    (hcollects : Collects scope target nodes symbols) : Starts scope nodes.reverse symbols := by
  cases hcollects with
  | closed _ hstarts => exact hstarts
  | @bare mark _ _ _ _ _ hstarts hatom =>
      rw [List.reverse_cons]
      exact .inr (hstarts.snoc (.bare mark hatom))

/-- The alternatives before the last bar, the last one first. -/
inductive Concludes (scope : Scope) : List (List Node) → List Symbol → Prop where
  | none : Concludes scope [] []
  | some {alternatives : List (List Node)} {symbols : List Symbol}
      (hgroup : Group scope alternatives.reverse symbols) :
      Concludes scope alternatives (symbols ++ [.bar])

theorem Concludes.group {alternatives : List (List Node)} {nodes : List Node}
    {symbols others : List Symbol} (hconcludes : Concludes scope alternatives symbols)
    (hsequence : Sequence scope nodes others) :
    Group scope (nodes :: alternatives).reverse (symbols ++ others) := by
  rw [List.reverse_cons]
  cases hconcludes with
  | none => exact .one hsequence
  | some hgroup =>
      rw [List.append_assoc]
      exact hgroup.snoc hsequence

/-- The symbols are what has been read of an open group. -/
def OpenGroup.Holds (scope : Scope) (group : OpenGroup) (symbols : List Symbol) : Prop :=
  ∃ finished current, Concludes scope group.finished finished ∧
    Collects scope group.target group.sequence current ∧
    symbols = finished ++ (current ++ group.waiting.toList.map Symbol.look)

theorem OpenGroup.waiting_eq_none {group : OpenGroup} (hpending : group.pending = none) :
    group.waiting = none := by
  rw [OpenGroup.waiting, hpending, Option.map_none]

namespace OpenGroup.Holds

variable {group : OpenGroup} {symbols : List Symbol}

theorem empty (opening : Option Lexeme) : OpenGroup.Holds scope { opening } [] :=
  ⟨[], [], .none, .closed Target.noConfusion (.inl ⟨rfl, rfl⟩), rfl⟩

/-- A group that may end here is derived from what has been read of it. -/
theorem derives (hholds : group.Holds scope symbols) (hends : group.Ends) :
    Group scope (group.sequence.reverse :: group.finished).reverse symbols := by
  obtain ⟨finished, current, hfinished, hcurrent, rfl⟩ := hholds
  rw [OpenGroup.waiting_eq_none hends.1, Option.toList_none, List.map_nil, List.append_nil]
  rcases hcurrent.starts with ⟨hempty, -⟩ | hlast
  · exact absurd (List.reverse_eq_nil_iff.mp hempty) hends.2
  · exact hfinished.group hlast

theorem push (hholds : group.Holds scope symbols) {atom : Node} {others : List Symbol}
    (hatom : Atom scope atom others) : (group.push atom).Holds scope (symbols ++ others) := by
  obtain ⟨finished, current, hfinished, hcurrent, rfl⟩ := hholds
  rw [OpenGroup.push_eq]
  refine ⟨finished, current ++ (group.waiting.toList.map Symbol.look ++ others), hfinished, ?_, ?_⟩
  · by_cases hmark : group.waiting = some .notBehind
    · dsimp only
      rw [if_pos hmark]
      apply Collects.closed Target.noConfusion
      rw [List.reverse_cons]
      exact .inr (hcurrent.starts.snoc (.bare group.waiting hatom))
    · exact .bare _ hmark hcurrent.starts hatom
  · simp [OpenGroup.waiting]

theorem look (hholds : group.Holds scope symbols) (hpending : group.pending = none)
    (mark : LookMark) (position : Nat) :
    OpenGroup.Holds scope { group with pending := some (mark, position) }
      (symbols ++ [.look mark]) := by
  obtain ⟨finished, current, hfinished, hcurrent, rfl⟩ := hholds
  refine ⟨finished, current, hfinished, hcurrent, ?_⟩
  rw [OpenGroup.waiting_eq_none hpending]
  simp [OpenGroup.waiting]

theorem bar (hholds : group.Holds scope symbols) (hends : group.Ends) :
    OpenGroup.Holds scope { group with
      finished := group.sequence.reverse :: group.finished
      sequence := []
      target := if group.target = .assertion then .assertion else .nothing }
      (symbols ++ [.bar]) := by
  refine ⟨symbols ++ [.bar], [], .some (hholds.derives hends), .closed ?_ (.inl ⟨rfl, rfl⟩), ?_⟩
  · dsimp only
    split <;> exact Target.noConfusion
  · simp [OpenGroup.waiting, hends.1]

theorem quantify (hholds : group.Holds scope symbols) {node : Node} {nodes : List Node}
    (hpending : group.pending = none) (htarget : group.target = .atom)
    (hsequence : group.sequence = node :: nodes) {quantifier : Symbol} {quantity : Quantity}
    (hquantifies : Quantifies quantifier quantity)
    (hbehind : node.look = .behind → quantity = .never) :
    OpenGroup.Holds scope { group with
      sequence := node.withQuantity quantity :: nodes
      target := .nothing } (symbols ++ [quantifier]) := by
  obtain ⟨finished, current, hfinished, hcurrent, rfl⟩ := hholds
  rw [htarget, hsequence] at hcurrent
  cases hcurrent with
  | closed hother => exact absurd rfl hother
  | @bare mark atom _ before others hmark hstarts hatom =>
      have hpermits : Permits mark quantity := ⟨hmark, fun hlook =>
        hbehind ((look_marked_eq_behind_iff hatom.plain hmark).mpr hlook)⟩
      have hterm := Term.quantified hatom hquantifies hpermits
      refine ⟨finished, before ++ (mark.toList.map Symbol.look ++ others ++ [quantifier]),
        hfinished, .closed Target.noConfusion ?_, ?_⟩
      · rw [List.reverse_cons]
        exact .inr (hstarts.snoc hterm)
      · simp [OpenGroup.waiting, hpending]

end OpenGroup.Holds

/-- The symbols are what has been read of a stack of open groups, each within the next. -/
inductive Stands (scope : Scope) : OpenGroup → List OpenGroup → List Symbol → Prop where
  | whole {group : OpenGroup} {symbols : List Symbol} (hopening : group.opening = none)
      (hholds : group.Holds scope symbols) : Stands scope group [] symbols
  | inside {group around : OpenGroup} {outer : List OpenGroup} {before symbols : List Symbol}
      (hopening : group.opening ≠ none) (haround : Stands scope around outer before)
      (hholds : group.Holds scope symbols) :
      Stands scope group (around :: outer) (before ++ .opening :: symbols)

/-- What the innermost group gets, the stack gets. -/
theorem Stands.extend {group extended : OpenGroup} {outer : List OpenGroup}
    {symbols others : List Symbol} (hstands : Stands scope group outer symbols)
    (hopening : extended.opening = group.opening)
    (hholds : ∀ symbols, group.Holds scope symbols → extended.Holds scope (symbols ++ others)) :
    Stands scope extended outer (symbols ++ others) := by
  cases hstands with
  | whole hnone hgroup => exact .whole (hopening.trans hnone) (hholds _ hgroup)
  | inside hsome haround hgroup =>
      rw [List.append_assoc, List.cons_append]
      exact .inside (hopening ▸ hsome) haround (hholds _ hgroup)

theorem Stands.holds {group : OpenGroup} {outer : List OpenGroup} {symbols : List Symbol}
    (hstands : Stands scope group outer symbols) (hopening : group.opening = none) :
    group.Holds scope symbols := by
  cases hstands with
  | whole _ hholds => exact hholds
  | inside hsome => exact absurd hopening hsome

theorem opening_push (group : OpenGroup) (atom : Node) :
    (group.push atom).opening = group.opening := by
  rw [OpenGroup.push_eq]

/-- Reading a lexeme adds its symbol to what has been read. -/
theorem Stands.advance {progress after : Progress} {lexeme : Lexeme} {symbols : List Symbol}
    (hstands : Stands scope progress.inner progress.outer symbols)
    (hadvances : Advances scope progress lexeme after) :
    Stands scope after.inner after.outer (symbols ++ [lexeme.symbol]) := by
  cases hadvances with
  | opening hsymbol =>
      rw [hsymbol]
      exact .inside (Option.some_ne_none lexeme) hstands (.empty _)
  | @closing around outer hsymbol hends houter =>
      rw [hsymbol]
      rw [houter] at hstands
      cases hstands with
      | @inside _ _ _ before inner _ haround hholds =>
          have hatom : Atom scope progress.inner.toNode (.opening :: inner ++ [.closing]) :=
            .parens (hholds.derives hends)
          have hstands := haround.extend (opening_push around _) fun _ hgroup => hgroup.push hatom
          simpa using hstands
  | bar hsymbol hends =>
      rw [hsymbol]
      exact hstands.extend rfl fun _ hgroup => hgroup.bar hends
  | look hsymbol hpending =>
      rw [hsymbol]
      exact hstands.extend rfl fun _ hgroup => hgroup.look hpending _ _
  | quantifier hquantifies hpending htarget hsequence hbehind =>
      exact hstands.extend rfl fun _ hgroup =>
        hgroup.quantify hpending htarget hsequence hquantifies hbehind
  | reference hresolves =>
      exact hstands.extend (opening_push _ _) fun _ hgroup => hgroup.push (.reference hresolves)

theorem Stands.read {progress after : Progress} {symbols : List Symbol}
    (hstands : Stands scope progress.inner progress.outer symbols) {lexemes : List Lexeme}
    (hread : lexemes.foldlM (step scope name) progress = .ok after) :
    Stands scope after.inner after.outer (symbols ++ lexemes.map Lexeme.symbol) := by
  -- The stack stands for what has been read; each lexeme keeps it so.
  induction lexemes generalizing progress symbols with
  | nil =>
      cases hread
      simpa using hstands
  | cons lexeme rest ih =>
      rw [List.foldlM_cons] at hread
      obtain ⟨middle, hstep, hrest⟩ := bind_eq_ok_iff.mp hread
      have hafter := ih (hstands.advance (step_eq_ok_iff.mp hstep)) hrest
      simpa using hafter

theorem finish_eq_ok {progress : Progress} {tree : Node}
    (hfinish : finish name progress = .ok tree) :
    progress.inner.Ends ∧ progress.inner.opening = none ∧ tree = progress.inner.toNode := by
  unfold finish at hfinish
  split at hfinish
  next => cases hfinish
  next => cases hfinish
  next hpending _ =>
    split at hfinish
    next => cases hfinish
    next hsequence =>
      split at hfinish
      next => cases hfinish
      next hopening =>
        cases hfinish
        exact ⟨⟨hpending, by simpa using hsequence⟩, hopening, rfl⟩

end Parser

/-- Whatever is parsed is derived by the grammar. -/
theorem exists_group_of_ofLexemes {lexemes : List Lexeme} {tree : Node}
    (hparse : ofLexemes scope lexemes name = .ok tree) :
    ∃ alternatives, tree = plainGroup alternatives ∧
      Grammar.Group scope alternatives (lexemes.map Lexeme.symbol) := by
  obtain ⟨progress, hread, hfinish⟩ := bind_eq_ok_iff.mp hparse
  obtain ⟨hends, hopening, rfl⟩ := Parser.finish_eq_ok hfinish
  have hstart : Parser.Stands scope {} [] [] := .whole rfl (.empty none)
  have hstands := hstart.read hread
  rw [List.nil_append] at hstands
  exact ⟨_, rfl, (hstands.holds hopening).derives hends⟩

/-! ## Rejection -/

namespace Parser

/-- The result is a value, a fault of the pattern with a property, or another fault that is
allowed. -/
def Accuses {α : Type} (accused : PatternFault → Prop) (other : Fault → Prop)
    (result : Except Fault α) : Prop :=
  ∀ fault, result = .error fault →
    (∃ cause, fault = .pattern cause ∧ accused cause) ∨ other fault

/-- The result is a value or a fault of the pattern. -/
def Blames {α : Type} (result : Except Fault α) : Prop :=
  ∀ fault, result = .error fault → ∃ cause, fault = .pattern cause

variable {α β : Type} {accused : PatternFault → Prop} {other : Fault → Prop}

/-- Whatever the cause, a fault at the lexeme has the property. -/
def IsGuilty (name : Option String) (accused : PatternFault → Prop) (lexeme : Lexeme) : Prop :=
  ∀ cause, accused { cause, position := lexeme.position, token := lexeme.text, name }

theorem Accuses.blames {result : Except Fault α} (hresult : Accuses accused other result)
    (hnone : ∀ fault, ¬ other fault) : Blames result := by
  intro fault hfault
  obtain ⟨cause, hcause, -⟩ | hother := hresult fault hfault
  · exact ⟨cause, hcause⟩
  · exact absurd hother (hnone fault)

theorem Accuses.ok (value : α) : Accuses accused other (.ok value) := by
  rintro fault ⟨⟩

theorem Accuses.blame {lexeme : Lexeme} (hguilty : IsGuilty name accused lexeme)
    (cause : PatternFault.Cause) :
    Accuses accused other (blame name lexeme cause : Except Fault α) := by
  rintro fault ⟨⟩
  exact .inl ⟨_, rfl, hguilty cause⟩

theorem Accuses.bind {result : Except Fault α} {next : α → Except Fault β}
    (hresult : Accuses accused other result)
    (hnext : ∀ value, result = .ok value → Accuses accused other (next value)) :
    Accuses accused other (result >>= next) := by
  cases result with
  | error fault => exact fun found hfound => hresult found (by cases hfound; rfl)
  | ok value => exact hnext value rfl

/-- The numbers of the symbol can be read, but for a range with one of these faults. -/
structure Excused (other : Fault → Prop) (symbol : Symbol) : Prop where
  id : ∀ text, symbol = .id text →
    ∃ id, Quantity.readBound (Text.trim (text.toList.drop 1).dropLast) = .ok id
  range : ∀ text, symbol = .range text → ∀ fault, Quantity.ofRange text = .error fault → other fault

/-- The numbers of the symbol can be read. -/
structure Readable (symbol : Symbol) : Prop where
  id : ∀ text, symbol = .id text →
    ∃ id, Quantity.readBound (Text.trim (text.toList.drop 1).dropLast) = .ok id
  range : ∀ text, symbol = .range text → ∃ quantity, Quantity.ofRange text = .ok quantity

theorem Readable.excused {symbol : Symbol} (hreadable : Readable symbol) :
    Excused (fun _ => False) symbol := by
  refine ⟨hreadable.id, fun text hsymbol fault hfault => ?_⟩
  obtain ⟨quantity, hquantity⟩ := hreadable.range text hsymbol
  rw [hquantity] at hfault
  cases hfault

theorem accuses_checkEnd (group : OpenGroup) {lexeme : Lexeme}
    (hguilty : IsGuilty name accused lexeme) :
    Accuses accused other (group.checkEnd name lexeme) := by
  unfold OpenGroup.checkEnd
  split
  next => exact .blame hguilty _
  next =>
    split
    next => exact .blame hguilty _
    next => exact .ok ()

theorem accuses_resolve {lexeme : Lexeme} (hexcused : Excused other lexeme.symbol)
    (hguilty : IsGuilty name accused lexeme) :
    Accuses accused other (resolve scope name lexeme) := by
  unfold resolve
  split
  next text hsymbol =>
    obtain ⟨id, hid⟩ := hexcused.id text hsymbol
    rw [hid]
    change Accuses accused other (if _ then _ else _)
    split
    next => exact .ok id
    next => exact .blame hguilty _
  next =>
    dsimp only
    split
    next found _ => exact .ok found
    next => exact .blame hguilty _

theorem accuses_quantityOf {lexeme : Lexeme} (hexcused : Excused other lexeme.symbol)
    (hguilty : IsGuilty name accused lexeme)
    (hquantifier : (∃ text, lexeme.symbol = .range text) ∨ ∃ mark, lexeme.symbol = .quantity mark) :
    Accuses accused other (quantityOf name lexeme) := by
  obtain ⟨symbol, position⟩ := lexeme
  rcases hquantifier with ⟨text, rfl⟩ | ⟨mark, rfl⟩
  · have hread : Accuses accused other (Quantity.ofRange text) :=
      fun fault hfault => .inr (hexcused.range text rfl fault hfault)
    simp only [quantityOf, Symbol.text]
    apply hread.bind
    intro quantity _
    split
    next => exact .blame hguilty _
    next => exact .ok quantity
  · exact .ok mark.quantity

theorem accuses_quantify {progress : Progress} {lexeme : Lexeme}
    (hexcused : Excused other lexeme.symbol) (hguilty : IsGuilty name accused lexeme)
    (hquantifier : (∃ text, lexeme.symbol = .range text) ∨ ∃ mark, lexeme.symbol = .quantity mark) :
    Accuses accused other (quantify name progress lexeme) := by
  unfold quantify
  dsimp only
  split
  next => exact .blame hguilty _
  next => exact .blame hguilty _
  next =>
    apply (accuses_quantityOf hexcused hguilty hquantifier).bind
    intro quantity _
    split
    next => exact .blame hguilty _
    next => exact .ok _
  next => split <;> exact .blame hguilty _

theorem accuses_step {progress : Progress} {lexeme : Lexeme}
    (hexcused : Excused other lexeme.symbol) (hguilty : IsGuilty name accused lexeme) :
    Accuses accused other (step scope name progress lexeme) := by
  unfold step
  dsimp only
  split
  next => exact .ok _
  next =>
    apply (accuses_checkEnd _ hguilty).bind
    intro _ _
    split
    next => exact .blame hguilty _
    next => exact .ok _
  next => exact (accuses_checkEnd _ hguilty).bind fun _ _ => .ok _
  next =>
    split
    next => exact .blame hguilty _
    next => exact .ok _
  next text hsymbol => exact (accuses_quantify hexcused hguilty (.inl ⟨text, hsymbol⟩)).bind fun _ _ => .ok _
  next mark hsymbol => exact (accuses_quantify hexcused hguilty (.inr ⟨mark, hsymbol⟩)).bind fun _ _ => .ok _
  next => exact (accuses_resolve hexcused hguilty).bind fun _ _ => .ok _

theorem accuses_read {lexemes : List Lexeme}
    (hexcused : ∀ lexeme ∈ lexemes, Excused other lexeme.symbol)
    (hguilty : ∀ lexeme ∈ lexemes, IsGuilty name accused lexeme) (progress : Progress) :
    Accuses accused other (lexemes.foldlM (step scope name) progress) := by
  induction lexemes generalizing progress with
  | nil => exact .ok progress
  | cons lexeme rest ih =>
      rw [List.foldlM_cons]
      apply (accuses_step (hexcused lexeme List.mem_cons_self)
        (hguilty lexeme List.mem_cons_self)).bind
      intro after _
      exact ih (fun found hfound => hexcused found (List.mem_cons_of_mem _ hfound))
        (fun found hfound => hguilty found (List.mem_cons_of_mem _ hfound)) after

/-- The lexemes to which the end of a group may come back have a property: the one that opened it
and the look that waits. -/
structure OpenGroup.Keeps (property : Lexeme → Prop) (group : OpenGroup) : Prop where
  opening : ∀ lexeme, group.opening = some lexeme → property lexeme
  pending : ∀ mark position, group.pending = some (mark, position) →
    property ⟨.look mark, position⟩

/-- The lexemes to which the end of the text may come back have a property. -/
structure Progress.Keeps (property : Lexeme → Prop) (progress : Progress) : Prop where
  inner : progress.inner.Keeps property
  outer : ∀ group ∈ progress.outer, group.Keeps property
  previous : ∀ lexeme, progress.previous = some lexeme → property lexeme

section Keeping

variable {property : Lexeme → Prop}

theorem OpenGroup.Keeps.of_empty {group : OpenGroup}
    (hopening : ∀ lexeme, group.opening = some lexeme → property lexeme)
    (hpending : group.pending = none) : group.Keeps property :=
  ⟨hopening, fun _ _ hfound => absurd (hpending.symm.trans hfound) nofun⟩

theorem OpenGroup.Keeps.push {group : OpenGroup} (hgroup : group.Keeps property) (atom : Node) :
    (group.push atom).Keeps property := by
  rw [OpenGroup.push_eq]
  exact .of_empty hgroup.opening rfl

theorem Progress.Keeps.advance {progress after : Progress} {lexeme : Lexeme}
    (hkeeps : progress.Keeps property) (hlexeme : property lexeme)
    (hadvances : Advances scope progress lexeme after) : after.Keeps property := by
  have hprevious : ∀ last, some lexeme = some last → property last := by
    rintro last ⟨⟩
    exact hlexeme
  cases hadvances with
  | opening =>
      refine ⟨.of_empty hprevious rfl, fun group hgroup => ?_, hprevious⟩
      rcases List.mem_cons.mp hgroup with rfl | hgroup
      · exact hkeeps.inner
      · exact hkeeps.outer group hgroup
  | @closing around outer _ _ houter =>
      have houter : ∀ group ∈ around :: outer, group.Keeps property := houter ▸ hkeeps.outer
      exact ⟨(houter around List.mem_cons_self).push _,
        fun group hgroup => houter group (List.mem_cons_of_mem _ hgroup), hprevious⟩
  | bar => exact ⟨⟨hkeeps.inner.opening, hkeeps.inner.pending⟩, hkeeps.outer, hprevious⟩
  | look hsymbol =>
      refine ⟨⟨hkeeps.inner.opening, ?_⟩, hkeeps.outer, hprevious⟩
      rintro mark position ⟨⟩
      rw [← hsymbol]
      exact hlexeme
  | quantifier => exact ⟨⟨hkeeps.inner.opening, hkeeps.inner.pending⟩, hkeeps.outer, hprevious⟩
  | reference => exact ⟨hkeeps.inner.push _, hkeeps.outer, hprevious⟩

theorem Progress.Keeps.read {progress after : Progress} {lexemes : List Lexeme}
    (hkeeps : progress.Keeps property) (hlexemes : ∀ lexeme ∈ lexemes, property lexeme)
    (hread : lexemes.foldlM (step scope name) progress = .ok after) : after.Keeps property := by
  induction lexemes generalizing progress with
  | nil =>
      cases hread
      exact hkeeps
  | cons lexeme rest ih =>
      rw [List.foldlM_cons] at hread
      obtain ⟨middle, hstep, hrest⟩ := bind_eq_ok_iff.mp hread
      exact ih (hkeeps.advance (hlexemes lexeme List.mem_cons_self) (step_eq_ok_iff.mp hstep))
        (fun found hfound => hlexemes found (List.mem_cons_of_mem _ hfound)) hrest

end Keeping

theorem accuses_finish {progress : Progress} (hkeeps : progress.Keeps (IsGuilty name accused))
    (hempty : accused { cause := .emptyPattern, position := some 0, name }) :
    Accuses accused other (finish name progress) := by
  unfold finish
  split
  next mark position hpending => exact .blame (hkeeps.inner.pending mark position hpending) _
  next =>
    rintro fault ⟨⟩
    exact .inl ⟨_, rfl, hempty⟩
  next last _ hlast =>
    split
    next => exact .blame (hkeeps.previous last hlast) _
    next =>
      split
      next opening hopening => exact .blame (hkeeps.inner.opening opening hopening) _
      next => exact .ok _

/-- What is parsed is a tree, a fault of the pattern, or one of the excused faults of its ranges.
The fault is that of an empty pattern or at one of the lexemes. -/
theorem accuses_ofLexemes {lexemes : List Lexeme}
    (hexcused : ∀ lexeme ∈ lexemes, Excused other lexeme.symbol)
    (hguilty : ∀ lexeme ∈ lexemes, IsGuilty name accused lexeme)
    (hempty : accused { cause := .emptyPattern, position := some 0, name }) :
    Accuses accused other (ofLexemes scope lexemes name) := by
  have hstart : Progress.Keeps (IsGuilty name accused) {} := ⟨⟨nofun, nofun⟩, nofun, nofun⟩
  exact (accuses_read hexcused hguilty {}).bind fun progress hread =>
    accuses_finish (hstart.read hguilty hread) hempty

theorem blames_ofLexemes {lexemes : List Lexeme}
    (hreadable : ∀ lexeme ∈ lexemes, Readable lexeme.symbol) :
    Blames (ofLexemes scope lexemes name) := by
  have haccuses : Accuses (fun _ => True) (fun _ => False) (ofLexemes scope lexemes name) :=
    accuses_ofLexemes (fun lexeme hlexeme => (hreadable lexeme hlexeme).excused)
      (fun _ _ _ => trivial) trivial
  exact haccuses.blames fun _ => id

end Parser

/-- A list of lexemes with readable ranges is parsed exactly if the grammar derives it, as the tree
of its only derivation; any other list is a fault of the pattern. -/
theorem ofLexemes_exact (scope : Scope) (name : Option String) {lexemes : List Lexeme}
    (hwritten : ∀ lexeme ∈ lexemes, Lexeme.IsWritten lexeme.symbol)
    (hranges : ∀ lexeme ∈ lexemes, ∀ text, lexeme.symbol = .range text →
      ∃ quantity, Quantity.ofRange text = .ok quantity) :
    (∀ tree, ofLexemes scope lexemes name = .ok tree ↔
      ∃ alternatives, tree = plainGroup alternatives ∧
        Grammar.Group scope alternatives (lexemes.map Lexeme.symbol)) ∧
    (∀ first second, Grammar.Group scope first (lexemes.map Lexeme.symbol) →
      Grammar.Group scope second (lexemes.map Lexeme.symbol) → first = second) ∧
    ((∀ alternatives, ¬ Grammar.Group scope alternatives (lexemes.map Lexeme.symbol)) →
      ∃ fault, ofLexemes scope lexemes name = .error (.pattern fault)) := by
  refine ⟨fun tree => ⟨exists_group_of_ofLexemes, ?_⟩, fun first second hfirst hsecond => ?_,
    fun hnone => ?_⟩
  · rintro ⟨alternatives, rfl, hgroup⟩
    exact ofLexemes_of_group name hgroup
  · have htrees := (ofLexemes_of_group name hfirst).symm.trans (ofLexemes_of_group name hsecond)
    injection htrees with htrees
    injection htrees
  · have hblames : Parser.Blames (ofLexemes scope lexemes name) := by
      apply Parser.blames_ofLexemes
      intro lexeme hlexeme
      refine ⟨fun text hsymbol => ?_, hranges lexeme hlexeme⟩
      have hid := hwritten lexeme hlexeme
      rw [hsymbol] at hid
      exact hid.exists_readBound
    cases hparse : ofLexemes scope lexemes name with
    | error fault =>
        obtain ⟨cause, rfl⟩ := hblames fault hparse
        exact ⟨cause, rfl⟩
    | ok tree =>
        obtain ⟨alternatives, -, hgroup⟩ := exists_group_of_ofLexemes hparse
        exact absurd hgroup (hnone alternatives)

/-- The lexemes of an absence, a group with a range and a look ahead in it, and a quantifier. -/
def sampleLexemes : List Lexeme :=
  [⟨.look .notBehind, 0⟩, ⟨.name "A", 1⟩, ⟨.opening, 3⟩, ⟨.name "A", 4⟩, ⟨.range "\x7b2-3\x7d", 5⟩,
    ⟨.bar, 11⟩, ⟨.look .ahead, 13⟩, ⟨.id "[1]", 14⟩, ⟨.closing, 17⟩, ⟨.quantity .some, 18⟩]

/-- A scope of one pattern. -/
def sampleScope : Scope where
  hasId id := id = 1
  idOf name := if name = "A" then some 1 else none

theorem read_sampleLexemes : Lexeme.read "^A (A\x7b2-3\x7d | >[1])+" = .ok sampleLexemes := by
  rfl

theorem ofLexemes_exact_sample :
    (∀ lexeme ∈ sampleLexemes, Lexeme.IsWritten lexeme.symbol) ∧
    (∀ lexeme ∈ sampleLexemes, ∀ text, lexeme.symbol = .range text →
      ∃ quantity, Quantity.ofRange text = .ok quantity) ∧
    Grammar.Group sampleScope
      [[.ref 1 .never .behind, .group [[.ref 1 ⟨2, 3⟩ .here], [.ref 1 .once .ahead]]
        ⟨1, Quantity.unlimited⟩ .here]]
      (sampleLexemes.map Lexeme.symbol) := by
  have hwritten : ∀ lexeme ∈ sampleLexemes, Lexeme.IsWritten lexeme.symbol :=
    fun lexeme hlexeme => ⟨_, _, read_sampleLexemes, List.mem_map_of_mem hlexeme⟩
  have hranges : ∀ lexeme ∈ sampleLexemes, ∀ text, lexeme.symbol = .range text →
      ∃ quantity, Quantity.ofRange text = .ok quantity := by
    intro lexeme hlexeme text hsymbol
    have htext : text = "\x7b2-3\x7d" := by
      simp only [sampleLexemes, List.mem_cons, List.not_mem_nil, or_false] at hlexeme
      rcases hlexeme with rfl | rfl | rfl | rfl | rfl | rfl | rfl | rfl | rfl | rfl <;> cases hsymbol
      rfl
    exact ⟨⟨2, 3⟩, by rw [htext]; rfl⟩
  obtain ⟨alternatives, htree, hgroup⟩ :=
    ((ofLexemes_exact sampleScope none hwritten hranges).1 (plainGroup
      [[.ref 1 .never .behind, .group [[.ref 1 ⟨2, 3⟩ .here], [.ref 1 .once .ahead]]
        ⟨1, Quantity.unlimited⟩ .here]])).mp rfl
  refine ⟨hwritten, hranges, ?_⟩
  injection htree with halternatives
  rwa [halternatives]

end Motif.Node
