import Motif.Proofs.Node.Parsing

/-!
# The grammar of patterns

What a pattern may look like and which tree it has, without regard to how it is read:

    group    := sequence ('|' sequence)*
    sequence := term+
    term     := [look] atom [quantifier]
    atom     := id | name | quoted | '(' group ')'
    look     := '<' | '>' | '^'

Whatever the grammar derives is parsed as the tree that the derivation builds.
-/

namespace Motif.Node

/-- What one scope knows another one knows, too. -/
structure Scope.Within (scope wider : Scope) : Prop where
  hasId : ∀ id, scope.hasId id = true → wider.hasId id = true
  idOf : ∀ text id, scope.idOf text = some id → wider.idOf text = some id

namespace Grammar

variable {scope : Scope} {name : Option String}

/-- The symbol refers to the pattern of an id. -/
inductive Resolves (scope : Scope) : Symbol → Int → Prop where
  | id {text : String} {id : Int}
      (hread : Quantity.readBound (Text.trim (text.toList.drop 1).dropLast) = .ok id)
      (hknown : scope.hasId id = true) : Resolves scope (.id text) id
  | name {text : String} {id : Int} (hknown : scope.idOf text = some id) :
      Resolves scope (.name text) id
  | quoted {text : String} {id : Int} (hknown : scope.idOf (Text.unquote text) = some id) :
      Resolves scope (.quoted text) id

theorem Resolves.widen {wider : Scope} (hwithin : scope.Within wider) {symbol : Symbol} {id : Int}
    (hresolves : Resolves scope symbol id) : Resolves wider symbol id := by
  cases hresolves with
  | id hread hknown => exact .id hread (hwithin.hasId _ hknown)
  | name hknown => exact .name (hwithin.idOf _ _ hknown)
  | quoted hknown => exact .quoted (hwithin.idOf _ _ hknown)

/-- The symbol is written like a reference. -/
def Refers : Symbol → Prop
  | .id _ | .name _ | .quoted _ => True
  | _ => False

/-- The symbol is a quantifier of this quantity; a range is not reversed. -/
inductive Quantifies : Symbol → Quantity → Prop where
  | mark (mark : QuantityMark) : Quantifies (.quantity mark) mark.quantity
  | range {text : String} {quantity : Quantity} (hread : Quantity.ofRange text = .ok quantity)
      (hordered : quantity.isUnlimited = true ∨ quantity.least ≤ quantity.most) :
      Quantifies (.range text) quantity

/-- An atom with the mark before it. What may not stand behind is a look behind for no
occurrence. -/
def marked (mark : Option LookMark) (atom : Node) : Node :=
  match mark with
  | none => atom
  | some .behind => atom.withLook .behind
  | some .ahead => atom.withLook .ahead
  | some .notBehind => (atom.withLook .behind).withQuantity .never

/-- What may not stand behind takes no quantifier, and a look behind takes none but `!` and the
ranges that mean the same. -/
structure Permits (mark : Option LookMark) (quantity : Quantity) : Prop where
  assertion : mark ≠ some .notBehind
  behind : mark = some .behind → quantity = .never

mutual

/-- The symbols are an atom. -/
inductive Atom (scope : Scope) : Node → List Symbol → Prop where
  | reference {symbol : Symbol} {id : Int} (hresolves : Resolves scope symbol id) :
      Atom scope (plainRef id) [symbol]
  | parens {alternatives : List (List Node)} {symbols : List Symbol}
      (hgroup : Group scope alternatives symbols) :
      Atom scope (plainGroup alternatives) (.opening :: symbols ++ [.closing])

/-- The symbols are an atom with a mark or none before it and a quantifier or none after it. -/
inductive Term (scope : Scope) : Node → List Symbol → Prop where
  | bare (mark : Option LookMark) {atom : Node} {symbols : List Symbol}
      (hatom : Atom scope atom symbols) :
      Term scope (marked mark atom) (mark.toList.map Symbol.look ++ symbols)
  | quantified {mark : Option LookMark} {atom : Node} {symbols : List Symbol} {quantifier : Symbol}
      {quantity : Quantity} (hatom : Atom scope atom symbols)
      (hquantifies : Quantifies quantifier quantity) (hpermits : Permits mark quantity) :
      Term scope ((marked mark atom).withQuantity quantity)
        (mark.toList.map Symbol.look ++ symbols ++ [quantifier])

/-- The symbols are one term after the other. -/
inductive Sequence (scope : Scope) : List Node → List Symbol → Prop where
  | one {node : Node} {symbols : List Symbol} (hterm : Term scope node symbols) :
      Sequence scope [node] symbols
  | more {node : Node} {nodes : List Node} {symbols others : List Symbol}
      (hterm : Term scope node symbols) (hrest : Sequence scope nodes others) :
      Sequence scope (node :: nodes) (symbols ++ others)

/-- The symbols are sequences with bars between them. -/
inductive Group (scope : Scope) : List (List Node) → List Symbol → Prop where
  | one {nodes : List Node} {symbols : List Symbol} (hsequence : Sequence scope nodes symbols) :
      Group scope [nodes] symbols
  | more {nodes : List Node} {alternatives : List (List Node)} {symbols others : List Symbol}
      (hsequence : Sequence scope nodes symbols) (hrest : Group scope alternatives others) :
      Group scope (nodes :: alternatives) (symbols ++ .bar :: others)

end

/-- An atom has neither a look nor a quantifier of its own. -/
theorem Atom.plain {atom : Node} {symbols : List Symbol} (hatom : Atom scope atom symbols) :
    atom.look = .here := by
  cases hatom <;> rfl

theorem Sequence.ne_nil {nodes : List Node} {symbols : List Symbol}
    (hsequence : Sequence scope nodes symbols) : nodes ≠ [] := by
  cases hsequence <;> exact List.cons_ne_nil _ _

theorem look_marked_eq_behind_iff {mark : Option LookMark} {atom : Node} (hatom : atom.look = .here)
    (hmark : mark ≠ some .notBehind) : (marked mark atom).look = .behind ↔ mark = some .behind := by
  cases mark with
  | none => simp [marked, hatom]
  | some mark => cases mark <;> cases atom <;> simp_all [marked, withLook, Node.look]

end Grammar

namespace Parser

open Grammar

/-- The mark that waits for its atom. -/
def OpenGroup.waiting (group : OpenGroup) : Option LookMark :=
  group.pending.map Prod.fst

theorem OpenGroup.push_eq (group : OpenGroup) (atom : Node) :
    group.push atom = { group with
      sequence := marked group.waiting atom :: group.sequence
      pending := none
      target := if group.waiting = some .notBehind then .assertion else .atom } := by
  obtain ⟨opening, finished, sequence, pending, target⟩ := group
  cases pending with
  | none => rfl
  | some pending =>
      obtain ⟨mark, position⟩ := pending
      cases mark <;> rfl

/-- The last alternative of a group may end here. -/
def OpenGroup.Ends (group : OpenGroup) : Prop :=
  group.pending = none ∧ group.sequence ≠ []

theorem checkEnd_eq_ok_iff {group : OpenGroup} {lexeme : Lexeme} :
    group.checkEnd name lexeme = .ok () ↔ group.Ends := by
  unfold OpenGroup.checkEnd OpenGroup.Ends
  split
  next mark position hpending => simp [blame, hpending]
  next hpending =>
    split
    next hempty => simp_all [blame]
    next hempty => simp_all

theorem resolve_eq_ok_iff (name : Option String) {lexeme : Lexeme}
    (hrefers : Refers lexeme.symbol) {id : Int} :
    resolve scope name lexeme = .ok id ↔ Resolves scope lexeme.symbol id := by
  obtain ⟨symbol, position⟩ := lexeme
  constructor
  · intro hresolve
    cases symbol with
    | id text =>
        obtain ⟨value, hread, hcheck⟩ := bind_eq_ok_iff.mp hresolve
        split at hcheck
        next hknown =>
          cases hcheck
          exact .id hread hknown
        next => cases hcheck
    | name text =>
        simp only [resolve] at hresolve
        split at hresolve
        next found hfound =>
          cases hresolve
          exact .name hfound
        next => cases hresolve
    | quoted text =>
        simp only [resolve] at hresolve
        split at hresolve
        next found hfound =>
          cases hresolve
          exact .quoted hfound
        next => cases hresolve
    | _ => exact hrefers.elim
  · intro hresolves
    cases hresolves with
    | id hread hknown =>
        simp only [resolve, hread]
        exact if_pos hknown
    | name hknown =>
        simp only [resolve, Symbol.text, hknown]
    | quoted hknown => simp only [resolve, hknown]

theorem refers_of_resolves {symbol : Symbol} {id : Int} (hresolves : Resolves scope symbol id) :
    Refers symbol := by
  cases hresolves <;> trivial

theorem quantityOf_eq_ok_iff (name : Option String) {lexeme : Lexeme}
    (hquantifier : (∃ text, lexeme.symbol = .range text) ∨ ∃ mark, lexeme.symbol = .quantity mark)
    {quantity : Quantity} :
    quantityOf name lexeme = .ok quantity ↔ Quantifies lexeme.symbol quantity := by
  obtain ⟨symbol, position⟩ := lexeme
  constructor
  · intro hquantity
    rcases hquantifier with ⟨text, rfl⟩ | ⟨mark, rfl⟩
    · obtain ⟨found, hread, hcheck⟩ := bind_eq_ok_iff.mp hquantity
      dsimp only at hcheck
      split at hcheck
      next => cases hcheck
      next hordered =>
        cases hcheck
        refine .range hread ?_
        by_cases hunlimited : quantity.isUnlimited = true
        · exact .inl hunlimited
        · refine .inr ?_
          simpa [hunlimited] using hordered
    · cases hquantity
      exact .mark mark
  · intro hquantifies
    cases hquantifies with
    | mark => rfl
    | @range text _ hread hordered =>
        have hcheck :
            ¬((!quantity.isUnlimited && decide (quantity.most < quantity.least)) = true) := by
          rcases hordered with hunlimited | hordered
          · simp [hunlimited]
          · simpa using fun _ => hordered
        simp only [quantityOf, Symbol.text, hread]
        exact if_neg hcheck

theorem quantify_eq_ok_iff (name : Option String) {progress : Progress} (lexeme : Lexeme)
    (hquantifier : (∃ text, lexeme.symbol = .range text) ∨ ∃ mark, lexeme.symbol = .quantity mark)
    {group : OpenGroup} : quantify name progress lexeme = .ok group ↔
      ∃ quantity atom sequence, Quantifies lexeme.symbol quantity ∧ progress.inner.pending = none ∧
        progress.inner.target = .atom ∧ progress.inner.sequence = atom :: sequence ∧
        (atom.look = .behind → quantity = .never) ∧ group = { progress.inner with
          sequence := atom.withQuantity quantity :: sequence
          target := .nothing } := by
  constructor
  · intro hquantify
    unfold quantify at hquantify
    dsimp only at hquantify
    split at hquantify
    next => cases hquantify
    next => cases hquantify
    next atom rest hpending htarget hsequence =>
      obtain ⟨quantity, hquantity, hcheck⟩ := bind_eq_ok_iff.mp hquantify
      split at hcheck
      next => cases hcheck
      next hbehind =>
        cases hcheck
        refine ⟨quantity, atom, rest, (quantityOf_eq_ok_iff name hquantifier).mp hquantity,
          hpending, htarget, hsequence, fun hlook => ?_, rfl⟩
        simpa [hlook] using hbehind
    next => split at hquantify <;> cases hquantify
  · rintro ⟨quantity, atom, sequence, hquantifies, hpending, htarget, hsequence, hbehind, rfl⟩
    have hquantity := (quantityOf_eq_ok_iff name hquantifier).mpr hquantifies
    have hcheck : ¬((decide (atom.look = .behind) && decide (quantity ≠ .never)) = true) := by
      simpa using hbehind
    simp only [quantify, hpending, htarget, hsequence, hquantity]
    exact if_neg hcheck

/-- What a lexeme makes of what has been read, if it may stand there. -/
inductive Advances (scope : Scope) (progress : Progress) (lexeme : Lexeme) : Progress → Prop where
  | opening (hsymbol : lexeme.symbol = .opening) :
      Advances scope progress lexeme {
        inner := { opening := lexeme }
        outer := progress.inner :: progress.outer
        previous := lexeme }
  | closing {around : OpenGroup} {outer : List OpenGroup} (hsymbol : lexeme.symbol = .closing)
      (hends : progress.inner.Ends) (houter : progress.outer = around :: outer) :
      Advances scope progress lexeme {
        inner := around.push progress.inner.toNode
        outer
        previous := lexeme }
  | bar (hsymbol : lexeme.symbol = .bar) (hends : progress.inner.Ends) :
      Advances scope progress lexeme { progress with
        inner := { progress.inner with
          finished := progress.inner.sequence.reverse :: progress.inner.finished
          sequence := []
          target := if progress.inner.target = .assertion then .assertion else .nothing }
        previous := lexeme }
  | look {mark : LookMark} (hsymbol : lexeme.symbol = .look mark)
      (hpending : progress.inner.pending = none) :
      Advances scope progress lexeme { progress with
        inner := { progress.inner with pending := some (mark, lexeme.position) }
        previous := lexeme }
  | quantifier {quantity : Quantity} {atom : Node} {sequence : List Node}
      (hquantifies : Quantifies lexeme.symbol quantity) (hpending : progress.inner.pending = none)
      (htarget : progress.inner.target = .atom)
      (hsequence : progress.inner.sequence = atom :: sequence)
      (hbehind : atom.look = .behind → quantity = .never) :
      Advances scope progress lexeme { progress with
        inner := { progress.inner with
          sequence := atom.withQuantity quantity :: sequence
          target := .nothing }
        previous := lexeme }
  | reference {id : Int} (hresolves : Resolves scope lexeme.symbol id) :
      Advances scope progress lexeme { progress with
        inner := progress.inner.push (plainRef id)
        previous := lexeme }

theorem advances_of_step {progress after : Progress} {lexeme : Lexeme}
    (hstep : step scope name progress lexeme = .ok after) :
    Advances scope progress lexeme after := by
  unfold step at hstep
  dsimp only at hstep
  split at hstep
  next hsymbol =>
    cases hstep
    exact .opening hsymbol
  next hsymbol =>
    obtain ⟨⟨⟩, hcheck, hstep⟩ := bind_eq_ok_iff.mp hstep
    split at hstep
    next => cases hstep
    next around outer houter =>
      cases hstep
      exact .closing hsymbol (checkEnd_eq_ok_iff.mp hcheck) houter
  next hsymbol =>
    obtain ⟨⟨⟩, hcheck, hstep⟩ := bind_eq_ok_iff.mp hstep
    cases hstep
    exact .bar hsymbol (checkEnd_eq_ok_iff.mp hcheck)
  next mark hsymbol =>
    split at hstep
    next => cases hstep
    next hpending =>
      cases hstep
      exact .look hsymbol hpending
  next text hsymbol =>
    obtain ⟨group, hquantify, hstep⟩ := bind_eq_ok_iff.mp hstep
    cases hstep
    obtain ⟨_, _, _, hquantifies, hpending, htarget, hsequence, hbehind, rfl⟩ :=
      (quantify_eq_ok_iff name lexeme (.inl ⟨text, hsymbol⟩)).mp hquantify
    exact .quantifier hquantifies hpending htarget hsequence hbehind
  next mark hsymbol =>
    obtain ⟨group, hquantify, hstep⟩ := bind_eq_ok_iff.mp hstep
    cases hstep
    obtain ⟨_, _, _, hquantifies, hpending, htarget, hsequence, hbehind, rfl⟩ :=
      (quantify_eq_ok_iff name lexeme (.inr ⟨mark, hsymbol⟩)).mp hquantify
    exact .quantifier hquantifies hpending htarget hsequence hbehind
  next hopening hclosing hbar hlook hrange hmark =>
    obtain ⟨id, hresolve, hstep⟩ := bind_eq_ok_iff.mp hstep
    cases hstep
    refine .reference ((resolve_eq_ok_iff name ?_).mp hresolve)
    cases hsymbol : lexeme.symbol <;> simp_all [Refers]

theorem step_of_advances {progress after : Progress} {lexeme : Lexeme}
    (hadvances : Advances scope progress lexeme after) :
    step scope name progress lexeme = .ok after := by
  obtain ⟨symbol, position⟩ := lexeme
  cases hadvances with
  | opening hsymbol =>
      cases hsymbol
      rfl
  | closing hsymbol hends houter =>
      cases hsymbol
      simp only [step, checkEnd_eq_ok_iff.mpr hends, houter]
      rfl
  | bar hsymbol hends =>
      cases hsymbol
      simp only [step, checkEnd_eq_ok_iff.mpr hends]
      rfl
  | look hsymbol hpending =>
      cases hsymbol
      simp only [step, hpending]
  | quantifier hquantifies hpending htarget hsequence hbehind =>
      cases hquantifies with
      | mark mark =>
          have hquantify := (quantify_eq_ok_iff name ⟨_, position⟩ (.inr ⟨mark, rfl⟩)).mpr
            ⟨_, _, _, .mark mark, hpending, htarget, hsequence, hbehind, rfl⟩
          simp only [step, hquantify]
          rfl
      | range hread hordered =>
          have hquantify := (quantify_eq_ok_iff name ⟨_, position⟩ (.inl ⟨_, rfl⟩)).mpr
            ⟨_, _, _, .range hread hordered, hpending, htarget, hsequence, hbehind, rfl⟩
          simp only [step, hquantify]
          rfl
  | reference hresolves =>
      have hresolve := (resolve_eq_ok_iff name (refers_of_resolves hresolves)).mpr hresolves
      cases hresolves <;>
        · simp only [step, hresolve]
          rfl

/-- A lexeme is read exactly if it may stand where it does. -/
theorem step_eq_ok_iff {progress after : Progress} {lexeme : Lexeme} :
    step scope name progress lexeme = .ok after ↔ Advances scope progress lexeme after :=
  ⟨advances_of_step, step_of_advances⟩

theorem Advances.widen {wider : Scope} {progress after : Progress} {lexeme : Lexeme}
    (hresolve : ∀ id, Resolves scope lexeme.symbol id → Resolves wider lexeme.symbol id)
    (hadvances : Advances scope progress lexeme after) : Advances wider progress lexeme after := by
  cases hadvances with
  | opening hsymbol => exact .opening hsymbol
  | closing hsymbol hends houter => exact .closing hsymbol hends houter
  | bar hsymbol hends => exact .bar hsymbol hends
  | look hsymbol hpending => exact .look hsymbol hpending
  | quantifier hquantifies hpending htarget hsequence hbehind =>
      exact .quantifier hquantifies hpending htarget hsequence hbehind
  | reference hresolves => exact .reference (hresolve _ hresolves)

/-- Lexemes are read alike where the patterns to which they refer are known, too. -/
theorem foldlM_step_widen {wider : Scope} {lexemes : List Lexeme} {progress after : Progress}
    (hresolve : ∀ lexeme ∈ lexemes, ∀ id, Resolves scope lexeme.symbol id →
      Resolves wider lexeme.symbol id)
    (hread : lexemes.foldlM (step scope name) progress = .ok after) :
    lexemes.foldlM (step wider name) progress = .ok after := by
  induction lexemes generalizing progress with
  | nil =>
      cases hread
      rfl
  | cons lexeme rest ih =>
      rw [List.foldlM_cons] at hread ⊢
      obtain ⟨middle, hstep, hrest⟩ := bind_eq_ok_iff.mp hread
      obtain ⟨hfirst, hothers⟩ := List.forall_mem_cons.mp hresolve
      refine bind_eq_ok_iff.mpr ⟨middle, ?_, ih hothers hrest⟩
      exact step_eq_ok_iff.mpr ((step_eq_ok_iff.mp hstep).widen hfirst)

theorem feeds_of_advances {symbol : Symbol} {progress : Progress} {property : Progress → Prop}
    (hadvances : ∀ position, ∃ after, Advances scope progress ⟨symbol, position⟩ after ∧
      property after) : Feeds scope name [symbol] progress property := by
  apply Feeds.step
  intro position
  obtain ⟨after, hafter, hproperty⟩ := hadvances position
  exact ⟨after, step_eq_ok_iff.mpr hafter, hproperty⟩

/-- After a mark and an atom, the sequence of the group has one node more. -/
theorem feeds_marked {progress : Progress} (hpending : progress.inner.pending = none)
    (mark : Option LookMark) {atom : Node} {symbols : List Symbol}
    (hatom : ∀ between, Feeds scope name symbols between (Pushes between atom)) :
    Feeds scope name (mark.toList.map Symbol.look ++ symbols) progress fun after =>
      after.inner = { progress.inner with
        sequence := marked mark atom :: progress.inner.sequence
        target := if mark = some .notBehind then .assertion else .atom } ∧
      after.outer = progress.outer ∧ after.previous.isSome := by
  have hmark : Feeds scope name (mark.toList.map Symbol.look) progress fun between =>
      (∃ pending, between.inner = { progress.inner with pending }) ∧ between.inner.waiting = mark ∧
        between.outer = progress.outer := by
    cases mark with
    | none =>
        apply Feeds.nil
        exact ⟨⟨progress.inner.pending, rfl⟩, by simp [OpenGroup.waiting, hpending], rfl⟩
    | some mark =>
        exact feeds_of_advances fun position => ⟨_, .look rfl hpending, ⟨_, rfl⟩, rfl, rfl⟩
  apply hmark.append
  rintro between ⟨⟨pending, hinner⟩, hwaiting, houter⟩
  apply (hatom between).mono
  rintro after ⟨hpushed, hsame, hprevious⟩
  refine ⟨?_, hsame.trans houter, hprevious⟩
  rw [hpushed, OpenGroup.push_eq, hwaiting, hinner, ← hpending]

end Parser

namespace Grammar

open Node.Parser (Feeds Pushes Reaches Completes feeds_parens feeds_of_advances feeds_marked)

/-- What is a group fills a new group. The induction goes over the whole derivation: an atom is
added to the innermost group wherever it stands, terms and sequences where no look waits. -/
theorem Group.feeds {alternatives : List (List Node)} {symbols : List Symbol}
    (hgroup : Group scope alternatives symbols) (progress : Parser.Progress)
    (hpending : progress.inner.pending = none) (hstart : progress.inner.sequence = []) :
    Feeds scope name symbols progress (Completes progress alternatives) := by
  refine @Group.rec scope
    (fun atom symbols _ => ∀ progress, Feeds scope name symbols progress (Pushes progress atom))
    (fun node symbols _ => ∀ progress : Parser.Progress, progress.inner.pending = none →
      Feeds scope name symbols progress
        (Reaches progress { progress.inner with sequence := node :: progress.inner.sequence }))
    (fun nodes symbols _ => ∀ progress : Parser.Progress, progress.inner.pending = none →
      Feeds scope name symbols progress
        (Reaches progress { progress.inner with
          sequence := nodes.reverse ++ progress.inner.sequence }))
    (fun alternatives symbols _ => ∀ progress : Parser.Progress, progress.inner.pending = none →
      progress.inner.sequence = [] →
        Feeds scope name symbols progress (Completes progress alternatives))
    ?reference ?parens ?bare ?quantified ?term ?terms ?sequence ?sequences
    alternatives symbols hgroup progress hpending hstart
  case reference =>
    intro symbol id hresolves progress
    exact feeds_of_advances fun position => ⟨_, .reference hresolves, rfl, rfl, rfl⟩
  case parens =>
    intro alternatives symbols _ ihgroup progress
    exact feeds_parens progress ihgroup
  case bare =>
    intro mark atom symbols _ ihatom progress hpending
    apply (feeds_marked hpending mark ihatom).mono
    rintro after ⟨hinner, houter, hprevious⟩
    exact ⟨⟨_, hinner⟩, houter, hprevious⟩
  case quantified =>
    intro mark atom symbols quantifier quantity hatom hquantifies hpermits ihatom progress hpending
    apply (feeds_marked hpending mark ihatom).append
    rintro between ⟨hinner, houter, -⟩
    rw [if_neg hpermits.assertion] at hinner
    have hclear : between.inner.pending = none := by rw [hinner, hpending]
    have htarget : between.inner.target = .atom := by rw [hinner]
    have hsequence : between.inner.sequence = marked mark atom :: progress.inner.sequence := by
      rw [hinner]
    have hbehind : (marked mark atom).look = .behind → quantity = .never := fun hlook =>
      hpermits.behind ((look_marked_eq_behind_iff hatom.plain hpermits.assertion).mp hlook)
    apply feeds_of_advances
    intro position
    refine ⟨_, .quantifier hquantifies hclear htarget hsequence hbehind, ⟨.nothing, ?_⟩, houter,
      rfl⟩
    rw [hinner]
  case term =>
    intro node symbols _ ihterm
    exact ihterm
  case terms =>
    intro node nodes symbols others _ _ ihterm ihrest progress hpending
    apply (ihterm progress hpending).append
    rintro between ⟨⟨point, hinner⟩, houter, -⟩
    apply (ihrest between (by rw [hinner, hpending])).mono
    rintro after ⟨⟨target, hinside⟩, haround, hprevious⟩
    refine ⟨⟨target, ?_⟩, haround.trans houter, hprevious⟩
    rw [hinside, hinner]
    simp
  case sequence =>
    intro nodes symbols hsequence ihsequence progress hpending hstart
    exact (ihsequence progress hpending).mono fun after hafter =>
      hafter.completes hpending hstart hsequence.ne_nil
  case sequences =>
    intro nodes alternatives symbols others hsequence _ ihsequence ihrest progress hpending hstart
    apply (ihsequence progress hpending).append
    intro between hbetween
    exact (hbetween.completes hpending hstart hsequence.ne_nil).feeds_bar ihrest

end Grammar

/-- Whatever the grammar derives is parsed as the tree of the derivation. -/
theorem ofLexemes_of_group (name : Option String) {alternatives : List (List Node)}
    {lexemes : List Lexeme}
    (hgroup : Grammar.Group scope alternatives (lexemes.map Lexeme.symbol)) :
    ofLexemes scope lexemes name = .ok (plainGroup alternatives) := by
  exact ofLexemes_of_feeds (hgroup.feeds {} rfl rfl) rfl

end Motif.Node
