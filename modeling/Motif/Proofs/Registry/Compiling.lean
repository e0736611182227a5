import Motif.Proofs.Node.Acceptance
import Motif.Proofs.Node.Spelling
import Motif.Registry.Compile

/-!
# Compiled trees

Every tree that is compiled from a text is canonical: it has no empty sequences and no groups that
mean nothing, its quantifiers can be written, and inside its looks behind nothing is decorated. And
whatever is legible and refers to known patterns can be compiled.
-/

namespace Motif

namespace Node

/-- What a parser builds: full groups, quantifiers and looks that can be written, and references to
known patterns. -/
structure Parsed (known : Int → Prop) (node : Node) : Prop where
  full : Everywhere IsFull node
  allowed : Everywhere IsAllowed node
  known : ∀ id ∈ node.references, known id

namespace Parsed

variable {known : Int → Prop}

theorem plainRef {id : Int} (hid : known id) : Parsed known (plainRef id) where
  full := everywhere_ref_iff.mpr trivial
  allowed := everywhere_ref_iff.mpr (Phrase.allowed_here Quantity.legal_once)
  known := by
    intro other hother
    obtain rfl : other = id := by simpa [Node.plainRef] using hother
    exact hid

theorem plainGroup {alternatives : List (List Node)}
    (hfull : alternatives ≠ [] ∧ ∀ sequence ∈ alternatives, sequence ≠ [])
    (hnodes : ∀ sequence ∈ alternatives, ∀ node ∈ sequence, Parsed known node) :
    Parsed known (plainGroup alternatives) where
  full := everywhere_group_iff.mpr ⟨hfull, fun sequence hsequence node hnode =>
    (hnodes sequence hsequence node hnode).full⟩
  allowed := everywhere_group_iff.mpr ⟨Phrase.allowed_here Quantity.legal_once,
    fun sequence hsequence node hnode => (hnodes sequence hsequence node hnode).allowed⟩
  known := by
    intro id hid
    obtain ⟨sequence, hsequence, node, hnode, hid⟩ := mem_references_group.mp hid
    exact (hnodes sequence hsequence node hnode).known id hid

/-- Another quantity and look that can be written leave a parsed node parsed. -/
theorem decorate {node : Node} (hnode : Parsed known node) {quantity : Quantity} {look : Look}
    (hallowed : Phrase.Allowed quantity look) :
    Parsed known ((node.withLook look).withQuantity quantity) := by
  obtain ⟨hfull, hinside, hknown⟩ := hnode
  cases node with
  | ref id _ _ =>
      exact ⟨everywhere_ref_iff.mpr trivial, everywhere_ref_iff.mpr hallowed, hknown⟩
  | group alternatives _ _ =>
      obtain ⟨hfullness, hfull⟩ := everywhere_group_iff.mp hfull
      obtain ⟨-, hinside⟩ := everywhere_group_iff.mp hinside
      exact ⟨everywhere_group_iff.mpr ⟨hfullness, hfull⟩,
        everywhere_group_iff.mpr ⟨hallowed, hinside⟩, hknown⟩

theorem withLook {node : Node} (hnode : Parsed known node) (hplain : node.quantity = .once)
    (look : Look) : Parsed known (node.withLook look) := by
  have hself : (node.withLook look).withQuantity .once = node.withLook look := by
    rw [← hplain]
    cases node <;> rfl
  rw [← hself]
  exact hnode.decorate ⟨Quantity.legal_once, fun _ => .inl rfl⟩

theorem withQuantity {node : Node} (hnode : Parsed known node) {quantity : Quantity}
    (hallowed : Phrase.Allowed quantity node.look) : Parsed known (node.withQuantity quantity) := by
  have hself : node.withLook node.look = node := by
    cases node <;> rfl
  have hdecorated := hnode.decorate hallowed
  rwa [hself] at hdecorated

end Parsed

namespace Parser

variable {known : Int → Prop} {scope : Scope} {name : Option String}

/-- What has been read of a group is parsed. -/
structure OpenGroup.Sound (known : Int → Prop) (group : OpenGroup) : Prop where
  finished : ∀ sequence ∈ group.finished, sequence ≠ [] ∧ ∀ node ∈ sequence, Parsed known node
  sequence : ∀ node ∈ group.sequence, Parsed known node

/-- What has been read is parsed. -/
structure Progress.Sound (known : Int → Prop) (progress : Progress) : Prop where
  inner : progress.inner.Sound known
  outer : ∀ group ∈ progress.outer, group.Sound known

theorem OpenGroup.Sound.toNode {group : OpenGroup} (hgroup : group.Sound known)
    (hsequence : group.sequence ≠ []) : Parsed known group.toNode := by
  have hall : ∀ sequence ∈ (group.sequence.reverse :: group.finished).reverse,
      sequence ≠ [] ∧ ∀ node ∈ sequence, Parsed known node := by
    intro sequence hmem
    rcases List.mem_cons.mp (List.mem_reverse.mp hmem) with rfl | hmem
    · exact ⟨by simpa using hsequence, fun node hnode =>
        hgroup.sequence node (List.mem_reverse.mp hnode)⟩
    · exact hgroup.finished sequence hmem
  exact .plainGroup ⟨by simp, fun sequence hmem => (hall sequence hmem).1⟩
    fun sequence hmem => (hall sequence hmem).2

theorem OpenGroup.Sound.push {group : OpenGroup} (hgroup : group.Sound known) {atom : Node}
    (hatom : Parsed known atom) (hplain : atom.quantity = .once) :
    (group.push atom).Sound known := by
  have hextend : ∀ node, Parsed known node →
      ∀ other ∈ node :: group.sequence, Parsed known other := by
    intro node hnode other hother
    rcases List.mem_cons.mp hother with rfl | hother
    · exact hnode
    · exact hgroup.sequence other hother
  unfold OpenGroup.push
  split
  next => exact ⟨hgroup.finished, hextend _ hatom⟩
  next mark _ _ =>
    split
    next =>
      exact ⟨hgroup.finished,
        hextend _ (hatom.decorate ⟨Quantity.legal_never, fun _ => .inr rfl⟩)⟩
    next => exact ⟨hgroup.finished, hextend _ (hatom.withLook hplain _)⟩

theorem legal_quantity (mark : QuantityMark) : mark.quantity.Legal := by
  cases mark with
  | never => exact Quantity.legal_never
  | optional => exact ⟨Quantity.isShort_zero, .inr ⟨Int.one_nonneg, Quantity.isShort_one⟩⟩
  | many => exact Quantity.legal_unlimited Quantity.isShort_zero
  | some => exact Quantity.legal_unlimited Quantity.isShort_one

theorem legal_of_quantifies {symbol : Symbol} (hmodest : Lexeme.IsModest symbol)
    {quantity : Quantity} (hquantifies : Grammar.Quantifies symbol quantity) : quantity.Legal := by
  cases hquantifies with
  | mark mark => exact legal_quantity mark
  | range hread hordered => exact Quantity.legal_of_ofRange (hmodest.range _ rfl) hread hordered

theorem known_of_resolves (hid : ∀ id, 0 ≤ id → id < 10 ^ 9 → scope.hasId id = true → known id)
    (hname : ∀ text id, scope.idOf text = some id → known id) {symbol : Symbol}
    (hmodest : Lexeme.IsModest symbol) {id : Int} (hresolves : Grammar.Resolves scope symbol id) :
    known id := by
  cases hresolves with
  | @id text _ hread hhas =>
      obtain ⟨hsign, hfew⟩ := hmodest.id text rfl
      have hsub : (Text.trim (text.toList.drop 1).dropLast).Sublist text.toList :=
        (Text.infix_trimWhere _ _).sublist.trans
          ((List.dropLast_sublist _).trans (List.drop_sublist _ _))
      obtain ⟨hnonneg, hlt⟩ := Quantity.lt_of_readBound hread
        fun hmem => List.count_eq_zero.mp hsign (hsub.mem hmem)
      refine hid _ hnonneg (Int.lt_of_lt_of_le hlt ?_) hhas
      exact_mod_cast Nat.pow_le_pow_right (by decide) (Nat.le_trans hsub.countP_le hfew)
  | name hknown => exact hname _ _ hknown
  | quoted hknown => exact hname _ _ hknown

/-- Reading a lexeme keeps what has been read parsed. -/
theorem sound_step (hid : ∀ id, 0 ≤ id → id < 10 ^ 9 → scope.hasId id = true → known id)
    (hname : ∀ text id, scope.idOf text = some id → known id) {progress after : Progress}
    (hprogress : progress.Sound known) {lexeme : Lexeme} (hmodest : Lexeme.IsModest lexeme.symbol)
    (hstep : step scope name progress lexeme = .ok after) : after.Sound known := by
  cases step_eq_ok_iff.mp hstep with
  | opening hsymbol =>
      refine ⟨⟨by simp, by simp⟩, ?_⟩
      intro group hgroup
      rcases List.mem_cons.mp hgroup with rfl | hgroup
      · exact hprogress.inner
      · exact hprogress.outer group hgroup
  | closing hsymbol hends houter =>
      have hgroups := hprogress.outer
      rw [houter] at hgroups
      have hatom := hprogress.inner.toNode hends.2
      exact ⟨(hgroups _ List.mem_cons_self).push hatom rfl, fun group hgroup =>
        hgroups group (List.mem_cons_of_mem _ hgroup)⟩
  | bar hsymbol hends =>
      refine ⟨⟨?_, by simp⟩, hprogress.outer⟩
      intro sequence hsequence
      rcases List.mem_cons.mp hsequence with rfl | hsequence
      · exact ⟨by simpa using hends.2, fun node hnode =>
          hprogress.inner.sequence node (List.mem_reverse.mp hnode)⟩
      · exact hprogress.inner.finished sequence hsequence
  | look hsymbol hpending =>
      exact ⟨⟨hprogress.inner.finished, hprogress.inner.sequence⟩, hprogress.outer⟩
  | @quantifier quantity atom rest hquantifies hpending htarget hsequence hbehind =>
      refine ⟨⟨hprogress.inner.finished, ?_⟩, hprogress.outer⟩
      have hnodes := hprogress.inner.sequence
      rw [hsequence] at hnodes
      intro node hnode
      rcases List.mem_cons.mp hnode with rfl | hnode
      · exact (hnodes atom List.mem_cons_self).withQuantity
          ⟨legal_of_quantifies hmodest hquantifies, fun hlook => .inr (hbehind hlook)⟩
      · exact hnodes node (List.mem_cons_of_mem _ hnode)
  | reference hresolves =>
      have hknown := known_of_resolves hid hname hmodest hresolves
      exact ⟨hprogress.inner.push (.plainRef hknown) rfl, hprogress.outer⟩

theorem sound_foldlM (hid : ∀ id, 0 ≤ id → id < 10 ^ 9 → scope.hasId id = true → known id)
    (hname : ∀ text id, scope.idOf text = some id → known id) {lexemes : List Lexeme}
    (hmodest : ∀ lexeme ∈ lexemes, Lexeme.IsModest lexeme.symbol) {progress after : Progress}
    (hprogress : progress.Sound known)
    (hread : lexemes.foldlM (step scope name) progress = .ok after) : after.Sound known := by
  -- What is sound is the whole stack of open groups, not the tree, which is there only at the end.
  induction lexemes generalizing progress with
  | nil =>
      cases hread
      exact hprogress
  | cons lexeme rest ih =>
      rw [List.foldlM_cons] at hread
      obtain ⟨middle, hstep, hrest⟩ := bind_eq_ok_iff.mp hread
      refine ih (fun other hother => hmodest other (List.mem_cons_of_mem _ hother)) ?_ hrest
      exact sound_step hid hname hprogress (hmodest lexeme List.mem_cons_self) hstep

end Parser

/-- A parsed tree is a plain group of what has been read. -/
theorem parsed_ofLexemes {known : Int → Prop} {scope : Scope} {name : Option String}
    (hid : ∀ id, 0 ≤ id → id < 10 ^ 9 → scope.hasId id = true → known id)
    (hname : ∀ text id, scope.idOf text = some id → known id) {lexemes : List Lexeme}
    (hmodest : ∀ lexeme ∈ lexemes, Lexeme.IsModest lexeme.symbol) {root : Node}
    (hread : ofLexemes scope lexemes name = .ok root) :
    ∃ alternatives, root = plainGroup alternatives ∧ Parsed known root := by
  obtain ⟨progress, hfold, hfinish⟩ := bind_eq_ok_iff.mp hread
  have hsound := Parser.sound_foldlM hid hname hmodest ⟨⟨by simp, by simp⟩, by simp⟩ hfold
  obtain ⟨hends, -, rfl⟩ := Parser.finish_eq_ok hfinish
  exact ⟨_, rfl, hsound.inner.toNode hends.2⟩

/-- The alternatives of a tree as it is compiled. -/
structure Canonical (alternatives : List (List Node)) : Prop where
  full : Everywhere IsFull (plainGroup alternatives)
  tight : Everywhere IsTight (plainGroup alternatives)
  allowed : Everywhere IsAllowed (plainGroup alternatives)
  behind : Everywhere LooksBehindPlainly (plainGroup alternatives)
  unwrapped : unwrap alternatives = alternatives

theorem unwrap_unwrap (alternatives : List (List Node)) :
    unwrap (unwrap alternatives) = unwrap alternatives := by
  induction alternatives using unwrap.induct with
  | case1 inner ih => rw [unwrap, ih]
  | case2 alternatives hother => rw [unwrap.eq_2 _ hother, unwrap.eq_2 _ hother]

/-- What is left of a tree that is reduced and unwrapped is full, tight and allowed. -/
theorem reduced_unwrap {alternatives : List (List Node)}
    (hfull : Everywhere IsFull (plainGroup alternatives))
    (hallowed : Everywhere IsAllowed (plainGroup alternatives)) :
    Everywhere IsFull (plainGroup (unwrap (reduceAlternatives alternatives))) ∧
      Everywhere IsTight (plainGroup (unwrap (reduceAlternatives alternatives))) ∧
      Everywhere IsAllowed (plainGroup (unwrap (reduceAlternatives alternatives))) := by
  rw [← reduceRoot_plainGroup]
  exact ⟨everywhere_reduceRoot (isFull_reduce hfull), everywhere_reduceRoot (isTight_reduce _),
    everywhere_reduceRoot (everywhere_reduce_of_decoration Phrase.Allowed hallowed)⟩

end Node

theorem eq_ok_of_mapError {α ε ι : Type} {change : ε → ι} {result : Except ε α} {value : α}
    (hresult : result.mapError change = .ok value) : result = .ok value := by
  cases result with
  | error fault => cases hresult
  | ok found =>
      cases hresult
      rfl

namespace Registry

open Node (Canonical Everywhere Parsed plainGroup unwrap)

variable {scope : Node.Scope} {text : String} {name : Option String}

/-- Compiled trees are canonical, and their references are known. -/
theorem canonical_of_compileTree (known : Int → Prop)
    (hid : ∀ id, 0 ≤ id → id < 10 ^ 9 → scope.hasId id = true → known id)
    (hname : ∀ text id, scope.idOf text = some id → known id) {root : Node}
    (hcompile : compileTree scope text name = .ok root) :
    ∃ alternatives, root = plainGroup alternatives ∧ Canonical alternatives ∧
      ∀ id ∈ root.references, known id := by
  obtain ⟨lexemes, hlexemes, hcompile⟩ := bind_eq_ok_iff.mp hcompile
  obtain ⟨parsed, hparsed, hcheck⟩ := bind_eq_ok_iff.mp hcompile
  have hread := eq_ok_of_mapError hlexemes
  obtain ⟨alternatives, rfl, hfull, hallowed, hknown⟩ := Node.parsed_ofLexemes hid hname
    (Lexeme.isModest_of_mem_readFrom hread) hparsed
  dsimp only at hcheck
  split at hcheck
  next => cases hcheck
  next hbehind =>
    cases hcheck
    obtain ⟨hfull, htight, hallowed⟩ := Node.reduced_unwrap hfull hallowed
    refine ⟨unwrap (Node.reduceAlternatives alternatives), Node.reduceRoot_plainGroup alternatives,
      ⟨hfull, htight, hallowed, ?_, Node.unwrap_unwrap _⟩, fun id hid => hknown id ?_⟩
    · rw [Node.reduceRoot_plainGroup] at hbehind
      exact Node.lookBehindFault?_eq_none_iff.mp hbehind
    · exact Node.mem_references_reduceRoot.mp hid

/-- A text with the lexemes of readable alternatives is compiled to the reduced tree of their
phrases. -/
theorem compileTree_of_readsAs {target : Symbol → Int} {alternatives : List (List Phrase)}
    (hreadable : Phrase.Readable alternatives)
    (hresolve : ∀ sequence ∈ alternatives, ∀ phrase ∈ sequence, ∀ symbol,
      Phrase.Mentions symbol phrase →
        ∀ position, Node.Parser.resolve scope name ⟨symbol, position⟩ = .ok (target symbol))
    (hbehind : ∀ sequence ∈ alternatives, ∀ phrase ∈ sequence,
      Everywhere Node.LooksBehindPlainly (phrase.tree target))
    (hreads : Lexeme.ReadsAs text.toList
      ([Symbol.bar].intercalate (Phrase.symbolsOfAlternatives alternatives)) []) :
    compileTree scope text name =
      .ok (plainGroup (Phrase.treesOfAlternatives target alternatives)).reduceRoot := by
  obtain ⟨lexemes, hread, hsymbols⟩ := Lexeme.exists_read hreads name
  have hparse := Node.ofLexemes_symbols scope name hreadable.nonempty
    hreadable.full hreadable.legible hresolve hsymbols
  have hplain : Everywhere Node.LooksBehindPlainly
      (plainGroup (Phrase.treesOfAlternatives target alternatives)) := by
    refine Node.everywhere_group_iff.mpr ⟨trivial, ?_⟩
    intro sequence hsequence node hnode
    obtain ⟨phrases, hphrases, phrase, hphrase, rfl⟩ :=
      Phrase.exists_of_mem_treesOfAlternatives hsequence hnode
    exact hbehind phrases hphrases phrase hphrase
  have hnone : (plainGroup (Phrase.treesOfAlternatives target
      alternatives)).reduceRoot.lookBehindFault? = none := by
    have hreduced := Node.everywhere_reduceRoot (Node.looksBehindPlainly_reduce hplain)
    rw [Node.reduceRoot_plainGroup] at hreduced ⊢
    exact Node.lookBehindFault?_eq_none_iff.mpr hreduced
  unfold compileTree
  rw [hread]
  change (do let parsed ← Node.ofLexemes scope lexemes name; _) = _
  rw [hparse]
  simp only [bind, Except.bind, hnone]
  rfl

/-- The text of readable alternatives is compiled to the reduced tree of their phrases. -/
theorem compileTree_textOf {target : Symbol → Int} {alternatives : List (List Phrase)}
    (hreadable : Phrase.Readable alternatives)
    (hresolve : ∀ sequence ∈ alternatives, ∀ phrase ∈ sequence, ∀ symbol,
      Phrase.Mentions symbol phrase →
        ∀ position, Node.Parser.resolve scope name ⟨symbol, position⟩ = .ok (target symbol))
    (hbehind : ∀ sequence ∈ alternatives, ∀ phrase ∈ sequence,
      Everywhere Node.LooksBehindPlainly (phrase.tree target)) :
    compileTree scope (Phrase.textOf alternatives) name =
      .ok (plainGroup (Phrase.treesOfAlternatives target alternatives)).reduceRoot :=
  compileTree_of_readsAs hreadable hresolve hbehind
    (Lexeme.readsAs_textOf hreadable.legible Lexeme.breaks_nil)

end Registry

end Motif
