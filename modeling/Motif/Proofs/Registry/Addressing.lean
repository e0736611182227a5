import Motif.Proofs.Registry.Freshness
import Motif.Proofs.Registry.Legality
import Motif.Proofs.Training.Storing

/-!
# Addressing patterns

Whatever has been asked of a registry, its patterns are found by their ids and their names. So the
identity of a registered pattern leads back to it: as a text of its own it is compiled to nothing
but a reference to the pattern, and within a longer text it is one lexeme. Excepted is what cannot
be read as a reference: an empty name, a plain word with a line feed behind it, and the id of a
nameless pattern if it has more than nine digits.
-/

namespace Motif

namespace Lexeme

open Text (isBlank isWordChar)

/-- A character that may stand behind a reference: a blank, a bar, a closing parenthesis, or the
first one of a quantifier. -/
def FollowsReference (c : Char) : Prop :=
  isBlank c = true ∨ c ∈ ['|', ')', '!', '?', '*', '+', '{']

instance (c : Char) : Decidable (FollowsReference c) :=
  inferInstanceAs (Decidable (_ ∨ _))

theorem isBlank_eq_false_of_isWordChar {c : Char} (hc : isWordChar c = true) :
    isBlank c = false := by
  simp only [isWordChar, Char.isAlphanum, Bool.or_eq_true, decide_eq_true_eq] at hc
  rcases hc with ((halpha | hdigit) | rfl) | rfl
  · obtain ⟨hlow, hhigh⟩ := toNat_bounds_of_isAlpha halpha
    exact Text.isBlank_eq_false_of_ascii (by omega) (by omega)
  · exact Text.isBlank_eq_false_of_isDigit hdigit
  · decide
  · decide

theorem FollowsReference.breaks {c : Char} (hc : FollowsReference c) (rest : List Char) :
    Breaks (c :: rest) := by
  rcases hc with hblank | hmark
  · refine breaks_cons ?_ ?_ rest
    · by_contra hword
      rw [Bool.not_eq_false] at hword
      rw [isBlank_eq_false_of_isWordChar hword] at hblank
      cases hblank
    · rintro rfl
      exact absurd hblank (by decide)
  · simp only [List.mem_cons, List.not_mem_nil, or_false] at hmark
    rcases hmark with rfl | rfl | rfl | rfl | rfl | rfl | rfl <;>
      exact breaks_cons (by decide) (by decide) rest

/-- Read from its start, a text is these lexemes up to a place in it, and reading goes on there. -/
def ReadsUpTo (name : Option String) (front : List Char) (lexemes : List Lexeme)
    (rest : List Char) : Prop :=
  readFrom name 0 0 (front ++ rest) = (readFrom name front.length 0 rest).map (lexemes ++ ·)

variable {name : Option String} {front rest : List Char} {lexemes : List Lexeme}

theorem readsUpTo_nil (name : Option String) (rest : List Char) : ReadsUpTo name [] [] rest := by
  rw [ReadsUpTo, List.nil_append]
  cases readFrom name 0 0 rest <;> rfl

theorem ReadsUpTo.symbol {symbol : Symbol}
    (hfront : ReadsUpTo name front lexemes (symbol.text.toList ++ rest))
    (hsymbol : IsReadBefore symbol rest) :
    ReadsUpTo name (front ++ symbol.text.toList) (lexemes ++ [⟨symbol, front.length⟩]) rest := by
  rw [ReadsUpTo, List.append_assoc, hfront, hsymbol.readFrom_eq, List.length_append]
  cases readFrom name (front.length + symbol.text.toList.length) 0 rest <;> simp [Except.map]

/-- No lexeme starts with an id of more than nine digits. -/
theorem symbolAt?_of_long {n : Nat} (hn : 10 ^ 9 ≤ n) :
    symbolAt? '[' (Nat.toDigits 10 n ++ [']']) = none := by
  have hends : EndsNumber [']'] := by
    intro c hc
    obtain rfl : ']' = c := by simpa using hc
    decide
  have hlong : ¬ (Nat.toDigits 10 n).length ≤ 9 := fun hshort =>
    absurd hn (Nat.not_le.mpr ((Nat.length_toDigits_le_iff (by decide) (by decide)).mp hshort))
  have hlength : idLength? (Nat.toDigits 10 n ++ [']']) = none := by
    simp [idLength?, numberLength?_toDigits n hends, spanLength_isBlank_toDigits, hlong]
  rw [symbolAt?, if_neg (by decide), if_pos rfl, hlength]
  rfl

end Lexeme

namespace Pattern

variable {pattern : Pattern}

/-- The pattern cannot be referred to by its identity: its name is empty, or it has none and more
than nine digits in its id. -/
def IsBeyondReference (pattern : Pattern) : Prop :=
  pattern.name = some "" ∨ pattern.name = none ∧ 10 ^ 9 ≤ pattern.id

/-- The identity of a nameless pattern is its id in brackets. -/
theorem toList_identity_of_nameless (hname : pattern.name = none) {identity : String}
    (hidentity : pattern.identity = .ok identity) :
    identity.toList = '[' :: (Nat.toDigits 10 pattern.id.toNat ++ [']']) := by
  rw [Pattern.identity, hname] at hidentity
  dsimp only at hidentity
  split at hidentity
  next hnonneg =>
    obtain ⟨written, hwritten, hidentity⟩ := bind_eq_ok_iff.mp hidentity
    cases hidentity
    rw [writeId] at hwritten
    split at hwritten
    next =>
      cases hwritten
      simp [Lexeme.toList_repr_of_nonneg hnonneg]
    next => cases hwritten
  next => cases hidentity

end Pattern

namespace Registry

open Node (plainGroup plainRef)
open Lexeme (FollowsReference ReadsUpTo)

variable {registry after : Registry} {pattern : Pattern}

/-! ## What is asked -/

/-- Whatever is asked of a registry, it only stores. -/
theorem storing_pose (question : Question) : Storing question.pose := by
  cases question with
  | fullDescription serial =>
      refine .read fun registry => ?_
      split
      next pattern _ => exact (storing_fullDescription serial pattern).discard
      next => exact .pure trivial
  | describe pattern => exact (storing_describeFully none pattern).discard
  | equivalent serial =>
      refine .read fun registry => ?_
      split
      next pattern _ => exact (storing_equivalent? pattern (some serial)).discard
      next => exact .pure trivial
  | equivalentOf pattern => exact (storing_equivalent? pattern none).discard
  | existsEquivalent text => exact (storing_existsEquivalent text).discard

/-! ## What is found -/

/-- Every registered pattern is found by its id, and by its name if it has one. -/
structure Findable (registry : Registry) : Prop extends Numbered registry where
  named : registry.Named

theorem findable_empty : Findable {} :=
  { consistent_empty.numbered with named := consistent_empty.named }

namespace Findable

variable (hfindable : registry.Findable)
include hfindable

theorem onlyStores (hstores : registry.OnlyStores after) : after.Findable where
  toNumbered := hstores.numbered hfindable.toNumbered
  named := by
    rw [hstores]
    exact hfindable.named

theorem keeps_storing {α : Type} {action : Action α} (hstoring : Storing action) :
    KeepsFrom Findable registry action :=
  hfindable.onlyStores (hstoring.onlyStores rfl)

theorem extend (hfree : registry.Free pattern) :
    (registry.extend { pattern with id := registry.idFor pattern }).Findable where
  toNumbered := hfindable.toNumbered.extend (hfindable.idFor_nonneg pattern)
    (hfindable.serialOf?_idFor hfree)
  named := hfindable.named.extend hfindable.coherent hfree.name

theorem kept (pattern : Pattern) :
    Findable { registry with ledger := registry.ledger.push pattern } := by
  -- The registered patterns stay where they are in the ledger.
  have hsame : ∀ {id serial}, (id, serial) ∈ registry.entries →
      Registry.pattern? { registry with ledger := registry.ledger.push pattern } serial =
        registry.pattern? serial := fun {id serial} hentry => by
    have hlt := hfindable.coherent.serial_lt hentry
    simp only [Registry.pattern?, Array.getElem?_push, if_neg (Nat.ne_of_lt hlt)]
  refine { hfindable with
    coherent := ⟨hfindable.coherent.nodup_ids, fun hentry => ?_⟩, named := ?_ }
  · rw [hsame hentry]
    exact hfindable.coherent.exists_pattern hentry
  · intro id serial found hentry hfound
    rw [hsame hentry] at hfound
    exact hfindable.named id serial found hentry hfound

theorem keeps_add (pattern : Pattern) : KeepsFrom Findable registry (add pattern) :=
  keepsFrom_add hfindable fun hfree => hfindable.extend hfree

theorem keeps_registerExperiment (text : String) :
    KeepsFrom Findable registry (registerExperiment text) := by
  refine .read (.lift hfindable fun pattern _ => ?_)
  have hsearch := hfindable.keeps_storing (storing_equivalent? pattern none)
  refine hsearch.bind fun known _ _ hknown => ?_
  cases known with
  | none => exact hknown.keeps_add pattern
  | some serial => exact .pure hknown serial

theorem keeps_rename {serial : Serial} (hpattern : registry.pattern? serial = some pattern)
    (name : String) (kind : Option Kind) :
    KeepsFrom Findable registry (rename serial pattern name kind) :=
  keepsFrom_rename hfindable fun hname =>
    { hfindable.toNumbered.renamed hpattern name kind with
      named := hfindable.named.renamed hpattern hname }

end Findable

theorem durable_findable : Durable Findable where
  addLiteral hfindable _ _ _ _ := hfindable.keeps_add _
  register hfindable _ _ _ id :=
    keepsFrom_register hfindable fun pattern _ => hfindable.keeps_add { pattern with id }
  registerExperiment hfindable := hfindable.keeps_registerExperiment
  rename hfindable hregistered := hfindable.keeps_rename (mem_registered hregistered).1
  unregister {_ serial pattern} hfindable _ := keepsFrom_unregister hfindable fun _ =>
    { hfindable.toNumbered.without serial pattern with
      named := hfindable.named.without serial pattern }

/-- A registry that has come from the empty one by steps, by registering patterns made elsewhere,
and by making and renaming patterns that need not be registered, whichever of all that has
failed. -/
inductive Attained : Registry → Prop where
  | empty : Attained {}
  | step {registry : Registry} (hattained : Attained registry) (step : Step) :
      Attained (step.applyTo registry)
  | add {registry : Registry} (hattained : Attained registry) (pattern : Pattern) :
      Attained ((Registry.add pattern).run registry).2
  | keep {registry : Registry} (hattained : Attained registry) (pattern : Pattern) :
      Attained ((Registry.keep pattern).run registry).2
  | rename {registry : Registry} (hattained : Attained registry) {serial : Serial}
      {pattern : Pattern} (hpattern : registry.pattern? serial = some pattern) (name : String)
      (kind : Option Kind) : Attained ((Registry.rename serial pattern name kind).run registry).2

/-- Whatever a registry has gone through, its patterns are found. -/
theorem Attained.findable (hattained : registry.Attained) : registry.Findable := by
  induction hattained with
  | empty => exact findable_empty
  | @step registry _ step ih =>
      cases step with
      | operation operation => exact durable_findable.applyTo ih operation
      | question question => exact ih.keeps_storing (storing_pose question)
  | add _ pattern ih => exact ih.keeps_add pattern
  | keep _ pattern ih => exact ih.kept pattern
  | rename _ hpattern name kind ih => exact ih.keeps_rename hpattern name kind

/-! ## What the identity leads to -/

/-- The text leads to the pattern: it is compiled, under whatever name and kind, to nothing but a
plain reference to the id of the pattern, and wherever it stands in a longer text it is one lexeme,
unless it is followed by what could go on with it. -/
structure Addresses (registry : Registry) (identity : String) (pattern : Pattern) : Prop where
  compiles : ∀ name kind, ∃ penalty, registry.compile identity name kind =
    .ok { kind, name, content := .tree (plainGroup [[plainRef pattern.id]]), penalty }
  text_symbol : pattern.symbol.text = identity
  single : ∀ name front lexemes c rest, FollowsReference c →
    ReadsUpTo name front lexemes (identity.toList ++ c :: rest) →
      ReadsUpTo name (front ++ identity.toList) (lexemes ++ [⟨pattern.symbol, front.length⟩])
        (c :: rest)

/-- In a registry that finds its patterns, the lexeme of a pattern leads to it. -/
theorem Findable.resolve_symbol (hfindable : registry.Findable)
    (hpattern : registry.byId? pattern.id = some pattern) (hreferable : pattern.Referable)
    (name : Option String) (position : Nat) :
    Node.Parser.resolve registry.scope name ⟨pattern.symbol, position⟩ = .ok pattern.id :=
  hreferable.resolve_symbol (hasId_scope hpattern)
    (fun _ hname => hfindable.named.idOf_scope hfindable.coherent hpattern hname) name position

theorem Findable.addresses_symbol (hfindable : registry.Findable)
    (hpattern : registry.byId? pattern.id = some pattern) (hreferable : pattern.Referable) :
    registry.Addresses pattern.symbol.text pattern where
  compiles name kind := by
    have htree := compileTree_reference hreferable.isReference_symbol
      (hfindable.resolve_symbol hpattern hreferable name)
    refine exists_compile htree (fun id hid => ?_) kind
    obtain rfl : id = pattern.id := by simpa [plainGroup, plainRef] using hid
    simp [hpattern]
  text_symbol := rfl
  single _ _ _ _ rest hc hfront := hfront.symbol
    (Lexeme.isReadBefore_reference hreferable.isReference_symbol (hc.breaks rest))

/-- The fault of a text whose first character starts no lexeme. -/
def unreadableFault (text : String) (name : Option String) : PatternFault where
  cause := .unreadable (String.ofList (text.toList.take 10))
  position := some 0
  token := some (String.ofList (text.toList.take 1))
  name := name

theorem compile_of_unreadable {text : String} {c : Char} {rest : List Char}
    (htext : text.toList = c :: rest) (hblank : Text.isBlank c = false)
    (hnone : Lexeme.symbolAt? c rest = none) (name : Option String) (kind : Kind) :
    registry.compile text name kind = .error (.pattern (unreadableFault text name)) := by
  have hread : Lexeme.read text name = .error (unreadableFault text name) := by
    simp [Lexeme.read, htext, Lexeme.readFrom, hblank, hnone, unreadableFault]
  rw [compile, compileTree, hread]
  rfl

theorem compile_of_isBeyondReference (hbeyond : pattern.IsBeyondReference) {identity : String}
    (hidentity : pattern.identity = .ok identity) (name : Option String) (kind : Kind) :
    registry.compile identity name kind = .error (.pattern (unreadableFault identity name)) := by
  rcases hbeyond with hname | ⟨hname, hlong⟩
  · rw [Pattern.identity, hname] at hidentity
    cases hidentity
    have htext : (Text.quote "").toList = ['\'', '\''] := by decide
    exact compile_of_unreadable htext (by decide) (by decide) name kind
  · have htext := Pattern.toList_identity_of_nameless hname hidentity
    have hunreadable := Lexeme.symbolAt?_of_long (n := pattern.id.toNat) (by omega)
    exact compile_of_unreadable htext (by decide) hunreadable name kind

/-- The identity of a registered pattern leads back to it, whatever its registry has gone through,
if it has a name that is neither empty nor a plain word with a line feed behind it, or if it has no
name and at most nine digits in its id. With an empty name, or with no name and more digits, its
identity is refused. -/
theorem addresses_of_attained (hattained : registry.Attained) {serial : Serial}
    (hregistered : (serial, pattern) ∈ registry.registered) :
    ((∀ given, pattern.name = some given → given ≠ "" ∧
        (Pattern.isPlainName given = true → given.toList.getLast? ≠ some '\n')) →
      (pattern.name = none → pattern.id < 10 ^ 9) →
        ∃ identity, pattern.identity = .ok identity ∧ registry.Addresses identity pattern) ∧
    (pattern.IsBeyondReference → ∀ identity, pattern.identity = .ok identity → ∀ name kind,
      registry.compile identity name kind = .error (.pattern (unreadableFault identity name))) := by
  have hfindable := hattained.findable
  have hentry := hfindable.coherent.mem_entries_of_registered hregistered
  refine ⟨fun hname hshort => ?_, fun hbeyond identity hidentity => ?_⟩
  · have hreferable : pattern.Referable :=
      ⟨hname, fun hnameless => ⟨(hfindable.bounded _ _ hentry).1, hshort hnameless⟩⟩
    have hpattern := hfindable.coherent.byId?_eq_some_iff.mpr
      ⟨serial, hentry, (mem_registered hregistered).1⟩
    exact ⟨_, hreferable.identity_eq, hfindable.addresses_symbol hpattern hreferable⟩
  · exact compile_of_isBeyondReference hbeyond hidentity

/-- A literal whose name has to be quoted. -/
def apostrophized : Pattern where
  kind := .literal
  name := some "it's"
  content := .literal "a"
  id := 0

/-- A nameless literal whose id has ten digits. -/
def remote : Pattern where
  kind := .literal
  content := .literal "b"
  id := 1000000000

/-- A literal with an empty name. -/
def unnamed : Pattern where
  kind := .literal
  name := some ""
  content := .literal "c"
  id := 1000000001

/-- A registry of a pattern that can be referred to and two that cannot. -/
def outlying : Registry where
  ledger := #[apostrophized, remote, unnamed]
  entries := [(0, 0), (1000000000, 1), (1000000001, 2)]
  names := [("", 2), ("it's", 0)]
  literals := [("c", 2), ("b", 1), ("a", 0)]
  nextId := 1000000002

theorem attained_outlying : outlying.Attained := by
  have hfirst := Attained.empty.add { apostrophized with id := -1 }
  have hsecond := hfirst.add remote
  have hthird := hsecond.add { unnamed with id := -1 }
  exact hthird

theorem addresses_of_attained_outlying :
    ((0, apostrophized) ∈ outlying.registered ∧ apostrophized.identity = .ok "'it''s'" ∧
      outlying.Addresses "'it''s'" apostrophized ∧
      Lexeme.read "('it''s')+" = .ok [⟨.opening, 0⟩, ⟨.quoted "'it''s'", 1⟩, ⟨.closing, 8⟩,
        ⟨.quantity .some, 9⟩]) ∧
    ((1, remote) ∈ outlying.registered ∧ remote.IsBeyondReference ∧
      outlying.compile "[1000000000]" =
        .error (.pattern (unreadableFault "[1000000000]" none))) := by
  have hquoted : (0, apostrophized) ∈ outlying.registered := by
    simp [outlying, registered, pattern?]
  have hremote : (1, remote) ∈ outlying.registered := by simp [outlying, registered, pattern?]
  have hbeyond : remote.IsBeyondReference := .inr ⟨rfl, by decide⟩
  refine ⟨⟨hquoted, rfl, ?_⟩, hremote, hbeyond, ?_⟩
  · obtain ⟨identity, hidentity, haddresses⟩ :=
      (addresses_of_attained attained_outlying hquoted).1
        (by rintro _ ⟨⟩; decide) (by rintro ⟨⟩)
    cases hidentity
    refine ⟨haddresses, ?_⟩
    have hopening : ReadsUpTo none ['('] [⟨.opening, 0⟩] ("'it''s'".toList ++ ")+".toList) :=
      (Lexeme.readsUpTo_nil none _).symbol (Lexeme.isReadBefore_opening _)
    exact haddresses.single none _ _ ')' ['+'] (by decide) hopening
  · exact (addresses_of_attained attained_outlying hremote).2 hbeyond _ rfl none .experimental

/-- Neither the id of ten digits nor the empty name leads back to its pattern. -/
theorem not_addresses_outlying : outlying.Attained ∧
    ((1, remote) ∈ outlying.registered ∧ remote.identity = .ok "[1000000000]" ∧
      ¬ outlying.Addresses "[1000000000]" remote) ∧
    ((2, unnamed) ∈ outlying.registered ∧ unnamed.identity = .ok "''" ∧
      ¬ outlying.Addresses "''" unnamed) := by
  refine ⟨attained_outlying, ⟨by simp [outlying, registered, pattern?], rfl, fun hremote => ?_⟩,
    by simp [outlying, registered, pattern?], rfl, fun hunnamed => ?_⟩
  · obtain ⟨penalty, hcompile⟩ := hremote.compiles none .experimental
    have hrefused : outlying.compile "[1000000000]" =
      .error (.pattern (unreadableFault "[1000000000]" none)) := rfl
    rw [hrefused] at hcompile
    cases hcompile
  · obtain ⟨penalty, hcompile⟩ := hunnamed.compiles none .experimental
    have hrefused : outlying.compile "''" = .error (.pattern (unreadableFault "''" none)) := rfl
    rw [hrefused] at hcompile
    cases hcompile

end Registry

end Motif
