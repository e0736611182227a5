import Motif.Proofs.Registry.Describing
import Motif.Proofs.Text.Lines
import Motif.Registry.Table

/-!
# Rows of tables

The row of a pattern is a single line with four fields. Cut apart again, it gives the id, the name
and the kind of the pattern and the text that describes it.
-/

namespace Motif

open Text (IsLine)

/-! ## Texts without line ends -/

theorem Quantity.isLine_suffix (quantity : Quantity) : IsLine quantity.suffix.toList := by
  have hleast := Text.isLine_toString quantity.least
  have hmost := Text.isLine_toString quantity.most
  have hopening : IsLine "\x7b".toList := by decide
  have hclosing : IsLine "\x7d".toList := by decide
  have hplus : IsLine "+".toList := by decide
  have hdash : IsLine "-".toList := by decide
  unfold suffix
  dsimp only
  repeat' split
  · decide
  · decide
  · decide
  · decide
  · simpa only [String.toList_append] using (hopening.append (hleast.append hplus)).append hclosing
  · simpa only [String.toList_append] using (hopening.append hleast).append hclosing
  · decide
  · simpa only [String.toList_append] using
      (hopening.append ((hleast.append hdash).append hmost)).append hclosing

namespace Phrase

theorem isLine_intercalate_texts {alternatives : List (List Phrase)}
    (hphrases : ∀ sequence ∈ alternatives, ∀ phrase ∈ sequence, IsLine phrase.text.toList) :
    IsLine (textOf alternatives).toList := by
  have hsequence : ∀ sequence : List Phrase, (∀ phrase ∈ sequence, IsLine phrase.text.toList) →
      IsLine (" ".intercalate (textsOfSequence sequence)).toList := by
    intro sequence hphrases
    refine Text.IsLine.intercalate (by decide) ?_
    induction sequence with
    | nil => simp [textsOfSequence]
    | cons first rest ih =>
        intro text htext
        rcases List.mem_cons.mp htext with rfl | htext
        · exact hphrases first List.mem_cons_self
        · exact ih (fun phrase hphrase =>
            hphrases phrase (List.mem_cons_of_mem _ hphrase)) text htext
  refine Text.IsLine.intercalate (by decide) ?_
  induction alternatives with
  | nil => simp [textsOfAlternatives]
  | cons first rest ih =>
      intro text htext
      rcases List.mem_cons.mp htext with rfl | htext
      · exact hsequence first (hphrases first List.mem_cons_self)
      · exact ih (fun sequence hmem => hphrases sequence (List.mem_cons_of_mem _ hmem)) text htext

theorem isLine_mark (look : Look) : IsLine look.mark.toList := by
  cases look <;> decide

/-- A phrase is written on one line if the names in it are. -/
theorem isLine_text {phrase : Phrase}
    (hsymbols : ∀ symbol, Mentions symbol phrase → IsLine symbol.text.toList) :
    IsLine phrase.text.toList := by
  induction phrase using Phrase.memberInduction with
  | atom symbol quantity look =>
      rw [text, String.toList_append, String.toList_append]
      exact ((isLine_mark look).append (hsymbols symbol (.atom _ _))).append quantity.isLine_suffix
  | parens alternatives quantity look ih =>
      have hinside := isLine_intercalate_texts fun sequence hsequence phrase hphrase =>
        ih sequence hsequence phrase hphrase fun symbol hmention =>
          hsymbols symbol (.parens hsequence hphrase hmention)
      have hopening : IsLine "(".toList := by decide
      have hclosing : IsLine ")".toList := by decide
      rw [text]
      simp only [String.toList_append]
      exact ((isLine_mark look).append ((hopening.append hinside).append hclosing)).append
        quantity.isLine_suffix

theorem isLine_textOf {alternatives : List (List Phrase)}
    (hsymbols : ∀ sequence ∈ alternatives, ∀ phrase ∈ sequence, ∀ symbol, Mentions symbol phrase →
      IsLine symbol.text.toList) : IsLine (textOf alternatives).toList :=
  isLine_intercalate_texts fun sequence hsequence phrase hphrase =>
    isLine_text (hsymbols sequence hsequence phrase hphrase)

end Phrase

/-! ## Fields -/

namespace Registry.Table

theorem separator_eq : separator = [' ', '|', ' '] := rfl

theorem separator_ne_nil : separator ≠ [] :=
  List.cons_ne_nil _ _

theorem quote_not_mem_separator : '\'' ∉ separator := by
  decide

/-- No separator begins in a field without bars. -/
theorem not_prefix_of_not_mem {field : List Char} (hfield : '|' ∉ field) (rest : List Char) :
    ∀ suffix, suffix ≠ [] → suffix <:+ field →
      ¬ separator <+: suffix ++ (separator ++ rest) := by
  intro suffix hne hsuffix hstart
  rw [separator_eq] at hstart
  match suffix with
  | [] => exact hne rfl
  | [c] =>
      obtain ⟨-, hnext⟩ := List.cons_prefix_cons.mp hstart
      obtain ⟨hbar, -⟩ := List.cons_prefix_cons.mp hnext
      cases hbar
  | c :: d :: others =>
      obtain ⟨-, hnext⟩ := List.cons_prefix_cons.mp hstart
      obtain ⟨rfl, -⟩ := List.cons_prefix_cons.mp hnext
      exact hfield (hsuffix.mem (by simp))

/-- No separator begins in a field that contains none and ends with a quote. -/
theorem not_prefix_of_not_infix {inner : List Char} (hinner : ¬ separator <:+: inner ++ ['\''])
    (rest : List Char) :
    ∀ suffix, suffix ≠ [] → suffix <:+ inner ++ ['\''] →
      ¬ separator <+: suffix ++ (separator ++ rest) := by
  intro suffix hne hsuffix hstart
  rcases List.suffix_concat_iff.mp hsuffix with rfl | ⟨front, rfl, hfront⟩
  · exact hne rfl
  rw [separator_eq] at hstart hinner
  match front with
  | [] =>
      obtain ⟨hfirst, -⟩ := List.cons_prefix_cons.mp hstart
      cases hfirst
  | [c] =>
      obtain ⟨-, hnext⟩ := List.cons_prefix_cons.mp hstart
      obtain ⟨hbar, -⟩ := List.cons_prefix_cons.mp hnext
      cases hbar
  | [c, d] =>
      obtain ⟨-, hnext⟩ := List.cons_prefix_cons.mp hstart
      obtain ⟨-, hlast⟩ := List.cons_prefix_cons.mp hnext
      obtain ⟨hblank, -⟩ := List.cons_prefix_cons.mp hlast
      cases hblank
  | c :: d :: e :: others =>
      obtain ⟨rfl, hnext⟩ := List.cons_prefix_cons.mp hstart
      obtain ⟨rfl, hlast⟩ := List.cons_prefix_cons.mp hnext
      obtain ⟨rfl, -⟩ := List.cons_prefix_cons.mp hlast
      refine hinner (List.IsInfix.trans ?_ hsuffix.isInfix)
      exact ⟨[], others ++ ['\''], rfl⟩

end Registry.Table

namespace Pattern

open Registry.Table (separator separator_ne_nil quote_not_mem_separator not_prefix_of_not_mem
  not_prefix_of_not_infix)

/-- A pattern as the row of a table gives it. -/
structure Tabular (pattern : Pattern) : Prop where
  name : ∀ name, pattern.name = some name →
    name ≠ "" ∧ IsLine name.toList ∧ ¬ separator <:+: name.toList
  literal : ∀ text, pattern.content = .literal text → pattern.kind = .literal ∧ IsLine text.toList
  tree : ∀ root, pattern.content = .tree root → pattern.kind ≠ .literal

/-- What stands for the name in a row. -/
def nameField (pattern : Pattern) : String :=
  match pattern.name with
  | some name => if isPlainName name then name else Text.quote name
  | none => ""

/-- The row of a pattern with this description. -/
def rowText (pattern : Pattern) (description : String) : String :=
  " | ".intercalate [toString pattern.id, pattern.nameField, pattern.kind.label, description]

variable {pattern : Pattern}

theorem Tabular.ne_lineFeed (htabular : pattern.Tabular) {name : String}
    (hname : pattern.name = some name) : name.toList.getLast? ≠ some '\n' := by
  intro hlast
  have hend := (htabular.name name hname).2.1 '\n' (List.mem_of_getLast? hlast)
  cases hend

theorem Tabular.isLine_nameField (htabular : pattern.Tabular) :
    IsLine pattern.nameField.toList := by
  unfold nameField
  cases hname : pattern.name with
  | none => decide
  | some name =>
      have hline := (htabular.name name hname).2.1
      dsimp only
      split
      next => exact hline
      next => exact hline.quote

theorem Tabular.isLine_symbol (htabular : pattern.Tabular) :
    IsLine pattern.symbol.text.toList := by
  unfold symbol
  cases hname : pattern.name with
  | none =>
      have hopening : IsLine "[".toList := by decide
      have hclosing : IsLine "]".toList := by decide
      have hdigits : IsLine (toString pattern.id.toNat).toList := by
        have htext : (toString pattern.id.toNat).toList =
            Nat.toDigits 10 pattern.id.toNat := by simp
        rw [htext]
        exact Text.isLine_toDigits _
      simp only [Symbol.text, String.toList_append]
      exact (hopening.append hdigits).append hclosing
  | some name =>
      have hline := (htabular.name name hname).2.1
      dsimp only
      split
      next => exact hline
      next => exact hline.quote

theorem isLine_label (kind : Kind) : IsLine kind.label.toList := by
  cases kind <;> decide

theorem Tabular.isLine_rowText (htabular : pattern.Tabular) {description : String}
    (hdescription : IsLine description.toList) : IsLine (pattern.rowText description).toList := by
  refine Text.IsLine.intercalate (by decide) ?_
  intro text htext
  simp only [List.mem_cons, List.not_mem_nil, or_false] at htext
  rcases htext with rfl | rfl | rfl | rfl
  · exact Text.isLine_toString _
  · exact htabular.isLine_nameField
  · exact isLine_label _
  · exact hdescription

theorem toList_rowText (description : String) :
    (pattern.rowText description).toList =
      (toString pattern.id).toList ++ (separator ++ (pattern.nameField.toList ++
        (separator ++ (pattern.kind.label.toList ++
          (separator ++ description.toList))))) := by
  simp [rowText, separator]

theorem toList_toString_of_nonneg {id : Int} (hid : 0 ≤ id) :
    (toString id).toList = Nat.toDigits 10 id.toNat := by
  obtain ⟨n, rfl⟩ := Int.eq_ofNat_of_zero_le hid
  simp [Int.repr]

/-- A row starts with a digit, so it is not blank. -/
theorem all_isBlank_rowText (hid : 0 ≤ pattern.id) (description : String) :
    (pattern.rowText description).toList.all Text.isBlank = false := by
  rw [toList_rowText, toList_toString_of_nonneg hid]
  obtain ⟨first, rest, hdigits⟩ := List.exists_cons_of_ne_nil
    (Nat.toDigits_ne_nil (n := pattern.id.toNat) (b := 10))
  have hdigit : first.isDigit = true :=
    Text.isDigit_of_mem_toDigits (n := pattern.id.toNat) (by rw [hdigits]; exact List.mem_cons_self)
  rw [hdigits, List.cons_append, List.all_cons, Text.isBlank_eq_false_of_isDigit hdigit]
  rfl

theorem toNat_bounds_of_mem_isWord {cs : List Char} (hcs : Text.isWord cs = true) :
    ∀ c ∈ cs, 44 < c.toNat ∧ c.toNat < 123 := by
  have hletter : ∀ c : Char, c.isAlpha = true → 44 < c.toNat ∧ c.toNat < 123 := by
    intro c hc
    have hbounds := Lexeme.toNat_bounds_of_isAlpha hc
    omega
  cases cs with
  | nil => cases hcs
  | cons first rest =>
      rw [Text.isWord, Bool.and_eq_true, List.all_eq_true] at hcs
      intro c hc
      rcases List.mem_cons.mp hc with rfl | hc
      · exact hletter c hcs.1
      · have hword := hcs.2 c hc
        simp only [Text.isWordChar, Char.isAlphanum, Bool.or_eq_true, decide_eq_true_eq] at hword
        rcases hword with ((halpha | hdigit) | rfl) | rfl
        · exact hletter c halpha
        · have hbounds := Text.toNat_bounds_of_isDigit hdigit
          omega
        · decide
        · decide

theorem bar_not_mem_toDigits (n : Nat) : '|' ∉ Nat.toDigits 10 n := by
  intro hbar
  have hdigit := Text.isDigit_of_mem_toDigits hbar
  cases hdigit

/-- A row falls apart into its four fields. -/
theorem Tabular.cutFields_rowText (htabular : pattern.Tabular) (hid : 0 ≤ pattern.id)
    (description : String) :
    Text.cutFields separator 3 (pattern.rowText description).toList =
      [Nat.toDigits 10 pattern.id.toNat, pattern.nameField.toList, pattern.kind.label.toList,
        description.toList] := by
  have hname : ∀ rest, ∀ suffix, suffix ≠ [] → suffix <:+ pattern.nameField.toList →
      ¬ separator <+: suffix ++ (separator ++ rest) := by
    intro rest
    unfold nameField
    cases hnamed : pattern.name with
    | none => exact not_prefix_of_not_mem (by simp) rest
    | some name =>
        obtain ⟨-, -, hseparator⟩ := htabular.name name hnamed
        dsimp only
        split
        next hplain =>
          refine not_prefix_of_not_mem (fun hbar => ?_) rest
          have hword := isWord_of_isPlainName (htabular.ne_lineFeed hnamed) hplain
          exact absurd (toNat_bounds_of_mem_isWord hword '|' hbar) (by decide)
        next =>
          rw [Text.toList_quote]
          refine not_prefix_of_not_infix (fun hinside => hseparator ?_) rest
          rcases List.infix_concat_iff.mp hinside with hsuffix | hinside
          · obtain hnil | ⟨front, hfront, -⟩ := List.suffix_concat_iff.mp hsuffix
            · exact absurd hnil separator_ne_nil
            · have hlast := congrArg List.getLast? hfront
              rw [List.getLast?_concat] at hlast
              cases hlast
          · refine Text.infix_of_infix_doubleQuotes quote_not_mem_separator
              separator_ne_nil ?_
            exact Text.infix_of_infix_quote quote_not_mem_separator separator_ne_nil hinside
  have hlabel : '|' ∉ pattern.kind.label.toList := by
    cases pattern.kind <;> decide
  rw [toList_rowText, toList_toString_of_nonneg hid,
    Text.cutFields_append separator_ne_nil
      (not_prefix_of_not_mem (bar_not_mem_toDigits _) _),
    Text.cutFields_append separator_ne_nil (hname _),
    Text.cutFields_append separator_ne_nil (not_prefix_of_not_mem hlabel _),
    Text.cutFields]

/-- The name that a field of a row gives. -/
def givenName (field : List Char) : Option String :=
  if (Text.unquote (String.ofList (Text.trim field))).isEmpty then none
  else some (Text.unquote (String.ofList (Text.trim field)))

/-- The name is read back from its field. -/
theorem Tabular.givenName_nameField (htabular : pattern.Tabular) :
    givenName pattern.nameField.toList = pattern.name := by
  have hread : ∀ name, name ≠ "" → Text.trim pattern.nameField.toList = pattern.nameField.toList →
      Text.unquote pattern.nameField = name →
        givenName pattern.nameField.toList = some name := by
    intro name hne htrim hunquote
    have hempty : name.isEmpty = false := by simpa using hne
    rw [givenName, htrim, String.ofList_toList, hunquote, hempty]
    rfl
  cases hnamed : pattern.name with
  | none =>
      rw [nameField, hnamed]
      rfl
  | some name =>
      obtain ⟨hne, -, -⟩ := htabular.name name hnamed
      by_cases hplain : isPlainName name = true
      · have hfield : pattern.nameField = name := by
          simp [nameField, hnamed, hplain]
        have hword := isWord_of_isPlainName (htabular.ne_lineFeed hnamed) hplain
        have hbounds := toNat_bounds_of_mem_isWord hword
        have hblank : ∀ c ∈ name.toList, Text.isBlank c = false := fun c hc =>
          Text.isBlank_eq_false_of_ascii (by have := hbounds c hc; omega)
            (by have := hbounds c hc; omega)
        refine hread name hne ?_ ?_
        · rw [hfield]
          exact Text.trimWhere_eq_self (fun c hc => hblank c (List.mem_of_head? hc))
            fun c hc => hblank c (List.mem_of_getLast? hc)
        · rw [hfield, Text.unquote]
          split
          next rest hquote =>
            have hmem : '\'' ∈ name.toList := by simp [hquote]
            exact absurd (hbounds _ hmem) (by decide)
          next => rfl
      · have hfield : pattern.nameField = Text.quote name := by
          simp [nameField, hnamed, hplain]
        refine hread name hne ?_ (by rw [hfield, Text.unquote_quote])
        rw [hfield, Text.toList_quote]
        refine Text.trimWhere_eq_self (fun c hc => ?_) fun c hc => ?_
        · obtain rfl : '\'' = c := by simpa using hc
          rfl
        · rw [List.getLast?_concat] at hc
          cases hc
          rfl

end Pattern

/-! ## Reading a row -/

namespace Registry.Table

open Pattern (givenName)

variable {state after : Registry}

/-- What a row registers whose fields have been read. -/
def registerRow (name : Option String) (kind : Kind) (id : Int) (description : String) :
    Action Serial :=
  if kind = .literal then addLiteral (Text.unquote description) name id kind
  else register name kind description id

/-- A row that is accepted has four fields, and what it says is registered. -/
theorem exists_of_run_readRow {number : Nat} {line : String}
    (hrow : (readRow number line).run state = (.ok (), after)) :
    ∃ rawId rawName rawKind description id kind serial,
      Text.cutFields separator 3 line.toList = [rawId, rawName, rawKind, description] ∧
        (registerRow (givenName rawName) kind id (String.ofList description)).run state =
          (.ok serial, after) := by
  unfold readRow at hrow
  split at hrow
  next rawId rawName rawKind description hfields =>
    rw [run_lift_bind] at hrow
    cases hid : Quantity.readBound (Text.trim rawId) with
    | error fault =>
        rw [hid] at hrow
        cases hrow
    | ok id =>
        rw [hid] at hrow
        cases hkind : Kind.ofName? (String.ofList rawKind) with
        | none =>
            rw [hkind] at hrow
            cases hrow
        | some kind =>
            rw [hkind] at hrow
            have hregister : ∃ serial, (registerRow (givenName rawName) kind id
                (String.ofList description)).run state = (.ok serial, after) := by
              unfold registerRow
              by_cases hliteral : kind = .literal
              · rw [if_pos hliteral]
                dsimp only at hrow
                rw [pure_bind, if_pos hliteral] at hrow
                obtain ⟨serial, between, hrun, hpure⟩ := run_bind_eq_ok_iff.mp hrow
                cases hpure
                exact ⟨serial, hrun⟩
              · rw [if_neg hliteral]
                dsimp only at hrow
                rw [pure_bind, if_neg hliteral] at hrow
                obtain ⟨serial, between, hrun, hpure⟩ := run_bind_eq_ok_iff.mp hrow
                cases hpure
                exact ⟨serial, hrun⟩
            obtain ⟨serial, hrun⟩ := hregister
            exact ⟨rawId, rawName, rawKind, description, id, kind, serial, hfields, hrun⟩
  next => cases hrow

theorem run_readRow {number : Nat} {line : String} {rawId rawName rawKind description : List Char}
    (hfields : Text.cutFields separator 3 line.toList = [rawId, rawName, rawKind, description])
    {id : Int} (hid : Quantity.readBound (Text.trim rawId) = .ok id) {kind : Kind}
    (hkind : Kind.ofName? (String.ofList rawKind) = some kind) {serial : Serial}
    (hregister : (registerRow (givenName rawName) kind id (String.ofList description)).run state =
      (.ok serial, after)) :
    (readRow number line).run state = (.ok (), after) := by
  unfold readRow
  rw [hfields]
  dsimp only
  rw [run_lift_bind, hid, hkind]
  dsimp only
  rw [pure_bind]
  unfold registerRow at hregister
  split at hregister
  next hliteral =>
    rw [if_pos hliteral]
    exact (run_bind_of_ok hregister).trans rfl
  next hliteral =>
    rw [if_neg hliteral]
    exact (run_bind_of_ok hregister).trans rfl

/-- The row of a pattern is accepted if the pattern that it tells of can be registered. -/
theorem run_readRow_rowText {pattern : Pattern} (htabular : pattern.Tabular) (hid : 0 ≤ pattern.id)
    (hshort : (Nat.toDigits 10 pattern.id.toNat).length ≤ Text.mostDigits) {number : Nat}
    {description : String} {serial : Serial}
    (hregister : (registerRow pattern.name pattern.kind pattern.id description).run state =
      (.ok serial, after)) :
    (readRow number (pattern.rowText description)).run state = (.ok (), after) := by
  have hread : Quantity.readBound (Text.trim (Nat.toDigits 10 pattern.id.toNat)) =
      .ok pattern.id := by
    rw [Pattern.trim_toDigits, Quantity.readBound_toDigits hshort, Int.toNat_of_nonneg hid]
  have hkind : Kind.ofName? (String.ofList pattern.kind.label.toList) = some pattern.kind := by
    rw [String.ofList_toList, Kind.ofName?_label]
  have hfields : (registerRow (givenName pattern.nameField.toList) pattern.kind pattern.id
      (String.ofList description.toList)).run state = (.ok serial, after) := by
    rw [htabular.givenName_nameField, String.ofList_toList, hregister]
  exact run_readRow (htabular.cutFields_rowText hid description) hread hkind hfields

end Registry.Table

end Motif
