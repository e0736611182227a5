import Mathlib.Data.List.Infix
import Motif.Proofs.Text.Integer
import Motif.Proofs.Text.Quoted
import Motif.Text.Lines

/-!
# Lines and fields

A text that is written line by line is read line by line again, and a field ends where the first
separator after it stands. Quoting and unquoting touch quotes only: no line end and no separator
comes or goes with them.
-/

namespace Motif.Text

/-! ## Words without quotes -/

section Words

variable {word : List Char}

theorem prefix_of_prefix_doubleQuotes (hword : '\'' ∉ word) {cs : List Char}
    (hstart : word <+: doubleQuotes cs) : word <+: cs := by
  induction cs generalizing word with
  | nil => exact hstart
  | cons c rest ih =>
      rw [doubleQuotes] at hstart
      cases word with
      | nil => exact List.nil_prefix
      | cons first others =>
          simp only [List.mem_cons, not_or] at hword
          split at hstart
          next =>
            obtain ⟨hfirst, -⟩ := List.cons_prefix_cons.mp hstart
            exact absurd hfirst.symm hword.1
          next =>
            obtain ⟨rfl, hothers⟩ := List.cons_prefix_cons.mp hstart
            exact List.cons_prefix_cons.mpr ⟨rfl, ih hword.2 hothers⟩

theorem infix_of_infix_quote (hword : '\'' ∉ word) (hne : word ≠ []) {cs : List Char}
    (hinside : word <:+: '\'' :: cs) : word <:+: cs := by
  rcases List.infix_cons_iff.mp hinside with hstart | hinside
  · obtain ⟨first, others, rfl⟩ := List.exists_cons_of_ne_nil hne
    obtain ⟨rfl, -⟩ := List.cons_prefix_cons.mp hstart
    exact absurd List.mem_cons_self hword
  · exact hinside

theorem infix_of_infix_doubleQuotes (hword : '\'' ∉ word) (hne : word ≠ []) {cs : List Char}
    (hinside : word <:+: doubleQuotes cs) : word <:+: cs := by
  induction cs with
  | nil => exact hinside
  | cons c rest ih =>
      have hstart : word <+: doubleQuotes (c :: rest) → word <+: c :: rest :=
        prefix_of_prefix_doubleQuotes hword
      rw [doubleQuotes] at hinside hstart
      split at hinside
      next =>
        have hrest := infix_of_infix_quote hword hne (infix_of_infix_quote hword hne hinside)
        exact List.infix_cons_iff.mpr (.inr (ih hrest))
      next hquote =>
        rw [if_neg hquote] at hstart
        rcases List.infix_cons_iff.mp hinside with hfirst | hrest
        · exact (hstart hfirst).isInfix
        · exact List.infix_cons_iff.mpr (.inr (ih hrest))

theorem prefix_of_prefix_halveQuotes (hword : '\'' ∉ word) {cs : List Char}
    (hstart : word <+: halveQuotes cs) : word <+: cs := by
  induction cs using halveQuotes.induct generalizing word with
  | case1 rest ih =>
      rw [halveQuotes] at hstart
      cases word with
      | nil => exact List.nil_prefix
      | cons first others =>
          obtain ⟨rfl, -⟩ := List.cons_prefix_cons.mp hstart
          exact absurd List.mem_cons_self hword
  | case2 c rest hother ih =>
      rw [halveQuotes.eq_2 _ _ hother] at hstart
      cases word with
      | nil => exact List.nil_prefix
      | cons first others =>
          simp only [List.mem_cons, not_or] at hword
          obtain ⟨rfl, hothers⟩ := List.cons_prefix_cons.mp hstart
          exact List.cons_prefix_cons.mpr ⟨rfl, ih hword.2 hothers⟩
  | case3 => exact hstart

theorem infix_of_infix_halveQuotes (hword : '\'' ∉ word) (hne : word ≠ []) {cs : List Char}
    (hinside : word <:+: halveQuotes cs) : word <:+: cs := by
  induction cs using halveQuotes.induct with
  | case1 rest ih =>
      rw [halveQuotes] at hinside
      have hrest := ih (infix_of_infix_quote hword hne hinside)
      exact List.infix_cons_iff.mpr (.inr (List.infix_cons_iff.mpr (.inr hrest)))
  | case2 c rest hother ih =>
      rw [halveQuotes.eq_2 _ _ hother] at hinside
      rcases List.infix_cons_iff.mp hinside with hfirst | hrest
      · rw [← halveQuotes.eq_2 _ _ hother] at hfirst
        exact (prefix_of_prefix_halveQuotes hword hfirst).isInfix
      · exact List.infix_cons_iff.mpr (.inr (ih hrest))
  | case3 => exact hinside

/-- A word without quotes that stands in an unquoted text stands in the text that was unquoted. -/
theorem infix_of_infix_unquote (hword : '\'' ∉ word) (hne : word ≠ []) {text : String}
    (hinside : word <:+: (unquote text).toList) : word <:+: text.toList := by
  unfold unquote at hinside
  split at hinside
  next rest htext =>
    split at hinside
    next =>
      rw [String.toList_ofList] at hinside
      have hinner := infix_of_infix_halveQuotes hword hne hinside
      rw [htext]
      exact hinner.trans ((List.dropLast_prefix rest).isInfix.trans (List.suffix_cons _ _).isInfix)
    next => exact hinside
  next => exact hinside

end Words

/-! ## Fields -/

section Fields

variable {separator : List Char}

theorem eq_append_of_cutAt? {cs field rest : List Char}
    (hcut : cutAt? separator cs = some (field, rest)) : cs = field ++ (separator ++ rest) := by
  induction cs generalizing field with
  | nil =>
      unfold cutAt? at hcut
      split at hcut
      next hempty =>
        cases hcut
        simpa using hempty
      next => cases hcut
  | cons c tail ih =>
      unfold cutAt? at hcut
      split at hcut
      next hstart =>
        cases hcut
        obtain ⟨after, hafter⟩ := List.isPrefixOf_iff_prefix.mp hstart
        rw [← hafter]
        simp
      next =>
        obtain ⟨⟨front, after⟩, hfront, heq⟩ := Option.map_eq_some_iff.mp hcut
        cases heq
        exact congrArg (c :: ·) (ih hfront)

/-- No separator stands in the field before the first one. -/
theorem not_infix_of_cutAt? (hne : separator ≠ []) {cs field rest : List Char}
    (hcut : cutAt? separator cs = some (field, rest)) : ¬ separator <:+: field := by
  induction cs generalizing field with
  | nil =>
      unfold cutAt? at hcut
      split at hcut
      next hempty => exact absurd (List.isEmpty_iff.mp hempty) hne
      next => cases hcut
  | cons c tail ih =>
      have happend := eq_append_of_cutAt? hcut
      unfold cutAt? at hcut
      split at hcut
      next =>
        cases hcut
        exact fun hinside => hne (List.eq_nil_of_infix_nil hinside)
      next hstart =>
        obtain ⟨⟨front, after⟩, hfront, heq⟩ := Option.map_eq_some_iff.mp hcut
        cases heq
        intro hinside
        rcases List.infix_cons_iff.mp hinside with hfirst | hinner
        · refine hstart (List.isPrefixOf_iff_prefix.mpr ?_)
          rw [happend]
          exact hfirst.trans (List.prefix_append _ _)
        · exact ih hfront hinner

/-- The first separator is the one after the field if none begins inside the field. -/
theorem cutAt?_append (hne : separator ≠ []) {field rest : List Char}
    (hfield : ∀ suffix, suffix ≠ [] → suffix <:+ field →
      ¬ separator <+: suffix ++ (separator ++ rest)) :
    cutAt? separator (field ++ (separator ++ rest)) = some (field, rest) := by
  induction field with
  | nil =>
      obtain ⟨first, others, rfl⟩ := List.exists_cons_of_ne_nil hne
      rw [List.nil_append, List.cons_append, cutAt?, if_pos]
      · simp
      · exact List.isPrefixOf_iff_prefix.mpr (List.prefix_append (first :: others) rest)
  | cons c tail ih =>
      have hfirst := hfield (c :: tail) (List.cons_ne_nil _ _) List.suffix_rfl
      rw [List.cons_append, cutAt?, if_neg, ih fun suffix hsuffix htail =>
        hfield suffix hsuffix (htail.trans (List.suffix_cons _ _))]
      · rfl
      · exact fun hstart => hfirst (List.isPrefixOf_iff_prefix.mp hstart)

theorem cutFields_append (hne : separator ≠ []) {cuts : Nat} {field rest : List Char}
    (hfield : ∀ suffix, suffix ≠ [] → suffix <:+ field →
      ¬ separator <+: suffix ++ (separator ++ rest)) :
    cutFields separator (cuts + 1) (field ++ (separator ++ rest)) =
      field :: cutFields separator cuts rest := by
  rw [cutFields, cutAt?_append hne hfield]

theorem infix_of_mem_cutFields {cuts : Nat} {cs field : List Char}
    (hfield : field ∈ cutFields separator cuts cs) : field <:+: cs := by
  induction cuts generalizing cs with
  | zero =>
      obtain rfl := List.mem_singleton.mp hfield
      exact List.infix_rfl
  | succ cuts ih =>
      unfold cutFields at hfield
      split at hfield
      next =>
        obtain rfl := List.mem_singleton.mp hfield
        exact List.infix_rfl
      next first rest hcut =>
        rw [eq_append_of_cutAt? hcut]
        rcases List.mem_cons.mp hfield with rfl | hfield
        · exact (List.prefix_append _ _).isInfix
        · rw [← List.append_assoc]
          exact (ih hfield).trans (List.suffix_append _ rest).isInfix

/-- Only in the last field there may be a separator. -/
theorem not_infix_of_mem_cutFields (hne : separator ≠ []) {cuts : Nat} {cs field : List Char}
    (hfield : field ∈ (cutFields separator cuts cs).dropLast) : ¬ separator <:+: field := by
  have hnonempty : ∀ cuts cs, cutFields separator cuts cs ≠ [] := by
    intro cuts cs
    unfold cutFields
    split
    next => exact List.cons_ne_nil _ _
    next => split <;> exact List.cons_ne_nil _ _
  induction cuts generalizing cs with
  | zero => cases hfield
  | succ cuts ih =>
      unfold cutFields at hfield
      split at hfield
      next => cases hfield
      next first rest hcut =>
        rw [List.dropLast_cons_of_ne_nil (hnonempty cuts rest)] at hfield
        rcases List.mem_cons.mp hfield with rfl | hfield
        · exact not_infix_of_cutAt? hne hcut
        · exact ih hfield

end Fields

/-! ## Lines -/

/-- No character ends the line. -/
def IsLine (cs : List Char) : Prop :=
  ∀ c ∈ cs, isLineEnd c = false

instance (cs : List Char) : Decidable (IsLine cs) :=
  List.decidableBAll (fun c => isLineEnd c = false) cs

theorem IsLine.of_infix {cs other : List Char} (hcs : IsLine cs) (hinside : other <:+: cs) :
    IsLine other :=
  fun c hc => hcs c (hinside.mem hc)

theorem IsLine.append {first second : List Char} (hfirst : IsLine first) (hsecond : IsLine second) :
    IsLine (first ++ second) := by
  intro c hc
  rcases List.mem_append.mp hc with hc | hc
  · exact hfirst c hc
  · exact hsecond c hc

theorem isLineEnd_quote : isLineEnd '\'' = false := rfl

theorem IsLine.intercalate {separator : String} {texts : List String}
    (hseparator : IsLine separator.toList) (htexts : ∀ text ∈ texts, IsLine text.toList) :
    IsLine (separator.intercalate texts).toList := by
  induction texts with
  | nil => simp [IsLine]
  | cons first rest ih =>
      have hfirst := htexts first List.mem_cons_self
      have hrest := ih fun text htext => htexts text (List.mem_cons_of_mem _ htext)
      cases rest with
      | nil => simpa using hfirst
      | cons second others =>
          rw [String.intercalate_cons_cons, String.toList_append, String.toList_append]
          exact (hfirst.append hseparator).append hrest

theorem isLine_toDigits (n : Nat) : IsLine (Nat.toDigits 10 n) := by
  intro c hc
  have hrange := toNat_bounds_of_isDigit (isDigit_of_mem_toDigits hc)
  simp only [isLineEnd, Bool.or_eq_false_iff, Bool.and_eq_false_iff, decide_eq_false_iff_not]
  omega

theorem isLine_toString (value : Int) : IsLine (toString value).toList := by
  cases value with
  | ofNat n =>
      have htext : (toString (Int.ofNat n)).toList = Nat.toDigits 10 n := by
        simp [Int.repr]
      rw [htext]
      exact isLine_toDigits n
  | negSucc n =>
      have htext : (toString (Int.negSucc n)).toList = ['-'] ++ Nat.toDigits 10 (n + 1) := by
        simp [Int.repr]
      have hsign : IsLine ['-'] := by decide
      rw [htext]
      exact hsign.append (isLine_toDigits _)

/-- Unquoting a line gives a line. -/
theorem IsLine.unquote {text : String} (htext : IsLine text.toList) :
    IsLine (unquote text).toList := by
  intro c hc
  by_cases hquote : '\'' = c
  · rw [← hquote, isLineEnd_quote]
  · have hinside : [c] <:+: text.toList := infix_of_infix_unquote (by simpa using hquote)
      (List.cons_ne_nil _ _) ((List.singleton_infix_iff _ _).mpr hc)
    exact htext c ((List.singleton_infix_iff _ _).mp hinside)

theorem IsLine.doubleQuotes {cs : List Char} (hcs : IsLine cs) : IsLine (doubleQuotes cs) := by
  intro c hc
  by_cases hquote : '\'' = c
  · rw [← hquote, isLineEnd_quote]
  · have hinside : [c] <:+: cs := infix_of_infix_doubleQuotes (by simpa using hquote)
      (List.cons_ne_nil _ _) ((List.singleton_infix_iff _ _).mpr hc)
    exact hcs c ((List.singleton_infix_iff _ _).mp hinside)

theorem IsLine.quote {text : String} (htext : IsLine text.toList) : IsLine (quote text).toList := by
  have hborder : IsLine ['\''] := by
    intro c hc
    rw [List.mem_singleton.mp hc, isLineEnd_quote]
  rw [toList_quote]
  exact (hborder.append htext.doubleQuotes).append hborder

theorem isLine_of_mem_linesFrom {line cs : List Char} (hline : IsLine line) :
    ∀ found ∈ linesFrom line cs, IsLine found := by
  have hreverse : ∀ {line : List Char}, IsLine line → IsLine line.reverse :=
    fun hline c hc => hline c (List.mem_reverse.mp hc)
  induction line, cs using linesFrom.induct with
  | case1 line hempty => simp [linesFrom, hempty]
  | case2 line hempty =>
      intro found hfound
      rw [linesFrom, if_neg hempty] at hfound
      obtain rfl := List.mem_singleton.mp hfound
      exact hreverse hline
  | case3 line rest ih =>
      intro found hfound
      rw [linesFrom] at hfound
      rcases List.mem_cons.mp hfound with rfl | hfound
      · exact hreverse hline
      · exact ih (fun c hc => by cases hc) found hfound
  | case4 line c rest hother hend ih =>
      intro found hfound
      rw [linesFrom.eq_3 _ _ _ hother, if_pos hend] at hfound
      rcases List.mem_cons.mp hfound with rfl | hfound
      · exact hreverse hline
      · exact ih (fun c hc => by cases hc) found hfound
  | case5 line c rest hother hend ih =>
      intro found hfound
      rw [linesFrom.eq_3 _ _ _ hother, if_neg hend] at hfound
      refine ih (fun other hmem => ?_) found hfound
      rcases List.mem_cons.mp hmem with rfl | hmem
      · simpa using hend
      · exact hline other hmem

theorem isLine_of_mem_lines {text line : String} (hline : line ∈ lines text) :
    IsLine line.toList := by
  obtain ⟨found, hfound, rfl⟩ := List.mem_map.mp hline
  rw [String.toList_ofList]
  exact isLine_of_mem_linesFrom (fun c hc => by cases hc) found hfound

theorem linesFrom_append {line cs rest : List Char} (hcs : IsLine cs) :
    linesFrom line (cs ++ '\n' :: rest) = (line.reverse ++ cs) :: linesFrom [] rest := by
  induction cs generalizing line with
  | nil =>
      rw [List.nil_append, linesFrom.eq_3 _ _ _ (by simp), if_pos (by rfl), List.append_nil]
  | cons c tail ih =>
      have hc := hcs c List.mem_cons_self
      have hreturn : c ≠ '\r' := by
        rintro rfl
        cases hc
      rw [List.cons_append, linesFrom.eq_3 _ _ _ (fun _ h => absurd h hreturn),
        if_neg (by simp [hc]),
        ih fun other hother => hcs other (List.mem_cons_of_mem _ hother)]
      simp

/-- Lines that have been written each with a line feed after it are read again. -/
theorem lines_of_terminated {rows : List String} (hrows : ∀ row ∈ rows, IsLine row.toList) :
    linesFrom [] (rows.flatMap fun row => row.toList ++ ['\n']) = rows.map String.toList := by
  induction rows with
  | nil => rfl
  | cons row rest ih =>
      rw [List.flatMap_cons, List.append_assoc, List.singleton_append,
        linesFrom_append (hrows row List.mem_cons_self),
        ih fun other hother => hrows other (List.mem_cons_of_mem _ hother)]
      rfl

theorem toList_intercalate_terminated (first : String) (rest : List String) :
    ("\n".intercalate (first :: rest) ++ "\n").toList =
      (first :: rest).flatMap fun row => row.toList ++ ['\n'] := by
  induction rest generalizing first with
  | nil => simp
  | cons second others ih =>
      rw [String.intercalate_cons_cons, List.flatMap_cons, ← ih second]
      simp

theorem lines_intercalate {first : String} {rest : List String}
    (hrows : ∀ row ∈ first :: rest, IsLine row.toList) :
    lines ("\n".intercalate (first :: rest) ++ "\n") = first :: rest := by
  rw [lines, toList_intercalate_terminated, lines_of_terminated hrows, List.map_map]
  simp [Function.comp_def]

end Motif.Text
