import Mathlib.Data.List.DropRight
import Motif.Corpus
import Motif.Proofs.Text.Integer

/-!
# Clean paragraphs

Loading a corpus gives clean paragraphs: each is one line of characters from the alphabet, with
single spaces between its words. Clean paragraphs are what loading leaves alone, so that they can
be written with blank lines between them and loaded again. A corpus is refused at the first
character outside the alphabet, counted in paragraphs of the text as it was given.
-/

namespace Motif.Corpus

/-! ## Lines of words -/

/-- No line feed, no tab and no long dash. -/
def IsPlain (c : Char) : Prop :=
  c ≠ '\n' ∧ c ≠ '\t' ∧ c ≠ '—' ∧ c ≠ '–'

instance (c : Char) : Decidable (IsPlain c) :=
  inferInstanceAs (Decidable (_ ∧ _))

/-- One line without tabs and long dashes, with single spaces inside and none at its ends. -/
structure IsNormal (cs : List Char) : Prop where
  plain : ∀ c ∈ cs, IsPlain c
  single : ¬ [' ', ' '] <:+: cs
  first : cs.head? ≠ some ' '
  last : cs.getLast? ≠ some ' '

section Plain

variable {c d : Char}

theorem plain_eq_singleton (hc : IsPlain c) : plain c = [c] := by
  obtain ⟨hline, htab, hlong, hshort⟩ := hc
  simp [plain, hline, htab, hlong, hshort]

theorem isPlain_of_mem_plain (hd : d ∈ plain c) : IsPlain d := by
  unfold plain at hd
  split at hd
  next => cases List.mem_singleton.mp hd; decide
  next hline =>
    split at hd
    next =>
      simp only [List.mem_cons, List.not_mem_nil, or_false, or_self] at hd
      cases hd
      decide
    next hlong =>
      split at hd
      next => cases List.mem_singleton.mp hd; decide
      next hshort =>
        cases List.mem_singleton.mp hd
        simp only [Bool.or_eq_true, decide_eq_true_eq, not_or] at hline
        exact ⟨hline.1, hline.2, hlong, hshort⟩

/-- Plain writing brings spaces and hyphens in, and nothing else. -/
theorem eq_of_mem_plain (hd : d ∈ plain c) : d = c ∨ d = ' ' ∨ d = '-' := by
  unfold plain at hd
  split at hd
  next => exact .inr (.inl (List.mem_singleton.mp hd))
  next =>
    split at hd
    next => exact .inr (.inr (by simpa using hd))
    next =>
      split at hd
      next => exact .inr (.inr (List.mem_singleton.mp hd))
      next => exact .inl (List.mem_singleton.mp hd)

theorem flatMap_plain_eq_self {cs : List Char} (hcs : ∀ c ∈ cs, IsPlain c) :
    cs.flatMap plain = cs := by
  rw [List.flatMap_congr fun c hc => plain_eq_singleton (hcs c hc)]
  exact List.flatMap_singleton' cs

end Plain

section Collapse

variable {spaced : Bool} {cs : List Char}

theorem collapse_subset (spaced : Bool) (cs : List Char) : collapse spaced cs ⊆ cs := by
  induction cs generalizing spaced with
  | nil => exact List.Subset.refl _
  | cons c rest ih =>
      unfold collapse
      split
      next => exact List.subset_cons_of_subset c (ih true)
      next => exact List.cons_subset_cons c (ih _)

theorem head?_collapse_true (cs : List Char) : (collapse true cs).head? ≠ some ' ' := by
  induction cs with
  | nil => exact nofun
  | cons c rest ih =>
      unfold collapse
      split
      next => exact ih
      next hother =>
        intro hspace
        cases hspace
        exact hother rfl

/-- No two spaces stand side by side once runs of spaces have collapsed. -/
theorem not_infix_collapse (spaced : Bool) (cs : List Char) :
    ¬ [' ', ' '] <:+: collapse spaced cs := by
  induction cs generalizing spaced with
  | nil => simp [collapse]
  | cons c rest ih =>
      unfold collapse
      split
      next => exact ih true
      next =>
        intro hinside
        rcases List.infix_cons_iff.mp hinside with hstart | hinside
        · -- The two spaces would be this one and the first of what follows it.
          obtain ⟨rfl, hsecond⟩ := List.cons_prefix_cons.mp hstart
          obtain ⟨others, hothers⟩ := hsecond
          exact head?_collapse_true rest (hothers ▸ rfl)
        · exact ih _ hinside

theorem collapse_eq_self (hsingle : ¬ [' ', ' '] <:+: cs)
    (hfirst : spaced = true → cs.head? ≠ some ' ') : collapse spaced cs = cs := by
  induction cs generalizing spaced with
  | nil => rfl
  | cons c rest ih =>
      have hkept : ¬ (decide (c = ' ') && spaced) = true := by
        simp only [Bool.and_eq_true, decide_eq_true_eq, not_and]
        rintro rfl hspaced
        exact hfirst hspaced rfl
      rw [collapse, if_neg hkept]
      refine congrArg (c :: ·) (ih (fun hinside => ?_) fun hspace hnext => ?_)
      · exact hsingle (hinside.trans (List.suffix_cons c rest).isInfix)
      · cases of_decide_eq_true hspace
        obtain ⟨others, rfl⟩ := List.head?_eq_some_iff.mp hnext
        exact hsingle (List.prefix_append [' ', ' '] others).isInfix

end Collapse

section Trimmed

variable {drop : Char → Bool} {cs : List Char} {c : Char}

theorem head?_dropWhile (hc : (cs.dropWhile drop).head? = some c) : drop c = false := by
  have hnot := List.head?_dropWhile_not drop cs
  rw [hc] at hnot
  simpa using hnot

theorem getLast?_trimWhere (hc : (Text.trimWhere drop cs).getLast? = some c) : drop c = false := by
  rw [Text.trimWhere, List.getLast?_reverse] at hc
  exact head?_dropWhile hc

theorem head?_trimWhere (hc : (Text.trimWhere drop cs).head? = some c) : drop c = false := by
  -- What is trimmed is a beginning of what is left when only the front has been dropped.
  have hprefix : Text.trimWhere drop cs <+: cs.dropWhile drop := by
    have hback := List.reverse_prefix.mpr
      (List.dropWhile_suffix (l := (cs.dropWhile drop).reverse) drop)
    rwa [List.reverse_reverse] at hback
  obtain ⟨others, hothers⟩ := List.head?_eq_some_iff.mp hc
  rw [hothers] at hprefix
  obtain ⟨after, hafter⟩ := hprefix
  have hfront : (cs.dropWhile drop).head? = some c := by
    rw [← hafter]
    rfl
  exact head?_dropWhile hfront

end Trimmed

theorem toList_normalize (text : String) :
    (normalize text).toList =
      Text.trimWhere (· = ' ') (collapse false (text.toList.flatMap plain)) :=
  String.toList_ofList

theorem isNormal_normalize (text : String) : IsNormal (normalize text).toList := by
  rw [toList_normalize]
  have hinside := Text.infix_trimWhere (· = ' ') (collapse false (text.toList.flatMap plain))
  refine ⟨fun c hc => ?_, fun hdouble => ?_, fun hfirst => ?_, fun hlast => ?_⟩
  · obtain ⟨raw, -, hraw⟩ := List.mem_flatMap.mp (collapse_subset _ _ (hinside.subset hc))
    exact isPlain_of_mem_plain hraw
  · exact not_infix_collapse _ _ (hdouble.trans hinside)
  · simpa using head?_trimWhere hfirst
  · simpa using getLast?_trimWhere hlast

theorem normalize_eq_self {text : String} (htext : IsNormal text.toList) :
    normalize text = text := by
  refine String.toList_injective ?_
  rw [toList_normalize, flatMap_plain_eq_self htext.plain,
    collapse_eq_self htext.single fun hspaced => absurd hspaced Bool.false_ne_true]
  refine Text.trimWhere_eq_self (fun c hc => ?_) fun c hc => ?_
  · exact decide_eq_false fun hspace => htext.first (hspace ▸ hc)
  · exact decide_eq_false fun hspace => htext.last (hspace ▸ hc)

/-- The lines of words are the paragraphs that stay as they are. -/
theorem normalize_eq_self_iff {text : String} : normalize text = text ↔ IsNormal text.toList :=
  ⟨fun heq => heq ▸ isNormal_normalize text, normalize_eq_self⟩

theorem mem_of_mem_normalize {text : String} {c : Char} (hc : c ∈ (normalize text).toList) :
    c ∈ text.toList ∨ c = ' ' ∨ c = '-' := by
  rw [toList_normalize] at hc
  obtain ⟨raw, hraw, hplain⟩ :=
    List.mem_flatMap.mp (collapse_subset _ _ ((Text.infix_trimWhere _ _).subset hc))
  rcases eq_of_mem_plain hplain with rfl | hother
  · exact .inl hraw
  · exact .inr hother

/-! ## Paragraphs between blank lines -/

theorem not_mem_unifyLineEnds (cs : List Char) : '\r' ∉ Text.unifyLineEnds cs := by
  induction cs using Text.unifyLineEnds.induct with
  | case1 => simp [Text.unifyLineEnds]
  | case2 rest ih => simpa [Text.unifyLineEnds] using ih
  | case3 rest hpair ih =>
      rw [Text.unifyLineEnds.eq_3 _ hpair]
      simpa using ih
  | case4 c rest hpair hreturn ih =>
      rw [Text.unifyLineEnds.eq_4 _ _ hpair hreturn]
      simpa [eq_comm] using ⟨hreturn, ih⟩

theorem unifyLineEnds_eq_self {cs : List Char} (hcs : '\r' ∉ cs) : Text.unifyLineEnds cs = cs := by
  induction cs using Text.unifyLineEnds.induct with
  | case1 => rfl
  | case2 rest ih => exact absurd List.mem_cons_self hcs
  | case3 rest hpair ih => exact absurd List.mem_cons_self hcs
  | case4 c rest hpair hreturn ih =>
      have hrest := ih fun hmem => hcs (List.mem_cons_of_mem c hmem)
      rw [Text.unifyLineEnds.eq_4 _ _ hpair hreturn, hrest]

/-- Every character of a paragraph is one of the text, or a line feed between two of its lines. -/
theorem mem_of_mem_paragraphsFrom {paragraph cs : List Char} {feeds : Nat} {found : List Char}
    {c : Char} (hfound : found ∈ paragraphsFrom paragraph feeds cs) (hc : c ∈ found) :
    c = '\n' ∨ c ∈ paragraph ∨ c ∈ cs := by
  induction cs generalizing paragraph feeds with
  | nil =>
      cases List.mem_singleton.mp hfound
      rcases List.mem_append.mp (List.mem_reverse.mp hc) with hfeed | hread
      · exact .inl (List.eq_of_mem_replicate hfeed)
      · exact .inr (.inl hread)
  | cons first rest ih =>
      unfold paragraphsFrom at hfound
      split at hfound
      next =>
        rcases ih hfound with hfeed | hread | hrest
        · exact .inl hfeed
        · exact .inr (.inl hread)
        · exact .inr (.inr (List.mem_cons_of_mem _ hrest))
      next =>
        split at hfound
        next =>
          rcases List.mem_cons.mp hfound with rfl | hfound
          · exact .inr (.inl (List.mem_reverse.mp hc))
          · rcases ih hfound with hfeed | hread | hrest
            · exact .inl hfeed
            · exact .inr (.inr (List.mem_singleton.mp hread ▸ List.mem_cons_self))
            · exact .inr (.inr (List.mem_cons_of_mem _ hrest))
        next =>
          rcases ih hfound with hfeed | hread | hrest
          · exact .inl hfeed
          · rcases List.mem_cons.mp hread with rfl | hread
            · exact .inr (.inr List.mem_cons_self)
            · rcases List.mem_append.mp hread with hfeed | hread
              · exact .inl (List.eq_of_mem_replicate hfeed)
              · exact .inr (.inl hread)
          · exact .inr (.inr (List.mem_cons_of_mem _ hrest))

theorem not_mem_of_mem_split {text raw : String} (hraw : raw ∈ split text) : '\r' ∉ raw.toList := by
  intro hreturn
  simp only [split] at hraw
  split at hraw
  next => exact absurd hraw List.not_mem_nil
  next =>
    obtain ⟨found, hfound, rfl⟩ := List.mem_map.mp hraw
    rw [String.toList_ofList] at hreturn
    rcases mem_of_mem_paragraphsFrom hfound hreturn with hfeed | hread | htext
    · cases hfeed
    · cases hread
    · exact not_mem_unifyLineEnds _ ((Text.infix_trimWhere _ _).subset htext)

/-- A paragraph on one line, up to the blank line after it. -/
theorem paragraphsFrom_append {line : List Char} (hline : '\n' ∉ line) (read rest : List Char) :
    paragraphsFrom read 0 (line ++ rest) = paragraphsFrom (line.reverse ++ read) 0 rest := by
  induction line generalizing read with
  | nil => rfl
  | cons c others ih =>
      simp only [List.mem_cons, not_or] at hline
      rw [List.cons_append, paragraphsFrom, if_neg (Ne.symm hline.1), if_neg (by decide)]
      simp [ih hline.2]

/-- The character after a blank line begins a paragraph. -/
theorem paragraphsFrom_blankLine (read : List Char) {c : Char} (hc : c ≠ '\n') (rest : List Char) :
    paragraphsFrom read 0 ('\n' :: '\n' :: c :: rest) =
      read.reverse :: paragraphsFrom [] 0 (c :: rest) := by
  simp [paragraphsFrom, hc]

section Intercalate

theorem mem_intercalate {α : Type} {separator : List α} {parts : List (List α)} {a : α}
    (ha : a ∈ separator.intercalate parts) : a ∈ separator ∨ ∃ part ∈ parts, a ∈ part := by
  induction parts with
  | nil => cases ha
  | cons first rest ih =>
      cases rest with
      | nil =>
          rw [List.intercalate_singleton] at ha
          exact .inr ⟨first, List.mem_cons_self, ha⟩
      | cons second others =>
          rw [List.intercalate_cons_cons, List.mem_append, List.mem_append] at ha
          rcases ha with (hfirst | hseparator) | hrest
          · exact .inr ⟨first, List.mem_cons_self, hfirst⟩
          · exact .inl hseparator
          · rcases ih hrest with hseparator | ⟨part, hpart, ha⟩
            · exact .inl hseparator
            · exact .inr ⟨part, List.mem_cons_of_mem _ hpart, ha⟩

theorem head?_intercalate {α : Type} (separator : List α) {first : List α}
    (rest : List (List α)) (hne : first ≠ []) :
    (separator.intercalate (first :: rest)).head? = first.head? := by
  obtain ⟨a, others, rfl⟩ := List.exists_cons_of_ne_nil hne
  cases rest <;> simp

theorem getLast?_intercalate {α : Type} (separator : List α) (front : List (List α))
    {last : List α} (hne : last ≠ []) :
    (separator.intercalate (front ++ [last])).getLast? = last.getLast? := by
  induction front with
  | nil => simp
  | cons first rest ih =>
      obtain ⟨c, hc⟩ := Option.ne_none_iff_exists'.mp fun hnone =>
        hne (List.getLast?_eq_none_iff.mp hnone)
      rw [List.cons_append, List.intercalate_cons_of_ne_nil (by simp), List.getLast?_append, ih, hc,
        Option.some_or]

theorem paragraphsFrom_intercalate {lines : List (List Char)} (hne : lines ≠ [])
    (hlines : ∀ line ∈ lines, line ≠ [] ∧ '\n' ∉ line) :
    paragraphsFrom [] 0 (['\n', '\n'].intercalate lines) = lines := by
  induction lines with
  | nil => exact absurd rfl hne
  | cons first rest ih =>
      obtain ⟨-, hfirst⟩ := hlines first List.mem_cons_self
      cases rest with
      | nil => simpa [paragraphsFrom] using paragraphsFrom_append hfirst [] []
      | cons second others =>
          obtain ⟨hsecond, hfeed⟩ := hlines second (List.mem_cons_of_mem _ List.mem_cons_self)
          have hrest := ih (List.cons_ne_nil _ _) fun line hline =>
            hlines line (List.mem_cons_of_mem _ hline)
          have hhead := head?_intercalate ['\n', '\n'] others hsecond
          obtain ⟨c, letters, rfl⟩ := List.exists_cons_of_ne_nil hsecond
          obtain ⟨after, hafter⟩ := List.head?_eq_some_iff.mp hhead
          have hc : c ≠ '\n' := fun heq => hfeed (heq ▸ List.mem_cons_self)
          rw [hafter] at hrest
          rw [List.intercalate_cons_cons, List.append_assoc, paragraphsFrom_append hfirst, hafter,
            List.cons_append, List.cons_append, List.nil_append, paragraphsFrom_blankLine _ hc,
            hrest]
          simp

end Intercalate

/-- Paragraphs of one line are found again when blank lines stand between them. -/
theorem split_intercalate {paragraphs : List String}
    (hlines : ∀ line ∈ paragraphs, line ≠ "" ∧ '\n' ∉ line.toList ∧ '\r' ∉ line.toList) :
    split ("\n\n".intercalate paragraphs) = paragraphs := by
  have hparagraph : ∀ line ∈ paragraphs.map String.toList, line ≠ [] ∧ '\n' ∉ line := by
    intro line hline
    obtain ⟨text, htext, rfl⟩ := List.mem_map.mp hline
    obtain ⟨hne, hfeed, -⟩ := hlines text htext
    exact ⟨fun hnil => hne (String.toList_eq_nil_iff.mp hnil), hfeed⟩
  have hreturn : '\r' ∉ ("\n\n".intercalate paragraphs).toList := by
    rw [String.toList_intercalate]
    intro hmem
    rcases mem_intercalate hmem with hseparator | ⟨line, hline, hmem⟩
    · exact absurd hseparator (by decide)
    · obtain ⟨text, htext, rfl⟩ := List.mem_map.mp hline
      exact (hlines text htext).2.2 hmem
  have htrimmed : Text.trimWhere (· = '\n') ("\n\n".intercalate paragraphs).toList =
      ['\n', '\n'].intercalate (paragraphs.map String.toList) := by
    rw [String.toList_intercalate]
    refine Text.trimWhere_eq_self (fun c hc => ?_) fun c hc => ?_
    · cases hlist : paragraphs.map String.toList with
      | nil => rw [hlist] at hc; cases hc
      | cons first rest =>
          obtain ⟨hne, hfeed⟩ := hparagraph first (hlist ▸ List.mem_cons_self)
          rw [hlist, head?_intercalate _ _ hne] at hc
          exact decide_eq_false fun heq => hfeed (heq ▸ List.mem_of_mem_head? hc)
    · rcases List.eq_nil_or_concat (paragraphs.map String.toList) with hlist | ⟨front, last, hlist⟩
      · rw [hlist] at hc
        cases hc
      · obtain ⟨hne, hfeed⟩ := hparagraph last (by rw [hlist]; simp)
        rw [hlist, List.concat_eq_append, getLast?_intercalate _ _ hne] at hc
        exact decide_eq_false fun heq => hfeed (heq ▸ List.mem_of_getLast? hc)
  simp only [split]
  rw [unifyLineEnds_eq_self hreturn, htrimmed]
  cases paragraphs with
  | nil => rfl
  | cons first rest =>
      obtain ⟨c, others, hfirst⟩ := List.exists_cons_of_ne_nil
        (hparagraph first.toList (by simp)).1
      rw [if_neg, paragraphsFrom_intercalate (by simp) hparagraph, List.map_map]
      · simp [Function.comp_def]
      · intro hempty
        have hhead := head?_intercalate ['\n', '\n'] (rest.map String.toList)
          (hparagraph first.toList (by simp)).1
        rw [← List.map_cons, List.isEmpty_iff.mp hempty, hfirst] at hhead
        cases hhead

/-! ## Alphabets -/

/-- All characters of the text belong to the alphabet. -/
def Within (alphabet : List Char) (text : String) : Prop :=
  ∀ c ∈ text.toList, c ∈ alphabet

section Alphabets

variable {alphabet : List Char}

instance (alphabet : List Char) (text : String) : Decidable (Within alphabet text) :=
  List.decidableBAll (· ∈ alphabet) text.toList

theorem firstOutside?_eq_none_of_within {text : String} (htext : Within alphabet text) :
    firstOutside? alphabet text.toList = none := by
  have hnone : text.toList.findIdx? (fun c => !alphabet.contains c) = none := by
    rw [List.findIdx?_eq_none_iff]
    intro c hc
    simp [htext c hc]
  rw [firstOutside?, hnone, Option.bind_none]

theorem validate_of_within {text : String} (htext : Within alphabet text) (number : Int) :
    validate text alphabet number = .ok () := by
  simp only [validate, firstOutside?_eq_none_of_within htext]

theorem firstOutside?_append {front back : List Char} {c : Char}
    (hfront : ∀ d ∈ front, d ∈ alphabet) (hc : c ∉ alphabet) :
    firstOutside? alphabet (front ++ c :: back) = some (front.length, c) := by
  have hfind : (front ++ c :: back).findIdx? (fun d => !alphabet.contains d) =
      some front.length := by
    have hnone : front.findIdx? (fun d => !alphabet.contains d) = none := by
      rw [List.findIdx?_eq_none_iff]
      intro d hd
      simp [hfront d hd]
    rw [List.findIdx?_append, hnone, List.findIdx?_cons]
    simp [hc]
  rw [firstOutside?, hfind, Option.bind_some, List.getElem?_append_right (Nat.le_refl _)]
  simp

/-- The text around a fault is shown up to the width of the context on each side. -/
theorem validate_of_outside {text : String} {front back : List Char} {c : Char}
    (htext : text.toList = front ++ c :: back) (hfront : ∀ d ∈ front, d ∈ alphabet)
    (hc : c ∉ alphabet) (number : Int) :
    validate text alphabet number =
      .error (.corpus c number
        (String.ofList (front.rtake contextWidth ++ c :: back.take contextWidth))) := by
  have hwindow : ((front ++ c :: back).take (front.length + contextWidth + 1)).drop
      (front.length - contextWidth) = front.rtake contextWidth ++ c :: back.take contextWidth := by
    rw [Nat.add_assoc, List.take_length_add_append, List.take_succ_cons,
      List.drop_append_of_le_length (Nat.sub_le _ _), List.rtake]
  simp only [validate, htext, firstOutside?_append hfront hc, hwindow]

/-- Where every paragraph stays within the alphabet, all of them are loaded. -/
theorem loadFrom_of_within {raws : List String}
    (hraws : ∀ raw ∈ raws, Within alphabet (normalize raw)) (number : Nat) :
    loadFrom alphabet number raws = .ok ((raws.map normalize).filter (· ≠ "")) := by
  induction raws generalizing number with
  | nil => rfl
  | cons raw rest ih =>
      obtain ⟨hraw, hrest⟩ := List.forall_mem_cons.mp hraws
      have hload : loadFrom alphabet number (raw :: rest) =
          .ok (if (normalize raw).isEmpty then (rest.map normalize).filter (· ≠ "")
            else normalize raw :: (rest.map normalize).filter (· ≠ "")) := by
        simp only [loadFrom, validate_of_within hraw, ih hrest]
        rfl
      rw [hload, List.map_cons, List.filter_cons]
      by_cases hempty : normalize raw = ""
      · simp [hempty]
      · simp [hempty]

theorem loadFrom_of_outside {before after : List String} {raw : String} {fault : Fault}
    (hbefore : ∀ earlier ∈ before, Within alphabet (normalize earlier)) (number : Nat)
    (hraw : validate (normalize raw) alphabet (number + before.length : Nat) = .error fault) :
    loadFrom alphabet number (before ++ raw :: after) = .error fault := by
  induction before generalizing number with
  | nil =>
      simp only [List.nil_append, loadFrom]
      rw [List.length_nil, Nat.add_zero] at hraw
      rw [hraw]
      rfl
  | cons earlier others ih =>
      obtain ⟨hearlier, hothers⟩ := List.forall_mem_cons.mp hbefore
      have hrest := ih hothers (number + 1) (by
        rwa [Nat.add_assoc, Nat.add_comm 1, ← List.length_cons (a := earlier)])
      simp only [List.cons_append, loadFrom, validate_of_within hearlier, hrest]
      rfl

/-- A list splits at the first element that lacks a property not all of them have. -/
theorem exists_first_not {α : Type} {p : α → Prop} [DecidablePred p] {xs : List α}
    (hxs : ¬ ∀ x ∈ xs, p x) :
    ∃ before x after, xs = before ++ x :: after ∧ (∀ y ∈ before, p y) ∧ ¬ p x := by
  obtain ⟨x, hfound⟩ : ∃ x, xs.find? (fun y => !decide (p y)) = some x := by
    rw [← Option.isSome_iff_exists, List.find?_isSome]
    simpa using hxs
  obtain ⟨hx, before, after, heq, hbefore⟩ := List.find?_eq_some_iff_append.mp hfound
  exact ⟨before, x, after, heq, by simpa using hbefore, by simpa using hx⟩

/-! ## Loading -/

/-- A paragraph is ready for training: it is not empty, all its characters are of the alphabet, and
it is a line of words. -/
structure IsReady (alphabet : List Char) (paragraph : String) : Prop where
  ne_empty : paragraph ≠ ""
  within : Within alphabet paragraph
  normal : IsNormal paragraph.toList
  noReturn : '\r' ∉ paragraph.toList

theorem isReady_of_mem {text paragraph : String}
    (hwithin : ∀ raw ∈ split text, Within alphabet (normalize raw))
    (hparagraph : paragraph ∈ ((split text).map normalize).filter (· ≠ "")) :
    IsReady alphabet paragraph := by
  obtain ⟨hmem, hne⟩ := List.mem_filter.mp hparagraph
  obtain ⟨raw, hraw, rfl⟩ := List.mem_map.mp hmem
  refine ⟨of_decide_eq_true hne, hwithin raw hraw, isNormal_normalize raw, fun hreturn => ?_⟩
  rcases mem_of_mem_normalize hreturn with hmem | hspace | hhyphen
  · exact not_mem_of_mem_split hraw hmem
  · cases hspace
  · cases hhyphen

/-- What is ready for training is loaded as it is. -/
theorem load_intercalate {paragraphs : List String}
    (hready : ∀ paragraph ∈ paragraphs, IsReady alphabet paragraph) :
    load ("\n\n".intercalate paragraphs) alphabet = .ok paragraphs := by
  have hsplit : split ("\n\n".intercalate paragraphs) = paragraphs :=
    split_intercalate fun paragraph hmem =>
      have hparagraph := hready paragraph hmem
      ⟨hparagraph.ne_empty, fun hfeed => (hparagraph.normal.plain _ hfeed).1 rfl,
        hparagraph.noReturn⟩
  have hnormal : ∀ paragraph ∈ paragraphs, normalize paragraph = paragraph := fun paragraph hmem =>
    normalize_eq_self (hready paragraph hmem).normal
  have hkept : (paragraphs.map normalize).filter (· ≠ "") = paragraphs := by
    rw [List.map_congr_left hnormal, List.map_id']
    exact List.filter_eq_self.mpr fun paragraph hmem =>
      decide_eq_true (hready paragraph hmem).ne_empty
  rw [load, hsplit, loadFrom_of_within (fun raw hraw => ?_), hkept]
  rw [hnormal raw hraw]
  exact (hready raw hraw).within

/-- Loading a corpus makes clean paragraphs of it: those that stay are ready for training and are
loaded again as they are, and bringing a paragraph to one line a second time changes nothing. A
refusal names the first character outside the alphabet, the number of the paragraph it stands in
among all paragraphs of the text, and the text around it. -/
theorem load_projects (text : String) (alphabet : List Char) :
    (∀ raw : String, normalize (normalize raw) = normalize raw) ∧
      match load text alphabet with
      | .ok paragraphs =>
          paragraphs = ((split text).map normalize).filter (· ≠ "") ∧
            (∀ paragraph ∈ paragraphs, IsReady alphabet paragraph) ∧
              load ("\n\n".intercalate paragraphs) alphabet = .ok paragraphs
      | .error fault =>
          ∃ before raw after front c back,
            split text = before ++ raw :: after ∧
              (∀ earlier ∈ before, Within alphabet (normalize earlier)) ∧
                (normalize raw).toList = front ++ c :: back ∧ (∀ d ∈ front, d ∈ alphabet) ∧
                  c ∉ alphabet ∧
                    fault = .corpus c (before.length + 1 : Nat)
                      (String.ofList (front.rtake 20 ++ c :: back.take 20)) := by
  refine ⟨fun raw => normalize_eq_self (isNormal_normalize raw), ?_⟩
  by_cases hwithin : ∀ raw ∈ split text, Within alphabet (normalize raw)
  · have hready : ∀ paragraph ∈ ((split text).map normalize).filter (· ≠ ""),
        IsReady alphabet paragraph := fun paragraph hmem => isReady_of_mem hwithin hmem
    rw [load, loadFrom_of_within hwithin]
    exact ⟨rfl, hready, load_intercalate hready⟩
  · obtain ⟨before, raw, after, hsplit, hbefore, hraw⟩ := exists_first_not hwithin
    obtain ⟨front, c, back, hcs, hfront, hc⟩ := exists_first_not hraw
    rw [load, hsplit, loadFrom_of_outside hbefore 1 (validate_of_outside hcs hfront hc _)]
    refine ⟨before, raw, after, front, c, back, rfl, hbefore, hcs, hfront, hc, ?_⟩
    rw [Nat.add_comm]
    rfl

example : load "  a—\r\nb\n\n \t \n\nb\r\rab" ['a', 'b', '-', ' '] = .ok ["a-- b", "b", "ab"] := by
  rfl

end Alphabets

end Motif.Corpus
