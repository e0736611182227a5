import Motif.Proofs.Matching.Indices
import Motif.Survey.Runs

/-!
# Stretches of a chart

Following two patterns in turn goes from token to token by their places in the chart, and the bound
on the number of tokens is immaterial. Every repetition and every alternation that is found is all
that can be followed from where it starts.
-/

namespace Motif

namespace ArrivalMap

variable {κ ν : Type} {cmp : κ → κ → Ordering}

/-- The list of a map has exactly its keys with their values. -/
theorem mem_toList_iff [Std.TransCmp cmp] [Std.LawfulEqCmp cmp] {map : ArrivalMap κ ν cmp}
    {key : κ} {value : ν} : (key, value) ∈ map.toList ↔ map.get? key = some value := by
  simp [toList, get?, Std.TreeMap.mem_toList_iff_getElem?_eq_some]

theorem get?_empty [Std.TransCmp cmp] (key : κ) : (({} : ArrivalMap κ ν cmp)).get? key = none := by
  rw [get?, Std.TreeMap.getElem?_emptyc]
  rfl

theorem getD_empty [Std.TransCmp cmp] (key : κ) (fallback : ν) :
    (({} : ArrivalMap κ ν cmp)).getD key fallback = fallback := by
  rw [getD, get?_empty, Option.getD_none]

theorem getD_update [Std.TransCmp cmp] [Std.LawfulEqCmp cmp] [DecidableEq κ]
    (map : ArrivalMap κ ν cmp) (key other : κ) (fallback : ν) (change : ν → ν) :
    (map.update key fallback change).getD other fallback =
      if key = other then change (map.getD other fallback) else map.getD other fallback := by
  rw [getD, get?_update]
  by_cases hkey : key = other
  · rw [if_pos (Std.LawfulEqCmp.compare_eq_iff_eq.mpr hkey), if_pos hkey, hkey, Option.getD_some]
  · rw [if_neg fun heq => hkey (Std.LawfulEqCmp.eq_of_compare heq), if_neg hkey, getD]

end ArrivalMap

namespace Chart

/-- Where tokens end that stand one after another from a position on. -/
def endOf : Int → List Token → Int
  | position, [] => position
  | _, token :: rest => endOf token.stop rest

end Chart

namespace Stretch

theorem stop_eq_getLast (first : Token) (rest : List Token) :
    (⟨first :: rest⟩ : Stretch).stop = ((first :: rest).getLast (List.cons_ne_nil _ _)).stop := by
  simp only [stop, length, start, List.getLast?_eq_some_getLast (List.cons_ne_nil first rest)]
  omega

/-- A stretch ends where its tokens end. -/
theorem stop_eq_endOf (first : Token) (rest : List Token) :
    (⟨first :: rest⟩ : Stretch).stop = Chart.endOf first.start (first :: rest) := by
  rw [stop_eq_getLast, Chart.endOf]
  induction rest generalizing first with
  | nil => rfl
  | cons second others ih => rw [List.getLast_cons_cons, ih, Chart.endOf]

end Stretch

namespace Chart

variable {text : Array Char} {active : List Cell} {chart : Chart}

/-- The tokens at a position of the text are those in its slot. -/
theorem startingAt_eq_slotAt {position : Int} (hnonneg : 0 ≤ position) :
    chart.startingAt position = slotAt chart.heads position := by
  rw [startingAt, slot?, if_pos hnonneg, slotAt, if_pos hnonneg]
  by_cases hsize : position < chart.heads.size
  · rw [if_pos hsize]
  · have hbeyond : chart.heads.size ≤ position.toNat := by omega
    simp [hsize, hbeyond]

theorem Indexed.start_of_mem_slot (hchart : Indexed text active chart) {place : Nat}
    (hplace : place < chart.heads.toList.length) {token : Token}
    (htoken : token ∈ chart.heads.toList[place]) : token.start = place := by
  have hinside : place < chart.heads.size := by simpa using hplace
  rw [Array.getElem_toList, ← slotAt_eq_getElem hinside, hchart.mem_heads_iff] at htoken
  exact htoken.2

/-- The slots of a chart stand in the order of the positions at which their tokens start. -/
theorem Indexed.pairwise_start_tokens (hchart : Indexed text active chart) :
    chart.tokens.Pairwise fun first second => first.start ≤ second.start := by
  rw [tokens, List.pairwise_flatten]
  constructor
  · intro slot hslot
    obtain ⟨place, hplace, rfl⟩ := List.getElem_of_mem hslot
    refine List.pairwise_of_forall_mem_list fun first hfirst second hsecond => ?_
    rw [hchart.start_of_mem_slot hplace hfirst, hchart.start_of_mem_slot hplace hsecond]
  · rw [List.pairwise_iff_getElem]
    intro place other hplace hother hlt first hfirst second hsecond
    rw [hchart.start_of_mem_slot hplace hfirst, hchart.start_of_mem_slot hother hsecond]
    omega

/-- No token is in a chart twice. -/
theorem Indexed.nodup_tokens (hchart : Indexed text active chart) : chart.tokens.Nodup := by
  rw [tokens, List.nodup_flatten]
  constructor
  · intro slot hslot
    obtain ⟨place, hplace, rfl⟩ := List.getElem_of_mem hslot
    have hinside : place < chart.heads.size := by simpa using hplace
    rw [Array.getElem_toList, ← slotAt_eq_getElem hinside]
    exact (hchart.nodup_heads place).of_map
  · rw [List.pairwise_iff_getElem]
    intro place other hplace hother hlt token hfirst hsecond
    have hstart := hchart.start_of_mem_slot hplace hfirst
    rw [hchart.start_of_mem_slot hother hsecond] at hstart
    omega

/-- The tokens at a position are the tokens of the chart that start there. -/
theorem Indexed.perm_startingAt (hchart : Indexed text active chart) {position : Int}
    (hnonneg : 0 ≤ position) :
    (chart.startingAt position).Perm (chart.tokens.filter fun token => token.start = position) := by
  rw [startingAt_eq_slotAt hnonneg]
  have hnodup := (hchart.nodup_heads position).of_map
  rw [List.perm_ext_iff_of_nodup hnodup (hchart.nodup_tokens.filter _)]
  intro token
  rw [hchart.mem_heads_iff, List.mem_filter, decide_eq_true_iff]

/-- The token of a pattern at a position of a chart is the one in the slot of the position. -/
theorem ofPattern?_startingAt {position : Int} (hnonneg : 0 ≤ position) (id : Int) :
    ofPattern? id (chart.startingAt position) = chart.head? position id := by
  rw [startingAt_eq_slotAt hnonneg, head?]

section Following

variable (hchart : Indexed text active chart)
include hchart

theorem Indexed.stop_of_head? {position id : Int} {token : Token}
    (hhead : chart.head? position id = some token) :
    position < token.stop ∧ token.stop ≤ chart.size := by
  obtain ⟨houtcome, hlength⟩ := hchart.head?_eq_some_iff.mp hhead
  have hfits := hchart.fits houtcome
  have hstart := hfits.start_eq
  have hstop := hfits.stop_le
  unfold Token.stop at hstop ⊢
  rw [size, hchart.text_eq]
  omega

theorem Indexed.head?_eq_none {position : Int} (hbeyond : chart.size ≤ position) (id : Int) :
    chart.head? position id = none := by
  rw [Option.eq_none_iff_forall_ne_some]
  intro token htoken
  have hstop := hchart.stop_of_head? htoken
  omega

/-- Beyond what is left of the text the bound on the number of tokens does not matter. -/
theorem Indexed.follow_congr {bound other : Nat} {position : Int} (hnonneg : 0 ≤ position)
    (hbound : chart.size - position ≤ bound) (hother : chart.size - position ≤ other)
    (next last : Int) :
    chart.follow next last bound position = chart.follow next last other position := by
  induction bound generalizing other position next last with
  | zero =>
      cases other with
      | zero => rfl
      | succ other =>
          rw [follow, follow, ofPattern?_startingAt hnonneg, hchart.head?_eq_none (by omega)]
  | succ bound ih =>
      cases other with
      | zero => rw [follow, follow, ofPattern?_startingAt hnonneg, hchart.head?_eq_none (by omega)]
      | succ other =>
          rw [follow, follow, ofPattern?_startingAt hnonneg]
          cases hhead : chart.head? position next with
          | none => rfl
          | some token =>
              have hstop := hchart.stop_of_head? hhead
              dsimp only
              rw [ih (by omega) (by omega : chart.size - token.stop ≤ bound)
                (by omega : chart.size - token.stop ≤ other)]

/-- What follows from a position is the token there, if any, and what follows from its end with the
patterns changing places. -/
theorem Indexed.followFrom_eq {position : Int} (hnonneg : 0 ≤ position) (next other : Int) :
    chart.followFrom next other position =
      match chart.head? position next with
      | none => []
      | some token => token :: chart.followFrom other next token.stop := by
  have hmore : chart.followFrom next other position =
      chart.follow next other ((chart.size - position).toNat + 1) position :=
    hchart.follow_congr hnonneg (by omega) (by omega) next other
  rw [hmore, follow, ofPattern?_startingAt hnonneg]
  cases hhead : chart.head? position next with
  | none => rfl
  | some token =>
      have hstop := hchart.stop_of_head? hhead
      dsimp only
      rw [followFrom, hchart.follow_congr (by omega) (by omega)
        (by omega : chart.size - token.stop ≤ (chart.size - token.stop).toNat)]

end Following

theorem length_follow_le (next other : Int) (bound : Nat) (position : Int) :
    (chart.follow next other bound position).length ≤ bound := by
  induction bound generalizing position next other with
  | zero => simp [follow]
  | succ bound ih =>
      rw [follow]
      split
      · simp
      · simpa using ih _ _ _

/-! ## What is found -/

/-- Every stretch that has been found has a property, which may depend on its key. -/
def FindsOnly {κ : Type} {cmp : κ → κ → Ordering} (holds : κ → Stretch → Prop)
    (found : StretchMap κ cmp) : Prop :=
  ∀ key stretches, found.get? key = some stretches → ∀ stretch ∈ stretches, holds key stretch

section Found

variable {κ : Type} {cmp : κ → κ → Ordering} {holds : κ → Stretch → Prop}
  {found : StretchMap κ cmp}

theorem findsOnly_empty [Std.TransCmp cmp] : FindsOnly holds ({} : StretchMap κ cmp) := by
  intro key stretches hget
  rw [ArrivalMap.get?_empty] at hget
  cases hget

theorem FindsOnly.update [Std.TransCmp cmp] [Std.LawfulEqCmp cmp] (hfound : FindsOnly holds found)
    {key : κ} {stretch : Stretch} (hstretch : holds key stretch) :
    FindsOnly holds (found.update key [] (· ++ [stretch])) := by
  intro other stretches hget member hmember
  rw [ArrivalMap.get?_update] at hget
  split at hget
  next hkey =>
    obtain rfl : key = other := Std.LawfulEqCmp.eq_of_compare hkey
    cases hget
    rcases List.mem_append.mp hmember with hold | hnew
    · cases hkeyed : found.get? key with
      | none => simp [ArrivalMap.getD, hkeyed] at hold
      | some stretches =>
          simp only [ArrivalMap.getD, hkeyed, Option.getD_some] at hold
          exact hfound key stretches hkeyed member hold
    · obtain rfl := List.mem_singleton.mp hnew
      exact hstretch
  next => exact hfound other stretches hget member hmember

/-- Some stretch has been found under each key. -/
def FindsSome {κ : Type} {cmp : κ → κ → Ordering} (found : StretchMap κ cmp) : Prop :=
  ∀ key stretches, found.get? key = some stretches → stretches ≠ []

theorem findsSome_empty [Std.TransCmp cmp] : FindsSome ({} : StretchMap κ cmp) := by
  intro key stretches hget
  rw [ArrivalMap.get?_empty] at hget
  cases hget

theorem FindsSome.update [Std.TransCmp cmp] (hfound : FindsSome found) (key : κ)
    (stretch : Stretch) : FindsSome (found.update key [] (· ++ [stretch])) := by
  intro other stretches hget
  rw [ArrivalMap.get?_update] at hget
  split at hget
  next =>
    cases hget
    simp
  next => exact hfound other stretches hget

end Found

theorem repetitions_findsSome (chart : Chart) : FindsSome chart.repetitions := by
  refine List.foldlRecOn _ _ findsSome_empty fun found hfound first _ => ?_
  unfold addRepetition
  split
  · exact hfound
  · split
    · exact hfound
    · exact hfound.update _ _

/-- A stretch is all that follows from its first token when the pattern of that token and another
one take turns. -/
structure Leads (chart : Chart) (first : Token) (other : Int) (stretch : Stretch) : Prop where
  mem_tokens : first ∈ chart.tokens
  tokens_eq : stretch.tokens = chart.followFrom first.id other first.start

section Leading

variable (hchart : Indexed text active chart)
include hchart

/-- What follows from the start of a token is the token and what follows from its end. -/
theorem Indexed.followFrom_of_mem {token : Token} (hmem : token ∈ chart.tokens) (other : Int) :
    chart.followFrom token.id other token.start =
      token :: chart.followFrom other token.id token.stop := by
  have hhead := hchart.mem_tokens_iff.mp hmem
  have hnonneg := (hchart.fits (hchart.head?_eq_some_iff.mp hhead).1).start_nonneg
  rw [hchart.followFrom_eq hnonneg, hhead]

theorem Leads.exists_tokens {first : Token} {other : Int} {stretch : Stretch}
    (hleads : chart.Leads first other stretch) :
    stretch = ⟨first :: chart.followFrom other first.id first.stop⟩ := by
  have htokens := hleads.tokens_eq
  rw [hchart.followFrom_of_mem hleads.mem_tokens] at htokens
  rw [← htokens]

theorem Leads.start_eq {first : Token} {other : Int} {stretch : Stretch}
    (hleads : chart.Leads first other stretch) : stretch.start = first.start := by
  rw [hleads.exists_tokens hchart, Stretch.start]

theorem Leads.stop_eq {first : Token} {other : Int} {stretch : Stretch}
    (hleads : chart.Leads first other stretch) :
    stretch.stop = endOf first.start (chart.followFrom first.id other first.start) := by
  rw [hchart.followFrom_of_mem hleads.mem_tokens, hleads.exists_tokens hchart,
    Stretch.stop_eq_endOf]

/-- Every repetition that is found is all that follows from a token of its pattern. -/
theorem Indexed.repetitions_lead :
    FindsOnly (fun id stretch => ∃ first, first.id = id ∧ chart.Leads first id stretch)
      chart.repetitions := by
  refine List.foldlRecOn _ _ findsOnly_empty fun found hfound first hfirst => ?_
  unfold addRepetition
  split
  · exact hfound
  · split
    · exact hfound
    · refine hfound.update ⟨first, rfl, hfirst, ?_⟩
      exact (hchart.followFrom_of_mem hfirst first.id).symm

/-- Two tokens of different patterns next to each other, and a stretch that is all that follows from
the first of them, under the key of the patterns. -/
structure Alternates (chart : Chart) (key : Cell) (stretch : Stretch) (first second : Token) :
    Prop where
  leads : chart.Leads first second.id stretch
  next : second ∈ chart.tokens ∧ second.start = first.stop
  other : first.id ≠ second.id
  key_eq : key = (min first.id second.id, max first.id second.id)

theorem Alternates.exists_tokens {key : Cell} {stretch : Stretch} {first second : Token}
    (halternates : chart.Alternates key stretch first second) :
    ∃ rest, stretch = ⟨first :: second :: rest⟩ := by
  have hrest := hchart.followFrom_of_mem halternates.next.1 first.id
  rw [halternates.next.2] at hrest
  refine ⟨chart.followFrom first.id second.id second.stop, ?_⟩
  rw [halternates.leads.exists_tokens hchart, hrest]

/-- Every alternation that is found begins with two tokens and is all that follows from them. -/
theorem Indexed.alternations_alternate (minTokens : Int) :
    FindsOnly (fun key stretch => ∃ first second, chart.Alternates key stretch first second)
      (chart.alternations minTokens) := by
  refine List.foldlRecOn _ _ findsOnly_empty fun found hfound first hfirst => ?_
  have hhead := hchart.mem_tokens_iff.mp hfirst
  have hnonneg : 0 ≤ first.stop := by
    have hstart := (hchart.fits (hchart.head?_eq_some_iff.mp hhead).1).start_nonneg
    have hstop := (hchart.stop_of_head? hhead).1
    omega
  unfold addAlternations
  split
  · exact hfound
  · rw [startingAt_eq_slotAt hnonneg]
    dsimp only
    split
    · exact hfound
    next hrepeated =>
      refine List.foldlRecOn _ _ hfound fun found hfound second hsecond => ?_
      have hother : first.id ≠ second.id := by
        intro hid
        apply hrepeated
        rw [ofPattern?, List.find?_isSome]
        exact ⟨second, hsecond, by simp [hid]⟩
      have hnext := hchart.mem_heads_iff.mp hsecond
      unfold addAlternation
      dsimp only
      split
      · exact hfound
      · split
        · refine hfound.update ⟨first, second, ⟨hfirst, ?_⟩, hnext, hother, rfl⟩
          rw [hchart.followFrom_of_mem hfirst, ← hnext.2, hchart.followFrom_of_mem hnext.1]
        · exact hfound

end Leading

end Chart

end Motif
