import Mathlib.Data.List.Pairwise
import Motif.Proofs.Matching.Growth
import Motif.Proofs.Survey.Stretches

/-!
# Searching for stretches

Stretches are looked for from left to right. What begins inside a stretch that has been found
before, under the same key, is passed over; else the stretch that it begins is added if it is
wanted. So the stretches of a key are apart from each other, and everything that begins a wanted
stretch begins inside one that is found.
-/

namespace Motif.Chart

variable {text : Array Char} {active : List Cell} {chart : Chart}

/-! ## Tokens in turn -/

/-- The id whose turn it is after so many tokens. -/
def turn (next other : Int) : Nat → Int
  | 0 => next
  | count + 1 => turn other next count

@[simp]
theorem turn_self (id : Int) (count : Nat) : turn id id count = id := by
  induction count with
  | zero => rfl
  | succ count ih => exact ih

/-- The tokens of a stretch stand one after another without a gap, and two patterns take turns in
them. -/
structure InTurn (chart : Chart) (next other : Int) (stretch : Stretch) : Prop where
  tiles : Tiles chart stretch.start stretch.tokens stretch.stop
  id_eq : ∀ place token, stretch.tokens[place]? = some token → token.id = turn next other place

section Following

variable (hchart : Indexed text active chart)
include hchart

theorem Indexed.head?_eq_some_of_mem {token : Token} (hmem : token ∈ chart.tokens) :
    chart.head? token.start token.id = some token ∧ 0 ≤ token.start :=
  have hhead := hchart.mem_tokens_iff.mp hmem
  ⟨hhead, (hchart.fits (hchart.head?_eq_some_iff.mp hhead).1).start_nonneg⟩

/-- What follows in turn from a position on are tokens without a gap, and where they end there is
none of the pattern whose turn it is. -/
theorem Indexed.tiles_followFrom {next other position : Int} (hnonneg : 0 ≤ position)
    {tokens : List Token} (htokens : chart.followFrom next other position = tokens) :
    Tiles chart position tokens (endOf position tokens) ∧
      (∀ place token, tokens[place]? = some token → token.id = turn next other place) ∧
      chart.head? (endOf position tokens) (turn next other tokens.length) = none := by
  induction tokens generalizing position next other with
  | nil =>
      rw [hchart.followFrom_eq hnonneg] at htokens
      refine ⟨rfl, by simp, ?_⟩
      rw [endOf]
      cases hhead : chart.head? position next with
      | none => exact hhead
      | some token =>
          rw [hhead] at htokens
          cases htokens
  | cons token rest ih =>
      rw [hchart.followFrom_eq hnonneg] at htokens
      cases hhead : chart.head? position next with
      | none =>
          rw [hhead] at htokens
          cases htokens
      | some found =>
          rw [hhead] at htokens
          obtain ⟨rfl, hrest⟩ := List.cons.inj htokens
          have hstop := (hchart.stop_of_head? hhead).1
          obtain ⟨houtcome, hlength⟩ := hchart.head?_eq_some_iff.mp hhead
          have hfits := hchart.fits houtcome
          obtain ⟨htiles, hids, hend⟩ := ih (by omega) hrest
          refine ⟨⟨?_, hlength, hfits.start_eq, htiles⟩, ?_, hend⟩
          · rwa [hchart.mem_tokens_iff, hfits.id_eq, hfits.start_eq]
          · intro place token htoken
            cases place with
            | zero =>
                obtain rfl := Option.some.inj htoken
                exact hfits.id_eq
            | succ place => exact hids place token htoken

/-- Tokens in turn are the first of those that can be followed from where they start. -/
theorem Indexed.prefix_followFrom {next other position stop : Int} {tokens : List Token}
    (htiles : Tiles chart position tokens stop)
    (hids : ∀ place token, tokens[place]? = some token → token.id = turn next other place) :
    tokens <+: chart.followFrom next other position := by
  induction tokens generalizing position next other with
  | nil => exact List.nil_prefix
  | cons token rest ih =>
      obtain ⟨hmem, -, rfl, hrest⟩ := htiles
      obtain rfl : token.id = next := hids 0 token rfl
      rw [hchart.followFrom_of_mem hmem, List.cons_prefix_cons]
      exact ⟨rfl, ih hrest fun place => hids (place + 1)⟩

/-- All that follows in turn from a token is a stretch in turn, and where it ends no token of the
pattern whose turn it is starts. -/
theorem Leads.inTurn {first : Token} {other : Int} {stretch : Stretch}
    (hleads : chart.Leads first other stretch) :
    chart.InTurn first.id other stretch ∧ ∀ token ∈ chart.tokens,
      token.id = turn first.id other stretch.count → token.start ≠ stretch.stop := by
  obtain ⟨-, hnonneg⟩ := hchart.head?_eq_some_of_mem hleads.mem_tokens
  obtain ⟨htiles, hids, hend⟩ := hchart.tiles_followFrom hnonneg rfl
  rw [← hleads.stop_eq hchart] at htiles hend
  rw [← hleads.tokens_eq] at htiles hids hend
  refine ⟨⟨?_, hids⟩, fun token htoken hid hstart => ?_⟩
  · rwa [hleads.start_eq hchart]
  · rw [hchart.mem_tokens_iff, hid, hstart] at htoken
    rw [Stretch.count, hend] at htoken
    cases htoken

theorem Leads.start_lt_stop {first : Token} {other : Int} {stretch : Stretch}
    (hleads : chart.Leads first other stretch) : stretch.start < stretch.stop := by
  have htiles := (hleads.inTurn hchart).1.tiles
  have hle := htiles.le
  have hne : stretch.start ≠ stretch.stop := fun heq => by
    have hnil := htiles.eq_nil_iff.mpr heq
    rw [hleads.exists_tokens hchart] at hnil
    cases hnil
  omega

end Following

/-! ## Looking from left to right -/

/-- How stretches are looked for: with which token an item begins, under which key it is looked for,
and the stretch that it begins, if that is wanted. -/
structure Search (ι κ : Type) where
  first : ι → Token
  key : ι → κ
  stretch? : ι → Option Stretch

namespace Search

variable {ι κ : Type} {cmp : κ → κ → Ordering} {search : Search ι κ} {seen : List ι}
  {found : StretchMap κ cmp} {item : ι}

/-- What has been found, with the stretch that an item begins if it is wanted and the item does not
begin inside one found before. -/
def add (search : Search ι κ) (found : StretchMap κ cmp) (item : ι) : StretchMap κ cmp :=
  if isInside (search.first item) (found.getD (search.key item) []) then found
  else
    match search.stretch? item with
    | none => found
    | some stretch => found.update (search.key item) [] (· ++ [stretch])

/-- The stretch that an item begins, if it is wanted, starts with the item and is not empty. -/
def Sound (search : Search ι κ) (item : ι) : Prop :=
  ∀ stretch, search.stretch? item = some stretch →
    stretch.start = (search.first item).start ∧ stretch.start < stretch.stop

/-- What has been found when the items of a list have been looked at: wanted stretches of items of
the list, apart from each other. An item that begins a wanted stretch begins inside one of them. -/
structure Gathers (search : Search ι κ) (seen : List ι) (found : StretchMap κ cmp) : Prop where
  exists_item : ∀ key, ∀ stretch ∈ found.getD key [],
    ∃ item ∈ seen, search.key item = key ∧ search.stretch? item = some stretch
  apart : ∀ key, (found.getD key []).Pairwise fun first second => first.stop ≤ second.start
  covers : ∀ item ∈ seen, (search.stretch? item).isSome →
    ∃ stretch ∈ found.getD (search.key item) [],
      stretch.start ≤ (search.first item).start ∧ (search.first item).start < stretch.stop

variable [Std.TransCmp cmp]

theorem gathers_empty (search : Search ι κ) : search.Gathers [] ({} : StretchMap κ cmp) where
  exists_item key stretch hstretch := by
    rw [ArrivalMap.getD_empty] at hstretch
    cases hstretch
  apart key := by
    rw [ArrivalMap.getD_empty]
    exact .nil
  covers item hitem := by cases hitem

theorem findsSome_add (hfound : FindsSome found) (item : ι) :
    FindsSome (search.add found item) := by
  unfold add
  split
  · exact hfound
  · split
    · exact hfound
    · exact hfound.update _ _

/-- Some stretch is found under each key. -/
theorem findsSome_foldl (search : Search ι κ) (items : List ι) :
    FindsSome (items.foldl search.add ({} : StretchMap κ cmp)) :=
  List.foldlRecOn _ _ findsSome_empty fun _ hfound item _ => findsSome_add hfound item

section Gathering

variable (hgathers : search.Gathers seen found)
include hgathers

omit [Std.TransCmp cmp] in
/-- An item need not be looked at if it begins no wanted stretch or begins inside one found
before. -/
theorem Gathers.pass (hcovered : (search.stretch? item).isSome →
      ∃ stretch ∈ found.getD (search.key item) [],
        stretch.start ≤ (search.first item).start ∧ (search.first item).start < stretch.stop) :
    search.Gathers (seen ++ [item]) found where
  exists_item key stretch hstretch := by
    obtain ⟨earlier, hearlier, hrest⟩ := hgathers.exists_item key stretch hstretch
    exact ⟨earlier, List.mem_append_left _ hearlier, hrest⟩
  apart := hgathers.apart
  covers other hother hwanted := by
    rcases List.mem_append.mp hother with hold | hnew
    · exact hgathers.covers other hold hwanted
    · obtain rfl := List.mem_singleton.mp hnew
      exact hcovered hwanted

variable [Std.LawfulEqCmp cmp] [DecidableEq κ] (hsound : search.Sound item)
include hsound

/-- The stretch that an item begins after all others is found. -/
theorem Gathers.update {stretch : Stretch} (hstretch : search.stretch? item = some stretch)
    (hafter : ∀ other ∈ found.getD (search.key item) [],
      other.stop ≤ (search.first item).start) :
    search.Gathers (seen ++ [item]) (found.update (search.key item) [] (· ++ [stretch])) where
  exists_item key other hother := by
    rw [ArrivalMap.getD_update] at hother
    split at hother
    next hkey =>
      rcases List.mem_append.mp hother with hold | hnew
      · obtain ⟨earlier, hearlier, hrest⟩ := hgathers.exists_item key other hold
        exact ⟨earlier, List.mem_append_left _ hearlier, hrest⟩
      · obtain rfl := List.mem_singleton.mp hnew
        exact ⟨item, by simp, hkey, hstretch⟩
    next =>
      obtain ⟨earlier, hearlier, hrest⟩ := hgathers.exists_item key other hother
      exact ⟨earlier, List.mem_append_left _ hearlier, hrest⟩
  apart key := by
    rw [ArrivalMap.getD_update]
    split
    next hkey =>
      rw [List.pairwise_append]
      refine ⟨hgathers.apart key, List.pairwise_singleton _ _, fun other hother last hlast => ?_⟩
      obtain rfl := List.mem_singleton.mp hlast
      rw [(hsound _ hstretch).1]
      exact hafter other (hkey ▸ hother)
    next => exact hgathers.apart key
  covers other hother hwanted := by
    have hmore : ∀ earlier ∈ found.getD (search.key other) [], earlier ∈
        (found.update (search.key item) [] (· ++ [stretch])).getD (search.key other) [] := by
      intro earlier hearlier
      rw [ArrivalMap.getD_update]
      split
      · exact List.mem_append_left _ hearlier
      · exact hearlier
    rcases List.mem_append.mp hother with hold | hnew
    · obtain ⟨earlier, hearlier, hinside⟩ := hgathers.covers other hold hwanted
      exact ⟨earlier, hmore earlier hearlier, hinside⟩
    · obtain rfl := List.mem_singleton.mp hnew
      obtain ⟨hstart, hlt⟩ := hsound stretch hstretch
      exact ⟨stretch, by simp [ArrivalMap.getD_update], hstart.le, hstart ▸ hlt⟩

/-- One more item is looked at. It begins no earlier than those before it, so a stretch that ends
after its beginning has it inside. -/
theorem Gathers.add (hbefore : ∀ other ∈ seen, search.Sound other)
    (hlatest : ∀ other ∈ seen, (search.first other).start ≤ (search.first item).start) :
    search.Gathers (seen ++ [item]) (search.add found item) := by
  unfold Search.add isInside
  split
  next hinside =>
    obtain ⟨stretch, hstretch, hstop⟩ := List.any_eq_true.mp hinside
    obtain ⟨earlier, hearlier, -, hwanted⟩ := hgathers.exists_item _ stretch hstretch
    refine hgathers.pass fun _ => ⟨stretch, hstretch, ?_, of_decide_eq_true hstop⟩
    rw [(hbefore earlier hearlier stretch hwanted).1]
    exact hlatest earlier hearlier
  next houtside =>
    have hafter : ∀ other ∈ found.getD (search.key item) [],
        other.stop ≤ (search.first item).start := by
      intro other hother
      by_contra hlt
      exact houtside (List.any_eq_true.mpr ⟨other, hother, decide_eq_true (not_le.mp hlt)⟩)
    split
    next hnone => exact hgathers.pass fun hwanted => by simp [hnone] at hwanted
    next stretch hstretch => exact hgathers.update hsound hstretch hafter

end Gathering

/-- All items are looked at, in the order in which they begin. -/
theorem gathers_foldl [Std.LawfulEqCmp cmp] [DecidableEq κ]
    (hsound : ∀ item ∈ seen, search.Sound item)
    (hsorted : seen.Pairwise fun first second =>
      (search.first first).start ≤ (search.first second).start) :
    search.Gathers seen (seen.foldl search.add ({} : StretchMap κ cmp)) := by
  induction seen using List.reverseRecOn with
  | nil => exact gathers_empty search
  | append_singleton earlier item ih =>
      obtain ⟨hearlier, -, hlatest⟩ := List.pairwise_append.mp hsorted
      have hbefore : ∀ other ∈ earlier, search.Sound other := fun other hother =>
        hsound other (List.mem_append_left _ hother)
      rw [List.foldl_append]
      exact (ih hbefore hearlier).add (hsound item (by simp)) hbefore
        fun other hother => hlatest other hother item (by simp)

end Search

/-- A place lies in at most one of several stretches that are apart. -/
theorem eq_of_inside {stretches : List Stretch}
    (hapart : stretches.Pairwise fun first second => first.stop ≤ second.start)
    {first second : Stretch} (hfirst : first ∈ stretches) (hsecond : second ∈ stretches)
    {place : Int} (hinside : first.start ≤ place ∧ place < first.stop)
    (hother : second.start ≤ place ∧ place < second.stop) : first = second := by
  by_contra hne
  have : Std.Symm fun first second : Stretch =>
    first.stop ≤ second.start ∨ second.stop ≤ first.start := ⟨fun _ _ => Or.symm⟩
  have hpairs : stretches.Pairwise fun first second =>
      first.stop ≤ second.start ∨ second.stop ≤ first.start :=
    hapart.imp Or.inl
  rcases hpairs.forall hfirst hsecond hne with hle | hle <;> omega

end Motif.Chart
