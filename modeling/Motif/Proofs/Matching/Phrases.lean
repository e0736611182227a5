import Motif.Proofs.Matching.LookBehind
import Motif.Proofs.Node.Spelling

/-!
# What phrases match

The phrases that spell a tree can be matched in its place: an atom is a word, and what stands
between parentheses is matched there. They reach as far as the tree does, if whatever stands for a
reference reaches as far as the reference and a group that looks behind finds what it would match
forwards.
-/

namespace Motif

/-- How far something reaches, regardless of the tokens. -/
def Chart.Reach.bare (reach : Chart.Reach) : Chart.Reach :=
  ⟨reach.stop, []⟩

namespace Evaluation

open Chart (Reach)

/-- Something that is matched from an earlier position ends at this one. -/
def EndsAt (once : Int → Option Reach) (stop : Int) : Prop :=
  ∃ start ∈ positionsBefore stop, (once start).map Reach.stop = some stop

instance (once : Int → Option Reach) (stop : Int) : Decidable (EndsAt once stop) :=
  inferInstanceAs
    (Decidable (∃ start ∈ positionsBefore stop, (once start).map Reach.stop = some stop))

/-- A node or a phrase, given what one submatch of it is. -/
def decorated (size : Nat) (quantity : Quantity) (look : Look) (once : Int → Option Reach)
    (start : Int) : Option Reach :=
  if look = .behind then lookedBehind quantity (EndsAt once start) start
  else quantified size quantity look once start

end Evaluation

namespace Phrase

open Chart (Reach)
open Evaluation

/- How far the word of a symbol reaches from a position, in a text of so many characters. -/
variable (word : Symbol → Int → Option Reach) (size : Nat)

mutual

/-- How far a phrase reaches from a position. -/
def reach : Phrase → Int → Option Reach
  | atom symbol quantity look, start => decorated size quantity look (word symbol) start
  | parens alternatives quantity look, start =>
    decorated size quantity look (fun position => reachAlternatives alternatives position) start

/-- How far the phrases of a sequence reach one after another. -/
def reachSequence : List Phrase → Int → Option Reach
  | [], start => some ⟨start, []⟩
  | phrase :: rest, start => (reach phrase start).bind fun found => reachSequence rest found.stop

/-- How far the first alternative reaches that matches as a whole. -/
def reachAlternatives : List (List Phrase) → Int → Option Reach
  | [], _ => none
  | sequence :: rest, start => (reachSequence sequence start).or (reachAlternatives rest start)

end

end Phrase

namespace Evaluation

open Chart (Reach)

variable {size : Nat} {once other : Int → Option Reach}

/-! ## Submatches without tokens -/

theorem greedy_bare (tries : Nat) (needed start : Int) :
    (greedy once tries needed start).map Reach.bare =
      greedy (fun position => (once position).map Reach.bare) tries needed start := by
  induction tries generalizing needed start with
  | zero =>
      rw [greedy, greedy]
      split <;> rfl
  | succ tries ih =>
      rw [greedy, greedy]
      cases honce : once start with
      | none =>
          dsimp only [Option.map_none]
          split <;> rfl
      | some found =>
          dsimp only [Option.map_some]
          change _ = if found.stop = start then _ else _
          split
          next => rfl
          next =>
            rw [← ih, Option.map_map]
            change _ =
              Option.map _ (Option.map Reach.bare (greedy once tries (needed - 1) found.stop))
            rw [Option.map_map]
            rfl

theorem quantified_bare (quantity : Quantity) (look : Look) (start : Int) :
    (quantified size quantity look once start).map Reach.bare =
      quantified size quantity look (fun position => (once position).map Reach.bare) start := by
  unfold quantified
  rw [← greedy_bare]
  split
  next =>
    dsimp only
    cases once start <;> rfl
  next =>
    cases greedy once (room quantity size) quantity.least start with
    | none => rfl
    | some found =>
        dsimp only [Option.map_some]
        split <;> rfl

theorem lookedBehind_bare (quantity : Quantity) (found : Prop) [Decidable found] (start : Int) :
    (lookedBehind quantity found start).map Reach.bare = lookedBehind quantity found start := by
  unfold lookedBehind
  split <;> split <;> rfl

/-- There are no tokens in any reach. -/
def IsBare (once : Int → Option Reach) : Prop :=
  ∀ position, (once position).map Reach.bare = once position

theorem IsBare.decorated (hbare : IsBare once) (quantity : Quantity) (look : Look) :
    IsBare (decorated size quantity look once) := by
  intro start
  unfold Evaluation.decorated
  split
  next => exact lookedBehind_bare _ _ _
  next =>
    rw [quantified_bare]
    simp only [hbare _]

/-- One submatch that is required is matched as it is. -/
theorem greedy_one (hbare : IsBare once) (start : Int) : greedy once 1 1 start = once start := by
  have hone := hbare start
  cases honce : once start with
  | none => simp [greedy, honce]
  | some found =>
      rw [honce] at hone
      have hfound : found = ⟨found.stop, []⟩ := (Option.some.inj hone).symm
      have hchildren : found.children = [] := congrArg Reach.children hfound
      by_cases hstop : found.stop = start
      · rw [← hstop] at honce ⊢
        simpa [greedy, honce] using hfound.symm
      · simpa [greedy, honce, hstop, hchildren] using hfound.symm

/-- Without quantity and look a submatch is matched as it is. -/
theorem decorated_plain (hbare : IsBare once) (start : Int) :
    decorated size .once .here once start = once start := by
  have honce : greedy once (room .once size) Quantity.once.least start = once start :=
    greedy_one hbare start
  unfold decorated quantified
  rw [if_neg (by decide), if_neg (by decide), honce]
  cases once start <;> rfl

theorem greedy_congr (hsame : ∀ position : Int, 0 ≤ position → position ≤ size →
      once position = other position) (hadvances : Advances size other) (tries : Nat)
    (needed : Int) {start : Int} (hnonneg : 0 ≤ start) (hsize : start ≤ size) :
    greedy once tries needed start = greedy other tries needed start := by
  induction tries generalizing needed start with
  | zero => rfl
  | succ tries ih =>
      rw [greedy, greedy, hsame start hnonneg hsize]
      cases hother : other start with
      | none => rfl
      | some found =>
          obtain ⟨hlow, hhigh⟩ := hadvances hsize hother
          dsimp only
          rw [ih (needed - 1) (by omega) hhigh]

theorem quantified_congr (hsame : ∀ position : Int, 0 ≤ position → position ≤ size →
      once position = other position) (hadvances : Advances size other) (quantity : Quantity)
    (look : Look) {start : Int} (hnonneg : 0 ≤ start) (hsize : start ≤ size) :
    quantified size quantity look once start = quantified size quantity look other start := by
  unfold quantified
  rw [hsame start hnonneg hsize, greedy_congr hsame hadvances _ _ hnonneg hsize]

theorem Advances.bare (hadvances : Advances size once) :
    Advances size fun position => (once position).map Reach.bare := by
  intro start reach hstart hreach
  obtain ⟨found, hfound, rfl⟩ := Option.map_eq_some_iff.mp hreach
  have hbounds := hadvances hstart hfound
  exact hbounds

end Evaluation

namespace Phrase

open Chart (Reach)
open Evaluation

variable {word : Symbol → Int → Option Reach} {size : Nat}

/-! ## Parentheses -/

theorem isBare_reachSequence (sequence : List Phrase) :
    IsBare (reachSequence word size sequence) := by
  induction sequence with
  | nil => exact fun _ => rfl
  | cons phrase rest ih =>
      intro start
      rw [reachSequence]
      cases reach word size phrase start with
      | none => rfl
      | some found => exact ih found.stop

theorem isBare_reachAlternatives (alternatives : List (List Phrase)) :
    IsBare (reachAlternatives word size alternatives) := by
  induction alternatives with
  | nil => exact fun _ => rfl
  | cons sequence rest ih =>
      intro start
      have hfirst : IsBare (reachSequence word size sequence) := isBare_reachSequence sequence
      have hhere := hfirst start
      rw [reachAlternatives]
      cases hreach : reachSequence word size sequence start with
      | none => exact ih start
      | some found =>
          rw [hreach] at hhere
          exact hhere

theorem reachSequence_append (first second : List Phrase) (start : Int) :
    reachSequence word size (first ++ second) start =
      (reachSequence word size first start).bind fun found =>
        reachSequence word size second found.stop := by
  induction first generalizing start with
  | nil => rfl
  | cons phrase rest ih =>
      rw [List.cons_append, reachSequence, reachSequence]
      cases reach word size phrase start with
      | none => rfl
      | some found => exact ih found.stop

theorem reachSequence_singleton (phrase : Phrase) (start : Int) :
    reachSequence word size [phrase] start = (reach word size phrase start).map Reach.bare := by
  rw [reachSequence]
  cases reach word size phrase start <;> rfl

theorem reachAlternatives_singleton (sequence : List Phrase) :
    reachAlternatives word size [sequence] = reachSequence word size sequence := by
  funext start
  rw [reachAlternatives, reachAlternatives, Option.or_none]

theorem isBare_reach (hword : ∀ symbol, IsBare (word symbol)) (phrase : Phrase) :
    IsBare (reach word size phrase) := by
  cases phrase with
  | atom symbol quantity look =>
      intro start
      rw [reach]
      exact (hword symbol).decorated quantity look start
  | parens alternatives quantity look =>
      intro start
      rw [reach]
      exact (isBare_reachAlternatives alternatives).decorated quantity look start

/-- A plain phrase takes a quantity and a look as parentheses around it would. -/
theorem reach_decorate (hword : ∀ symbol, IsBare (word symbol)) {phrase : Phrase}
    (hplain : phrase.IsPlain) (quantity : Quantity) (look : Look) (start : Int) :
    reach word size (phrase.decorate quantity look) start =
      decorated size quantity look (reachAlternatives word size [[phrase]]) start := by
  have hinside : reachAlternatives word size [[phrase]] = reach word size phrase := by
    funext position
    rw [reachAlternatives_singleton, reachSequence_singleton]
    exact isBare_reach hword phrase position
  rw [hinside]
  obtain ⟨symbol, rfl⟩ | ⟨inner, rfl⟩ := hplain.cases
  · have hatom : reach word size (atom symbol .once .here) = word symbol := by
      funext position
      rw [reach, decorated_plain (hword symbol)]
    rw [hatom, decorate, reach]
  · have hparens : reach word size (parens inner .once .here) =
        reachAlternatives word size inner := by
      funext position
      rw [reach, decorated_plain (isBare_reachAlternatives inner)]
    rw [hparens, decorate, reach]

/-- The phrases of a group reach as far as its alternatives with its quantity and look. -/
theorem reachSequence_wrap (hword : ∀ symbol, IsBare (word symbol))
    (alternatives : List (List Phrase)) (quantity : Quantity) (look : Look) (start : Int) :
    reachSequence word size (wrap alternatives quantity look) start =
      decorated size quantity look (reachAlternatives word size alternatives) start := by
  have hparens : reachSequence word size [parens alternatives quantity look] start =
      decorated size quantity look (reachAlternatives word size alternatives) start := by
    rw [reachSequence_singleton, isBare_reach hword, reach]
  by_cases hplain : quantity = .once ∧ look = .here
  · obtain ⟨rfl, rfl⟩ := hplain
    by_cases hsingle : ∃ sequence, alternatives = [sequence]
    · obtain ⟨sequence, rfl⟩ := hsingle
      rw [wrap_singleton, decorated_plain (isBare_reachAlternatives _), reachAlternatives_singleton]
    · rw [wrap_of_not_singleton hsingle, hparens]
  · by_cases hsingle : ∃ phrase, alternatives = [[phrase]] ∧ phrase.IsPlain
    · obtain ⟨phrase, rfl, hphrase⟩ := hsingle
      rw [wrap_of_plain hplain hphrase, reachSequence_singleton, isBare_reach hword,
        reach_decorate hword hphrase]
    · rw [wrap_of_decorated hplain hsingle, hparens]

theorem reachAlternatives_unwrapped (alternatives : List (List Phrase)) :
    reachAlternatives word size (unwrapped alternatives) =
      reachAlternatives word size alternatives := by
  induction alternatives using unwrapped.induct with
  | case1 inner ih =>
      rw [unwrapped, ih]
      funext start
      rw [reachAlternatives_singleton, reachSequence_singleton, reach]
      have hbare : IsBare (reachAlternatives word size inner) := isBare_reachAlternatives inner
      change _ =
        (decorated size .once .here (reachAlternatives word size inner) start).map Reach.bare
      rw [decorated_plain hbare, hbare start]
  | case2 alternatives hother => rw [unwrapped.eq_2 _ hother]

end Phrase

namespace Evaluation

open Chart (Reach)
open Node (Everywhere spell spellSequence spellAlternatives)
open Phrase (reach reachSequence reachAlternatives)

variable {word : Symbol → Int → Option Reach} {size : Nat} {token : Int → Int → Option Token}
  {leaf : Int → List (List Phrase)}

/-! ## Spelled trees -/

/-- What stands for a reference reaches as far as its tokens. -/
def Stands (word : Symbol → Int → Option Reach) (size : Nat) (token : Int → Int → Option Token)
    (leaf : Int → List (List Phrase)) (id : Int) : Prop :=
  ∀ position : Int, 0 ≤ position → position ≤ size →
    reachAlternatives word size (leaf id) position =
      ((token id position).map ofToken).map Reach.bare

/-- If the node is a group that looks behind, it finds what it would match from an earlier position
on. -/
def LooksBehindForwards (token : Int → Int → Option Token) (size : Nat) : Node → Prop
  | .group alternatives _ .behind => ∀ stop : Int, stop ≤ size →
    (EndsAt (evalAlternatives token size alternatives) stop ↔
      startsOfAlternatives token alternatives stop ≠ [])
  | _ => True

theorem mem_positionsBefore {start stop : Int} :
    start ∈ positionsBefore stop ↔ 0 ≤ start ∧ start < stop := by
  rw [positionsBefore, List.mem_map]
  constructor
  · rintro ⟨place, hplace, rfl⟩
    have hlt := List.mem_range.mp hplace
    change 0 ≤ (place : Int) ∧ (place : Int) < stop
    omega
  · rintro ⟨hnonneg, hlt⟩
    exact ⟨start.toNat, List.mem_range.mpr (by omega), Int.toNat_of_nonneg hnonneg⟩

/-- Where something ends does not depend on its tokens. -/
theorem endsAt_congr {once other : Int → Option Reach} {stop : Int} (hsize : stop ≤ size)
    (hsame : ∀ position : Int, 0 ≤ position → position ≤ size →
      once position = (other position).map Reach.bare) :
    EndsAt once stop ↔ EndsAt other stop := by
  unfold EndsAt
  refine exists_congr fun start => and_congr_right fun hstart => ?_
  obtain ⟨hnonneg, hlt⟩ := mem_positionsBefore.mp hstart
  rw [hsame start hnonneg (by omega), Option.map_map]
  rfl

theorem stop_of_bare_ofToken {found : Option Token} {stop : Int} :
    ((found.map ofToken).map Reach.bare).map Reach.stop = some stop ↔
      ∃ token, found = some token ∧ token.stop = stop := by
  cases found with
  | none => simp
  | some token => simp [ofToken, Reach.bare]

/-- Looking behind at a reference and at what stands for it comes to the same. -/
theorem endsAt_leaf_iff {id : Int} (hstands : Stands word size token leaf id) {stop : Int}
    (hsize : stop ≤ size) (quantity : Quantity) (look : Look) :
    EndsAt (reachAlternatives word size (leaf id)) stop ↔
      starts token (.ref id quantity look) stop ≠ [] := by
  constructor
  · rintro ⟨start, hstart, hstop⟩
    obtain ⟨hnonneg, hlt⟩ := mem_positionsBefore.mp hstart
    rw [hstands start hnonneg (by omega)] at hstop
    exact List.ne_nil_of_mem
      (mem_starts_ref.mpr ⟨hnonneg, hlt, stop_of_bare_ofToken.mp hstop⟩)
  · intro hstarts
    obtain ⟨start, hstart⟩ := List.exists_mem_of_ne_nil _ hstarts
    obtain ⟨hnonneg, hlt, hfound⟩ := mem_starts_ref.mp hstart
    refine ⟨start, mem_positionsBefore.mpr ⟨hnonneg, hlt⟩, ?_⟩
    rw [hstands start hnonneg (by omega)]
    exact stop_of_bare_ofToken.mpr hfound

theorem reachSequence_spellSequence {sequence : List Node}
    (hadvances : ∀ node ∈ sequence, Advances size (evalNode token size node))
    (hnode : ∀ node ∈ sequence, ∀ start : Int, 0 ≤ start → start ≤ size →
      reachSequence word size (spell (fun _ => leaf) false node) start =
        (evalNode token size node start).map Reach.bare)
    {start : Int} (hnonneg : 0 ≤ start) (hsize : start ≤ size) :
    reachSequence word size (spellSequence (fun _ => leaf) false sequence) start =
      (evalSequence token size sequence start).map Reach.bare := by
  induction sequence generalizing start with
  | nil => rfl
  | cons first rest ih =>
      rw [spellSequence, Phrase.reachSequence_append,
        hnode first List.mem_cons_self start hnonneg hsize, evalSequence]
      cases hfirst : evalNode token size first start with
      | none => rfl
      | some found =>
          obtain ⟨hlow, hhigh⟩ := hadvances first List.mem_cons_self hsize hfirst
          have hrest := ih (fun node hmem => hadvances node (List.mem_cons_of_mem _ hmem))
            (fun node hmem => hnode node (List.mem_cons_of_mem _ hmem)) (hnonneg.trans hlow) hhigh
          dsimp only [Option.map_some, Option.bind_some, Reach.bare]
          rw [hrest]
          cases evalSequence token size rest found.stop <;> rfl

theorem reachAlternatives_spellAlternatives {alternatives : List (List Node)}
    (hadvances : ∀ sequence ∈ alternatives, ∀ node ∈ sequence,
      Advances size (evalNode token size node))
    (hnode : ∀ sequence ∈ alternatives, ∀ node ∈ sequence, ∀ start : Int, 0 ≤ start → start ≤ size →
      reachSequence word size (spell (fun _ => leaf) false node) start =
        (evalNode token size node start).map Reach.bare)
    {start : Int} (hnonneg : 0 ≤ start) (hsize : start ≤ size) :
    reachAlternatives word size (spellAlternatives (fun _ => leaf) false alternatives) start =
      (evalAlternatives token size alternatives start).map Reach.bare := by
  induction alternatives with
  | nil => rfl
  | cons first rest ih =>
      rw [spellAlternatives, reachAlternatives, evalAlternatives,
        reachSequence_spellSequence (hadvances first List.mem_cons_self)
          (hnode first List.mem_cons_self) hnonneg hsize,
        ih (fun sequence hmem => hadvances sequence (List.mem_cons_of_mem _ hmem))
          fun sequence hmem => hnode sequence (List.mem_cons_of_mem _ hmem)]
      cases evalSequence token size first start <;> rfl

/-- The phrases of a node reach as far as the node. -/
theorem reachSequence_spell (hword : ∀ symbol, IsBare (word symbol)) (node : Node)
    (hbehind : Everywhere (LooksBehindForwards token size) node)
    (hadvances : ∀ id ∈ node.references, Advances size fun position =>
      (token id position).map ofToken)
    (hstands : ∀ id ∈ node.references, Stands word size token leaf id) {start : Int}
    (hnonneg : 0 ≤ start) (hsize : start ≤ size) :
    reachSequence word size (spell (fun _ => leaf) false node) start =
      (evalNode token size node start).map Reach.bare := by
  induction node using Node.memberInduction generalizing start with
  | ref id quantity look =>
      have hleaf := hstands id (by simp)
      rw [spell, Phrase.reachSequence_wrap hword, evalNode, decorated]
      split
      next =>
        rw [lookedBehind_bare]
        unfold lookedBehind
        simp only [endsAt_leaf_iff hleaf hsize quantity look]
      next =>
        rw [quantified_bare]
        exact quantified_congr hleaf (hadvances id (by simp)).bare _ _ hnonneg hsize
  | group alternatives quantity look ih =>
      obtain ⟨hhere, hbelow⟩ := Node.everywhere_group_iff.mp hbehind
      have hinside : ∀ sequence ∈ alternatives, ∀ node ∈ sequence, ∀ id ∈ node.references,
          id ∈ (Node.group alternatives quantity look).references :=
        fun sequence hsequence node hnode id hid =>
          Node.mem_references_group.mpr ⟨sequence, hsequence, node, hnode, hid⟩
      have hnodes : ∀ sequence ∈ alternatives, ∀ node ∈ sequence,
          Advances size (evalNode token size node) := fun sequence hsequence node hnode =>
        advances_evalNode node fun id hid =>
          hadvances id (hinside sequence hsequence node hnode id hid)
      have hspelled : ∀ position : Int, 0 ≤ position → position ≤ size →
          reachAlternatives word size (spellAlternatives (fun _ => leaf) false alternatives)
              position =
            (evalAlternatives token size alternatives position).map Reach.bare := by
        intro position hlow hhigh
        apply reachAlternatives_spellAlternatives hnodes ?_ hlow hhigh
        intro sequence hsequence node hnode start hnonneg hsize
        exact ih sequence hsequence node hnode (hbelow sequence hsequence node hnode)
          (fun id hid => hadvances id (hinside sequence hsequence node hnode id hid))
          (fun id hid => hstands id (hinside sequence hsequence node hnode id hid)) hnonneg hsize
      rw [spell, Phrase.reachSequence_wrap hword, evalNode, decorated,
        Node.spellAlternatives_of_uniform leaf _ false]
      split
      next hlook =>
        -- Only here do the two go different ways: a node is gone back through, phrases are tried
        -- forwards from every start.
        subst hlook
        have hfound : EndsAt (evalAlternatives token size alternatives) start ↔
            startsOfAlternatives token alternatives start ≠ [] := hhere start hsize
        rw [lookedBehind_bare]
        unfold lookedBehind
        simp only [endsAt_congr hsize hspelled, hfound]
      next =>
        rw [quantified_bare]
        exact quantified_congr hspelled (advances_evalAlternatives hnodes).bare _ _ hnonneg hsize

end Evaluation

end Motif
