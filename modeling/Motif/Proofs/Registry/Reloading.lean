import Motif.Proofs.Matching.Charts
import Motif.Proofs.Matching.Spelled
import Motif.Proofs.Matching.Trials
import Motif.Proofs.Registry.Tables

/-!
# Matching after a table has been read again

A registry that has been written as a table and read again need not have the same trees, but it
matches alike: every text gets the same chart.
-/

namespace Motif.Registry

open Chart (SameAt SameNodes)

variable {registry first second : Registry}

theorem Grounded.sameAt_self (hgrounded : registry.Grounded) (id : Int) :
    SameAt registry.grammar registry.grammar registry.depth registry.depth id := by
  have hdepths : registry.grammar.HasDepths registry.depth :=
    hasDepths hgrounded.coherent hgrounded.closed hgrounded.acyclic
  exact Chart.sameAt_of_roomIrrelevant hdepths fun pattern _ =>
    Chart.roomIrrelevant_of_layered hgrounded.layered hdepths pattern

/-- Trees that are alike are matched the same way if all patterns are to which they refer. -/
theorem Mirrored.sameNodes (hmirrored : Mirrored first second) {pattern other : Pattern}
    (hpattern : pattern ∈ first.patterns) (hother : other ∈ second.patterns)
    (halike : pattern.Alike other) {root again : Node} (hroot : pattern.content = .tree root)
    (hagain : other.content = .tree again)
    (hsame : ∀ id ∈ pattern.content.references,
      SameAt first.grammar second.grammar first.depth second.depth id) :
    SameNodes first.grammar second.grammar first.depth second.depth root again := by
  obtain ⟨hfirst, hsecond⟩ := hmirrored.filed
  have hphrases := hmirrored.phrases_eq hpattern hother halike hroot hagain
  obtain ⟨hplain, hcanonical⟩ := hfirst.sound.alternatives_eq
    (hfirst.coherent.mem_patterns_iff.mp hpattern) hroot
  obtain ⟨hplainAgain, hcanonicalAgain⟩ := hsecond.sound.alternatives_eq
    (hsecond.coherent.mem_patterns_iff.mp hother) hagain
  rw [hroot, hplain] at hsame
  -- Both trees are matched like the one as which the second registry reads their description.
  have hforth : SameNodes first.grammar second.grammar first.depth second.depth root
      (.plainGroup (Phrase.treesOfAlternatives second.scope.target
        (first.phrases true pattern.content.alternatives))) := by
    rw [hplain]
    refine Chart.sameNodes_spelled hcanonical.tight (fun id hid behind => ?_) hsame
    obtain ⟨found, hfound, hwritable⟩ := hfirst.legible pattern hpattern id hid
    obtain ⟨counterpart, hcounterpart, hlike⟩ := hmirrored.byId? hfound
    refine ⟨found.symbol, by simp [reference, hfound], ?_⟩
    rw [← hlike.symbol]
    exact (resolve_scope hsecond.coherent hsecond.named hcounterpart (hlike.writable hwritable)
      none 0).2
  have hback : SameNodes second.grammar second.grammar second.depth second.depth again
      (.plainGroup (Phrase.treesOfAlternatives second.scope.target
        (second.phrases true other.content.alternatives))) := by
    rw [hplainAgain]
    refine Chart.sameNodes_spelled hcanonicalAgain.tight (fun id hid behind => ?_)
      fun id _ => hsecond.grounded.sameAt_self id
    obtain ⟨found, hfound, hwritable⟩ := hsecond.legible other hother id hid
    refine ⟨found.symbol, by simp [reference, hfound], ?_⟩
    exact (resolve_scope hsecond.coherent hsecond.named hfound hwritable none 0).2
  rw [hphrases] at hback
  exact hforth.trans_symm hback

/-- Patterns that are alike are matched the same way in mirrored registries. -/
theorem Mirrored.sameAt (hmirrored : Mirrored first second) {id : Int}
    (hid : (first.byId? id).isSome) :
    SameAt first.grammar second.grammar first.depth second.depth id := by
  obtain ⟨hfirst, hsecond⟩ := hmirrored.filed
  refine hfirst.grounded.induction (motive := SameAt first.grammar second.grammar first.depth
    second.depth) (fun id pattern hpattern hbelow => ?_) hid
  obtain ⟨other, hother, halike⟩ := hmirrored.byId? hpattern
  have hdepth := hasDepths hfirst.coherent hfirst.grounded.closed hfirst.grounded.acyclic hpattern
  have hdepthOther :=
    hasDepths hsecond.coherent hsecond.grounded.closed hsecond.grounded.acyclic hother
  unfold SameAt
  rw [show first.grammar.find? id = some pattern from hpattern,
    show second.grammar.find? id = some other from hother, hdepth, hdepthOther]
  refine .some ⟨halike.id, fun room more hroom hmore => ?_⟩
  obtain ⟨room, rfl⟩ := Pattern.exists_room hroom
  obtain ⟨more, rfl⟩ := Pattern.exists_room hmore
  refine Chart.matchPattern_succ_eq halike.id halike.kind ?_
  cases hcontent : pattern.content with
  | literal text => exact halike.content.eq_literal hcontent
  | tree root =>
      obtain ⟨again, hagain⟩ := halike.content.exists_root hcontent
      rw [Pattern.depth, hcontent] at hroom
      rw [Pattern.depth, hagain] at hmore
      have hsame := hmirrored.sameNodes (hfirst.coherent.mem_patterns hpattern)
        (hsecond.coherent.mem_patterns hother) halike hcontent hagain
        fun below hmem => (hbelow below hmem).2
      exact ⟨again, hagain,
        (hsame (Nat.le_of_succ_le_succ hroom) (Nat.le_of_succ_le_succ hmore)).1⟩

theorem forM_eq_of_forall₂ {α β : Type} {monad : Type → Type} [Monad monad]
    {related : α → β → Prop} {xs : List α} {ys : List β} (hrelated : List.Forall₂ related xs ys)
    {first : α → monad PUnit} {second : β → monad PUnit}
    (hsame : ∀ x ∈ xs, ∀ y ∈ ys, related x y → first x = second y) :
    xs.forM first = ys.forM second := by
  induction hrelated with
  | nil => rfl
  | @cons x y xs ys hhead _ ih =>
      have hrest : xs.forM first = ys.forM second := ih fun x hx y hy =>
        hsame x (List.mem_cons_of_mem _ hx) y (List.mem_cons_of_mem _ hy)
      rw [List.forM_eq_forM, List.forM_eq_forM] at hrest ⊢
      rw [List.forM_cons, List.forM_cons, hrest,
        hsame x List.mem_cons_self y List.mem_cons_self hhead]

/-- Mirrored registries fill every chart alike if there is room for all depths in both. -/
theorem Mirrored.parse_eq (hmirrored : Mirrored first second) {maxDepth : Int}
    (hfirst : ∀ pattern ∈ first.patterns, pattern.depth first.depth ≤ Chart.roomFor maxDepth)
    (hsecond : ∀ pattern ∈ second.patterns, pattern.depth second.depth ≤ Chart.roomFor maxDepth)
    (text : String) : second.parse text maxDepth = first.parse text maxDepth := by
  obtain ⟨hfiled, hfiledAgain⟩ := hmirrored.filed
  have hall : ∀ position, Chart.tryAll first.grammar (Chart.roomFor maxDepth) position
        first.patterns =
      Chart.tryAll second.grammar (Chart.roomFor maxDepth) position second.patterns := by
    intro position
    refine forM_eq_of_forall₂ hmirrored.patterns fun pattern hpattern other hother halike => ?_
    have hfind := hfiled.coherent.mem_patterns_iff.mp hpattern
    have hfound := hfiledAgain.coherent.mem_patterns_iff.mp hother
    have hsame := hmirrored.sameAt (Option.isSome_of_eq_some hfind)
    rw [halike.id] at hfound
    unfold SameAt at hsame
    rw [show first.grammar.find? pattern.id = some pattern from hfind,
      show second.grammar.find? pattern.id = some other from hfound] at hsame
    cases hsame with
    | some hboth =>
        have hdepth := hasDepths hfiled.coherent hfiled.grounded.closed hfiled.grounded.acyclic
          hfind
        have hdepthAgain := hasDepths hfiledAgain.coherent hfiledAgain.grounded.closed
          hfiledAgain.grounded.acyclic hfound
        rw [hboth.2 (hdepth ▸ hfirst pattern hpattern) (hdepthAgain ▸ hsecond other hother),
          halike.id]
  rw [parse, parse, Chart.fill, Chart.fill]
  simp only [hall]

namespace Table

/-- A registry that has been read from a table, and has been written as one, is read again from
what has been written. Where no depth limit is reached, the two fill the same chart: the same tokens
in the same order at every position, with the same children, and everything else that a chart
holds. -/
theorem parse_reloaded {source table : String} (hread : (read source).run {} = (.ok (), registry))
    (hwrite : write registry = .ok table) :
    ∃ again, (read table).run {} = (.ok (), again) ∧ ∀ (text : String) (maxDepth : Int),
      Unreached (fun limit => registry.parse text limit) maxDepth →
      Unreached (fun limit => again.parse text limit) maxDepth →
      ∃ chart, registry.parse text maxDepth = .ok chart ∧
        again.parse text maxDepth = .ok chart := by
  obtain ⟨added, hfilled⟩ := filled_of_run_read hread
  have hfiled := hfilled.filed filed_empty
  have hshort : ∀ pattern ∈ registry.patterns,
      (Nat.toDigits 10 pattern.id.toNat).length ≤ Text.mostDigits := by
    intro pattern hpattern
    have hlength := length_toDigits_of_write hwrite hpattern
    have hnonneg := hfiled.nonneg hpattern
    rwa [show pattern.id.natAbs = pattern.id.toNat by omega] at hlength
  obtain ⟨again, hmirrored, hagain⟩ := hfilled.exists_read hshort
  obtain rfl : table = registry.tableText := by
    rw [hfiled.write_eq hshort] at hwrite
    exact (Except.ok.inj hwrite).symm
  refine ⟨again, hagain, fun text maxDepth hreached hreachedAgain => ?_⟩
  -- Some limit leaves room for all depths, and raising the limit to it changes neither parse.
  obtain ⟨limit, hlimit, hroom⟩ := exists_limit registry.patterns registry.depth maxDepth
  obtain ⟨greater, hgreater, hroomAgain⟩ := exists_limit again.patterns again.depth limit
  have hmost : maxDepth ≤ greater := hlimit.trans hgreater
  have hparse : again.parse text maxDepth = registry.parse text maxDepth :=
    calc again.parse text maxDepth
      _ = again.parse text greater := (hreachedAgain greater hmost).symm
      _ = registry.parse text greater :=
        hmirrored.parse_eq (fun pattern hpattern => (hroom pattern hpattern).trans
          (roomFor_le_roomFor hgreater)) hroomAgain text
      _ = registry.parse text maxDepth := hreached greater hmost
  obtain ⟨chart, hchart, -⟩ := hfiled.grounded.closed.exists_parse text maxDepth
  exact ⟨chart, hchart, hparse.trans hchart⟩

/-- The depth limit leaves room for all patterns of a registry that has been read. -/
theorem unreached_of_read {source : String} (hread : (read source).run {} = (.ok (), registry))
    {maxDepth : Int}
    (hdepth : ∀ pattern ∈ registry.patterns, pattern.depth registry.depth ≤ Chart.roomFor maxDepth)
    (text : String) : Unreached (fun limit => registry.parse text limit) maxDepth := by
  obtain ⟨added, hfilled⟩ := filled_of_run_read hread
  obtain ⟨hcoherent, hclosed, hacyclic⟩ := (hfilled.filed filed_empty).grounded
  exact unreached_parse hcoherent hclosed hacyclic hdepth text

/-- The sample repeats a group around a single reference, which its description leaves out. -/
theorem parse_reloaded_sample :
    ∃ registry table again, (read sample).run {} = (.ok (), registry) ∧
      write registry = .ok table ∧ (read table).run {} = (.ok (), again) ∧
        Unreached (fun limit => registry.parse "aaaaa" limit) 256 ∧
          Unreached (fun limit => again.parse "aaaaa" limit) 256 ∧
            ∃ chart, registry.parse "aaaaa" 256 = .ok chart ∧
              again.parse "aaaaa" 256 = .ok chart := by
  have hrun : (match (read sample).run {} with
      | (.ok _, registry) => match write registry with
        | .ok table => match (read table).run {} with
          | (.ok _, again) => decide (
            (∀ pattern ∈ registry.patterns,
              pattern.depth registry.depth ≤ Chart.roomFor 256) ∧
            ∀ pattern ∈ again.patterns, pattern.depth again.depth ≤ Chart.roomFor 256)
          | _ => false
        | _ => false
      | _ => false) = true := by
    decide +kernel
  split at hrun
  next registry hread =>
    split at hrun
    next table hwrite =>
      split at hrun
      next again hagain =>
        obtain ⟨hdepth, hdepthAgain⟩ := of_decide_eq_true hrun
        obtain ⟨mirror, hmirror, hparse⟩ := parse_reloaded hread hwrite
        obtain rfl : mirror = again := by
          rw [hagain] at hmirror
          exact (congrArg Prod.snd hmirror).symm
        have hreached := unreached_of_read hread hdepth "aaaaa"
        have hreachedAgain := unreached_of_read hagain hdepthAgain "aaaaa"
        exact ⟨registry, table, mirror, hread, hwrite, hagain, hreached, hreachedAgain,
          hparse "aaaaa" 256 hreached hreachedAgain⟩
      next => cases hrun
    next => cases hrun
  next => cases hrun

end Table

end Motif.Registry
