import Motif.Proofs.Registry.Curating
import Motif.Proofs.Registry.Experiments
import Motif.Proofs.Registry.RoundTrip
import Motif.Proofs.Registry.Tables

/-!
# Rebuilding registries

A curated registry is read from its table with the same ids, names, kinds and literals. Its trees
have lost their superfluous groups, which makes them cost less; all other trees are the same again.
-/

namespace Motif.Registry

open Node (plainGroup)

variable {registry copy again : Registry} {pattern : Pattern}

theorem Coherent.byId?_eq_some_iff_mem (hcoherent : registry.Coherent) {id : Int} :
    registry.byId? id = some pattern ↔ pattern ∈ registry.patterns ∧ pattern.id = id := by
  constructor
  · exact fun hpattern => ⟨hcoherent.mem_patterns hpattern, hcoherent.id_eq hpattern⟩
  · rintro ⟨hmem, rfl⟩
    exact hcoherent.mem_patterns_iff.mp hmem

/-! ## Copies that rows could have filled -/

theorem Filled.concat {first second : Registry} {added : List Pattern}
    (hfilled : Filled first added second) (hadmits : second.Admits pattern) :
    Filled first (added ++ [pattern]) (second.extend pattern) := by
  induction hfilled with
  | nil => exact .cons hadmits (.nil _)
  | cons hfirst _ ih => exact .cons hfirst (ih hadmits)

theorem Tabled.legible (htabled : registry.Tabled)
    (hids : ∀ pattern ∈ registry.patterns, pattern.id < 10 ^ 9) : registry.Legible := by
  intro pattern hpattern
  refine htabled.toOrderly.names (fun found hfound name hname => ?_) hids
    (htabled.sound.knows (htabled.coherent.mem_patterns_iff.mp hpattern))
  have htabular := htabled.tabular found hfound
  exact ⟨(htabular.name name hname).1, htabular.ne_lineFeed hname⟩

theorem Tabled.filed (htabled : registry.Tabled) (hlegible : registry.Legible) :
    registry.Filed where
  toConsistent := htabled.toConsistent
  tabular := htabled.tabular
  legible := hlegible
  owned name serial hname := by
    refine htabled.registered_of_named name serial ?_
    exact (lookup_eq_some_iff_mem htabled.nodup_names).mp hname

section Admitting

variable (htabled : registry.Tabled) {earlier later : List (Serial × Pattern)}
  {entry : Serial × Pattern} (hregistered : registry.registered = earlier ++ entry :: later)
  (hfilled : Filled {} (earlier.map Prod.snd) copy)
include htabled hregistered hfilled

/-- What rows have filled with the patterns registered before one has those patterns only. -/
theorem Tabled.exists_earlier {found : Pattern} (hfound : found ∈ copy.patterns) :
    ∃ serial < entry.1, (serial, found) ∈ registry.registered := by
  have hpatterns : copy.patterns = earlier.map Prod.snd := hfilled.patterns filed_empty
  rw [hpatterns] at hfound
  obtain ⟨other, hother, rfl⟩ := List.mem_map.mp hfound
  have hordered := htabled.toTidy.pairwise_registered
  rw [hregistered] at hordered ⊢
  have hlower := (List.pairwise_append.mp hordered).2.2 other hother entry List.mem_cons_self
  exact ⟨other.1, hlower, List.mem_append_left _ hother⟩

theorem Tabled.serialOf?_eq_none : copy.serialOf? entry.2.id = none := by
  have hfiled := hfilled.filed filed_empty
  have hmem : entry ∈ registry.registered := by simp [hregistered]
  rw [Option.eq_none_iff_forall_ne_some]
  intro serial hserial
  have hentry := hfiled.coherent.serialOf?_eq_some_iff.mp hserial
  obtain ⟨found, hfound, hid⟩ := hfiled.coherent.exists_pattern hentry
  obtain ⟨place, hplace, hplaced⟩ := htabled.exists_earlier hregistered hfilled
    (hfiled.coherent.mem_patterns_of_entry hentry hfound)
  have hfirst := htabled.coherent.serialOf?_eq_some_iff.mpr
    (htabled.coherent.mem_entries_of_registered hplaced)
  rw [hid, htabled.coherent.serialOf?_eq_some_iff.mpr
    (htabled.coherent.mem_entries_of_registered hmem)] at hfirst
  exact absurd hplace (Option.some.inj hfirst ▸ Nat.lt_irrefl _)

theorem Tabled.named?_eq_none {name : String} (hname : entry.2.name = some name) :
    copy.named? name = none := by
  have hfiled := hfilled.filed filed_empty
  have hmem : entry ∈ registry.registered := by simp [hregistered]
  have hwellFormed := htabled.toTidy.wellFormed
  rw [Option.eq_none_iff_forall_ne_some]
  intro serial hserial
  obtain ⟨found, hfound, hserialFound, hnamed⟩ := hfiled.owned name serial hserial
  obtain ⟨place, hplace, hplaced⟩ := htabled.exists_earlier hregistered hfilled
    (hfiled.coherent.mem_patterns_of_entry hfound hserialFound)
  have hfirst := (hwellFormed.named?_eq_some_iff name place).mpr ⟨found, hplaced, hnamed⟩
  rw [(hwellFormed.named?_eq_some_iff name entry.1).mpr ⟨entry.2, hmem, hname⟩] at hfirst
  exact absurd hplace (Option.some.inj hfirst ▸ Nat.lt_irrefl _)

theorem Tabled.exists_target {id : Int} (hid : id ∈ entry.2.content.references) :
    ∃ target, registry.byId? id = some target ∧ copy.byId? id = some target := by
  have hfiled := hfilled.filed filed_empty
  obtain ⟨target, htarget, hfound⟩ :=
    htabled.toTidy.wellFormed.resolves earlier entry later hregistered id hid
  refine ⟨target.2, hfound, ?_⟩
  rw [← htabled.coherent.id_eq hfound, ← hfiled.coherent.mem_patterns_iff,
    hfilled.patterns filed_empty]
  exact List.mem_map_of_mem htarget

/-- A registry that rows have filled with what was registered earlier admits the next pattern. -/
theorem Tabled.admits (hlegible : registry.Legible) : copy.Admits entry.2 := by
  have hmem : entry ∈ registry.registered := by simp [hregistered]
  have hpattern := (mem_registered hmem).2
  have hentry := htabled.coherent.mem_entries_of_registered hmem
  refine ⟨(htabled.bounded _ _ hentry).1, htabled.serialOf?_eq_none hregistered hfilled,
    fun name hname => htabled.named?_eq_none hregistered hfilled hname,
    ⟨fun id hid => ?_, htabled.canonical _ hpattern⟩, fun id hid => ?_, htabled.tabular _ hpattern⟩
  · obtain ⟨target, -, htarget⟩ := htabled.exists_target hregistered hfilled hid
    exact Option.isSome_of_eq_some htarget
  · obtain ⟨target, hfound, htarget⟩ :=
      htabled.exists_target hregistered hfilled (Content.mem_references _ hid)
    obtain ⟨same, hsame, hwritable⟩ := hlegible entry.2 hpattern id hid
    obtain rfl : target = same := Option.some.inj (hfound.symm.trans hsame)
    exact ⟨target, htarget, hwritable⟩

end Admitting

/-- Rows could have filled a registry with the patterns of a tabled one. -/
theorem Tabled.exists_filled (htabled : registry.Tabled) (hlegible : registry.Legible) :
    ∃ copy, Filled {} registry.patterns copy := by
  have hprefix : ∀ earlier later, registry.registered = earlier ++ later →
      ∃ copy, Filled {} (earlier.map Prod.snd) copy := by
    intro earlier
    induction earlier using List.reverseRecOn with
    | nil => exact fun _ _ => ⟨{}, .nil _⟩
    | append_singleton earlier entry ih =>
        intro later hregistered
        rw [List.append_assoc] at hregistered
        obtain ⟨copy, hfilled⟩ := ih ([entry] ++ later) hregistered
        refine ⟨copy.extend entry.2, ?_⟩
        rw [List.map_append]
        exact hfilled.concat (htabled.admits hregistered hfilled hlegible)
  exact hprefix registry.registered [] (List.append_nil _).symm

theorem Filed.byId?_eq (hfiled : registry.Filed) (hcopy : copy.Filed)
    (hpatterns : copy.patterns = registry.patterns) (id : Int) :
    copy.byId? id = registry.byId? id := by
  refine Option.ext fun found => ?_
  rw [hcopy.coherent.byId?_eq_some_iff_mem, hfiled.coherent.byId?_eq_some_iff_mem, hpatterns]

/-- A registry and its copy list the same patterns, so both are written as the same table. -/
theorem Filed.tableText_eq (hfiled : registry.Filed) (hcopy : copy.Filed)
    (hpatterns : copy.patterns = registry.patterns) : copy.tableText = registry.tableText := by
  have hsymbols : SameSymbols registry copy := fun id found hfound =>
    ⟨found, (hfiled.byId?_eq hcopy hpatterns id).trans hfound, rfl⟩
  have hrows : registry.patterns.map (fun pattern =>
      pattern.rowText (copy.tabulated pattern.content)) =
        registry.patterns.map fun pattern =>
          pattern.rowText (registry.tabulated pattern.content) := by
    refine List.map_congr_left fun found hfound => ?_
    rw [tabulated_eq_of_sameSymbols hsymbols (hfiled.legible found hfound).knows]
  rw [tableText, tableText, hpatterns, hrows]

/-! ## Reloading -/

/-- Neither the pattern of an id nor any pattern to which it leads has a superfluous group. -/
def IsPared (registry : Registry) (id : Int) : Prop :=
  ∀ lower found, Relation.ReflTransGen registry.Refers id lower →
    registry.byId? lower = some found → found.content.IsPared

/-- What a pattern is when the table of its registry has been read again: the same pattern with a
pared tree, which is the same tree exactly if that has no superfluous group. The penalty is what the
pared tree costs, and the same if no pattern to which it leads has such a group. -/
structure Reloads (registry again : Registry) (pattern other : Pattern) : Prop
    extends pattern.Recovers other where
  content_eq_iff : other.content = pattern.content ↔ pattern.content.IsPared
  weighs : again.Weighs other
  penalty_le : other.penalty ≤ pattern.penalty
  penalty_eq : registry.IsPared pattern.id → other.penalty = pattern.penalty

theorem pared_content_eq_self_iff (hcanonical : pattern.IsCanonical) :
    pattern.content.pared = pattern.content ↔ pattern.content.IsPared := by
  cases hcontent : pattern.content with
  | literal text => exact iff_of_true rfl trivial
  | tree root =>
      obtain ⟨alternatives, rfl, hroot⟩ := hcanonical root hcontent
      rw [Content.pared, Content.IsPared, ← Node.pared_eq_self_iff hroot.tight]
      exact ⟨fun hsame => Content.tree.inj hsame, congrArg Content.tree⟩

theorem exists_of_rel {related : Pattern → Pattern → Prop} {first second : Option Pattern}
    (hrel : Option.Rel related first second) (hfirst : first = some pattern) :
    ∃ other, second = some other ∧ related pattern other := by
  subst hfirst
  cases hrel with
  | some hrelated => exact ⟨_, rfl, hrelated⟩

section Reloading

variable (hsound : registry.Sound) (hweighed : registry.Weighed) (hagain : again.Weighed)
  (hcoherent : again.Coherent)
  (hrel : ∀ id, Option.Rel Pattern.Recovers (registry.byId? id) (again.byId? id))
include hsound hweighed hagain hcoherent hrel

/-- No pattern costs more in the registry that has been read. -/
theorem atMost_cost {id : Int} (hid : (registry.byId? id).isSome) :
    Node.AtMost (again.cost id) (registry.cost id) := by
  refine hsound.toGrounded.induction
    (motive := fun id => Node.AtMost (again.cost id) (registry.cost id))
    (fun id pattern hpattern hbelow => ?_) hid
  obtain ⟨other, hother, hrecovers⟩ := exists_of_rel (hrel id) hpattern
  have hweighs := hweighed pattern (hsound.coherent.mem_patterns hpattern)
  have hweighsOther := hagain other (hcoherent.mem_patterns hother)
  rw [Weighs, hrecovers.content] at hweighsOther
  rw [cost_eq hpattern, cost_eq hother, ← hweighs, ← hweighsOther]
  exact Content.atMost_penalty_pared fun below hmem => (hbelow below hmem).2

/-- A pattern costs the same if no superfluous group is in it or in what it leads to. -/
theorem cost_eq_of_isPared {id : Int} (hid : (registry.byId? id).isSome)
    (hpared : registry.IsPared id) : again.cost id = registry.cost id := by
  refine hsound.toGrounded.induction
    (motive := fun id => registry.IsPared id → again.cost id = registry.cost id)
    (fun id pattern hpattern hbelow hpared => ?_) hid hpared
  have hmem := hsound.coherent.mem_patterns hpattern
  obtain ⟨other, hother, hrecovers⟩ := exists_of_rel (hrel id) hpattern
  have hweighs := hweighed pattern hmem
  have hweighsOther := hagain other (hcoherent.mem_patterns hother)
  have hsame := (pared_content_eq_self_iff (hsound.canonical pattern hmem)).mpr
    (hpared id pattern .refl hpattern)
  rw [Weighs, hrecovers.content, hsame] at hweighsOther
  rw [cost_eq hpattern, cost_eq hother, ← hweighs, ← hweighsOther]
  refine Content.penalty_congr fun below hreference => (hbelow below hreference).2 ?_
  intro lower found hpath
  exact hpared lower found (.head ⟨pattern, hpattern, hreference⟩ hpath)

theorem reloads_of_recovers {id : Int} {other : Pattern}
    (hpattern : registry.byId? id = some pattern) (hother : again.byId? id = some other)
    (hrecovers : pattern.Recovers other) : registry.Reloads again pattern other := by
  have hid : (registry.byId? id).isSome := Option.isSome_of_eq_some hpattern
  have hmem := hsound.coherent.mem_patterns hpattern
  refine ⟨hrecovers, ?_, hagain other (hcoherent.mem_patterns hother), ?_, fun hpared => ?_⟩
  · rw [hrecovers.content]
    exact pared_content_eq_self_iff (hsound.canonical pattern hmem)
  · have hle := atMost_cost hsound hweighed hagain hcoherent hrel hid
    rw [cost_eq hpattern, cost_eq hother] at hle
    obtain ⟨lower, hlower, hle⟩ := hle pattern.penalty rfl
    cases hlower
    exact hle
  · rw [hsound.coherent.id_eq hpattern] at hpared
    have hcost := cost_eq_of_isPared hsound hweighed hagain hcoherent hrel hid hpared
    rw [cost_eq hpattern, cost_eq hother] at hcost
    exact Except.ok.inj hcost

end Reloading

/-- What has been read from a registry has a counterpart for each of its patterns. -/
theorem Reread.rel_byId? (hreread : Reread registry again) (id : Int) :
    Option.Rel Pattern.Recovers (registry.byId? id) (again.byId? id) := by
  obtain ⟨hfiled, hfiledAgain⟩ := hreread.mirrored.filed
  cases hpattern : registry.byId? id with
  | none =>
      have hnone : ¬ (again.byId? id).isSome := by
        rw [hfiledAgain.coherent.byId?_isSome_iff, hreread.mirrored.entries,
          ← hfiled.coherent.byId?_isSome_iff, hpattern]
        exact Bool.false_ne_true
      rw [Option.not_isSome_iff_eq_none.mp hnone]
      exact .none
  | some pattern =>
      obtain ⟨place, hplace, hfound⟩ :=
        List.mem_iff_getElem.mp (hfiled.coherent.mem_patterns hpattern)
      obtain ⟨hlength, hrecovers⟩ := List.forall₂_iff_get.mp hreread.patterns
      have hother := hrecovers place hplace (hlength ▸ hplace)
      rw [List.get_eq_getElem, hfound] at hother
      have hmem := List.getElem_mem (hlength ▸ hplace : place < again.patterns.length)
      have hknown := hfiledAgain.coherent.mem_patterns_iff.mp hmem
      rw [List.get_eq_getElem] at hother
      rw [hother.id, hfiled.coherent.id_eq hpattern] at hknown
      rw [hknown]
      exact .some hother

/-- A tabled registry is written as a table that is read again, and each of its patterns is
reloaded. -/
theorem Tabled.exists_reload (htabled : registry.Tabled)
    (hids : ∀ pattern ∈ registry.patterns, pattern.id < 10 ^ 9) :
    ∃ table again, Table.write registry = .ok table ∧
      (Table.read table).run {} = (.ok (), again) ∧
        ∀ id, Option.Rel (registry.Reloads again) (registry.byId? id) (again.byId? id) := by
  have hlegible := htabled.legible hids
  have hfiled := htabled.filed hlegible
  obtain ⟨copy, hfilled⟩ := htabled.exists_filled hlegible
  have hcopy := hfilled.filed filed_empty
  have hpatterns : copy.patterns = registry.patterns := hfilled.patterns filed_empty
  have hshort : ∀ pattern ∈ registry.patterns,
      (Nat.toDigits 10 pattern.id.toNat).length ≤ Text.mostDigits := by
    intro pattern hpattern
    have hdigits := Pattern.length_toDigits_le_of_lt (by decide) (hfiled.nonneg hpattern)
      (hids pattern hpattern)
    exact Nat.le_trans hdigits (by decide)
  obtain ⟨again, hreread, hrun⟩ := hfilled.exists_reread (hpatterns ▸ hshort)
  rw [hfiled.tableText_eq hcopy hpatterns] at hrun
  have hrel : ∀ id, Option.Rel Pattern.Recovers (registry.byId? id) (again.byId? id) := by
    intro id
    rw [← hfiled.byId?_eq hcopy hpatterns]
    exact hreread.rel_byId? id
  refine ⟨registry.tableText, again, hfiled.write_eq hshort, hrun, fun id => ?_⟩
  have hfound := hrel id
  generalize hpattern : registry.byId? id = first at hfound ⊢
  generalize hother : again.byId? id = second at hfound ⊢
  cases hfound with
  | none => exact .none
  | some hrecovers =>
      exact .some (reloads_of_recovers htabled.sound htabled.weighed hreread.weighed
        hreread.mirrored.filed.2.coherent hrel hpattern hother hrecovers)

/-- A curated registry whose ids have at most nine digits is written as a table that is read again.
The same ids are registered then, and each of their patterns is reloaded: with the same tree unless
that has a superfluous group, and with the same penalty unless such a group is in it or in a pattern
to which it leads. -/
theorem Curated.exists_reloaded (hcurated : registry.Curated)
    (hids : ∀ pattern ∈ registry.patterns, pattern.id < 10 ^ 9) :
    ∃ table again, Table.write registry = .ok table ∧
      (Table.read table).run {} = (.ok (), again) ∧
        ∀ id, Option.Rel (registry.Reloads again) (registry.byId? id) (again.byId? id) :=
  hcurated.tabled.exists_reload hids

/-! ## A superfluous group -/

/-- The basic patterns, and one that repeats a letter in parentheses. -/
def grouping : List Operation :=
  [.registerBasics, .register (some "Group") .derived "(A)+" (-1)]

theorem history_grouping : history grouping =
    (Operation.register (some "Group") .derived "(A)+" (-1)).applyTo (history [.registerBasics]) :=
  history_append [.registerBasics] _

theorem curated_grouping : (history grouping).Curated := by
  have hbasics : (history [.registerBasics]).Curated := by
    rw [history_registerBasics]
    exact .apply .empty trivial
  rw [history_grouping]
  refine .apply hbasics ⟨by decide, ?_⟩
  rintro given ⟨⟩
  decide

/-- The tree that repeats the pattern of an id in parentheses. -/
def groupTree (id : Int) : Node :=
  plainGroup [[.group [[.ref id .once .here]] QuantityMark.some.quantity .here]]

/-- The phrases of that tree. -/
def groupPhrases : List (List Phrase) :=
  [[.parens [[.atom (.name "A") .once .here]] QuantityMark.some.quantity .here]]

theorem readable_groupPhrases : Phrase.Readable groupPhrases := by
  have hletter : Symbol.IsReference (.name "A") := by
    change Text.isWord "A".toList = true
    decide
  have hlegible := Phrase.Legible.atom hletter (Phrase.allowed_here Quantity.legal_once)
  exact .singleton ((Phrase.Readable.singleton hlegible).parens Phrase.allowed_some)

theorem compileTree_group {scope : Node.Scope} {id : Int} (hresolve : ∀ position,
    Node.Parser.resolve scope (some "Group") ⟨.name "A", position⟩ = .ok id) :
    compileTree scope "(A)+" (some "Group") = .ok (groupTree id) := by
  have htext : Phrase.textOf groupPhrases = "(A)+" := by decide
  have hphrase : ∀ sequence ∈ groupPhrases, ∀ phrase ∈ sequence, phrase =
      .parens [[.atom (.name "A") .once .here]] QuantityMark.some.quantity .here := by
    simp [groupPhrases]
  have htarget : ∀ sequence ∈ groupPhrases, ∀ phrase ∈ sequence, ∀ symbol,
      Phrase.Mentions symbol phrase → ∀ position,
        Node.Parser.resolve scope (some "Group") ⟨symbol, position⟩ = .ok id := by
    intro sequence hsequence phrase hmem symbol hmention
    rw [hphrase sequence hsequence phrase hmem] at hmention
    cases hmention with
    | parens hinside hatom hmention =>
        obtain rfl := List.mem_singleton.mp hinside
        obtain rfl := List.mem_singleton.mp hatom
        cases hmention
        exact hresolve
  have hbehind : ∀ sequence ∈ groupPhrases, ∀ phrase ∈ sequence,
      Node.Everywhere Node.LooksBehindPlainly (phrase.tree fun _ => id) := by
    intro sequence hsequence phrase hmem
    rw [hphrase sequence hsequence phrase hmem]
    simp [Phrase.tree, Phrase.treesOfAlternatives, Phrase.treesOfSequence,
      Node.everywhere_group_iff, Node.everywhere_ref_iff, Node.LooksBehindPlainly]
  have htree := compileTree_textOf readable_groupPhrases htarget hbehind
  rw [htext] at htree
  exact htree

/-- The counter has not passed the number of patterns ever made. -/
structure Compact (registry : Registry) : Prop where
  nextId_le : registry.nextId ≤ registry.ledger.size

theorem Compact.keeps_add (hcompact : registry.Compact) (hid : pattern.id < 0) :
    KeepsFrom Compact registry (add pattern) := by
  refine keepsFrom_add hcompact fun _ => ⟨?_⟩
  rw [idFor, if_pos hid]
  change max registry.nextId (registry.nextId + 1) ≤ ((registry.ledger.push _).size : Int)
  rw [Array.size_push]
  have hnext := hcompact.nextId_le
  omega

theorem Compact.keeps_register (hcompact : registry.Compact) (name : Option String) (kind : Kind)
    (text : String) : KeepsFrom Compact registry (register name kind text (-1)) :=
  keepsFrom_register hcompact fun _ _ => hcompact.keeps_add (Int.negSucc_lt_zero 0)

theorem Compact.keeps_registerBasics (hcompact : registry.Compact) :
    KeepsFrom Compact registry registerBasics :=
  keepsFrom_registerBasics hcompact
    (fun _ _ _ hstate => hstate.keeps_add (Int.negSucc_lt_zero 0))
    fun _ _ _ hstate => hstate.keeps_register _ _ _

theorem compact_registerBasics : (registerBasics.run {}).2.Compact :=
  Compact.keeps_registerBasics ⟨Int.le_refl 0⟩

theorem size_ledger_registerBasics : (registerBasics.run {}).2.ledger.size ≤ 125 := by
  have hsize := (Operation.registerBasics.tidilyFollows tidy_empty).2.size_le.2
  have hasks : Operation.registerBasics.asks.length = 125 := by decide +kernel
  have hempty : ({} : Registry).ledger.size = 0 := rfl
  rw [hasks, hempty, Operation.applyTo, Operation.perform] at hsize
  exact hsize

theorem compact_grouping : (history grouping).Compact := by
  rw [history_grouping, Operation.applyTo, Operation.perform, run_discard]
  rw [history_registerBasics, Operation.applyTo, Operation.perform]
  exact compact_registerBasics.keeps_register _ _ _

theorem size_ledger_grouping : (history grouping).ledger.size ≤ 126 := by
  have hbasics := size_ledger_registerBasics
  have hgroup := ((Operation.register (some "Group") .derived "(A)+" (-1)).tidilyFollows
    (tidy_history [.registerBasics])).2.size_le.2
  rw [← history_grouping, history_registerBasics, Operation.applyTo, Operation.perform,
    Operation.asks, List.length_singleton] at hgroup
  omega

theorem id_lt_grouping : ∀ pattern ∈ (history grouping).patterns, pattern.id < 10 ^ 9 := by
  intro pattern hpattern
  have htidy := tidy_history grouping
  have hknown := htidy.coherent.mem_patterns_iff.mp hpattern
  obtain ⟨serial, -, hserial⟩ := htidy.coherent.byId?_eq_some_iff.mp hknown
  have hlt := htidy.counted serial pattern hserial
  have hnext := compact_grouping.nextId_le
  have hsize := size_ledger_grouping
  omega

/-- What is registered under a free name is among the patterns then. -/
theorem Orderly.exists_registered (horderly : registry.Orderly) {name : Option String} {kind : Kind}
    {text : String} {id : Int} (hid : id < 0)
    (hname : ∀ given, name = some given → registry.named? given = none)
    (hcompile : registry.compile text name kind = .ok pattern) :
    ∃ found ∈ ((register name kind text id).run registry).2.patterns,
      found.content = pattern.content := by
  have hfree : registry.Free { pattern with id } := by
    obtain ⟨alternatives, penalty, -, -, -, rfl⟩ := compile_eq_ok hcompile
    exact ⟨hname, fun hnonneg => absurd hid (Int.not_lt.mpr hnonneg)⟩
  rw [run_register hname hcompile, run_add_of_free hfree, patterns_extend horderly]
  exact ⟨_, List.mem_append_right _ (List.mem_singleton_self _), rfl⟩

theorem exists_group : ∃ letter, ∃ pattern ∈ (history grouping).patterns,
    pattern.content = .tree (groupTree letter) := by
  have hletter : literalWord 'A' ∈ basicWords := literalWord_mem_basicWords (by decide)
  have hnew : "Group" ∉ basicWords.map Word.name := by
    intro hmem
    have hbytes : bytes "Group" ∉ (basicWords.map Word.name).map bytes := by decide +kernel
    exact hbytes (List.mem_map_of_mem hmem)
  have hlists := lists_history_registerBasics
  obtain ⟨hknown, -, hresolve⟩ := hlists.resolve hletter
  have htree := compileTree_group (hresolve (some "Group"))
  obtain ⟨penalty, hcompile⟩ :=
    exists_compile htree (by simpa [groupTree, plainGroup] using hknown) .derived
  have hname : ∀ given, some "Group" = some given →
      (history [.registerBasics]).named? given = none := by
    rintro given ⟨⟩
    exact hlists.named?_eq_none hnew
  rw [history_grouping, Operation.applyTo, Operation.perform, run_discard]
  exact ⟨_, hlists.toOrderly.exists_registered (by decide) hname hcompile⟩

/-- The registry of that history is reloaded. -/
theorem exists_reloaded_grouping : (history grouping).Curated ∧
    (∀ pattern ∈ (history grouping).patterns, pattern.id < 10 ^ 9) ∧
      ∃ table again, Table.write (history grouping) = .ok table ∧
        (Table.read table).run {} = (.ok (), again) ∧
          ∀ id, Option.Rel ((history grouping).Reloads again) ((history grouping).byId? id)
            (again.byId? id) :=
  ⟨curated_grouping, id_lt_grouping, curated_grouping.exists_reloaded id_lt_grouping⟩

/-- The tree without its parentheses. -/
theorem pared_groupTree (id : Int) : (groupTree id).pared =
    plainGroup [[.ref id QuantityMark.some.quantity .here]] :=
  rfl

/-- The parentheses cost something, even if the letter costs less without them. -/
theorem penalty_pared_groupTree_lt {cost dearer : Int → Except Fault Int} {id value lower : Int}
    (hcost : Node.AtMost (cost id) (dearer id)) (hvalue : (groupTree id).penalty dearer = .ok value)
    (hlower : (groupTree id).pared.penalty cost = .ok lower) : lower < value := by
  have hmem : id ∈ (groupTree id).references := by simp [groupTree, plainGroup]
  obtain ⟨found, hfound⟩ := Node.exists_penalty_iff.mp ⟨value, hvalue⟩ id hmem
  obtain ⟨least, hleast, hle⟩ := hcost found hfound
  simp only [groupTree, plainGroup, Node.penalty, Node.worstPenalty, Node.totalPenalty,
    hfound] at hvalue
  simp only [pared_groupTree, plainGroup, Node.penalty, Node.worstPenalty, Node.totalPenalty,
    hleast] at hlower
  cases hvalue
  cases hlower
  have hplain : Node.ownPenalty .once .here = 1 := by decide
  have hmany : Node.ownPenalty QuantityMark.some.quantity .here = 2 := by decide
  omega

theorem atMost_cost_of_rel {id : Int}
    (hrel : Option.Rel (registry.Reloads again) (registry.byId? id) (again.byId? id)) :
    Node.AtMost (again.cost id) (registry.cost id) := by
  unfold cost get
  generalize registry.byId? id = first at hrel ⊢
  generalize again.byId? id = second at hrel ⊢
  cases hrel with
  | none => exact .refl _
  | some hreloads =>
      rintro value ⟨⟩
      exact ⟨_, rfl, hreloads.penalty_le⟩

/-- A letter in parentheses is read without them, and costs less. -/
theorem Tabled.exists_reload_group (htabled : registry.Tabled)
    (hids : ∀ pattern ∈ registry.patterns, pattern.id < 10 ^ 9) {letter : Int}
    (hpattern : registry.byId? pattern.id = some pattern)
    (hcontent : pattern.content = .tree (groupTree letter)) :
    ∃ table again other, Table.write registry = .ok table ∧
      (Table.read table).run {} = (.ok (), again) ∧ again.byId? pattern.id = some other ∧
        other.content ≠ pattern.content ∧ other.penalty < pattern.penalty := by
  obtain ⟨table, again, hwrite, hread, hreloads⟩ := htabled.exists_reload hids
  obtain ⟨other, hother, hreloaded⟩ := exists_of_rel (hreloads pattern.id) hpattern
  have hpared : other.content = .tree (groupTree letter).pared := by
    rw [hreloaded.content, hcontent]
    rfl
  refine ⟨table, again, other, hwrite, hread, hother, ?_, ?_⟩
  · rw [hpared, hcontent]
    intro hsame
    cases Content.tree.inj hsame
  · have hweighs := htabled.weighed pattern (htabled.coherent.mem_patterns hpattern)
    have hweighsOther := hreloaded.weighs
    rw [Weighs, hcontent] at hweighs
    rw [Weighs, hpared] at hweighsOther
    exact penalty_pared_groupTree_lt (atMost_cost_of_rel (hreloads letter)) hweighs hweighsOther

/-- The pattern of the group does not come back as it was. -/
theorem not_same_reloaded_grouping : ∃ table again pattern other,
    Table.write (history grouping) = .ok table ∧ (Table.read table).run {} = (.ok (), again) ∧
      (history grouping).byId? pattern.id = some pattern ∧ again.byId? pattern.id = some other ∧
        other.content ≠ pattern.content ∧ other.penalty ≠ pattern.penalty := by
  have htabled := curated_grouping.tabled
  obtain ⟨letter, pattern, hmem, hcontent⟩ := exists_group
  have hpattern := htabled.coherent.mem_patterns_iff.mp hmem
  obtain ⟨table, again, other, hwrite, hread, hother, hne, hlt⟩ :=
    htabled.exists_reload_group id_lt_grouping hpattern hcontent
  exact ⟨table, again, pattern, other, hwrite, hread, hpattern, hother, hne, hlt.ne⟩

end Motif.Registry
