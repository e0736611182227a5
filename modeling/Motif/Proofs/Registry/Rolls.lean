import Motif.Proofs.Registry.Experiments

/-!
# The roll of a registry

The roll lists the registered patterns with their ids, kinds and names, and tells the next id. What
is stored about patterns is not on it. Registering, removing and naming an experiment adds, takes
out and changes one standing.
-/

namespace Motif

/-- What a pattern is in its registry, whatever it matches. -/
structure Standing where
  id : Int
  kind : Kind
  name : Option String
deriving DecidableEq

namespace Standing

/-- A new experiment has no name. -/
def fresh (id : Int) : Standing where
  id := id
  kind := .experimental
  name := none

/-- The pattern of an id becomes a derived one with a name. -/
def called (id : Int) (name : String) (standing : Standing) : Standing :=
  if standing.id = id then { standing with kind := .derived, name := some name } else standing

@[simp]
theorem id_called (id : Int) (name : String) (standing : Standing) :
    (standing.called id name).id = standing.id := by
  unfold called
  split <;> rfl

theorem called_of_ne {id : Int} {standing : Standing} (hne : standing.id ≠ id) (name : String) :
    standing.called id name = standing :=
  if_neg hne

theorem called_of_eq {id : Int} {standing : Standing} (heq : standing.id = id) (name : String) :
    standing.called id name = ⟨id, .derived, some name⟩ := by
  subst heq
  exact if_pos rfl

end Standing

/-- The standings of the registered patterns in the order of registration, and the next id. -/
structure Roll where
  standings : List Standing
  nextId : Int
deriving DecidableEq

namespace Roll

/-- The ids on a roll. -/
def ids (roll : Roll) : List Int :=
  roll.standings.map Standing.id

/-- An experiment has the id. -/
def HasExperiment (roll : Roll) (id : Int) : Prop :=
  ∃ standing ∈ roll.standings, standing.id = id ∧ standing.kind = .experimental

instance (roll : Roll) (id : Int) : Decidable (roll.HasExperiment id) :=
  inferInstanceAs (Decidable (∃ standing ∈ roll.standings, _))

/-- A new experiment takes the next id. -/
def added (roll : Roll) : Roll where
  standings := roll.standings ++ [.fresh roll.nextId]
  nextId := roll.nextId + 1

/-- The roll without the pattern of an id. -/
def removed (id : Int) (roll : Roll) : Roll :=
  { roll with standings := roll.standings.filter fun standing => standing.id ≠ id }

/-- The roll with a name for the pattern of an id, which becomes a derived one. -/
def named (id : Int) (name : String) (roll : Roll) : Roll :=
  { roll with standings := roll.standings.map (Standing.called id name) }

/-- No id is twice on the roll, and the next one is not on it. -/
structure Sound (roll : Roll) : Prop where
  nodup_ids : roll.ids.Nodup
  lt_nextId : ∀ id ∈ roll.ids, id < roll.nextId

variable {roll : Roll} {id : Int}

@[simp]
theorem ids_added : roll.added.ids = roll.ids ++ [roll.nextId] := by
  simp [ids, added, Standing.fresh]

@[simp]
theorem ids_removed : (roll.removed id).ids = roll.ids.filter (· ≠ id) := by
  simp only [ids, removed, List.filter_map]
  rfl

@[simp]
theorem ids_named (name : String) : (roll.named id name).ids = roll.ids := by
  simp [ids, named, Function.comp_def]

theorem HasExperiment.mem_ids (hexperiment : roll.HasExperiment id) : id ∈ roll.ids := by
  obtain ⟨standing, hstanding, rfl, -⟩ := hexperiment
  exact List.mem_map_of_mem hstanding

namespace Sound

variable (hsound : roll.Sound)
include hsound

theorem eq_of_id_eq {first second : Standing} (hfirst : first ∈ roll.standings)
    (hsecond : second ∈ roll.standings) (hid : first.id = second.id) : first = second :=
  List.inj_on_of_nodup_map hsound.nodup_ids hfirst hsecond hid

theorem added : roll.added.Sound where
  nodup_ids := by
    rw [ids_added]
    refine List.nodup_append.mpr ⟨hsound.nodup_ids, List.nodup_singleton _, ?_⟩
    rintro id hid other hother rfl
    have hlt := hsound.lt_nextId id hid
    rw [List.mem_singleton.mp hother] at hlt
    exact Int.lt_irrefl _ hlt
  lt_nextId := by
    rw [ids_added]
    refine List.forall_mem_append.mpr ⟨fun id hid => ?_, List.forall_mem_singleton.mpr ?_⟩
    · exact Int.lt_add_one_of_le (hsound.lt_nextId id hid).le
    · exact Int.lt_succ _

theorem removed (id : Int) : (roll.removed id).Sound where
  nodup_ids := by
    rw [ids_removed]
    exact hsound.nodup_ids.filter _
  lt_nextId other hother := by
    rw [ids_removed] at hother
    exact hsound.lt_nextId other (List.mem_of_mem_filter hother)

theorem named (id : Int) (name : String) : (roll.named id name).Sound where
  nodup_ids := by
    rw [ids_named]
    exact hsound.nodup_ids
  lt_nextId := by
    rw [ids_named]
    exact hsound.lt_nextId

end Sound

end Roll

/-- What the roll tells of a pattern. -/
def Pattern.standing (pattern : Pattern) : Standing where
  id := pattern.id
  kind := pattern.kind
  name := pattern.name

namespace Registry

variable {registry after : Registry}

/-- The roll of a registry. -/
def roll (registry : Registry) : Roll where
  standings := registry.patterns.map Pattern.standing
  nextId := registry.nextId

/-- The registered ids in the order of registration. -/
def ids (registry : Registry) : List Int :=
  registry.entries.map Prod.fst

theorem Coherent.map_id_registered (hcoherent : registry.Coherent) :
    (registry.registered.map fun entry => entry.2.id) = registry.ids := by
  rw [registered, List.map_filterMap, ids, ← List.filterMap_eq_map]
  refine List.filterMap_congr fun entry hentry => ?_
  obtain ⟨pattern, hpattern, hid⟩ := hcoherent.exists_pattern hentry
  simp [hpattern, hid]

theorem Coherent.ids_roll (hcoherent : registry.Coherent) : registry.roll.ids = registry.ids := by
  rw [← hcoherent.map_id_registered]
  simp [Roll.ids, roll, patterns, Pattern.standing]

theorem Coherent.eq_of_id_eq (hcoherent : registry.Coherent) {first second : Serial × Pattern}
    (hfirst : first ∈ registry.registered) (hsecond : second ∈ registry.registered)
    (hid : first.2.id = second.2.id) : first = second := by
  refine List.inj_on_of_nodup_map (f := fun entry => entry.2.id) ?_ hfirst hsecond hid
  rw [hcoherent.map_id_registered]
  exact hcoherent.nodup_ids

theorem roll_hasExperiment_iff {id : Int} : registry.roll.HasExperiment id ↔
    ∃ pattern ∈ registry.patterns, pattern.id = id ∧ pattern.kind = .experimental := by
  simp [Roll.HasExperiment, roll, Pattern.standing]

theorem Numbered.sound_roll (hnumbered : registry.Numbered) : registry.roll.Sound where
  nodup_ids := by
    rw [hnumbered.coherent.ids_roll]
    exact hnumbered.coherent.nodup_ids
  lt_nextId id hid := by
    rw [hnumbered.coherent.ids_roll] at hid
    obtain ⟨⟨id, serial⟩, hentry, rfl⟩ := List.mem_map.mp hid
    exact (hnumbered.bounded id serial hentry).2

/-! ## What operations do to the roll -/

section Storing

variable (hstores : registry.OnlyStores after)
include hstores

theorem OnlyStores.numbered (hnumbered : registry.Numbered) : after.Numbered := by
  rw [hstores]
  exact ⟨⟨hnumbered.coherent.nodup_ids, hnumbered.coherent.exists_pattern⟩, hnumbered.bounded,
    hnumbered.counter⟩

theorem OnlyStores.registered_eq : after.registered = registry.registered := by
  rw [hstores]
  rfl

theorem OnlyStores.roll_eq : after.roll = registry.roll := by
  rw [hstores]
  rfl

end Storing

section Registering

variable (hnumbered : registry.Numbered) (pattern : Pattern)
include hnumbered

theorem Numbered.withNext : (registry.withNext pattern).Numbered :=
  hnumbered.extend hnumbered.counter hnumbered.serialOf?_nextId

theorem Numbered.roll_withNext (hkind : pattern.kind = .experimental)
    (hname : pattern.name = none) : (registry.withNext pattern).roll = registry.roll.added := by
  have hpatterns : (registry.withNext pattern).patterns =
      registry.patterns ++ [{ pattern with id := registry.nextId }] := by
    rw [Registry.withNext, patterns, hnumbered.coherent.registered_extend, List.map_append]
    rfl
  have hnextId : (registry.withNext pattern).nextId = registry.nextId + 1 :=
    max_eq_right (Int.le_add_one (Int.le_refl _))
  simp [roll, Roll.added, hpatterns, hnextId, Pattern.standing, Standing.fresh, hkind, hname]

end Registering

section Changing

variable {serial : Serial} {pattern : Pattern}

theorem Coherent.roll_without (hcoherent : registry.Coherent)
    (hentry : (serial, pattern) ∈ registry.registered) :
    (registry.without serial pattern).roll = registry.roll.removed pattern.id := by
  have hsame : (registry.registered.filter fun entry => entry.1 ≠ serial) =
      registry.registered.filter fun entry => entry.2.id ≠ pattern.id := by
    refine List.filter_congr fun entry hother => ?_
    rw [decide_eq_decide, not_iff_not]
    constructor
    · intro hserial
      rw [eq_of_mem_registered hother hentry hserial]
    · intro hid
      rw [hcoherent.eq_of_id_eq hother hentry hid]
  simp only [roll, patterns, registered_without, hsame, Roll.removed, List.filter_map]
  rfl

theorem Numbered.renamed (hnumbered : registry.Numbered)
    (hpattern : registry.pattern? serial = some pattern) (name : String) (kind : Option Kind) :
    (registry.renamed serial pattern name kind).Numbered where
  coherent := hnumbered.coherent.renamed hpattern
  bounded := hnumbered.bounded
  counter := hnumbered.counter

theorem registered_renamed (hpattern : registry.pattern? serial = some pattern) (name : String)
    (kind : Option Kind) : (registry.renamed serial pattern name kind).registered =
      registry.registered.map fun entry =>
        if entry.1 = serial then
          (serial, { pattern with name := some name, kind := kind.getD pattern.kind })
        else entry := by
  rw [registered, registered, List.map_filterMap]
  refine List.filterMap_congr fun entry _ => ?_
  rw [pattern?_renamed hpattern]
  by_cases hserial : entry.2 = serial
  · simp [hserial, hpattern]
  · simp [hserial, Option.map_map, Function.comp_def]

theorem Coherent.roll_renamed (hcoherent : registry.Coherent)
    (hentry : (serial, pattern) ∈ registry.registered) (name : String) :
    (registry.renamed serial pattern name (some .derived)).roll =
      registry.roll.named pattern.id name := by
  have hstandings : (registry.renamed serial pattern name (some .derived)).patterns.map
      Pattern.standing = (registry.patterns.map Pattern.standing).map
        (Standing.called pattern.id name) := by
    simp only [patterns, registered_renamed (mem_registered hentry).1, List.map_map]
    refine List.map_congr_left fun entry hother => ?_
    by_cases hserial : entry.1 = serial
    · obtain rfl := eq_of_mem_registered hother hentry hserial
      simp [Pattern.standing, Standing.called]
    · have hid : entry.2.id ≠ pattern.id := fun hid =>
        hserial (congrArg Prod.fst (hcoherent.eq_of_id_eq hother hentry hid))
      simp [hserial, Pattern.standing, Standing.called, hid]
  rw [roll, hstandings]
  rfl

end Changing

end Registry

end Motif
