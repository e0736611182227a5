import Motif.Fault

/-!
# Operations with a state

Charts and registries are changed by operations that may fail and keep what they have changed. An
operation settles on a value under an invariant of the state if from every state with that
invariant it ends with that value, in a state that has the invariant again.
-/

namespace Motif

variable {σ α β : Type}

theorem bind_eq_ok_iff {ε : Type} {result : Except ε α} {next : α → Except ε β} {value : β} :
    (result >>= next) = .ok value ↔ ∃ middle, result = .ok middle ∧ next middle = .ok value := by
  cases result with
  | error fault =>
      constructor
      · intro heq
        cases heq
      · rintro ⟨middle, hmiddle, -⟩
        cases hmiddle
  | ok middle =>
      constructor
      · intro heq
        exact ⟨middle, rfl, heq⟩
      · rintro ⟨_, ⟨⟩, heq⟩
        exact heq

theorem bind_eq_error_iff {ε : Type} {result : Except ε α} {next : α → Except ε β} {fault : ε} :
    (result >>= next) = .error fault ↔
      result = .error fault ∨ ∃ middle, result = .ok middle ∧ next middle = .error fault := by
  cases result with
  | error found =>
      constructor
      · rintro ⟨⟩
        exact .inl rfl
      · rintro (⟨⟨⟩⟩ | ⟨_, ⟨⟩, -⟩)
        rfl
  | ok middle =>
      constructor
      · exact fun heq => .inr ⟨middle, rfl, heq⟩
      · rintro (heq | ⟨_, ⟨⟩, heq⟩)
        · cases heq
        · exact heq

theorem mapM_eq_ok {ε : Type} {action : α → Except ε β} {value : α → β} {xs : List α}
    (haction : ∀ x ∈ xs, action x = .ok (value x)) : xs.mapM action = .ok (xs.map value) := by
  induction xs with
  | nil => rfl
  | cons first rest ih =>
      rw [List.mapM_cons, haction first List.mem_cons_self,
        ih fun x hx => haction x (List.mem_cons_of_mem _ hx)]
      rfl

theorem exists_of_mapM_eq_ok {ε : Type} {action : α → Except ε β} {xs : List α} {values : List β}
    (hmapM : xs.mapM action = .ok values) : ∀ x ∈ xs, ∃ value, action x = .ok value := by
  induction xs generalizing values with
  | nil => simp
  | cons first rest ih =>
      rw [List.mapM_cons] at hmapM
      obtain ⟨value, hfirst, hmapM⟩ := bind_eq_ok_iff.mp hmapM
      obtain ⟨others, hrest, -⟩ := bind_eq_ok_iff.mp hmapM
      intro x hx
      rcases List.mem_cons.mp hx with rfl | hx
      · exact ⟨value, hfirst⟩
      · exact ih hrest x hx

/-- What comes after an operation is run where that one has ended, if it has ended well. -/
theorem run_bind_eq (action : ExceptT Fault (StateM σ) α)
    (next : α → ExceptT Fault (StateM σ) β) (state : σ) :
    (action >>= next).run state =
      match action.run state with
      | (.ok value, after) => (next value).run after
      | (.error fault, after) => (.error fault, after) := by
  rw [ExceptT.run_bind]
  change StateT.run (action.run >>= _) state = _
  rw [StateT.run_bind]
  change (do let result ← action.run state; _) = _
  rcases action.run state with ⟨value | fault, after⟩ <;> rfl

theorem run_bind_of_ok {action : ExceptT Fault (StateM σ) α}
    {next : α → ExceptT Fault (StateM σ) β} {state after : σ} {value : α}
    (haction : action.run state = (.ok value, after)) :
    (action >>= next).run state = (next value).run after := by
  rw [run_bind_eq, haction]

theorem run_bind_of_error {action : ExceptT Fault (StateM σ) α}
    {next : α → ExceptT Fault (StateM σ) β} {state after : σ} {fault : Fault}
    (haction : action.run state = (.error fault, after)) :
    (action >>= next).run state = (.error fault, after) := by
  rw [run_bind_eq, haction]

/-- An operation after another one ends well if both do. -/
theorem run_bind_eq_ok_iff {action : ExceptT Fault (StateM σ) α}
    {next : α → ExceptT Fault (StateM σ) β} {state after : σ} {value : β} :
    (action >>= next).run state = (.ok value, after) ↔
      ∃ middle between, action.run state = (.ok middle, between) ∧
        (next middle).run between = (.ok value, after) := by
  rcases hrun : action.run state with ⟨result, between⟩
  cases result with
  | error fault =>
      rw [run_bind_of_error hrun]
      constructor
      · intro heq
        cases heq
      · rintro ⟨_, _, heq, -⟩
        cases heq
  | ok middle =>
      rw [run_bind_of_ok hrun]
      constructor
      · intro hnext
        exact ⟨middle, between, rfl, hnext⟩
      · rintro ⟨_, _, heq, hnext⟩
        cases heq
        exact hnext

theorem run_read_bind {next : σ → ExceptT Fault (StateM σ) β} (state : σ) :
    (getThe σ >>= next).run state = (next state).run state := by
  have hread : (getThe σ : ExceptT Fault (StateM σ) σ).run state = (.ok state, state) := rfl
  exact run_bind_of_ok hread

theorem run_modify_bind {change : σ → σ} {next : PUnit → ExceptT Fault (StateM σ) β} (state : σ) :
    ((modify change : ExceptT Fault (StateM σ) PUnit) >>= next).run state =
      (next ⟨⟩).run (change state) := by
  have hmodify : (modify change : ExceptT Fault (StateM σ) PUnit).run state =
    (.ok ⟨⟩, change state) := rfl
  exact run_bind_of_ok hmodify

theorem run_lift_bind {result : Except Fault α} {next : α → ExceptT Fault (StateM σ) β}
    (state : σ) :
    ((liftM result : ExceptT Fault (StateM σ) α) >>= next).run state =
      match result with
      | .ok value => (next value).run state
      | .error fault => (.error fault, state) := by
  have hlift : (liftM result : ExceptT Fault (StateM σ) α).run state = (result, state) := by
    cases result <;> rfl
  cases result with
  | ok value => exact run_bind_of_ok hlift
  | error fault => exact run_bind_of_error hlift

/-- What touches nothing touches nothing several times. -/
theorem run_mapM_lift {f : α → Except Fault β} (xs : List α) (state : σ) :
    (xs.mapM fun x => (liftM (f x) : ExceptT Fault (StateM σ) β)).run state =
      (xs.mapM f, state) := by
  induction xs with
  | nil => rfl
  | cons first rest ih =>
      rw [List.mapM_cons, List.mapM_cons, run_lift_bind]
      cases f first with
      | error fault => rfl
      | ok value =>
          dsimp only
          cases hrest : rest.mapM f with
          | error fault =>
              rw [hrest] at ih
              exact run_bind_of_error ih
          | ok values =>
              rw [hrest] at ih
              exact run_bind_of_ok ih

theorem lift_ok_bind (value : α) (next : α → ExceptT Fault (StateM σ) β) :
    ((liftM (Except.ok value : Except Fault α) : ExceptT Fault (StateM σ) α) >>= next) =
      next value :=
  rfl

theorem lift_error_bind (fault : Fault) (next : α → ExceptT Fault (StateM σ) β) :
    ((liftM (Except.error fault : Except Fault α) : ExceptT Fault (StateM σ) α) >>= next) =
      throw fault :=
  rfl

/-- What comes after an operation that may have failed is told its result. -/
theorem run_attempt {action : ExceptT Fault (StateM σ) α}
    {next : Except Fault α → StateM σ (Except Fault β)} {state after : σ} {result : Except Fault α}
    (haction : action.run state = (result, after)) :
    (ExceptT.mk (action.run >>= next)).run state = (next result).run after := by
  rw [ExceptT.run_mk]
  change StateT.run (action.run >>= next) state = _
  rw [StateT.run_bind]
  change (do let result ← action.run state; _) = _
  rw [haction]
  rfl

/-- From one state the operation ends with a value, in a state with the invariant. -/
def SettlesFrom (invariant : σ → Prop) (state : σ) (action : ExceptT Fault (StateM σ) α)
    (value : α) : Prop :=
  ∃ after, action.run state = (.ok value, after) ∧ invariant after

/-- From every state with the invariant the operation ends with a value and keeps the
invariant. -/
def Settles (invariant : σ → Prop) (action : ExceptT Fault (StateM σ) α) (value : α) : Prop :=
  ∀ state, invariant state → SettlesFrom invariant state action value

variable {invariant : σ → Prop} {state : σ}

theorem SettlesFrom.pure (hstate : invariant state) (value : α) :
    SettlesFrom invariant state (pure value) value :=
  ⟨state, rfl, hstate⟩

/-- An operation after another one starts where that one has ended. -/
theorem SettlesFrom.andThen {between : σ → Prop} {action : ExceptT Fault (StateM σ) α}
    {next : α → ExceptT Fault (StateM σ) β} {value : α} {result : β}
    (haction : SettlesFrom between state action value)
    (hnext : ∀ middle, between middle → SettlesFrom invariant middle (next value) result) :
    SettlesFrom invariant state (action >>= next) result := by
  obtain ⟨middle, hrun, hmiddle⟩ := haction
  obtain ⟨after, hafter, hinvariant⟩ := hnext middle hmiddle
  exact ⟨after, (run_bind_of_ok hrun).trans hafter, hinvariant⟩

theorem SettlesFrom.bind {action : ExceptT Fault (StateM σ) α}
    {next : α → ExceptT Fault (StateM σ) β} {value : α} {result : β}
    (haction : SettlesFrom invariant state action value)
    (hnext : Settles invariant (next value) result) :
    SettlesFrom invariant state (action >>= next) result :=
  haction.andThen hnext

theorem SettlesFrom.read {next : σ → ExceptT Fault (StateM σ) β} {result : β}
    (hnext : SettlesFrom invariant state (next state) result) :
    SettlesFrom invariant state (getThe σ >>= next) result := by
  obtain ⟨after, hafter, hinvariant⟩ := hnext
  exact ⟨after, (run_bind_of_ok rfl).trans hafter, hinvariant⟩

/-- What an operation ends with may be dropped. -/
theorem SettlesFrom.discard {action : ExceptT Fault (StateM σ) α} {value : α}
    (haction : SettlesFrom invariant state action value) :
    SettlesFrom invariant state (discard action) ⟨⟩ := by
  obtain ⟨after, hrun, hafter⟩ := haction
  exact ⟨after, run_bind_of_ok hrun, hafter⟩

theorem Settles.run_eq {action : ExceptT Fault (StateM σ) α} {value : α}
    (haction : Settles invariant action value) (hstate : invariant state) :
    (action.run state).1 = .ok value := by
  obtain ⟨after, hrun, -⟩ := haction state hstate
  rw [hrun]

theorem Settles.pure (value : α) :
    Settles invariant (pure value : ExceptT Fault (StateM σ) α) value :=
  fun _ hstate => .pure hstate value

theorem Settles.bind {action : ExceptT Fault (StateM σ) α}
    {next : α → ExceptT Fault (StateM σ) β} {value : α} {result : β}
    (haction : Settles invariant action value) (hnext : Settles invariant (next value) result) :
    Settles invariant (action >>= next) result :=
  fun state hstate => (haction state hstate).bind hnext

theorem Settles.read {next : σ → ExceptT Fault (StateM σ) β} {result : β}
    (hnext : ∀ state, invariant state → SettlesFrom invariant state (next state) result) :
    Settles invariant (getThe σ >>= next) result :=
  fun state hstate => .read (hnext state hstate)

theorem Settles.modify {change : σ → σ} (hchange : ∀ state, invariant state →
    invariant (change state)) :
    Settles invariant (modify change : ExceptT Fault (StateM σ) PUnit) ⟨⟩ :=
  fun state hstate => ⟨change state, rfl, hchange state hstate⟩

theorem Settles.mapM {action : α → ExceptT Fault (StateM σ) β} {value : α → β} {xs : List α}
    (haction : ∀ x ∈ xs, Settles invariant (action x) (value x)) :
    Settles invariant (xs.mapM action) (xs.map value) := by
  induction xs with
  | nil => exact .pure _
  | cons first rest ih =>
      rw [List.mapM_cons, List.map_cons]
      refine (haction first List.mem_cons_self).bind ?_
      exact (ih fun x hx => haction x (List.mem_cons_of_mem _ hx)).bind (.pure _)

/-- An operation that cannot fail here and touches nothing. -/
theorem Settles.lift {result : Except Fault α} {value : α} (hresult : result = .ok value) :
    Settles invariant (liftM result : ExceptT Fault (StateM σ) α) value := by
  subst hresult
  exact Settles.pure value

/-- From one state the operation ends with a result, a value or a fault, in a state with the
invariant. -/
def GivesFrom (invariant : σ → Prop) (state : σ) (action : ExceptT Fault (StateM σ) α)
    (result : Except Fault α) : Prop :=
  ∃ after, action.run state = (result, after) ∧ invariant after

/-- From every state with the invariant the operation ends with the same result and keeps the
invariant. -/
def Gives (invariant : σ → Prop) (action : ExceptT Fault (StateM σ) α)
    (result : Except Fault α) : Prop :=
  ∀ state, invariant state → GivesFrom invariant state action result

section Answering

variable {action : ExceptT Fault (StateM σ) α} {result : Except Fault α}

theorem GivesFrom.bind {next : α → ExceptT Fault (StateM σ) β} {answer : α → Except Fault β}
    (haction : GivesFrom invariant state action result)
    (hnext : ∀ value, result = .ok value → Gives invariant (next value) (answer value)) :
    GivesFrom invariant state (action >>= next) (result >>= answer) := by
  obtain ⟨middle, hrun, hmiddle⟩ := haction
  cases result with
  | error fault => exact ⟨middle, run_bind_of_error hrun, hmiddle⟩
  | ok value =>
      obtain ⟨after, hafter, hinvariant⟩ := hnext value rfl middle hmiddle
      exact ⟨after, (run_bind_of_ok hrun).trans hafter, hinvariant⟩

theorem GivesFrom.read {next : σ → ExceptT Fault (StateM σ) α}
    (hnext : GivesFrom invariant state (next state) result) :
    GivesFrom invariant state (getThe σ >>= next) result := by
  obtain ⟨after, hafter, hinvariant⟩ := hnext
  exact ⟨after, (run_read_bind state).trans hafter, hinvariant⟩

end Answering

/-- A relation between the states before and after an operation. It holds from beginning to end if
it holds at each step, and what can be reached is related to itself. -/
class Growth (grows : σ → σ → Prop) : Prop where
  trans : ∀ {first second third}, grows first second → grows second third → grows first third
  refl_right : ∀ {first second}, grows first second → grows second second

/-- From one state the operation ends in a related one, and there with a value of a property or with
a fault of another one. -/
def YieldsFrom (grows : σ → σ → Prop) (state : σ) (action : ExceptT Fault (StateM σ) α)
    (property : α → σ → Prop) (allowed : Fault → Prop) : Prop :=
  ∃ result after, action.run state = (result, after) ∧ grows state after ∧
    match result with
    | .ok value => property value after
    | .error fault => allowed fault

/-- From every state that is related to itself the operation ends in a related one, and there with a
value of a property or with a fault of another one. -/
def Yields (grows : σ → σ → Prop) (action : ExceptT Fault (StateM σ) α) (property : α → σ → Prop)
    (allowed : Fault → Prop) : Prop :=
  ∀ state, grows state state → YieldsFrom grows state action property allowed

section Yields

variable {grows : σ → σ → Prop} {property : α → σ → Prop} {allowed : Fault → Prop}

theorem YieldsFrom.pure (hstate : grows state state) {value : α} (hvalue : property value state) :
    YieldsFrom grows state (pure value) property allowed :=
  ⟨.ok value, state, rfl, hstate, hvalue⟩

theorem YieldsFrom.mono {action : ExceptT Fault (StateM σ) α} {other : α → σ → Prop}
    (haction : YieldsFrom grows state action other allowed)
    (hproperty : ∀ value after, grows state after → other value after → property value after) :
    YieldsFrom grows state action property allowed := by
  obtain ⟨result, after, hrun, hafter, hresult⟩ := haction
  refine ⟨result, after, hrun, hafter, ?_⟩
  cases result with
  | ok value => exact hproperty value after hafter hresult
  | error fault => exact hresult

/-- What is told of an operation in one respect holds where it is considered in another one. -/
theorem YieldsFrom.told {other : σ → σ → Prop} {allowedToo : Fault → Prop}
    {action : ExceptT Fault (StateM σ) α}
    (haction : YieldsFrom grows state action (fun _ _ => True) allowed)
    (htold : YieldsFrom other state action property allowedToo) :
    YieldsFrom grows state action property allowed := by
  obtain ⟨result, after, hrun, hafter, hresult⟩ := haction
  obtain ⟨same, last, hagain, -, hsame⟩ := htold
  rw [hrun] at hagain
  cases hagain
  refine ⟨result, after, hrun, hafter, ?_⟩
  cases result with
  | ok value => exact hsame
  | error fault => exact hresult

theorem YieldsFrom.bind [Growth grows] {action : ExceptT Fault (StateM σ) α}
    {next : α → ExceptT Fault (StateM σ) β} {last : β → σ → Prop}
    (haction : YieldsFrom grows state action property allowed)
    (hnext : ∀ value after, grows state after → property value after →
      YieldsFrom grows after (next value) last allowed) :
    YieldsFrom grows state (action >>= next) last allowed := by
  obtain ⟨result, middle, hrun, hmiddle, hresult⟩ := haction
  cases result with
  | ok value =>
      obtain ⟨final, after, hafter, hgrows, hfinal⟩ := hnext value middle hmiddle hresult
      exact ⟨final, after, (run_bind_of_ok hrun).trans hafter, Growth.trans hmiddle hgrows, hfinal⟩
  | error fault => exact ⟨.error fault, middle, run_bind_of_error hrun, hmiddle, hresult⟩

theorem YieldsFrom.read {next : σ → ExceptT Fault (StateM σ) α}
    (hnext : YieldsFrom grows state (next state) property allowed) :
    YieldsFrom grows state (getThe σ >>= next) property allowed := by
  obtain ⟨result, after, hrun, hafter⟩ := hnext
  exact ⟨result, after, (run_read_bind state).trans hrun, hafter⟩

/-- What fails or succeeds without touching the state. -/
theorem YieldsFrom.lift (hstate : grows state state) {result : Except Fault α}
    (hresult : match result with
      | .ok value => property value state
      | .error fault => allowed fault) :
    YieldsFrom grows state (liftM result : ExceptT Fault (StateM σ) α) property allowed := by
  refine ⟨result, state, ?_, hstate, hresult⟩
  cases result <;> rfl

/-- What each operation of several has brought about holds in the end, if it is not lost again. -/
theorem Yields.forM_each [Growth grows] {action : α → ExceptT Fault (StateM σ) PUnit} {xs : List α}
    {holds : α → σ → Prop}
    (haction : ∀ x ∈ xs, Yields grows (action x) (fun _ state => holds x state) allowed)
    (hlasts : ∀ x before after, grows before after → holds x before → holds x after) :
    Yields grows (xs.forM action) (fun _ state => ∀ x ∈ xs, holds x state) allowed := by
  induction xs with
  | nil => exact fun _ hstate => .pure hstate (by simp)
  | cons first rest ih =>
      intro state hstate
      refine (haction first List.mem_cons_self state hstate).bind fun _ middle hmiddle hfirst => ?_
      refine (ih (fun x hx => haction x (List.mem_cons_of_mem _ hx)) middle
        (Growth.refl_right hmiddle)).mono fun _ after hafter hrest => ?_
      exact List.forall_mem_cons.mpr ⟨hlasts first middle after hafter hfirst, hrest⟩

theorem Yields.forM [Growth grows] {action : α → ExceptT Fault (StateM σ) PUnit} {xs : List α}
    (haction : ∀ x ∈ xs, Yields grows (action x) (fun _ _ => True) allowed) :
    Yields grows (xs.forM action) (fun _ _ => True) allowed := fun state hstate =>
  (Yields.forM_each haction (fun _ _ _ _ => id) state hstate).mono fun _ _ _ _ => trivial

/-- Where every operation of several yields a value of a property, all of them together yield such
values. -/
theorem Yields.mapM [Growth grows] {action : α → ExceptT Fault (StateM σ) β} {xs : List α}
    {holds : β → Prop}
    (haction : ∀ x ∈ xs, Yields grows (action x) (fun value _ => holds value) allowed) :
    Yields grows (xs.mapM action) (fun values _ => ∀ value ∈ values, holds value) allowed := by
  induction xs with
  | nil => exact fun _ hstate => .pure hstate (by simp)
  | cons first rest ih =>
      intro state hstate
      rw [List.mapM_cons]
      have hfirst := haction first List.mem_cons_self state hstate
      refine hfirst.bind fun value middle hmiddle hvalue => ?_
      refine (ih (fun x hx => haction x (List.mem_cons_of_mem _ hx)) middle
        (Growth.refl_right hmiddle)).bind fun values after hafter hvalues => ?_
      exact .pure (Growth.refl_right hafter) (List.forall_mem_cons.mpr ⟨hvalue, hvalues⟩)

/-- Where no fault is allowed the operation succeeds. -/
theorem YieldsFrom.exists_ok {action : ExceptT Fault (StateM σ) α}
    (haction : YieldsFrom grows state action property fun _ => False) :
    ∃ value after, action.run state = (.ok value, after) ∧ grows state after ∧
      property value after := by
  obtain ⟨result, after, hrun, hafter, hresult⟩ := haction
  cases result with
  | ok value => exact ⟨value, after, hrun, hafter, hresult⟩
  | error fault => exact hresult.elim

end Yields

/-- From one state the operation ends with the invariant, also if it fails. -/
def KeepsFrom (invariant : σ → Prop) (state : σ) (action : ExceptT Fault (StateM σ) α) : Prop :=
  invariant (action.run state).2

theorem KeepsFrom.bind {action : ExceptT Fault (StateM σ) α}
    {next : α → ExceptT Fault (StateM σ) β} (haction : KeepsFrom invariant state action)
    (hnext : ∀ value after, action.run state = (.ok value, after) → invariant after →
      KeepsFrom invariant after (next value)) : KeepsFrom invariant state (action >>= next) := by
  unfold KeepsFrom at *
  rcases hrun : action.run state with ⟨result, after⟩
  rw [hrun] at haction
  cases result with
  | error fault => rwa [run_bind_of_error hrun]
  | ok value =>
      rw [run_bind_of_ok hrun]
      exact hnext value after hrun haction

theorem KeepsFrom.pure (hstate : invariant state) (value : α) :
    KeepsFrom invariant state (pure value) :=
  hstate

theorem KeepsFrom.read {next : σ → ExceptT Fault (StateM σ) β}
    (hnext : KeepsFrom invariant state (next state)) :
    KeepsFrom invariant state (getThe σ >>= next) := by
  rw [KeepsFrom, run_read_bind]
  exact hnext

/-- What fails or succeeds without touching the state. -/
theorem KeepsFrom.lift (hstate : invariant state) {result : Except Fault α}
    {next : α → ExceptT Fault (StateM σ) β}
    (hnext : ∀ value, result = .ok value → KeepsFrom invariant state (next value)) :
    KeepsFrom invariant state
      ((liftM result : ExceptT Fault (StateM σ) α) >>= next) := by
  rw [KeepsFrom, run_lift_bind]
  cases result with
  | error fault => exact hstate
  | ok value => exact hnext value rfl

theorem KeepsFrom.lifted (hstate : invariant state) {result : Except Fault α} :
    KeepsFrom invariant state (liftM result : ExceptT Fault (StateM σ) α) := by
  cases result <;> exact hstate

theorem SettlesFrom.keeps {other : σ → Prop} {action : ExceptT Fault (StateM σ) α} {value : α}
    (hsettles : SettlesFrom other state action value)
    (hkept : ∀ after, other after → invariant after) :
    KeepsFrom invariant state action := by
  obtain ⟨after, hrun, hafter⟩ := hsettles
  rw [KeepsFrom, hrun]
  exact hkept after hafter

theorem KeepsFrom.discard {action : ExceptT Fault (StateM σ) α}
    (haction : KeepsFrom invariant state action) : KeepsFrom invariant state (discard action) :=
  haction.bind fun _ _ _ hafter => .pure hafter _

theorem KeepsFrom.forM {action : α → ExceptT Fault (StateM σ) PUnit} {xs : List α}
    (haction : ∀ x ∈ xs, ∀ state, invariant state → KeepsFrom invariant state (action x))
    (hstate : invariant state) : KeepsFrom invariant state (xs.forM action) := by
  induction xs generalizing state with
  | nil => exact hstate
  | cons first rest ih =>
      change KeepsFrom invariant state (action first >>= fun _ => rest.forM action)
      refine (haction first List.mem_cons_self state hstate).bind fun _ after _ hafter => ?_
      exact ih (fun x hx => haction x (List.mem_cons_of_mem _ hx)) hafter

/-- From one state the operation ends with a value of a property, or it fails in a state in which it
may. -/
def EndsFrom (mayFail : σ → Prop) (state : σ) (action : ExceptT Fault (StateM σ) α)
    (property : α → σ → Prop) : Prop :=
  match action.run state with
  | (.ok value, after) => property value after
  | (.error _, after) => mayFail after

section Ending

variable {mayFail : σ → Prop} {property : α → σ → Prop}

theorem EndsFrom.of_run {action : ExceptT Fault (StateM σ) α} {value : α} {after : σ}
    (hrun : action.run state = (.ok value, after)) (hvalue : property value after) :
    EndsFrom mayFail state action property := by
  rw [EndsFrom, hrun]
  exact hvalue

/-- What an operation has ended with has the property. -/
theorem EndsFrom.of_ok {action : ExceptT Fault (StateM σ) α} {value : α} {after : σ}
    (haction : EndsFrom mayFail state action property)
    (hrun : action.run state = (.ok value, after)) : property value after := by
  rwa [EndsFrom, hrun] at haction

theorem EndsFrom.pure {value : α} (hvalue : property value state) :
    EndsFrom mayFail state (pure value) property :=
  hvalue

theorem EndsFrom.mono {action : ExceptT Fault (StateM σ) α} {other : α → σ → Prop}
    (haction : EndsFrom mayFail state action other)
    (hproperty : ∀ value after, other value after → property value after) :
    EndsFrom mayFail state action property := by
  unfold EndsFrom at *
  split
  next value after hrun =>
    rw [hrun] at haction
    exact hproperty value after haction
  next hrun => rwa [hrun] at haction

/-- Where more is allowed of the states in which it fails. -/
theorem EndsFrom.mono_fails {action : ExceptT Fault (StateM σ) α} {other : σ → Prop}
    (haction : EndsFrom mayFail state action property)
    (hfails : ∀ after, mayFail after → other after) : EndsFrom other state action property := by
  unfold EndsFrom at *
  split
  next hrun => rwa [hrun] at haction
  next fault after hrun =>
    rw [hrun] at haction
    exact hfails after haction

/-- What holds in the end, whether the operation fails or not. -/
theorem EndsFrom.holds {action : ExceptT Fault (StateM σ) α} {holds : σ → Prop}
    (haction : EndsFrom holds state action fun _ => holds) : holds (action.run state).2 := by
  unfold EndsFrom at haction
  split at haction
  next hrun => rwa [hrun]
  next hrun => rwa [hrun]

theorem EndsFrom.bind {action : ExceptT Fault (StateM σ) α}
    {next : α → ExceptT Fault (StateM σ) β} {last : β → σ → Prop}
    (haction : EndsFrom mayFail state action property)
    (hnext : ∀ value after, property value after → EndsFrom mayFail after (next value) last) :
    EndsFrom mayFail state (action >>= next) last := by
  unfold EndsFrom at haction
  rcases hrun : action.run state with ⟨result, after⟩
  rw [hrun] at haction
  cases result with
  | error fault =>
      rw [EndsFrom, run_bind_of_error hrun]
      exact haction
  | ok value =>
      rw [EndsFrom, run_bind_of_ok hrun]
      exact hnext value after haction

theorem EndsFrom.read {next : σ → ExceptT Fault (StateM σ) α}
    (hnext : EndsFrom mayFail state (next state) property) :
    EndsFrom mayFail state (getThe σ >>= next) property := by
  rw [EndsFrom, run_read_bind]
  exact hnext

theorem EndsFrom.modify {change : σ → σ} {next : PUnit → ExceptT Fault (StateM σ) α}
    (hnext : EndsFrom mayFail (change state) (next ⟨⟩) property) :
    EndsFrom mayFail state
      ((modify change : ExceptT Fault (StateM σ) PUnit) >>= next) property := by
  rw [EndsFrom, run_modify_bind]
  exact hnext

/-- What cannot fail here and does not touch the state. -/
theorem EndsFrom.lift {result : Except Fault α} {value : α} (hresult : result = .ok value)
    {next : α → ExceptT Fault (StateM σ) β} {last : β → σ → Prop}
    (hnext : EndsFrom mayFail state (next value) last) :
    EndsFrom mayFail state ((liftM result : ExceptT Fault (StateM σ) α) >>= next) last := by
  subst hresult
  exact hnext

/-- What may fail here and does not touch the state. -/
theorem EndsFrom.lift_of_fails (hfails : mayFail state) {result : Except Fault α}
    {next : α → ExceptT Fault (StateM σ) β} {last : β → σ → Prop}
    (hnext : ∀ value, result = .ok value → EndsFrom mayFail state (next value) last) :
    EndsFrom mayFail state ((liftM result : ExceptT Fault (StateM σ) α) >>= next) last := by
  cases result with
  | error fault => exact hfails
  | ok value => exact hnext value rfl

/-- Where an operation is known to end. -/
theorem EndsFrom.after_ok {action : ExceptT Fault (StateM σ) α}
    {next : α → ExceptT Fault (StateM σ) β} {value : α} {after : σ} {last : β → σ → Prop}
    (haction : action.run state = (.ok value, after))
    (hnext : EndsFrom mayFail after (next value) last) :
    EndsFrom mayFail state (action >>= next) last := by
  rw [EndsFrom, run_bind_of_ok haction]
  exact hnext

theorem EndsFrom.after_error {action : ExceptT Fault (StateM σ) α}
    {next : α → ExceptT Fault (StateM σ) β} {fault : Fault} {after : σ} {last : β → σ → Prop}
    (haction : action.run state = (.error fault, after)) (hfails : mayFail after) :
    EndsFrom mayFail state (action >>= next) last := by
  rw [EndsFrom, run_bind_of_error haction]
  exact hfails

theorem EndsFrom.forM {action : α → ExceptT Fault (StateM σ) PUnit} {xs : List α}
    (haction : ∀ x ∈ xs, ∀ state, invariant state →
      EndsFrom mayFail state (action x) fun _ after => invariant after)
    (hstate : invariant state) :
    EndsFrom mayFail state (xs.forM action) fun _ after => invariant after := by
  induction xs generalizing state with
  | nil => exact hstate
  | cons first rest ih =>
      refine EndsFrom.bind (haction first List.mem_cons_self state hstate) fun _ after hafter => ?_
      exact ih (fun x hx => haction x (List.mem_cons_of_mem _ hx)) hafter

/-- An operation that has not failed has ended with a value. -/
theorem EndsFrom.exists_ok {action : ExceptT Fault (StateM σ) α}
    (haction : EndsFrom mayFail state action property)
    (hended : ¬ mayFail (action.run state).2) :
    ∃ value after, action.run state = (.ok value, after) ∧ property value after := by
  unfold EndsFrom at haction
  rcases hrun : action.run state with ⟨result, after⟩
  rw [hrun] at haction hended
  cases result with
  | error fault => exact absurd haction hended
  | ok value => exact ⟨value, after, rfl, haction⟩

end Ending

/-- Whatever the operation ends with has a property. -/
def Returns (action : ExceptT Fault (StateM σ) α) (holds : α → Prop) : Prop :=
  ∀ state value after, action.run state = (.ok value, after) → holds value

namespace Returns

variable {holds : α → Prop}

theorem pure {value : α} (hvalue : holds value) :
    Returns (pure value : ExceptT Fault (StateM σ) α) holds := by
  rintro _ _ _ ⟨⟩
  exact hvalue

theorem bind {action : ExceptT Fault (StateM σ) α} {next : α → ExceptT Fault (StateM σ) β}
    {last : β → Prop} (haction : Returns action holds)
    (hnext : ∀ value, holds value → Returns (next value) last) :
    Returns (action >>= next) last := by
  intro state result after hrun
  obtain ⟨value, between, hvalue, hrun⟩ := run_bind_eq_ok_iff.mp hrun
  exact hnext value (haction state value between hvalue) between result after hrun

/-- Where it does not matter what has come before. -/
theorem andThen {action : ExceptT Fault (StateM σ) α} {next : α → ExceptT Fault (StateM σ) β}
    {last : β → Prop} (hnext : ∀ value, Returns (next value) last) :
    Returns (action >>= next) last :=
  bind (fun _ _ _ _ => trivial) fun value (_ : True) => hnext value

theorem read {next : σ → ExceptT Fault (StateM σ) α}
    (hnext : ∀ state, Returns (next state) holds) : Returns (getThe σ >>= next) holds :=
  fun state => hnext state state

theorem lift {result : Except Fault α} (hresult : ∀ value, result = .ok value → holds value) :
    Returns (liftM result : ExceptT Fault (StateM σ) α) holds := by
  rintro _ value _ hrun
  cases result <;> cases hrun
  exact hresult value rfl

/-- What an operation returns for each element is told of all of them. -/
theorem mapM {action : α → ExceptT Fault (StateM σ) β} {holds : β → Prop} (xs : List α)
    (haction : ∀ x ∈ xs, Returns (action x) holds) :
    Returns (xs.mapM action) fun values =>
      values.length = xs.length ∧ ∀ value ∈ values, holds value := by
  induction xs with
  | nil => exact .pure ⟨rfl, by simp⟩
  | cons first rest ih =>
      rw [List.mapM_cons]
      refine (haction first List.mem_cons_self).bind fun value hvalue => ?_
      refine (ih fun x hx => haction x (List.mem_cons_of_mem _ hx)).bind fun values hvalues => ?_
      refine .pure ⟨by rw [List.length_cons, List.length_cons, hvalues.1], ?_⟩
      exact List.forall_mem_cons.mpr ⟨hvalue, hvalues.2⟩

end Returns

/-- What is computed for each element is told of all of them. -/
theorem forall_mem_of_mapM_eq_ok {f : α → Except Fault β} {xs : List α} {values : List β}
    {holds : β → Prop} (hmapM : xs.mapM f = .ok values)
    (hf : ∀ x ∈ xs, ∀ value, f x = .ok value → holds value) :
    values.length = xs.length ∧ ∀ value ∈ values, holds value := by
  have hreturns : Returns (xs.mapM fun x => (liftM (f x) : ExceptT Fault (StateM Unit) β))
      fun values => values.length = xs.length ∧ ∀ value ∈ values, holds value :=
    .mapM xs fun x hx => .lift (hf x hx)
  refine hreturns () values () ?_
  rw [run_mapM_lift, hmapM]

end Motif
