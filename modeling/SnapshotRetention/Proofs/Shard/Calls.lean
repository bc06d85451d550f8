import SnapshotRetention.Proofs.Keeper.Within
import SnapshotRetention.Proofs.Shard.Refusals
import SnapshotRetention.Shard.Basic

/-!
# What is asked of a shard

A consumer calls a shard and the handles that it was given (`Shard.call`). The state of the shard
alone says which calls are refused, and with which error (`Call.refusal?`): a refused call changes
nothing at all (`call_of_refusal`), and one that is not refused is never answered with a refusal
(`admitted_call`). The state moves where a call that succeeds leads (`state_call`), which is one
step on the way from `created` to `relocated`, or to `closed` (`state_call_next`).
-/

namespace SnapshotRetention

/-- What is asked of a shard, or of the handles that it has given out. -/
inductive Call where
  /-- Open the writer over a store of the catalog. -/
  | recover (store : Nat)
  | start
  | relocated
  | close
  | commit (changes : Changes)
  | snapshot
  | current
  /-- Handles are given back, dropped or taken out of their bundle. -/
  | use (u : Use) (hu : u.Returns)
  /-- A handle is asked to delete its commit. -/
  | delete (p : Place)
  /-- From now on other accesses of a store fail. -/
  | refuse (store : Nat) (faults : Store.FaultPlan)

namespace Call

/-- How a shard in some state refuses a call, if it does. -/
def refusal? (state : ShardState) : Call → Option Error
  | .recover _ =>
    if state = .created then none else some (.misuse (.forbiddenMove state .recovering))
  | .start => if state = .recovering then none else some (.misuse (.forbiddenMove state .started))
  | .relocated =>
    if state = .started then none else some (.misuse (.forbiddenMove state .relocated))
  | .commit _ =>
    if state = .created ∨ state = .closed then some (.illegalShardState .commit state) else none
  | .snapshot | .current =>
    if state = .started ∨ state = .relocated then none
    else some (.illegalShardState .snapshot state)
  | .close | .use _ _ | .delete _ | .refuse _ _ => none

/-- The state to which a call leads if it succeeds. -/
def target (state : ShardState) : Call → ShardState
  | .recover _ => .recovering
  | .start => .started
  | .relocated => .relocated
  | .close => .closed
  | .commit _ | .snapshot | .current | .use _ _ | .delete _ | .refuse _ _ => state

/-- Whether a call goes through the shard, and not to a handle or to what is behind the shard. -/
def Through : Call → Prop
  | .recover _ | .start | .relocated | .close | .commit _ | .snapshot | .current => True
  | .use _ _ | .delete _ | .refuse _ _ => False

end Call

/-- One step in the life of a shard. -/
inductive ShardState.Next : ShardState → ShardState → Prop where
  | recover : Next .created .recovering
  | start : Next .recovering .started
  | relocate : Next .started .relocated
  | close {s : ShardState} : s ≠ .closed → Next s .closed

/-- Asks the handle at a place to delete its commit. -/
def Keeper.deleteAt (p : Place) (k : Keeper) : Except Error Unit × Keeper :=
  match k.at? p with
  | none => (.ok (), k)
  | some x => k.deleteGuard x.guard

namespace Shard

variable {s s' : Shard} {c : Call} {err : Error}

/-- The keeper of the shard. -/
def keeper (s : Shard) : Keeper := s.engine.keeper

/-- The shard with another keeper. -/
def withKeeper (k : Keeper) (s : Shard) : Shard :=
  { s with engine := { s.engine with keeper := k } }

/-- What a call is answered, of which only errors matter here, and the shard after it. -/
def call (c : Call) (s : Shard) : Except Error Unit × Shard :=
  match c with
  | .recover store => s.recover store
  | .start => s.start
  | .relocated => s.relocated
  | .close => (.ok (), s.close)
  | .commit changes => ((s.commit changes).1.map fun _ => (), (s.commit changes).2)
  | .snapshot => (s.snapshot.1.map fun _ => (), s.snapshot.2)
  | .current => (s.snapshotCurrent.1.map fun _ => (), s.snapshotCurrent.2)
  | .use u _ => (.ok (), s.withKeeper (s.keeper.use u))
  | .delete p => ((s.keeper.deleteAt p).1, s.withKeeper (s.keeper.deleteAt p).2)
  | .refuse store faults =>
    (.ok (), s.withKeeper { s.keeper with
      catalog := s.engine.catalog.setStore store { s.engine.catalog.store store with faults } })

/-! ## What the state allows -/

theorem checkMove_recovering (state : ShardState) : checkMove state .recovering =
    if state = .created then .ok () else .error (.misuse (.forbiddenMove state .recovering)) := by
  cases state <;> rfl

theorem checkMove_started (state : ShardState) : checkMove state .started =
    if state = .recovering then .ok () else .error (.misuse (.forbiddenMove state .started)) := by
  cases state <;> rfl

theorem checkMove_relocated (state : ShardState) : checkMove state .relocated =
    if state = .started then .ok () else .error (.misuse (.forbiddenMove state .relocated)) := by
  cases state <;> rfl

theorem recover_eq (store : Nat) (s : Shard) : s.recover store =
    if s.state = .created then
      match s.engine.openWriter store s.config.syncOnCommit with
      | (.error err, engine) => (.error err, { s with engine })
      | (.ok (), engine) => (.ok (), { s with engine, state := .recovering })
    else (.error (.misuse (.forbiddenMove s.state .recovering)), s) := by
  unfold recover
  rw [checkMove_recovering]
  split
  next heq =>
    split at heq
    next => cases heq
    next hne =>
      rw [if_neg hne]
      exact congrArg (fun err => (Except.error err, s)) (Except.error.inj heq).symm
  next heq =>
    split at heq
    next hstate =>
      refine Eq.trans ?_ (if_pos hstate).symm
      rcases s.engine.openWriter store s.config.syncOnCommit with ⟨_ | _, engine⟩ <;> rfl
    next => cases heq

theorem start_eq (s : Shard) : s.start =
    if s.state = .recovering then (.ok (), { s with state := .started })
    else (.error (.misuse (.forbiddenMove s.state .started)), s) := by
  unfold start move
  rw [checkMove_started]
  by_cases hstate : s.state = .recovering
  · rw [if_pos hstate, if_pos hstate]
  · rw [if_neg hstate, if_neg hstate]

theorem relocated_eq (s : Shard) : s.relocated =
    if s.state = .started then (.ok (), { s with state := .relocated })
    else (.error (.misuse (.forbiddenMove s.state .relocated)), s) := by
  unfold relocated move
  rw [checkMove_relocated]
  by_cases hstate : s.state = .started
  · rw [if_pos hstate, if_pos hstate]
  · rw [if_neg hstate, if_neg hstate]

theorem commit_eq (changes : Changes) (s : Shard) : s.commit changes =
    if s.state = .created ∨ s.state = .closed then (.error (.illegalShardState .commit s.state), s)
    else
      match s.engine.commit? changes with
      | (none, _) => (.error (.illegalShardState .commit s.state), s)
      | (some result, engine) => (result, { s with engine }) := by
  have hallows : (!s.state.allowsCommit) = true ↔ s.state = .created ∨ s.state = .closed := by
    cases s.state <;> decide
  unfold commit
  by_cases hstate : s.state = .created ∨ s.state = .closed
  · exact (if_pos (hallows.mpr hstate)).trans (if_pos hstate).symm
  · refine (if_neg (mt hallows.mp hstate)).trans (Eq.trans ?_ (if_neg hstate).symm)
    rcases s.engine.commit? changes with ⟨_ | result, engine⟩ <;> rfl

theorem whenStarted_eq {α : Type} (f : Keeper → Except Error α × Keeper) (s : Shard) :
    s.whenStarted f = if s.state = .started ∨ s.state = .relocated then
      ((f s.keeper).1, s.withKeeper (f s.keeper).2)
    else (.error (.illegalShardState .snapshot s.state), s) := by
  have hallows : (!s.state.allowsSnapshot) =
      !decide (s.state = .started ∨ s.state = .relocated) := by
    cases s.state <;> rfl
  unfold whenStarted
  rw [hallows]
  by_cases hstate : s.state = .started ∨ s.state = .relocated
  · rw [if_pos hstate, decide_eq_true hstate]
    rfl
  · rw [if_neg hstate, decide_eq_false hstate]
    rfl

/-! ## Refusals -/

/-- A refused call changes nothing. -/
theorem call_of_refusal (h : c.refusal? s.state = some err) : s.call c = (.error err, s) := by
  unfold Call.refusal? at h
  cases c with
  | recover store =>
    obtain ⟨hstate, herr⟩ := Option.ite_none_left_eq_some.mp h
    obtain rfl := Option.some.inj herr
    exact (recover_eq store s).trans (if_neg hstate)
  | start =>
    obtain ⟨hstate, herr⟩ := Option.ite_none_left_eq_some.mp h
    obtain rfl := Option.some.inj herr
    exact (start_eq s).trans (if_neg hstate)
  | relocated =>
    obtain ⟨hstate, herr⟩ := Option.ite_none_left_eq_some.mp h
    obtain rfl := Option.some.inj herr
    exact (relocated_eq s).trans (if_neg hstate)
  | commit changes =>
    obtain ⟨hstate, herr⟩ := Option.ite_none_right_eq_some.mp h
    obtain rfl := Option.some.inj herr
    unfold call
    dsimp only
    rw [commit_eq, if_pos hstate]
    rfl
  | snapshot =>
    obtain ⟨hstate, herr⟩ := Option.ite_none_left_eq_some.mp h
    obtain rfl := Option.some.inj herr
    unfold call snapshot
    dsimp only
    rw [whenStarted_eq, if_neg hstate]
    rfl
  | current =>
    obtain ⟨hstate, herr⟩ := Option.ite_none_left_eq_some.mp h
    obtain rfl := Option.some.inj herr
    unfold call snapshotCurrent
    dsimp only
    rw [whenStarted_eq, if_neg hstate]
    rfl
  | close => cases h
  | use u hu => cases h
  | delete p => cases h
  | refuse store faults => cases h

/-- What the state allows is not answered with a refusal. -/
theorem admitted_call {p : Primary} (hd : s.engine.decider = .stock p)
    (hw : s.engine.writer = none → s.state = .created ∨ s.state = .closed)
    (h : c.refusal? s.state = none) : Admitted (s.call c).1 := by
  unfold Call.refusal? at h
  cases c with
  | recover store =>
    have hstate : s.state = .created := by simpa using h
    have hopen := Engine.admitted_openWriter hd store s.config.syncOnCommit
    unfold call
    dsimp only
    rw [recover_eq, if_pos hstate]
    split
    next err engine heq =>
      rw [heq] at hopen
      exact hopen
    next => exact admitted_ok ()
  | start =>
    have hstate : s.state = .recovering := by simpa using h
    have hok := (start_eq s).trans (if_pos hstate)
    unfold call
    dsimp only
    rw [hok]
    exact admitted_ok ()
  | relocated =>
    have hstate : s.state = .started := by simpa using h
    have hok := (relocated_eq s).trans (if_pos hstate)
    unfold call
    dsimp only
    rw [hok]
    exact admitted_ok ()
  | commit changes =>
    have hstate : ¬(s.state = .created ∨ s.state = .closed) := by simpa using h
    obtain ⟨w, hsome⟩ := Option.ne_none_iff_exists'.mp fun hnone => hstate (hw hnone)
    have hcommit := Engine.admitted_commitWith hd w changes
    refine Admitted.map ?_
    rw [commit_eq, if_neg hstate, Engine.commit?_of_writer hsome]
    exact hcommit
  | snapshot =>
    have hstate : s.state = .started ∨ s.state = .relocated := by
      simpa [or_iff_not_imp_left] using h
    refine Admitted.map ?_
    unfold snapshot
    rw [whenStarted_eq, if_pos hstate]
    exact Keeper.admitted_snapshot s.keeper
  | current =>
    have hstate : s.state = .started ∨ s.state = .relocated := by
      simpa [or_iff_not_imp_left] using h
    refine Admitted.map ?_
    unfold snapshotCurrent
    rw [whenStarted_eq, if_pos hstate]
    exact Keeper.admitted_snapshotCurrent s.keeper
  | close => exact admitted_ok ()
  | use u hu => exact admitted_ok ()
  | delete p =>
    unfold call Keeper.deleteAt
    dsimp only
    split
    next => exact admitted_ok ()
    next x _ => exact Keeper.admitted_deleteGuard x.guard s.keeper
  | refuse store faults => exact admitted_ok ()

/-! ## Where a call leads -/

/-- The state moves exactly if a call succeeds that leads elsewhere. -/
theorem state_call (c : Call) (s : Shard) : (s.call c).2.state =
    match (s.call c).1 with
    | .ok () => c.target s.state
    | .error _ => s.state := by
  have hstays : ∀ {result : Except Error Unit}, s.state =
      match result with
      | .ok () => s.state
      | .error _ => s.state := by
    intro result
    cases result <;> rfl
  cases c with
  | recover store =>
    unfold call
    dsimp only
    rw [recover_eq]
    split
    next =>
      split
      next => rfl
      next => rfl
    next => rfl
  | start =>
    unfold call
    dsimp only
    rw [start_eq]
    split
    next => rfl
    next => rfl
  | relocated =>
    unfold call
    dsimp only
    rw [relocated_eq]
    split
    next => rfl
    next => rfl
  | close =>
    show s.close.state = .closed
    unfold close
    split
    next hclosed => exact hclosed
    next => rfl
  | commit changes =>
    refine Eq.trans ?_ hstays
    show (s.commit changes).2.state = s.state
    rw [commit_eq]
    split
    next => rfl
    next =>
      split
      next => rfl
      next => rfl
  | snapshot =>
    refine Eq.trans ?_ hstays
    show (s.whenStarted Keeper.snapshot).2.state = s.state
    rw [whenStarted_eq]
    split
    next => rfl
    next => rfl
  | current =>
    refine Eq.trans ?_ hstays
    show (s.whenStarted Keeper.snapshotCurrent).2.state = s.state
    rw [whenStarted_eq]
    split
    next => rfl
    next => rfl
  | use u hu => rfl
  | delete p => exact hstays
  | refuse store faults => rfl

/-- A call leaves the state alone, or moves it one step on. -/
theorem state_call_next (c : Call) (s : Shard) :
    (s.call c).2.state = s.state ∨ s.state.Next (s.call c).2.state := by
  rw [state_call]
  split
  next hok =>
    have hallowed : c.refusal? s.state = none := by
      refine Option.eq_none_iff_forall_ne_some.mpr fun err herr => ?_
      rw [call_of_refusal herr] at hok
      cases hok
    unfold Call.refusal? at hallowed
    cases c with
    | recover store =>
      have hstate : s.state = .created := by simpa using hallowed
      exact Or.inr (hstate ▸ .recover)
    | start =>
      have hstate : s.state = .recovering := by simpa using hallowed
      exact Or.inr (hstate ▸ .start)
    | relocated =>
      have hstate : s.state = .started := by simpa using hallowed
      exact Or.inr (hstate ▸ .relocate)
    | close => exact (Decidable.em (s.state = .closed)).imp Eq.symm .close
    | commit changes => exact Or.inl rfl
    | snapshot => exact Or.inl rfl
    | current => exact Or.inl rfl
    | use u hu => exact Or.inl rfl
    | delete p => exact Or.inl rfl
    | refuse store faults => exact Or.inl rfl
  next => exact Or.inl rfl

/-- A closed shard stays as it is, whatever it is asked. -/
theorem call_of_closed (h : s.state = .closed) (hc : c.Through) : (s.call c).2 = s := by
  cases hrefusal : c.refusal? s.state with
  | some err => rw [call_of_refusal hrefusal]
  | none =>
    rw [h] at hrefusal
    cases c with
    | close =>
      show s.close = s
      unfold close
      rw [if_pos h]
    | use u hu => exact hc.elim
    | delete p => exact hc.elim
    | refuse store faults => exact hc.elim
    | _ => simp [Call.refusal?] at hrefusal

end Shard

end SnapshotRetention
