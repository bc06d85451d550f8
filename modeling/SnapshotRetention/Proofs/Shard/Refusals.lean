import SnapshotRetention.Proofs.Writer.Complaints
import SnapshotRetention.Proofs.Writer.Vacant

/-!
# What an engine never says

Only a shard says that it is in the wrong state (`Error.Refuses`). Whatever goes wrong while a
writer opens or makes a commit, while a stock policy decides or a snapshot is taken, is another
error (`Admitted`), so that a refusal of a shard can be told from a failure of its engine.
-/

namespace SnapshotRetention

/-- Whether an error says that a shard is in the wrong state. -/
def Error.Refuses : Error → Prop
  | .illegalShardState _ _ | .misuse (.forbiddenMove _ _) => True
  | _ => False

/-- A result that is no refusal, but may be another error. -/
def Admitted {α : Type} (result : Except Error α) : Prop :=
  ∀ err, result = .error err → ¬err.Refuses

variable {α β : Type} {result : Except Error α}

theorem admitted_ok (a : α) : Admitted (.ok a : Except Error α) := nofun

theorem admitted_error {err : Error} (h : ¬err.Refuses) : Admitted (.error err : Except Error α) :=
  fun _ heq => Except.error.inj heq ▸ h

/-- An error is passed on as an error. -/
theorem Admitted.of_error {err : Error} (h : Admitted result) (heq : result = .error err) :
    Admitted (.error err : Except Error β) :=
  admitted_error (h err heq)

/-- So it is whatever becomes of a value. -/
theorem Admitted.map {f : α → β} (h : Admitted result) : Admitted (result.map f) := by
  cases result with
  | error err => exact h.of_error rfl
  | ok a => exact admitted_ok (f a)

/-- Nothing below a shard refuses. -/
theorem foreign_refuses : Error.Foreign Error.Refuses :=
  ⟨fun _ h => h, fun _ h => h, fun _ h => h, fun _ h => h, fun _ h => h⟩

namespace Keeper

theorem admitted_deleteGuard (g : Guard) (k : Keeper) : Admitted (k.deleteGuard g).1 :=
  avoids_deleteGuard foreign_refuses g k

theorem admitted_snapshot (k : Keeper) : Admitted k.snapshot.1 := by
  unfold snapshot
  split
  next => exact admitted_error fun h => h
  next => exact admitted_ok _

theorem admitted_snapshotCurrent (k : Keeper) : Admitted k.snapshotCurrent.1 := by
  unfold snapshotCurrent
  split
  next => exact admitted_error fun h => h
  next => exact admitted_ok _

end Keeper

namespace Engine

variable {e : Engine} {p : Primary} {w : Writer} {m : Manifest}

theorem admitted_decide (hd : e.decider = .stock p) (commits : List Nat) :
    Admitted (e.decide commits).1 :=
  avoids_decide foreign_refuses (hd ▸ Decider.avoids_stock p _) commits

theorem admitted_load (store : Nat) (sync : Bool) (e : Engine) :
    Admitted (e.load store sync).1 := by
  unfold load
  dsimp only
  split
  next err heq => exact (Store.avoids_readCommits foreign_refuses _).of_error heq
  next =>
    split
    next => exact admitted_error fun h => h
    next =>
      split
      next => exact admitted_error fun h => h
      next => exact admitted_ok _

/-- Loading a history leaves what decides as it is. -/
theorem load_decider (store : Nat) (sync : Bool) (e : Engine) :
    (e.load store sync).2.decider = e.decider := by
  unfold load
  dsimp only
  split
  next => rfl
  next =>
    split
    next => rfl
    next =>
      split
      next => rfl
      next => rfl

theorem admitted_presentHistory (hd : e.decider = .stock p) (w : Writer) :
    Admitted (e.presentHistory w).1 :=
  avoids_presentHistory foreign_refuses (hd ▸ Decider.avoids_stock p _) w

theorem admitted_openWriter (hd : e.decider = .stock p) (store : Nat) (sync : Bool) :
    Admitted (e.openWriter store sync).1 := by
  have hd' := load_decider store sync e
  have hload := admitted_load store sync e
  rw [openWriter_eq_load]
  split
  next err e1 heq =>
    rw [heq] at hload
    exact hload.of_error rfl
  next w e1 heq =>
    rw [heq] at hd'
    exact admitted_presentHistory (hd'.trans hd) w

theorem removeAll_error {names : List String} {files : FileSet} {cause : Misuse}
    (h : FileSet.removeAll names files = .error cause) : ¬(Error.misuse cause).Refuses := by
  induction names generalizing files with
  | nil => cases h
  | cons name rest ih =>
    unfold FileSet.removeAll at h
    split at h
    next => exact ih h
    next =>
      obtain rfl := Except.error.inj h
      exact id

theorem addAll_error {names : List String} {files : FileSet} {cause : Misuse}
    (h : FileSet.addAll names files = .error cause) : ¬(Error.misuse cause).Refuses := by
  induction names generalizing files with
  | nil => cases h
  | cons name rest ih =>
    unfold FileSet.addAll at h
    split at h
    next =>
      obtain rfl := Except.error.inj h
      exact id
    next =>
      split at h
      next =>
        obtain rfl := Except.error.inj h
        exact id
      next => exact ih h

/-- Changes that cannot be applied are a misuse of the writer, not of a shard. -/
theorem apply_error {changes : Changes} {files : List String} {cause : Misuse}
    (h : changes.apply files = .error cause) : ¬(Error.misuse cause).Refuses := by
  unfold Changes.apply at h
  cases hremoved : FileSet.removeAll changes.remove (FileSet.ofNames files) with
  | error cause' =>
    rw [hremoved] at h
    obtain rfl := Except.error.inj h
    exact removeAll_error hremoved
  | ok kept =>
    rw [hremoved] at h
    cases hadded : FileSet.addAll (changes.add.map Prod.fst) kept with
    | error cause' =>
      dsimp only at h
      rw [hadded] at h
      obtain rfl := Except.error.inj h
      exact addAll_error hadded
    | ok all =>
      dsimp only at h
      rw [hadded] at h
      cases h

theorem admitted_register (hd : e.decider = .stock p) (w : Writer) (m : Manifest) :
    Admitted (e.register w m).1 := by
  cases hadvance : advance { w with history := w.history ++ [e.catalog.commits.length] }
      m.timestamp with
  | none =>
    rw [register_of_none hadvance]
    exact admitted_error fun h => h
  | some w1 =>
    rw [register_of_advance hadvance]
    exact (admitted_decide (e := e.withCommit w m) hd w1.history).map

theorem admitted_commitWith (hd : e.decider = .stock p) (w : Writer) (changes : Changes) :
    Admitted (e.commitWith w changes).1 := by
  unfold commitWith
  dsimp only
  split
  next cause heq => exact admitted_error (apply_error heq)
  next =>
    split
    next err heq => exact (avoids_writeOut foreign_refuses _ _ _ _).of_error heq
    next => exact admitted_register (e := (e.prepare w).2.setCatalog _) hd _ _

end Engine

end SnapshotRetention
