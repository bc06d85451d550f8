import SnapshotRetention.Keeper.Cycle
import SnapshotRetention.Proofs.Catalog.Frame
import SnapshotRetention.Proofs.Keeper.Holds

/-!
# What the steps of a keeper leave alone

Most steps of a keeper give out no handle and publish no list: they change the hold table, the
counters, the marks of the guards and the deletion marks of the commits, and nothing else
(`Keeper.Frame`). Beside the frame of each such step stands what it does to the parts that it
changes.
-/

namespace SnapshotRetention.Keeper

variable {k k' : Keeper}

/-- `k'` has the handles, the bundles, the live list and the settings of `k`, made no guard, and
describes the same commits. -/
structure Frame (k k' : Keeper) : Prop where
  id : k'.id = k.id
  reclaimOnRelease : k'.reclaimOnRelease = k.reclaimOnRelease
  live : k'.live = k.live
  serials : k'.serials = k.serials
  handles : k'.handles = k.handles
  bundles : k'.bundles = k.bundles
  commits : k.catalog.SameCommits k'.catalog

theorem Frame.refl (k : Keeper) : Frame k k :=
  ⟨rfl, rfl, rfl, rfl, rfl, rfl, .refl _⟩

theorem Frame.trans {k'' : Keeper} (h : Frame k k') (h' : Frame k' k'') : Frame k k'' :=
  ⟨h'.id.trans h.id, h'.reclaimOnRelease.trans h.reclaimOnRelease, h'.live.trans h.live,
    h'.serials.trans h.serials, h'.handles.trans h.handles, h'.bundles.trans h.bundles,
    h.commits.trans h'.commits⟩

theorem Frame.version (h : Frame k k') (g : Guard) : k'.version g = k.version g :=
  h.commits.version g.commit

/-! ## Deleting commits -/

theorem deleteCommit_frame (n : Nat) (k : Keeper) : Frame k (k.deleteCommit n).2 :=
  ⟨rfl, rfl, rfl, rfl, rfl, rfl, Catalog.sameCommits_delete n k.catalog⟩

@[simp] theorem deleteCommit_catalog (n : Nat) (k : Keeper) :
    (k.deleteCommit n).2.catalog = (k.catalog.delete n).2 := rfl

/-! ## Asking a guard -/

theorem deleteGuard_of_held {g : Guard} (h : 0 < k.holds.count (k.version g)) :
    k.deleteGuard g = (.ok (), (k.mark g).defer g) := by
  unfold deleteGuard
  rw [if_pos ((HoldTable.isHeld_iff _ _).mpr h)]

theorem deleteGuard_of_not_held {g : Guard} (h : k.holds.count (k.version g) = 0) :
    k.deleteGuard g = (k.mark g).deleteCommit g.commit := by
  unfold deleteGuard
  rw [if_neg (fun hheld => by rw [HoldTable.isHeld_iff] at hheld; omega)]

theorem deleteGuard_frame (g : Guard) (k : Keeper) : Frame k (k.deleteGuard g).2 := by
  unfold deleteGuard
  split
  next => exact ⟨rfl, rfl, rfl, rfl, rfl, rfl, .refl _⟩
  next => exact ⟨rfl, rfl, rfl, rfl, rfl, rfl, Catalog.sameCommits_delete g.commit k.catalog⟩

/-- Asking a guard marks it, whether its commit can go or not. -/
theorem deleteGuard_marked (g : Guard) (k : Keeper) :
    (k.deleteGuard g).2.marked = g.serial :: k.marked := by
  unfold deleteGuard
  split
  next => rfl
  next => rfl

theorem deleteGuard_positive (h : k.holds.Positive) (g : Guard) :
    (k.deleteGuard g).2.holds.Positive := by
  unfold deleteGuard
  split
  next => exact h.setPending _ _
  next => exact h

theorem deleteGuard_count (g : Guard) (k : Keeper) (v : Version) :
    (k.deleteGuard g).2.holds.count v = k.holds.count v := by
  unfold deleteGuard
  split
  next => exact HoldTable.count_setPending _ _ _ _
  next => rfl

/-! ## Releasing -/

theorem unhold_frame (v : Version) (k : Keeper) : Frame k (k.unhold v).2 :=
  ⟨rfl, rfl, rfl, rfl, rfl, rfl, .refl _⟩

theorem reclaim_off (h : k.reclaimOnRelease = false) (n : Nat) : k.reclaim n = k := by
  unfold reclaim
  rw [if_neg (by simp [h])]

/-- A reclaim deletes the commit and counts that, as a success or as a failure. -/
theorem reclaim_on (h : k.reclaimOnRelease = true) (n : Nat) :
    ∃ stats, (stats = { k.stats with deferredReclaimed := k.stats.deferredReclaimed + 1 } ∨
        stats = { k.stats with reclaimFailures := k.stats.reclaimFailures + 1 }) ∧
      k.reclaim n = { k with catalog := (k.catalog.delete n).2, stats } := by
  have hdel : k.deleteCommit n =
      ((k.catalog.delete n).1, { k with catalog := (k.catalog.delete n).2 }) := rfl
  unfold reclaim
  rw [if_pos h, hdel]
  cases (k.catalog.delete n).1 with
  | ok _ => exact ⟨_, Or.inl rfl, rfl⟩
  | error _ => exact ⟨_, Or.inr rfl, rfl⟩

theorem reclaim_frame (n : Nat) (k : Keeper) : Frame k (k.reclaim n) := by
  cases hr : k.reclaimOnRelease with
  | false =>
    rw [reclaim_off hr]
    exact Frame.refl k
  | true =>
    obtain ⟨stats, -, heq⟩ := reclaim_on hr n
    rw [heq]
    exact ⟨rfl, rfl, rfl, rfl, rfl, rfl, Catalog.sameCommits_delete n k.catalog⟩

theorem settle_frame (u : Unhold) (k : Keeper) : Frame k (k.settle u).2 := by
  have hcount : ∀ k : Keeper, Frame k k.countRelease :=
    fun _ => ⟨rfl, rfl, rfl, rfl, rfl, rfl, .refl _⟩
  unfold settle
  split
  next => exact ⟨rfl, rfl, rfl, rfl, rfl, rfl, .refl _⟩
  next => exact hcount k
  next => exact hcount k
  next n => exact (hcount k).trans (reclaim_frame n _)

/-- A release that frees no pending deletion only counts down. -/
theorem release_plain {v : Version} (hv : 0 < k.holds.count v)
    (h : k.holds.count v ≠ 1 ∨ k.holds.pending? v = none) :
    k.release v = (true, (k.unhold v).2.countRelease) := by
  unfold release unhold
  obtain ⟨n, hn⟩ := Nat.exists_eq_add_one.mpr hv
  cases n with
  | zero =>
    have hp : k.holds.pending? v = none := h.resolve_left (fun hne => hne hn)
    rw [HoldTable.release_last hn, hp]
    rfl
  | succ n =>
    rw [HoldTable.release_more hn]
    rfl

/-- The release of the last hold carries out the deletion that waits for it. -/
theorem release_pending {v : Version} {n : Nat} (hv : k.holds.count v = 1)
    (hp : k.holds.pending? v = some n) :
    k.release v = (true, (k.unhold v).2.countRelease.reclaim n) := by
  unfold release unhold
  rw [HoldTable.release_last hv, hp]
  rfl

theorem reclaim_marked (n : Nat) (k : Keeper) : (k.reclaim n).marked = k.marked := by
  cases hr : k.reclaimOnRelease with
  | false => rw [reclaim_off hr]
  | true =>
    obtain ⟨stats, -, heq⟩ := reclaim_on hr n
    rw [heq]

theorem settle_marked (u : Unhold) (k : Keeper) : (k.settle u).2.marked = k.marked := by
  unfold settle
  split
  next => rfl
  next => rfl
  next => rfl
  next n => exact reclaim_marked n _

theorem release_marked (v : Version) (k : Keeper) : (k.release v).2.marked = k.marked :=
  settle_marked _ _

theorem release_frame (v : Version) (k : Keeper) : Frame k (k.release v).2 :=
  (unhold_frame v k).trans (settle_frame _ _)

end SnapshotRetention.Keeper
