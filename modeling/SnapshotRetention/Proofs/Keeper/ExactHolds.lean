import SnapshotRetention.Proofs.Keeper.Places

/-!
# Holds are counted exactly

Main statement: `holds_exact` — in every state between two events of any run, the hold table and the
statistics agree with the handles that were given out (`ExactHolds`): each version is held as often
as there are unreleased handles of it, a handle answers `true` to the first release and `false` to
each later one, a bundle answers `true` if all its handles do, and nothing is ever released that was
not held.

The counts are `Reachable.sound`; the answers come from following each handle from the snapshot that
gave it out (`Traced.released`).
-/

namespace SnapshotRetention.Keeper

variable {k : Keeper}

/-- The hold table and the statistics agree with the handles that were given out. -/
structure ExactHolds (k : Keeper) : Prop where
  /-- The count of a version is the number of its unreleased handles, loose or in bundles. -/
  count : ∀ v, k.holds.count v = k.unreleasedOf v
  /-- There is an entry for a version exactly if it has unreleased handles. -/
  entry : ∀ v, (k.holds.get? v).isSome ↔ 0 < k.unreleasedOf v
  ascending : k.holds.versions.Pairwise (· < ·)
  /-- The held versions are those with unreleased handles. -/
  versions : ∀ v, v ∈ k.holds.versions ↔ 0 < k.unreleasedOf v
  /-- Every handle was given out by some snapshot. -/
  traced : ∀ p x, k.at? p = some x → ∃ called, Traced k p called
  /-- A release takes effect the first time that a handle is asked for it, and never again. -/
  answer : ∀ p x called, Traced k p called → k.at? p = some x →
    (k.releaseAt p).1 = some (!called)
  /-- The release of a bundle takes effect only if that of each of its handles does. -/
  bundle : ∀ slot b, k.bundle? slot = some b →
    (k.releaseBundle slot).1 = some (b.handles.all fun x => !x.released)
  /-- The snapshots taken and not released are the unreleased handles. -/
  outstanding : k.stats.snapshotsAcquired = k.stats.releases + k.unreleased.length
  redundant : k.stats.redundantReleases = 0
  swept : k.stats.sweptEntries = 0
  /-- Each deletion that had to wait is carried out at most once. -/
  deferred : k.stats.deferredReclaimed + k.stats.reclaimFailures ≤ k.stats.deletionsDeferred

/-- Releasing a handle takes effect exactly if it was not released before. -/
theorem releaseAt_answer (h : Sound [] k) {p : Place} {x : Handle} (hx : k.at? p = some x) :
    (k.releaseAt p).1 = some (!x.released) := by
  cases p with
  | loose slot => exact releaseHandle_answer h hx
  | bundled slot index =>
    obtain ⟨b, hb, hx⟩ := Option.bind_eq_some_iff.mp hx
    exact releaseInBundle_answer h hb hx

theorem Sound.count (h : Sound [] k) (v : Version) : k.holds.count v = k.unreleasedOf v := by
  have hcount := h.counted.count v
  rw [unreleasedOf_eq_count]
  simpa using hcount

theorem holds_exact (h : Reachable k) : ExactHolds k := by
  have hsound := h.sound
  have hcount := hsound.count
  refine
    { count := hcount
      entry := ?_
      ascending := HoldTable.pairwise_versions k.holds
      versions := ?_
      traced := fun p x hx => h.traced hx
      answer := ?_
      bundle := fun slot b hb => releaseBundle_answer hsound hb
      outstanding := ?_
      redundant := hsound.counted.redundant
      swept := hsound.counted.swept
      deferred := ?_ }
  · intro v
    rw [← hcount]
    exact hsound.counted.positive.isSome_get?_iff v
  · intro v
    rw [← hcount]
    exact HoldTable.mem_versions_iff k.holds v
  · intro p x called htraced hx
    rw [releaseAt_answer hsound hx, htraced.released hx]
  · rw [length_unreleased]
    exact hsound.counted.balance
  · exact Nat.le_trans (Nat.le_add_right _ _) hsound.counted.deferred

/-- A keeper of two commits that gave out a snapshot of both, was asked to delete the older one and
did so when the handle of it was released. -/
def afterRelease : Keeper :=
  (((((new 0 true ⟨[], [], [.plain 1 0, .plain 2 0]⟩).step (.cycle [0, 1] [])).step
    (.use .snapshot)).step (.cycle [0, 1] [.delete 0])).step (.use (.openBundle 0))).step
    (.use (.release 0))

theorem holds_exact_afterRelease :
    Reachable afterRelease ∧ ExactHolds afterRelease ∧ afterRelease.unreleased.length = 1 ∧
      afterRelease.stats.deferredReclaimed = 1 := by
  have hcycle : ∀ n ∈ [0, 1], n < 2 := by decide
  have h : Reachable afterRelease := by
    refine .step _ (.step _ (.step _ (.step _ (.step _ (.new 0 true _) ?_) trivial) ?_) trivial)
      trivial
    · exact hcycle
    · exact hcycle
  exact ⟨h, holds_exact h, by decide, by decide⟩

end SnapshotRetention.Keeper
