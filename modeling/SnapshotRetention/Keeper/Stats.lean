/-!
# Usage statistics

What a keeper counts about its snapshots. Counters only grow; `Stats.outstanding` is the number
of snapshots taken and not yet released. That a counter may not fit into a word is not modelled.
-/

namespace SnapshotRetention

/-- The counters of a keeper. -/
structure Stats where
  /-- Commit cycles that published a list. -/
  commitsObserved : Nat
  /-- Snapshots taken. -/
  snapshotsAcquired : Nat
  /-- Snapshots released. -/
  releases : Nat
  /-- Releases of a version that was not held. -/
  redundantReleases : Nat
  /-- Deletions that had to wait for a release. -/
  deletionsDeferred : Nat
  /-- Deletions that a release carried out. -/
  deferredReclaimed : Nat
  /-- Deletions that a release carried out in vain. -/
  reclaimFailures : Nat
  /-- Hold entries without holds that a cycle found. -/
  sweptEntries : Nat
  deriving DecidableEq

namespace Stats

/-- Nothing counted yet. -/
def zero : Stats := ⟨0, 0, 0, 0, 0, 0, 0, 0⟩

instance : Inhabited Stats := ⟨zero⟩

/-- The counters in the order of their declaration. -/
def toList (s : Stats) : List Nat :=
  [s.commitsObserved, s.snapshotsAcquired, s.releases, s.redundantReleases, s.deletionsDeferred,
    s.deferredReclaimed, s.reclaimFailures, s.sweptEntries]

/-- Snapshots taken and not yet released. -/
def outstanding (s : Stats) : Nat := s.snapshotsAcquired - s.releases

end Stats

end SnapshotRetention
