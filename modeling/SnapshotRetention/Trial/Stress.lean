import SnapshotRetention.Text.Binary64
import SnapshotRetention.Text.Rounded
import SnapshotRetention.Trial.Workbench

/-!
# Stress runs

A stress run commits segments to a workbench in memory and reports how many commits failed and
whether anything was left behind: holds without a holder, or artifacts that no undeleted commit
references. Its last cycle, which is not counted among the commits, reclaims what the last
releases left.
-/

namespace SnapshotRetention

/-- What a stress run counted. -/
structure StressCounts where
  commits : Nat
  failedCommits : Nat
  snapshots : Nat
  violations : Nat
  deriving DecidableEq

namespace StressCounts

/-- Whether nothing failed and nothing was left behind. -/
def isClean (c : StressCounts) : Bool := c.violations == 0 && c.failedCommits == 0

/-- Snapshots for each second of a run of some length, none if it took no time. The whole seconds
and the rest are rounded each. -/
def snapshotsPerSecond (c : StressCounts) (length : Age) : Float :=
  let rest := length.nanoseconds % 1000000000
  let duration :=
    (UInt64.ofNat length.seconds).toFloat + (UInt64.ofNat rest).toFloat / 1000000000.0
  if duration > 0.0 then (UInt64.ofNat c.snapshots).toFloat / duration else 0.0

end StressCounts

/-- A rate that is not negative, with two decimal places. -/
def rateText (rate : Float) : String :=
  Text.fixedPlaces 2 (Text.Binary64.numerator rate.toBits.toNat) Text.Binary64.denominator

namespace Workbench

/-- Commits a number of segments whatever fails; the successes are counted. -/
def tryCommitSegments : Nat → Workbench → Nat × Workbench
  | 0, b => (0, b)
  | n + 1, b =>
    let (result, b) := b.commitSegment
    let (count, b) := tryCommitSegments n b
    (match result with
      | .ok _ => count + 1
      | .error _ => count, b)

/-- The number of artifacts that no undeleted commit references. -/
def leakedArtifacts (b : Workbench) : Nat :=
  match b.store.list with
  | .error _ => 1
  | .ok names =>
    let referenced := b.referenced
    (names.filter fun name => !referenced.contains name).length

/-- Commits segments and one more, and counts what was left behind. -/
def stress (commits : Nat) (b : Workbench) : StressCounts :=
  let (succeeded, b) := b.tryCommitSegments commits
  let (last, b) := b.commitSegment
  let lastFailed := match last with
    | .ok _ => 0
    | .error _ => 1
  let strayHolds := if b.engine.keeper.holds.versions.isEmpty then 0 else 1
  ⟨succeeded, commits - succeeded + lastFailed, 0, strayHolds + b.leakedArtifacts⟩

end Workbench

end SnapshotRetention
