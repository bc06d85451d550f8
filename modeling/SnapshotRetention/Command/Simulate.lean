import SnapshotRetention.Command.Failure
import SnapshotRetention.Command.Json
import SnapshotRetention.Trial.Stress

/-!
# Simulating a writer

A simulation commits segments in memory under a chosen policy and reports what a stress run
counted. It has no consumers, so it takes no snapshots and its rate of snapshots is zero.
-/

namespace SnapshotRetention

/-- What to simulate. -/
structure Simulation where
  /-- The number of commits. -/
  commits : Nat
  /-- How many commits the policy keeps; without a number it keeps the newest. -/
  keepLast : Option Nat
  /-- Whether released commits are left for the next cycle. -/
  deferred : Bool
  deriving DecidableEq

namespace Simulation

/-- The configuration of the simulated writer. -/
def config (s : Simulation) : Config :=
  ⟨!s.deferred,
    match s.keepLast with
    | none => .keepOnlyLast
    | some count => .keepLast count,
    false⟩

/-- Runs a simulation. -/
def run (s : Simulation) : Except Failure StressCounts :=
  match Workbench.inMemory s.config with
  | .error e => .error (.error e)
  | .ok bench => .ok (bench.stress s.commits)

/-- The lines of the text report of a run that took some milliseconds. -/
def textLines (c : StressCounts) (milliseconds : Nat) : List String :=
  ["SnapKeep Simulation",
    "===================",
    "",
    "Commits:    " ++ toString c.commits ++ " (" ++ toString c.failedCommits ++ " failed)",
    "Snapshots:  " ++ toString c.snapshots,
    "Violations: " ++ toString c.violations,
    "Duration:   " ++ toString milliseconds ++ " ms",
    "Throughput: " ++ rateText 0.0 ++ " snapshots/sec"]

/-- The JSON report of a run that took some milliseconds. -/
def json (c : StressCounts) (milliseconds : Nat) : Json :=
  .record
    [("commits", .ofNat c.commits),
      ("failed_commits", .ofNat c.failedCommits),
      ("snapshots", .ofNat c.snapshots),
      ("violations", .ofNat c.violations),
      ("duration_millis", .ofNat milliseconds),
      ("snapshots_per_second", .number "0.0")]

/-- The complaint about violations, if there are any. -/
def complaint? (c : StressCounts) : Option Failure :=
  if c.violations = 0 then none
  else some (.message (toString c.violations ++ " retention violations"))

end Simulation

end SnapshotRetention
