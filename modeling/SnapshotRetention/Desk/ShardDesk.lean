import SnapshotRetention.Desk.Request
import SnapshotRetention.Shard.Basic

/-!
# The desk of a shard

Consumers of a shard take snapshots through the shard, which refuses them in the wrong state, and
never reach its keeper or its guards: they can only give back what they were given.
-/

namespace SnapshotRetention

/-- A shard, whose engine is engine 0 of a desk. -/
structure ShardDesk where
  state : ShardState
  config : Config
  desk : Desk

namespace ShardDesk

/-- The desk of a new shard over the stores of a catalog. -/
def create (config : Config) (catalog : Catalog) : Except Error ShardDesk :=
  (Shard.create config catalog).map fun s =>
    ⟨s.state, s.config, (Desk.new catalog).install fun _ _ => s.engine⟩

/-- The shard. -/
def shard (s : ShardDesk) : Shard := ⟨s.state, s.config, s.desk.engine 0⟩

/-- Runs a step on the shard. -/
def onShard {α : Type} (f : Shard → α × Shard) (s : ShardDesk) : α × ShardDesk :=
  let (a, after) := f s.shard
  (a, { s with
    state := after.state
    desk := s.desk.putEngine 0 (s.desk.engine 0) after.engine })

/-- Makes a commit through the shard and notes it as returned. -/
def commit (changes : Changes) (s : ShardDesk) : Except Error Nat × ShardDesk :=
  match s.onShard (Shard.commit changes) with
  | (.ok n, s) => (.ok n, { s with desk := { s.desk with returned := s.desk.returned ++ [n] } })
  | (.error e, s) => (.error e, s)

/-- Takes a snapshot through the shard; the answer names the next slot. -/
def take (slot : Nat) (answer : Nat → Answer) (f : Shard → Except Error Nat × Shard)
    (s : ShardDesk) : Answer × ShardDesk :=
  match s.onShard f with
  | (.ok _, s) => (answer slot, s)
  | (.error e, s) => (.failure e, s)

/-- Answers a request of a consumer. -/
def perform (ask : Ask) (s : ShardDesk) : Answer × ShardDesk :=
  match ask with
  | .snapshot => s.take s.desk.bundleSlots.length .bundle Shard.snapshot
  | .current => s.take s.desk.handleSlots.length .handle Shard.snapshotCurrent
  | .holdLive _ | .holdHandle _ | .holdSaved _ | .saveLive _ | .tellKeeper => (.nothing, s)
  | .tellLive => (.text (Text.optional none), s)
  | ask =>
    let (answer, desk) := s.desk.perform ask
    (answer, { s with desk })

end ShardDesk

end SnapshotRetention
