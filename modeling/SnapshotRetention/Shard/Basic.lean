import SnapshotRetention.Keeper.Text
import SnapshotRetention.Writer.Commit

/-!
# Shards

A shard is an engine with a life: it opens its writer when it recovers, gives out snapshots once
it is started, and drops the writer for good when it is closed. What its state does not allow is
refused and changes nothing. Handles outlive the writer: they go on holding their commits after
the shard is closed. The keeper belongs to the shard from its creation, so it outlives a recovery
that fails.
-/

namespace SnapshotRetention

/-- A shard. -/
structure Shard where
  state : ShardState
  config : Config
  engine : Engine

namespace Shard

/-- A shard over the stores of a catalog, if its configuration is valid. -/
def create (config : Config) (catalog : Catalog) : Except Error Shard :=
  match config.validate with
  | .error e => .error (.config e)
  | .ok () => .ok ⟨.created, config, .ofConfig 0 config true catalog⟩

/-- Refuses a move between states that is not allowed. -/
def checkMove (source target : ShardState) : Except Error Unit :=
  if source.canMoveTo target then .ok () else .error (.misuse (.forbiddenMove source target))

/-- Moves to another state. -/
def move (target : ShardState) (s : Shard) : Except Error Unit × Shard :=
  match checkMove s.state target with
  | .error e => (.error e, s)
  | .ok () => (.ok (), { s with state := target })

/-- Opens the writer over a store of the catalog. -/
def recover (store : Nat) (s : Shard) : Except Error Unit × Shard :=
  match checkMove s.state .recovering with
  | .error e => (.error e, s)
  | .ok () =>
    match s.engine.openWriter store s.config.syncOnCommit with
    | (.error e, engine) => (.error e, { s with engine })
    | (.ok (), engine) => (.ok (), { s with engine, state := .recovering })

/-- Starts the recovered shard. -/
def start (s : Shard) : Except Error Unit × Shard := s.move .started

/-- Marks the started shard as relocated. -/
def relocated (s : Shard) : Except Error Unit × Shard := s.move .relocated

/-- Closes the shard; closing it again changes nothing. -/
def close (s : Shard) : Shard :=
  if s.state = .closed then s
  else { s with state := .closed, engine := s.engine.dropWriter }

/-- Makes a commit. -/
def commit (changes : Changes) (s : Shard) : Except Error Nat × Shard :=
  if !s.state.allowsCommit then (.error (.illegalShardState .commit s.state), s)
  else
    match s.engine.commit? changes with
    | (none, _) => (.error (.illegalShardState .commit s.state), s)
    | (some result, engine) => (result, { s with engine })

/-- Runs a snapshot request on the keeper of a shard whose state allows it. -/
def whenStarted {α : Type} (f : Keeper → Except Error α × Keeper) (s : Shard) :
    Except Error α × Shard :=
  if !s.state.allowsSnapshot then (.error (.illegalShardState .snapshot s.state), s)
  else
    let (result, keeper) := f s.engine.keeper
    (result, { s with engine := { s.engine with keeper } })

/-- Takes a snapshot of every live commit. -/
def snapshot (s : Shard) : Except Error Nat × Shard := s.whenStarted Keeper.snapshot

/-- Takes a snapshot of the newest live commit. -/
def snapshotCurrent (s : Shard) : Except Error Nat × Shard := s.whenStarted Keeper.snapshotCurrent

/-- A shard in words. -/
def text (s : Shard) : String :=
  "IndexShard \x7b state: " ++ s.state.label ++ ", policy: " ++ s.engine.keeper.text ++ " \x7d"

end Shard

/-- The state of a number, or the complaint that there is none. -/
def ShardState.ofId (n : Nat) : Except Error ShardState :=
  match ofId? n with
  | some s => .ok s
  | none => .error (.misuse (.unknownShardState n))

end SnapshotRetention
