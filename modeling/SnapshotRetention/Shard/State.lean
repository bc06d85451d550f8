/-!
# The states of a shard

A shard is created, recovers over a store, is started, may be relocated, and is closed from any
other state. Commits need an open writer, snapshots a started shard.
-/

namespace SnapshotRetention

/-- Where a shard is in its life. -/
inductive ShardState where
  | created | recovering | started | relocated | closed
  deriving DecidableEq

namespace ShardState

/-- All states, in the order of their numbers. -/
def all : List ShardState := [.created, .recovering, .started, .relocated, .closed]

/-- The number of a state. -/
def id : ShardState → Nat
  | .created => 0
  | .recovering => 1
  | .started => 2
  | .relocated => 3
  | .closed => 4

/-- The state of a number. -/
def ofId? (n : Nat) : Option ShardState := all[n]?

/-- The state as messages shout it. -/
def text : ShardState → String
  | .created => "CREATED"
  | .recovering => "RECOVERING"
  | .started => "STARTED"
  | .relocated => "RELOCATED"
  | .closed => "CLOSED"

/-- The name of a state. -/
def label : ShardState → String
  | .created => "Created"
  | .recovering => "Recovering"
  | .started => "Started"
  | .relocated => "Relocated"
  | .closed => "Closed"

/-- Whether commits are allowed. -/
def allowsCommit : ShardState → Bool
  | .recovering | .started | .relocated => true
  | .created | .closed => false

/-- Whether snapshots are allowed. -/
def allowsSnapshot : ShardState → Bool
  | .started | .relocated => true
  | .created | .recovering | .closed => false

/-- Whether a shard may move from one state to another. -/
def canMoveTo : ShardState → ShardState → Bool
  | .created, .recovering => true
  | .recovering, .started => true
  | .started, .relocated => true
  | .closed, .closed => false
  | _, .closed => true
  | _, _ => false

theorem ofId?_id (s : ShardState) : ofId? s.id = some s := by
  cases s <;> rfl

end ShardState

/-- What a shard refuses in the wrong state. -/
inductive ShardAccess where
  | commit | snapshot
  deriving DecidableEq

/-- The word for a refused access. -/
def ShardAccess.word : ShardAccess → String
  | .commit => "commit"
  | .snapshot => "snapshot"

end SnapshotRetention
