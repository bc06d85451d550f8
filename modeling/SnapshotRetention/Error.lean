import SnapshotRetention.Manifest.Error
import SnapshotRetention.Shard.State
import SnapshotRetention.Store.Error

/-!
# Why an operation fails

`Error` is the cause of a failed operation of a writer, a keeper or a shard, and `Error.message`
its wording. A counter that has no next number is an error like any other, so that no operation
wraps around.
-/

namespace SnapshotRetention

/-- Requests that make no sense where they are made. -/
inductive Misuse where
  /-- A removed name is not among the files of the newest commit. -/
  | notInCommit (name : String)
  /-- An added name is reserved for manifests. -/
  | reservedName (name : String)
  /-- An added name is already among the files of the commit. -/
  | duplicateName (name : String)
  | unknownShardState (id : Nat)
  | forbiddenMove (source target : ShardState)
  /-- A scripted policy stops with this text. -/
  | scripted (text : String)
  deriving DecidableEq

/-- A misuse in words. -/
def Misuse.message : Misuse → String
  | .notInCommit name => name ++ " is not part of the current commit"
  | .reservedName name => name ++ " uses the reserved manifest prefix"
  | .duplicateName name => name ++ " is already part of the commit"
  | .unknownShardState id => "no shard state for id [" ++ toString id ++ "]"
  | .forbiddenMove source target =>
    "cannot move shard from " ++ source.text ++ " to " ++ target.text
  | .scripted text => text

/-- Settings that no policy can follow. -/
inductive ConfigError where
  | keepsNothing
  | zeroAge
  deriving DecidableEq

/-- A configuration error in words. -/
def ConfigError.message : ConfigError → String
  | .keepsNothing => "KeepLast must keep at least one commit"
  | .zeroAge => "ExpireAfter requires a non-zero age"

/-- Why an operation fails. -/
inductive Error where
  | store (cause : StoreError)
  | io (fault : IoFault)
  /-- No commit cycle has published a list yet. -/
  | notInitialized
  /-- The primary policy deleted every commit in the cycle of this number. -/
  | noLiveCommits (cycle : Nat)
  /-- The commit is neither live nor held. -/
  | commitReleased (version : Version)
  | manifest (cause : ManifestError)
  /-- The versions of the manifests do not ascend with their generations. -/
  | outOfOrder (generation : Generation)
  | illegalShardState (access : ShardAccess) (state : ShardState)
  | misuse (cause : Misuse)
  | config (cause : ConfigError)
  /-- A counter has no next number. -/
  | counterOverflow
  deriving DecidableEq

/-- An error in words. -/
def Error.message : Error → String
  | .store cause => "storage error: " ++ cause.message
  | .io fault => "I/O error: " ++ fault.message
  | .notInitialized => "snapshot deletion policy has not been initialized yet"
  | .noLiveCommits cycle =>
    "primary deletion policy left no live commits (cycle " ++ toString cycle ++ ")"
  | .commitReleased version => "commit " ++ version.text ++ " has been released for deletion"
  | .manifest cause => cause.message
  | .outOfOrder generation => "manifest " ++ generation.text ++ " is out of order"
  | .illegalShardState access state =>
    "cannot " ++ access.word ++ " while shard is " ++ state.text
  | .misuse cause => "invalid operation: " ++ cause.message
  | .config cause => "invalid configuration: " ++ cause.message
  | .counterOverflow => "attempt to add with overflow"

/-- The cause of a failed store access, as the cause of a failed operation. -/
def ofStore {α : Type} : Except StoreError α → Except Error α :=
  Except.mapError .store

end SnapshotRetention
