import SnapshotRetention.Retention.Primary

/-!
# Configuration

The settings of a snapshot-aware writer: which commits the primary policy keeps, whether a commit
whose last snapshot is released is deleted at once or at the next commit, and whether each commit
is made durable. A primary policy that could keep nothing is refused.
-/

namespace SnapshotRetention

/-- The settings of a writer and its keeper. -/
structure Config where
  /-- Whether a deletion that waited for a release happens with the release. -/
  reclaimOnRelease : Bool
  primary : Primary
  /-- Whether every commit ends by synchronising the store. -/
  syncOnCommit : Bool
  deriving DecidableEq

namespace Config

/-- Keep only the newest commit, reclaim on release, synchronise. -/
def standard : Config := ⟨true, .keepOnlyLast, true⟩

instance : Inhabited Config := ⟨standard⟩

/-- Refuses a primary policy that could keep nothing. -/
def validate (c : Config) : Except ConfigError Unit :=
  match c.primary with
  | .keepLast 0 => .error .keepsNothing
  | .expireAfter age => if age.nanoseconds = 0 then .error .zeroAge else .ok ()
  | .keepLast _ | .keepOnlyLast | .keepAll => .ok ()

/-- A configuration in words. -/
def text (c : Config) : String :=
  "Config \x7b reclaim_on_release: " ++ toString c.reclaimOnRelease ++
    ", primary: " ++ c.primary.text ++
    ", sync_on_commit: " ++ toString c.syncOnCommit ++ " \x7d"

end Config

end SnapshotRetention
