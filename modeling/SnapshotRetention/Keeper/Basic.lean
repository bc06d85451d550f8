import SnapshotRetention.Catalog.Basic
import SnapshotRetention.Keeper.HoldTable
import SnapshotRetention.Keeper.Stats

/-!
# Keepers

A keeper stands between a primary policy and the commits. In every cycle it guards the commits it
is presented with, lets the primary policy delete guarded commits, and publishes the survivors as
the live list. Snapshots are taken from that list; while a version has snapshots, deleting a
guarded commit of it only leaves a pending deletion behind.

Handles and bundles of handles that were given out stand in numbered slots; a slot is empty once
its handle was dropped or its bundle taken apart.
-/

namespace SnapshotRetention

/-- A commit behind a keeper's guard. Each guard has a number of its own, so that a guard from
an earlier cycle is told from a newer one of the same commit. -/
structure Guard where
  /-- The number of the keeper. -/
  owner : Nat
  /-- The number of the guard. -/
  serial : Nat
  /-- The number of the commit. -/
  commit : Nat
  deriving DecidableEq, Inhabited

/-- A published list of live commits, oldest first. -/
structure LiveList where
  /-- The number of the cycle that published it; that it may not fit into a word is not modelled. -/
  generation : Nat
  guards : List Guard
  deriving DecidableEq

/-- One snapshot of one commit. -/
structure Handle where
  guard : Guard
  released : Bool
  deriving DecidableEq

/-- The snapshots of one live list, oldest commit first. -/
structure Bundle where
  generation : Nat
  handles : List Handle
  deriving DecidableEq

/-- The state of a keeper, over the catalog of the commits. -/
structure Keeper where
  catalog : Catalog
  /-- The number that this keeper's guards carry. -/
  id : Nat
  /-- Whether a deletion that waited for a release happens with the release. -/
  reclaimOnRelease : Bool
  live : Option LiveList
  holds : HoldTable
  stats : Stats
  /-- The number of guards made so far. -/
  serials : Nat
  /-- The guards that were asked to delete their commit. -/
  marked : List Nat
  handles : List (Option Handle)
  bundles : List (Option Bundle)

namespace Keeper

/-- A keeper that has seen no commit. -/
def new (id : Nat) (reclaimOnRelease : Bool) (catalog : Catalog) : Keeper :=
  ⟨catalog, id, reclaimOnRelease, none, Table.empty, .zero, 0, [], [], []⟩

/-! ## Guards -/

/-- The version of a guarded commit. -/
def version (k : Keeper) (g : Guard) : Version := k.catalog.version g.commit

/-- Whether a guard was asked to delete its commit. -/
def isMarked (k : Keeper) (g : Guard) : Bool := k.marked.contains g.serial

/-- Whether a guarded commit counts as deleted: it is, or its guard was asked to delete it. -/
def isDeleted (k : Keeper) (g : Guard) : Bool := k.isMarked g || k.catalog.isDeleted g.commit

/-- Deletes a commit in the catalog. -/
def deleteCommit (commit : Nat) (k : Keeper) : Except Error Unit × Keeper :=
  let (result, catalog) := k.catalog.delete commit
  (result, { k with catalog })

/-- Marks a guard as asked to delete its commit. -/
def mark (g : Guard) (k : Keeper) : Keeper := { k with marked := g.serial :: k.marked }

/-- Makes the deletion of a guarded commit wait for the holds of its version. -/
def defer (g : Guard) (k : Keeper) : Keeper :=
  { k with
    holds := k.holds.setPending (k.version g) g.commit
    stats := { k.stats with deletionsDeferred := k.stats.deletionsDeferred + 1 } }

/-- Asks a guard to delete its commit: at once, or when the last hold of its version goes. -/
def deleteGuard (g : Guard) (k : Keeper) : Except Error Unit × Keeper :=
  if k.holds.isHeld (k.version g) then (.ok (), (k.mark g).defer g)
  else (k.mark g).deleteCommit g.commit

/-- A new guard of a commit. -/
def guard (commit : Nat) (k : Keeper) : Guard × Keeper :=
  (⟨k.id, k.serials, commit⟩, { k with serials := k.serials + 1 })

/-- New guards of some commits, in their order. -/
def guardAll (commits : List Nat) (k : Keeper) : List Guard × Keeper :=
  ((List.range commits.length).zipWith (fun i n => ⟨k.id, k.serials + i, n⟩) commits,
    { k with serials := k.serials + commits.length })

/-! ## Holds -/

/-- Takes one snapshot of a version. -/
def acquire (v : Version) (k : Keeper) : Keeper :=
  { k with
    holds := k.holds.acquire v
    stats := { k.stats with snapshotsAcquired := k.stats.snapshotsAcquired + 1 } }

/-- Carries out a deletion that waited for the last hold of a version, unless the next cycle
shall do it. A failure is only counted. -/
def reclaim (commit : Nat) (k : Keeper) : Keeper :=
  if k.reclaimOnRelease then
    match k.deleteCommit commit with
    | (.ok (), k) =>
      { k with stats := { k.stats with deferredReclaimed := k.stats.deferredReclaimed + 1 } }
    | (.error _, k) =>
      { k with stats := { k.stats with reclaimFailures := k.stats.reclaimFailures + 1 } }
  else k

/-- The first step of a release: one hold of the version goes. -/
def unhold (v : Version) (k : Keeper) : Unhold × Keeper :=
  let (result, holds) := k.holds.release v
  (result, { k with holds })

/-- Counts a release. -/
def countRelease (k : Keeper) : Keeper :=
  { k with stats := { k.stats with releases := k.stats.releases + 1 } }

/-- Counts a release of a version that was not held. -/
def countRedundant (k : Keeper) : Keeper :=
  { k with stats := { k.stats with redundantReleases := k.stats.redundantReleases + 1 } }

/-- The second step of a release: what depends on the hold that went. -/
def settle (u : Unhold) (k : Keeper) : Bool × Keeper :=
  match u with
  | .unknown => (false, k.countRedundant)
  | .held _ => (true, k.countRelease)
  | .freed none => (true, k.countRelease)
  | .freed (some commit) => (true, k.countRelease.reclaim commit)

/-- Gives up one snapshot of a version; whether it was held comes back. -/
def release (v : Version) (k : Keeper) : Bool × Keeper :=
  let (u, k) := k.unhold v
  k.settle u

end Keeper

end SnapshotRetention
