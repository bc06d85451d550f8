import SnapshotRetention.Keeper.Snapshot

/-!
# The commit cycle

A cycle presents the commits of a store, oldest first, to the primary policy and publishes what
it leaves. Its steps, each of them a function of its own because releases may happen between any
two of them:

1. guard the commits and pin the newest, so that its deletion can only be pending;
2. carry out the requests of the primary policy, up to the first that fails;
3. unpin the newest and sweep the hold table;
4. take the guarded commits that do not count as deleted as the survivors;
5. if there are some, delete the newest for good if only the pin kept it; if there are none, guard
   the newest again, unless it is gone;
6. call off the deletions pending on the survivors and publish them.

The outcome is the primary policy's error, else that of deleting the newest, else the complaint
that nothing was left.
-/

namespace SnapshotRetention.Keeper

/-- Carries out one request of a primary policy that was shown some guarded commits. -/
def carryOut (shown : List Guard) (r : Request) (k : Keeper) : Except Error Unit × Keeper :=
  match r with
  | .delete position =>
    match shown[position]? with
    | none => (.ok (), k)
    | some g => k.deleteGuard g
  | .attempt position =>
    match shown[position]? with
    | none => (.ok (), k)
    | some g => (.ok (), (k.deleteGuard g).2)
  | .release slot => (.ok (), (k.releaseHandle slot).2)
  | .drop slot => (.ok (), (k.dropHandle slot).2)
  | .fail error => (.error error, k)

/-- Carries out requests in order, up to the first that fails. -/
def carryOutAll (shown : List Guard) : List Request → Keeper → Except Error Unit × Keeper
  | [], k => (.ok (), k)
  | r :: rest, k =>
    match k.carryOut shown r with
    | (.error e, k) => (.error e, k)
    | (.ok (), k) => carryOutAll shown rest k

/-- Pins a version for the duration of the primary policy's decision. -/
def pin (v : Version) (k : Keeper) : Keeper := { k with holds := k.holds.acquire v }

/-- Removes hold entries without holds, and counts them. -/
def sweep (k : Keeper) : Keeper :=
  { k with
    holds := k.holds.sweep
    stats := { k.stats with sweptEntries := k.stats.sweptEntries + k.holds.strayCount } }

/-- Of some guarded commits, those that do not count as deleted. -/
def survivors (shown : List Guard) (k : Keeper) : List Guard :=
  shown.filter fun g => !k.isDeleted g

/-- The number of the next live list. -/
def nextGeneration (k : Keeper) : Nat :=
  match k.live with
  | none => 1
  | some live => live.generation + 1

/-- Deletes the newest commit for good if that waited only for the pin. -/
def reclaimNewest (unpinned : Unhold) (k : Keeper) : Except Error Unit × Keeper :=
  match unpinned with
  | .freed (some commit) => k.deleteCommit commit
  | .freed none | .held _ | .unknown => (.ok (), k)

/-- Calls off the deletions pending on the versions of some guarded commits. -/
def clearPending (guards : List Guard) (k : Keeper) : Keeper :=
  guards.foldl (fun k g => { k with holds := k.holds.clearPending (k.version g) }) k

/-- Publishes some guarded commits as the live list. -/
def publish (generation : Nat) (guards : List Guard) (k : Keeper) : Keeper :=
  { k.clearPending guards with
    live := some ⟨generation, guards⟩
    stats := { k.stats with commitsObserved := k.stats.commitsObserved + 1 } }

/-- Withdraws the live list. -/
def withdraw (k : Keeper) : Keeper := { k with live := none }

/-- The outcomes of a cycle in the order in which they are reported. -/
def report (decided reclaimed : Except Error Unit) (otherwise : Except Error Unit) :
    Except Error Unit :=
  Tracker.firstFailure decided (Tracker.firstFailure reclaimed otherwise)

/-- The end of a cycle that some commits survive. -/
def concludeWith (guards : List Guard) (unpinned : Unhold) (decided : Except Error Unit)
    (k : Keeper) : Except Error Unit × Keeper :=
  let (reclaimed, k) := k.reclaimNewest unpinned
  -- The list is published even if that failed: it must not name what the policy removed.
  (report decided reclaimed (.ok ()), k.publish k.nextGeneration guards)

/-- The end of a cycle that no commit survives: the newest is kept if it still exists. -/
def concludeWithout (newest : Nat) (decided : Except Error Unit) (k : Keeper) :
    Except Error Unit × Keeper :=
  let complaint := report decided (.ok ()) (.error (.noLiveCommits k.nextGeneration))
  if k.catalog.isDeleted newest then (complaint, k.withdraw)
  else
    let (g, k) := k.guard newest
    (complaint, k.publish k.nextGeneration [g])

/-- The part of a cycle after the primary policy has decided. -/
def conclude (shown : List Guard) (newest : Nat) (decided : Except Error Unit) (k : Keeper) :
    Except Error Unit × Keeper :=
  -- What waits for the pin is taken off the table here and deleted only if others survive.
  let (unpinned, k) := k.unhold (k.catalog.version newest)
  let k := k.sweep
  match k.survivors shown with
  | [] => k.concludeWithout newest decided
  | guards => k.concludeWith guards unpinned decided

/-- One commit cycle over the commits of a store, oldest first; without commits it does nothing. -/
def cycle (commits : List Nat) (requests : List Request) (k : Keeper) :
    Except Error Unit × Keeper :=
  match commits.getLast? with
  | none => (.ok (), k)
  | some newest =>
    let (shown, k) := k.guardAll commits
    let (decided, k) := (k.pin (k.catalog.version newest)).carryOutAll shown requests
    k.conclude shown newest decided

end SnapshotRetention.Keeper
