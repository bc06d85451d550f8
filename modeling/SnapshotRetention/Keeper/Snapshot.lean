import SnapshotRetention.Keeper.Basic

/-!
# Taking and giving back snapshots

A snapshot of all live commits is a bundle of handles, a snapshot of the current commit or of a
commit of one's choice a single handle. Each handle is one hold of its version from the time it
is given out until it is released, which happens once: releasing it again changes nothing, and
dropping it releases it if that has not happened.
-/

namespace SnapshotRetention.Keeper

/-! ## Slots -/

/-- The handle in a slot. -/
def handle? (k : Keeper) (slot : Nat) : Option Handle := (k.handles[slot]?).join

/-- The bundle in a slot. -/
def bundle? (k : Keeper) (slot : Nat) : Option Bundle := (k.bundles[slot]?).join

/-- Fills or empties a handle slot. -/
def setHandle (slot : Nat) (h : Option Handle) (k : Keeper) : Keeper :=
  { k with handles := k.handles.set slot h }

/-- Fills or empties a bundle slot. -/
def setBundle (slot : Nat) (b : Option Bundle) (k : Keeper) : Keeper :=
  { k with bundles := k.bundles.set slot b }

/-- Puts a handle into a new slot, whose number comes back. -/
def addHandle (h : Handle) (k : Keeper) : Nat × Keeper :=
  (k.handles.length, { k with handles := k.handles ++ [some h] })

/-- Puts a bundle into a new slot, whose number comes back. -/
def addBundle (b : Bundle) (k : Keeper) : Nat × Keeper :=
  (k.bundles.length, { k with bundles := k.bundles ++ [some b] })

/-! ## Taking snapshots -/

/-- The live guard of a version. -/
def liveGuard? (k : Keeper) (v : Version) : Option Guard :=
  k.live.bind fun live => live.guards.find? fun g => k.version g == v

/-- Takes a snapshot of a guarded commit; the slot of the handle comes back. -/
def hold (g : Guard) (k : Keeper) : Nat × Keeper :=
  (k.acquire (k.version g)).addHandle ⟨g, false⟩

/-- Takes a snapshot of every live commit; the slot of the bundle comes back. -/
def snapshot (k : Keeper) : Except Error Nat × Keeper :=
  match k.live with
  | none => (.error .notInitialized, k)
  | some live =>
    let held := live.guards.foldl (fun k g => k.acquire (k.version g)) k
    let (slot, k) := held.addBundle ⟨live.generation, live.guards.map fun g => ⟨g, false⟩⟩
    (.ok slot, k)

/-- Takes a snapshot of the newest live commit; the slot of the handle comes back. -/
def snapshotCurrent (k : Keeper) : Except Error Nat × Keeper :=
  match k.live.bind fun live => live.guards.getLast? with
  | none => (.error .notInitialized, k)
  | some g =>
    let (slot, k) := k.hold g
    (.ok slot, k)

/-- Takes a snapshot of the version of a guarded commit, which need not come from the present
list: the live commit of that version is taken if there is one, else the guarded commit itself
as long as another snapshot holds its version. -/
def snapshotCommit (g : Guard) (k : Keeper) : Except Error Nat × Keeper :=
  match k.live with
  | none => (.error .notInitialized, k)
  | some _ =>
    match k.liveGuard? (k.version g) with
    | some current =>
      let (slot, k) := k.hold current
      (.ok slot, k)
    | none =>
      if k.holds.isHeld (k.version g) then
        let (slot, k) := k.hold g
        (.ok slot, k)
      else (.error (.commitReleased (k.version g)), k)

/-! ## Giving snapshots back -/

/-- Releases a handle value: whether the release took effect, and the handle afterwards. -/
def releaseValue (h : Handle) (k : Keeper) : Bool × Handle × Keeper :=
  if h.released then (false, h, k)
  else
    let (took, k) := k.release (k.version h.guard)
    (took, { h with released := true }, k)

/-- Releases handles in order: whether all releases took effect, and the handles afterwards. -/
def releaseValues : List Handle → Keeper → Bool × List Handle × Keeper
  | [], k => (true, [], k)
  | h :: rest, k =>
    let (took, h, k) := k.releaseValue h
    let (all, rest, k) := releaseValues rest k
    (took && all, h :: rest, k)

/-- Releases the handle in a slot. -/
def releaseHandle (slot : Nat) (k : Keeper) : Option Bool × Keeper :=
  match k.handle? slot with
  | none => (none, k)
  | some h =>
    let (took, h, k) := k.releaseValue h
    (some took, k.setHandle slot (some h))

/-- Drops the handle in a slot, which releases it if need be; whether there was one comes back. -/
def dropHandle (slot : Nat) (k : Keeper) : Bool × Keeper :=
  match k.handle? slot with
  | none => (false, k)
  | some h =>
    let (_, _, k) := k.releaseValue h
    (true, k.setHandle slot none)

/-- Releases every handle of a bundle. -/
def releaseBundle (slot : Nat) (k : Keeper) : Option Bool × Keeper :=
  match k.bundle? slot with
  | none => (none, k)
  | some b =>
    let (all, handles, k) := k.releaseValues b.handles
    (some all, k.setBundle slot (some { b with handles }))

/-- Releases one handle of a bundle. -/
def releaseInBundle (slot index : Nat) (k : Keeper) : Option Bool × Keeper :=
  match k.bundle? slot with
  | none => (none, k)
  | some b =>
    match b.handles[index]? with
    | none => (none, k)
    | some h =>
      let (took, h, k) := k.releaseValue h
      (some took, k.setBundle slot (some { b with handles := b.handles.set index h }))

/-- Drops a bundle, from its first handle on; whether there was one comes back. -/
def dropBundle (slot : Nat) (k : Keeper) : Bool × Keeper :=
  match k.bundle? slot with
  | none => (false, k)
  | some b =>
    let (_, _, k) := k.releaseValues b.handles
    (true, k.setBundle slot none)

/-- Moves the handles of a bundle into slots of their own, oldest first. -/
def openBundle (slot : Nat) (k : Keeper) : Option (List Nat) × Keeper :=
  match k.bundle? slot with
  | none => (none, k)
  | some b =>
    (some ((List.range b.handles.length).map fun i => k.handles.length + i),
      { k.setBundle slot none with handles := k.handles ++ b.handles.map some })

/-- Drops all handles, then all bundles, each kind in the order of its slots. -/
def dropAll (k : Keeper) : Keeper :=
  let k := (List.range k.handles.length).foldl (fun k slot => (k.dropHandle slot).2) k
  (List.range k.bundles.length).foldl (fun k slot => (k.dropBundle slot).2) k

end SnapshotRetention.Keeper
