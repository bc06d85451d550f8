import SnapshotRetention.Desk.Basic

/-!
# What consumers ask for

The requests that a consumer can make at a desk and the answers it gets. A request that addresses
an empty or unknown slot, or comes while no keeper is in charge, changes nothing.
-/

namespace SnapshotRetention

/-- A request of a consumer. -/
inductive Ask where
  /-- A snapshot of every live commit. -/
  | snapshot
  /-- A snapshot of the newest live commit. -/
  | current
  /-- A snapshot of the live commit of a version. -/
  | holdLive (version : Version)
  /-- A snapshot of the commit of a handle. -/
  | holdHandle (slot : Nat)
  /-- A snapshot of the commit of a kept guard. -/
  | holdSaved (index : Nat)
  /-- Keep the live guard of a version. -/
  | saveLive (version : Version)
  /-- Keep the guard of a handle. -/
  | saveHandle (slot : Nat)
  /-- Ask a kept guard to delete its commit. -/
  | deleteSaved (index : Nat)
  /-- Ask the guard of a handle to delete its commit. -/
  | deleteHandle (slot : Nat)
  /-- Show a kept guard. -/
  | showSaved (index : Nat)
  | release (slot : Nat)
  | drop (slot : Nat)
  | releaseBundle (slot : Nat)
  | releaseInBundle (slot index : Nat)
  | dropBundle (slot : Nat)
  | openBundle (slot : Nat)
  | dropAll
  | tellHandle (slot : Nat)
  | tellBundle (slot : Nat)
  | tellSaved (index : Nat)
  | tellLive
  | tellKeeper
  deriving DecidableEq

/-- The answer to a request. -/
inductive Answer where
  /-- The request addressed nothing. -/
  | nothing
  | done
  | flag (value : Bool)
  | failure (error : Error)
  /-- A new handle stands in this slot. -/
  | handle (slot : Nat)
  /-- A new bundle stands in this slot. -/
  | bundle (slot : Nat)
  /-- New handles stand in these slots. -/
  | handles (slots : List Nat)
  /-- A guard was kept under this number. -/
  | saved (index : Nat)
  | guard (g : Guard)
  | text (s : String)

namespace Answer

/-- The answer of a step without a value. -/
def ofResult : Except Error Unit → Answer
  | .ok () => .done
  | .error e => .failure e

/-- The answer of a step that may address nothing. -/
def ofFlag : Option Bool → Answer
  | none => .nothing
  | some b => .flag b

/-- A text if there is one. -/
def ofText : Option String → Answer
  | none => .nothing
  | some s => .text s

end Answer

namespace Desk

/-- Takes a handle from a keeper. -/
def takeHandle (i : Nat) (f : Keeper → Except Error Nat × Keeper) (d : Desk) : Answer × Desk :=
  let slot := d.handleSlots.length
  match d.onKeeper i f with
  | (.ok _, d) => (.handle slot, d)
  | (.error e, d) => (.failure e, d)

/-- Takes a handle of the commit of a guard, if there is one, from a keeper. -/
def takeGuard (i : Nat) (g : Option Guard) (d : Desk) : Answer × Desk :=
  match g with
  | none => (.nothing, d)
  | some g => d.takeHandle i (Keeper.snapshotCommit g)

/-- Takes a bundle from a keeper. -/
def takeBundle (i : Nat) (d : Desk) : Answer × Desk :=
  let slot := d.bundleSlots.length
  match d.onKeeper i Keeper.snapshot with
  | (.ok _, d) => (.bundle slot, d)
  | (.error e, d) => (.failure e, d)

/-- Keeps a guard, if there is one. -/
def keep (g : Option Guard) (d : Desk) : Answer × Desk :=
  match g with
  | none => (.nothing, d)
  | some g => (.saved d.saved.length, { d with saved := d.saved ++ [g] })

/-- Asks a guard, if there is one, to delete its commit. -/
def deleteGuard (g : Option Guard) (d : Desk) : Answer × Desk :=
  match g with
  | none => (.nothing, d)
  | some g =>
    let (result, d) := d.onKeeper g.owner (Keeper.deleteGuard g)
    (.ofResult result, d)

/-- Runs a step on the keeper and slot behind one of the desk's slots. -/
def onSlot {α : Type} (slots : List (Nat × Nat)) (slot : Nat) (missing : α)
    (f : Nat → Keeper → α × Keeper) (d : Desk) : α × Desk :=
  match slots[slot]? with
  | none => (missing, d)
  | some (i, inner) => d.onKeeper i (f inner)

/-- Drops the handle in a slot; whether there was one comes back. -/
def dropHandle (slot : Nat) (d : Desk) : Bool × Desk :=
  d.onSlot d.handleSlots slot false Keeper.dropHandle

/-- Drops the bundle in a slot; whether there was one comes back. -/
def dropBundle (slot : Nat) (d : Desk) : Bool × Desk :=
  d.onSlot d.bundleSlots slot false Keeper.dropBundle

/-- Moves the handles of a bundle into slots of their own. -/
def openBundle (slot : Nat) (d : Desk) : Answer × Desk :=
  let first := d.handleSlots.length
  match d.onSlot d.bundleSlots slot none Keeper.openBundle with
  | (none, d) => (.nothing, d)
  | (some slots, d) => (.handles ((List.range slots.length).map (first + ·)), d)

/-- Drops all handles, then all bundles, each kind in the order of its slots. -/
def dropAll (d : Desk) : Desk :=
  let d := (List.range d.handleSlots.length).foldl (fun d slot => (d.dropHandle slot).2) d
  (List.range d.bundleSlots.length).foldl (fun d slot => (d.dropBundle slot).2) d

/-- Answers a request while keeper `i` is in charge. -/
def answer (i : Nat) (ask : Ask) (d : Desk) : Answer × Desk :=
  let keeper := (d.engine i).keeper
  let guardOf := fun slot => (d.handle? slot).map Handle.guard
  match ask with
  | .snapshot => d.takeBundle i
  | .current => d.takeHandle i Keeper.snapshotCurrent
  | .holdLive version => d.takeGuard i (keeper.liveGuard? version)
  | .holdHandle slot => d.takeGuard i (guardOf slot)
  | .holdSaved index => d.takeGuard i d.saved[index]?
  | .saveLive version => d.keep (keeper.liveGuard? version)
  | .saveHandle slot => d.keep (guardOf slot)
  | .deleteSaved index => d.deleteGuard d.saved[index]?
  | .deleteHandle slot => d.deleteGuard (guardOf slot)
  | .showSaved index =>
    match d.saved[index]? with
    | none => (.nothing, d)
    | some g => (.guard g, d)
  | .release slot =>
    let (result, d) := d.onSlot d.handleSlots slot none Keeper.releaseHandle
    (.ofFlag result, d)
  | .drop slot =>
    let (result, d) := d.dropHandle slot
    (.flag result, d)
  | .releaseBundle slot =>
    let (result, d) := d.onSlot d.bundleSlots slot none Keeper.releaseBundle
    (.ofFlag result, d)
  | .releaseInBundle slot index =>
    let (result, d) := d.onSlot d.bundleSlots slot none fun s => Keeper.releaseInBundle s index
    (.ofFlag result, d)
  | .dropBundle slot =>
    let (result, d) := d.dropBundle slot
    (.flag result, d)
  | .openBundle slot => d.openBundle slot
  | .dropAll => (.nothing, d.dropAll)
  | .tellHandle slot => (.ofText ((d.handle? slot).map keeper.handleText), d)
  | .tellBundle slot => (.ofText ((d.bundle? slot).map keeper.bundleText), d)
  | .tellSaved index => (.ofText (d.saved[index]?.map fun g => (d.ownerOf g).guardText g), d)
  | .tellLive => (.text keeper.liveText, d)
  | .tellKeeper => (.text keeper.text, d)

/-- Answers a request; without a keeper in charge there is nothing to answer. -/
def perform (ask : Ask) (d : Desk) : Answer × Desk :=
  match d.keeperNumber? with
  | none => (.nothing, d)
  | some i => d.answer i ask

end Desk

end SnapshotRetention
