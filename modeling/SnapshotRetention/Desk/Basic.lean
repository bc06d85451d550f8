import SnapshotRetention.Keeper.Text
import SnapshotRetention.Writer.Commit

/-!
# The desk of the consumers

When a writer is opened again a new keeper takes charge, but the snapshots given out before stay
valid and go on acting on the keeper they came from. A desk is the consumers' side of such a
succession of engines over one catalog: it numbers all handles, bundles, kept guards and returned
commits through, and sends each request to the engine it belongs to.
-/

namespace SnapshotRetention

/-- A succession of engines over one catalog, and what consumers hold of them. -/
structure Desk where
  /-- The catalog, which all engines share. -/
  catalog : Catalog
  /-- The engines; the keeper of each carries its position as number. -/
  engines : List Engine
  /-- The engine in charge. -/
  charge : Option Nat
  /-- For each handle slot, the engine and its slot there. -/
  handleSlots : List (Nat × Nat)
  /-- For each bundle slot, the engine and its slot there. -/
  bundleSlots : List (Nat × Nat)
  /-- Guards that consumers kept. -/
  saved : List Guard
  /-- Commits that were returned to consumers. -/
  returned : List Nat

namespace Desk

/-- A desk without engines. -/
def new (catalog : Catalog) : Desk := ⟨catalog, [], none, [], [], [], []⟩

/-- An engine as it is now. -/
def engine (d : Desk) (i : Nat) : Engine := (d.engines.getD i default).setCatalog d.catalog

/-- The slots that an engine has given out beyond those the desk knows. -/
def newSlots (i before after : Nat) : List (Nat × Nat) :=
  (List.range (after - before)).map fun k => (i, before + k)

/-- Takes over an engine as a step has left it, with the slots it has given out. -/
def putEngine (i : Nat) (before after : Engine) (d : Desk) : Desk :=
  { d with
    catalog := after.catalog
    engines := d.engines.set i after
    handleSlots := d.handleSlots ++
      newSlots i before.keeper.handles.length after.keeper.handles.length
    bundleSlots := d.bundleSlots ++
      newSlots i before.keeper.bundles.length after.keeper.bundles.length }

/-- Runs a step on an engine. -/
def onEngine {α : Type} (i : Nat) (f : Engine → α × Engine) (d : Desk) : α × Desk :=
  let (a, e) := f (d.engine i)
  (a, d.putEngine i (d.engine i) e)

/-- Runs a step on the keeper of an engine. -/
def onKeeper {α : Type} (i : Nat) (f : Keeper → α × Keeper) (d : Desk) : α × Desk :=
  d.onEngine i fun e =>
    let (a, keeper) := f e.keeper
    (a, { e with keeper })

/-- Puts a new engine in charge. -/
def install (make : Nat → Catalog → Engine) (d : Desk) : Desk :=
  { d with
    engines := d.engines ++ [make d.engines.length d.catalog]
    charge := some d.engines.length }

/-! ## Views -/

/-- The engine in charge. -/
def engine? (d : Desk) : Option Engine := d.charge.map d.engine

/-- The number of the engine in charge, if it has a keeper between policy and commits. -/
def keeperNumber? (d : Desk) : Option Nat :=
  d.charge.filter fun i => (d.engine i).guarded

/-- The keeper in charge. -/
def keeper? (d : Desk) : Option Keeper := d.keeperNumber?.map fun i => (d.engine i).keeper

/-- The keeper that a guard belongs to. -/
def ownerOf (d : Desk) (g : Guard) : Keeper := (d.engine g.owner).keeper

/-- Whether a guarded commit counts as deleted. -/
def isDeleted (d : Desk) (g : Guard) : Bool := (d.ownerOf g).isDeleted g

/-- The handle in a slot. -/
def handle? (d : Desk) (slot : Nat) : Option Handle :=
  d.handleSlots[slot]?.bind fun at_ => (d.engine at_.1).keeper.handle? at_.2

/-- The bundle in a slot. -/
def bundle? (d : Desk) (slot : Nat) : Option Bundle :=
  d.bundleSlots[slot]?.bind fun at_ => (d.engine at_.1).keeper.bundle? at_.2

/-- What the desk shows of a handle: its version, whether it is released, and whether its commit
counts as deleted. -/
structure HandleView where
  version : Version
  released : Bool
  deleted : Bool
  deriving DecidableEq

/-- What the desk shows of a handle. -/
def viewHandle (d : Desk) (h : Handle) : HandleView :=
  ⟨d.catalog.version h.guard.commit, h.released, d.isDeleted h.guard⟩

/-- What the desk shows of all handle slots. -/
def handleViews (d : Desk) : List (Option HandleView) :=
  (List.range d.handleSlots.length).map fun slot => (d.handle? slot).map d.viewHandle

/-- What the desk shows of all bundle slots. -/
def bundleViews (d : Desk) : List (Option (List HandleView)) :=
  (List.range d.bundleSlots.length).map fun slot =>
    (d.bundle? slot).map fun b => b.handles.map d.viewHandle

/-! ## Opening and committing -/

/-- Drops the writer in charge. -/
def dropWriter (d : Desk) : Desk :=
  match d.charge with
  | none => d
  | some i => (d.onEngine i fun e => ((), e.dropWriter)).2

/-- Opens a writer over a store of the catalog under a new policy. A configuration that a keeper
refuses leaves the old policy in charge, without a writer; a bare policy takes any. -/
def openWriter (store : Nat) (config : Config) (guarded : Bool) (d : Desk) :
    Except Error Unit × Desk :=
  let d := d.dropWriter
  match if guarded then config.validate else .ok () with
  | .error e => (.error (.config e), d)
  | .ok () =>
    let i := d.engines.length
    let d := d.install fun id catalog => .ofConfig id config guarded catalog
    d.onEngine i fun e => e.openWriter store config.syncOnCommit

/-- Makes a commit with the writer in charge, if there is one, and notes it as returned. -/
def commit (changes : Changes) (d : Desk) : Option (Except Error Nat) × Desk :=
  match d.charge with
  | none => (none, d)
  | some i =>
    match d.onEngine i fun e => e.commit? changes with
    | (some (.ok n), d) => (some (.ok n), { d with returned := d.returned ++ [n] })
    | (result, d) => (result, d)

/-- Runs a step on the store of the catalog. -/
def onStore {α : Type} (n : Nat) (f : Store → α × Store) (d : Desk) : α × Desk :=
  let (a, s) := f (d.catalog.store n)
  (a, { d with catalog := d.catalog.setStore n s })

end Desk

end SnapshotRetention
