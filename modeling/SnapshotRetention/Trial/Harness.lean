import SnapshotRetention.Trial.Workbench

/-!
# Checking retention against a model

A harness takes and gives back snapshots of a workbench in memory, keeps its own count of holds,
and checks after every operation that the keeper agrees with it: holds are counted exactly, held
commits are undeleted and complete, the live list is never empty, and the store holds exactly the
artifacts of undeleted commits.
-/

namespace SnapshotRetention

/-- What a harness can do; outstanding handles are chosen by position, modulo their number. -/
inductive HarnessOp where
  | commit
  | snapshotCurrent
  | snapshotAll
  | release (index : Nat)
  | releaseTwice (index : Nat)
  | drop (index : Nat)
  | releaseAll
  deriving DecidableEq

/-- A workbench and a model of its holds. -/
structure Harness where
  bench : Workbench
  /-- The slots of the outstanding handles. -/
  outstanding : List Nat
  /-- The number of outstanding handles of each version that has some. -/
  model : Table Version Nat

namespace Harness

/-- How an operation can end: well, with an error, or with the model contradicted. -/
inductive Outcome where
  | done
  | failure (error : Error)
  | contradiction

/-- A harness over a workbench in memory. -/
def create (config : Config) : Except Error Harness :=
  (Workbench.inMemory config).map fun bench => ⟨bench, [], Table.empty⟩

/-- The version of the handle in a slot. -/
def versionAt (slot : Nat) (h : Harness) : Version :=
  match h.bench.desk.handle? slot with
  | none => default
  | some handle => h.bench.desk.catalog.version handle.guard.commit

/-- Adds a handle to the outstanding ones. -/
def track (slot : Nat) (h : Harness) : Harness :=
  let version := h.versionAt slot
  { h with
    outstanding := h.outstanding ++ [slot]
    model := h.model.insert version ((h.model.get? version).getD 0 + 1) }

/-- A list without the element at a position, into whose place the last one moves. -/
def swapRemove (index : Nat) (slots : List Nat) : List Nat :=
  match slots.getLast? with
  | none => []
  | some last => (slots.set index last).dropLast

/-- Takes a handle off the outstanding ones. -/
def take (index : Nat) (h : Harness) : Option Nat × Harness :=
  let position := index % h.outstanding.length
  match h.outstanding[position]? with
  | none => (none, h)
  | some slot =>
    let version := h.versionAt slot
    let model :=
      match h.model.get? version with
      | none => h.model
      | some count =>
        if count ≤ 1 then h.model.erase version else h.model.insert version (count - 1)
    (some slot, { h with outstanding := swapRemove position h.outstanding, model })

/-- Answers a request of a consumer. -/
def perform (ask : Ask) (h : Harness) : Answer × Harness :=
  let (answer, bench) := h.bench.perform ask
  (answer, { h with bench })

/-- Releases the handle in a slot; whether that took effect comes back. -/
def release (slot : Nat) (h : Harness) : Bool × Harness :=
  match h.perform (.release slot) with
  | (.flag took, h) => (took, h)
  | (_, h) => (false, h)

/-- A snapshot that failed: that is right before the first commit and only then. -/
def refused (error : Error) (h : Harness) : Outcome × Harness :=
  if error = .notInitialized then
    (if h.bench.engine.current?.isNone then .done else .contradiction, h)
  else (.failure error, h)

/-- Releases handles in order; whether all releases took effect comes back. -/
def releaseSlots (slots : List Nat) (h : Harness) : Bool × Harness :=
  slots.foldl (fun (all, h) slot =>
    let (took, h) := h.release slot
    (all && took, h)) (true, h)

/-- Applies an operation. -/
def apply (op : HarnessOp) (h : Harness) : Outcome × Harness :=
  match op with
  | .commit =>
    match h.bench.commitSegment with
    | (.ok _, bench) => (.done, { h with bench })
    | (.error .counterOverflow, bench) => (.contradiction, { h with bench })
    | (.error e, bench) => (.failure e, { h with bench })
  | .snapshotCurrent =>
    match h.perform .current with
    | (.handle slot, h) => (.done, h.track slot)
    | (.failure e, h) => h.refused e
    | (_, h) => (.contradiction, h)
  | .snapshotAll =>
    match h.perform .snapshot with
    | (.bundle slot, h) =>
      match h.perform (.openBundle slot) with
      | (.handles slots, h) => (.done, slots.foldl (fun h slot => h.track slot) h)
      | (_, h) => (.contradiction, h)
    | (.failure e, h) => h.refused e
    | (_, h) => (.contradiction, h)
  | .release index =>
    match h.take index with
    | (none, h) => (.done, h)
    | (some slot, h) =>
      let (took, h) := h.release slot
      (if took then .done else .contradiction, h)
  | .releaseTwice index =>
    match h.take index with
    | (none, h) => (.done, h)
    | (some slot, h) =>
      let (first, h) := h.release slot
      let (second, h) := h.release slot
      (if first && !second then .done else .contradiction, h)
  | .drop index =>
    match h.take index with
    | (none, h) => (.done, h)
    | (some slot, h) => (.done, (h.perform (.drop slot)).2)
  | .releaseAll =>
    let (all, h) := h.releaseSlots h.outstanding
    (if all then .done else .contradiction, { h with outstanding := [], model := Table.empty })

/-! ## Checks -/

/-- Whether the keeper counts the holds as the model does. -/
def holdsAgree (h : Harness) : Bool :=
  let holds := h.bench.engine.keeper.holds
  holds.versions == h.model.keys &&
    h.model.entries.all fun e => holds.count e.1 == e.2

/-- Whether every outstanding handle holds an undeleted, complete commit. -/
def heldComplete (h : Harness) : Bool :=
  h.outstanding.all fun slot =>
    match h.bench.desk.handle? slot with
    | none => false
    | some handle =>
      !h.bench.desk.catalog.isDeleted handle.guard.commit && h.bench.filesExist handle.guard.commit

/-- Whether the live list, if there is one, is not empty and lists complete commits. -/
def liveComplete (h : Harness) : Bool :=
  match h.bench.engine.keeper.live with
  | none => true
  | some live =>
    !live.guards.isEmpty && live.guards.all fun g => h.bench.filesExist g.commit

/-- Whether the store holds exactly the artifacts of undeleted commits. -/
def storeExact (h : Harness) : Bool :=
  let stored := h.bench.store.names
  let referenced := h.bench.referenced
  stored.all referenced.contains && referenced.all stored.contains

/-- Whether everything agrees. -/
def verify (h : Harness) : Bool :=
  h.holdsAgree && h.heldComplete && h.liveComplete && h.storeExact &&
    h.bench.engine.keeper.stats.sweptEntries == 0

/-- Applies an operation and checks the result. -/
def step (op : HarnessOp) (h : Harness) : Outcome × Harness :=
  let (outcome, h) := h.apply op
  (if h.verify then outcome else .contradiction, h)

/-- A harness in words. -/
def text (h : Harness) : String :=
  "RetentionHarness \x7b outstanding: " ++ toString h.outstanding.length ++ ", model: \x7b" ++
    ", ".intercalate (h.model.entries.map fun e => e.1.fieldText ++ ": " ++ toString e.2) ++
    "\x7d \x7d"

end Harness

end SnapshotRetention
