import SnapshotRetention.Store.Directory
import SnapshotRetention.Store.Fault

/-!
# Artifact stores

A store keeps artifacts, named byte strings that are written once, read and deleted. It keeps
them in memory or in a directory, and a fault plan may refuse any access first. Writing,
deleting and synchronising return the store as they leave it; reading, asking and listing leave
it alone. An access that is refused has done nothing: that a file stays behind when its data could
not be written or synchronised is not modelled.

The two media differ in how they treat names that no artifact can have: in memory only a write
checks the name, so such a name is merely missing for the other accesses, while a directory
refuses it every time.
-/

namespace SnapshotRetention

namespace Store

/-- Where a store keeps its artifacts. -/
inductive Medium where
  | memory (artifacts : Table String Bytes)
  /-- A directory and the path that leads to it. -/
  | directory (path : String) (dir : Directory)

namespace Medium

/-- The artifacts with their data, by name. -/
def artifacts : Medium → List (String × Bytes)
  | .memory table => table.entries
  | .directory _ dir => dir.artifacts

/-- The names of the artifacts, ascending. -/
def names (m : Medium) : List String := m.artifacts.map Prod.fst

/-- The data of an artifact. -/
def read (name : String) : Medium → Except StoreError Bytes
  | .memory table =>
    match table.get? name with
    | some data => .ok data
    | none => .error (.notFound name)
  | .directory path dir => dir.file path name

/-- Whether an artifact exists. -/
def exists? (name : String) : Medium → Except StoreError Bool
  | .memory table => .ok (table.contains name)
  | .directory path dir => dir.exists? path name

/-- Adds an artifact under a name that is not taken. -/
def write (name : String) (data : Bytes) : Medium → Except StoreError Medium
  | .memory table =>
    if !isValidName name then .error (.invalidName name)
    else if table.contains name then .error (.alreadyExists name)
    else .ok (.memory (table.insert name data))
  | .directory path dir => (dir.write path name data).map (.directory path)

/-- Removes an artifact. -/
def delete (name : String) : Medium → Except StoreError Medium
  | .memory table =>
    if table.contains name then .ok (.memory (table.erase name)) else .error (.notFound name)
  | .directory path dir => (dir.delete path name).map (.directory path)

end Medium

end Store

/-- A place for artifacts. -/
structure Store where
  /-- Where the artifacts are. -/
  medium : Store.Medium
  /-- Which accesses fail. -/
  faults : Store.FaultPlan
  /-- The number of writes, deletions and synchronisations so far. -/
  clock : Nat
  /-- The number of deletions that the fault plan refused. -/
  failedDeletes : Nat

namespace Store

/-- A store over a medium, before the first access. -/
def ofMedium (medium : Medium) (faults : FaultPlan) : Store := ⟨medium, faults, 0, 0⟩

/-- The empty store in memory that never fails. -/
def empty : Store := ofMedium (.memory Table.empty) .never

instance : Inhabited Store := ⟨empty⟩

/-- The names of the artifacts, ascending, whatever is set to fail. -/
def names (s : Store) : List String := s.medium.names

/-- The fault that an access meets now, if any. -/
def fault? (s : Store) (access : Access) (name : String) : Option IoFault :=
  s.faults.fault? s.clock access name

/-- The store one access later. -/
def tick (s : Store) : Store := { s with clock := s.clock + 1 }

/-- Adds an artifact. A write that fails leaves nothing behind. -/
def write (name : String) (data : Bytes) (s : Store) : Except StoreError Unit × Store :=
  match s.fault? .write name with
  | some fault => (.error (.io fault), s.tick)
  | none =>
    match s.medium.write name data with
    | .error e => (.error e, s.tick)
    | .ok medium => (.ok (), { s.tick with medium })

/-- Removes an artifact. -/
def delete (name : String) (s : Store) : Except StoreError Unit × Store :=
  match s.fault? .delete name with
  | some fault => (.error (.io fault), { s.tick with failedDeletes := s.failedDeletes + 1 })
  | none =>
    match s.medium.delete name with
    | .error e => (.error e, s.tick)
    | .ok medium => (.ok (), { s.tick with medium })

/-- Makes what was written and deleted durable. -/
def sync (s : Store) : Except StoreError Unit × Store :=
  match s.fault? .sync "" with
  | some fault => (.error (.io fault), s.tick)
  | none => (.ok (), s.tick)

/-- The data of an artifact. -/
def read (name : String) (s : Store) : Except StoreError Bytes :=
  match s.fault? .read name with
  | some fault => .error (.io fault)
  | none => s.medium.read name

/-- Whether an artifact exists. -/
def exists? (name : String) (s : Store) : Except StoreError Bool :=
  match s.fault? .exists name with
  | some fault => .error (.io fault)
  | none => s.medium.exists? name

/-- The names of the artifacts, ascending. -/
def list (s : Store) : Except StoreError (List String) :=
  match s.fault? .list "" with
  | some fault => .error (.io fault)
  | none => .ok s.names

/-- Writes artifacts in order, stopping at the first that fails. -/
def writeAll : List (String × Bytes) → Store → Except StoreError Unit × Store
  | [], s => (.ok (), s)
  | (name, data) :: rest, s =>
    match s.write name data with
    | (.error e, s) => (.error e, s)
    | (.ok (), s) => writeAll rest s

end Store

end SnapshotRetention
