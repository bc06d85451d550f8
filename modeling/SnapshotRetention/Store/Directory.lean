import SnapshotRetention.Bytes.Basic
import SnapshotRetention.Store.Error
import SnapshotRetention.Store.Name
import SnapshotRetention.Store.Path
import SnapshotRetention.Table.Basic

/-!
# A directory as a place for artifacts

One level of a file system: regular files, folders and devices that the store leaves alone, and
files whose names are not text. Only a regular file with a text name is an artifact. Every access
by name goes through the path of the directory and checks the name first; a name or a path that is
too long for the file system is told from a missing one.
-/

namespace SnapshotRetention.Store

/-- What a name in a directory stands for. Symbolic links are not modelled: a listing leaves them
out, while their paths lead on. -/
inductive Node where
  | file (data : Bytes)
  | folder
  /-- A device that reads as empty and keeps nothing of what is written to it. -/
  | device
  deriving DecidableEq

/-- The data of a regular file. -/
def Node.data? : Node → Option Bytes
  | .file data => some data
  | .folder | .device => none

/-- One level of a file system. -/
structure Directory where
  /-- What stands under the names that are text. -/
  nodes : Table String Node
  /-- The raw names of the files, all empty, whose names are not text. -/
  unnamed : List Bytes

namespace Directory

/-- A directory without entries. -/
def empty : Directory := ⟨Table.empty, []⟩

/-- The number of entries of any kind. -/
def size (d : Directory) : Nat := d.nodes.size + d.unnamed.length

/-- A directory with one more regular file, which replaces what had its name. -/
def put (d : Directory) (name : String) (data : Bytes) : Directory :=
  { d with nodes := d.nodes.insert name (.file data) }

/-- Whether the file system follows the path of a name in the directory at a path. -/
def reaches (path name : String) : Bool :=
  decide (name.utf8ByteSize ≤ Path.maxNameBytes) && Path.fits (Path.join path name)

/-- Refuses a name that is no artifact's or is too long in the directory at a path. -/
def checkName (path name : String) : Except StoreError Unit :=
  if !isValidName name then .error (.invalidName name)
  else if !reaches path name then .error (.io (.system .nameTooLong))
  else .ok ()

/-- The data under a name in the directory at a path. -/
def file (d : Directory) (path name : String) : Except StoreError Bytes :=
  match checkName path name with
  | .error e => .error e
  | .ok () =>
    match d.nodes.get? name with
    | none => .error (.notFound name)
    | some .folder => .error (.io (.system .isDirectory))
    | some .device => .ok []
    | some (.file data) => .ok data

/-- Creates a file in the directory at a path; an entry of any kind under its name is in the
way. The file has all its data or does not come to be: one that stays behind because its data could
not be written or synchronised is not modelled. -/
def write (path name : String) (data : Bytes) (d : Directory) : Except StoreError Directory :=
  match checkName path name with
  | .error e => .error e
  | .ok () =>
    if d.nodes.contains name then .error (.alreadyExists name) else .ok (d.put name data)

/-- Removes what stands under a name in the directory at a path, unless it is a folder. -/
def delete (path name : String) (d : Directory) : Except StoreError Directory :=
  match d.file path name with
  | .error e => .error e
  | .ok _ => .ok { d with nodes := d.nodes.erase name }

/-- Whether a name is a regular file's. -/
def isFile (d : Directory) (name : String) : Bool :=
  ((d.nodes.get? name).bind Node.data?).isSome

/-- Whether an artifact exists in the directory at a path; a name that is no artifact's is
refused, and what cannot be reached does not exist. -/
def exists? (d : Directory) (path name : String) : Except StoreError Bool :=
  if !isValidName name then .error (.invalidName name) else .ok (reaches path name && d.isFile name)

/-- The artifacts with their data: the regular files, by name. -/
def artifacts (d : Directory) : List (String × Bytes) :=
  d.nodes.entries.filterMap fun e => e.2.data?.map fun data => (e.1, data)

end Directory

end SnapshotRetention.Store
