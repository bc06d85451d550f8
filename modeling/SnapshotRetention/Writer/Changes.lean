import SnapshotRetention.Error
import SnapshotRetention.Bytes.Basic
import SnapshotRetention.Table.Lemmas

/-!
# Change sets

A commit consists of the files of the commit before it, less those it removes, plus those it
adds. Removed files must be there, each once; added files must not be there and must not have a
name reserved for manifests.
-/

namespace SnapshotRetention

/-- The artifact changes that make up one commit. -/
structure Changes where
  /-- New artifacts with their data. -/
  add : List (String × Bytes)
  /-- Files of the newest commit that the new one leaves out. -/
  remove : List String
  /-- When the commit is made. -/
  timestamp : Timestamp
  deriving DecidableEq

/-- A set of file names. -/
abbrev FileSet := Table String Unit

namespace FileSet

/-- The set of some names. -/
def ofNames (names : List String) : FileSet := Table.ofList (names.map fun name => (name, ()))

/-- The names in a set, ascending. -/
def names (s : FileSet) : List String := s.keys

/-- Leaves out names, each of which must be there. -/
def removeAll : List String → FileSet → Except Misuse FileSet
  | [], s => .ok s
  | name :: rest, s =>
    if s.contains name then removeAll rest (s.erase name) else .error (.notInCommit name)

/-- Adds names, none of which may be reserved or there already. -/
def addAll : List String → FileSet → Except Misuse FileSet
  | [], s => .ok s
  | name :: rest, s =>
    if Manifest.isReserved name then .error (.reservedName name)
    else if s.contains name then .error (.duplicateName name)
    else addAll rest (s.insert name ())

end FileSet

namespace Changes

/-- Whether a change set changes nothing. -/
def isEmpty (c : Changes) : Bool := c.add.isEmpty && c.remove.isEmpty

/-- The files of a commit that applies the changes to some files: removals first. -/
def apply (c : Changes) (files : List String) : Except Misuse (List String) :=
  match FileSet.removeAll c.remove (FileSet.ofNames files) with
  | .error e => .error e
  | .ok kept => (FileSet.addAll (c.add.map Prod.fst) kept).map FileSet.names

end Changes

end SnapshotRetention
