import SnapshotRetention.Command.Inspect
import SnapshotRetention.Writer.Open

/-!
# Backing up a directory

A backup copies every artifact of the newest commit, or of all commits, into a directory that is
empty or does not exist yet. The source is opened as a store that keeps all its commits, so
artifacts that no commit references are deleted from it first. What was copied before a failure
stays.
-/

namespace SnapshotRetention

/-- What a backup copied. -/
structure BackupSummary where
  /-- The versions of the copied commits, oldest first. -/
  versions : List Version
  /-- The number of artifacts. -/
  files : Nat
  /-- Their size in bytes. -/
  bytes : Nat
  deriving DecidableEq

namespace Backup

/-- Whether a target is there and not empty, or why it cannot be told. -/
def targetInUse (path : String) (t : FileTree) : Except Failure Bool :=
  match t.look path with
  | .error _ => .ok false
  | .ok (.file _) | .ok .device => .error (.system .notDirectory)
  | .ok (.folder place) => .ok (((t.folder? place).map fun d => decide (0 < d.size)).getD false)

/-- Reads an artifact of the folder at a path. -/
def readArtifact (path name : String) (t : FileTree) : Except StoreError Bytes :=
  match t.folderAt? path with
  | none => .error (.notFound name)
  | some (_, d) => d.file path name

/-- Copies artifacts from the folder at one path to that at another, each name once; their total
size comes back. -/
def copyAll (source target : String) : List String → List String → Nat → FileTree →
    Except Failure (List String × Nat) × FileTree
  | [], copied, bytes, t => (.ok (copied, bytes), t)
  | name :: rest, copied, bytes, t =>
    if copied.contains name then copyAll source target rest copied bytes t
    else
      match readArtifact source name t with
      | .error e => (.error (.store e), t)
      | .ok data =>
        match t.writeFile (Path.join target name) data with
        | (.error fault, t) => (.error (.system fault), t)
        | (.ok (), t) => copyAll source target rest (name :: copied) (bytes + data.length) t

/-- The commits that a backup copies: all live ones, or the newest, held by snapshots. -/
def heldCommits (all : Bool) (k : Keeper) : Except Error (List Nat) :=
  if all then
    match k.snapshot with
    | (.error e, _) => .error e
    | (.ok slot, k) =>
      .ok (((k.bundle? slot).map fun b => b.handles.map fun h => h.guard.commit).getD [])
  else
    match k.snapshotCurrent with
    | (.error e, _) => .error e
    | (.ok slot, k) => .ok (((k.handle? slot).map fun h => [h.guard.commit]).getD [])

/-- The store of the directory at a path. -/
def storeAt (path : String) (d : Store.Directory) : Store := .ofMedium (.directory path d) .never

/-- The engine over a source directory, which keeps all commits, before its writer is opened. -/
def engineOver (path : String) (d : Store.Directory) : Engine :=
  .ofConfig 0 { Config.standard with primary := .keepAll } true (.ofStore (storeAt path d))

/-- The directory of the store as an engine leaves it. -/
def directoryOf (e : Engine) (d : Store.Directory) : Store.Directory :=
  match (e.catalog.store 0).medium with
  | .directory _ d => d
  | .memory _ => d

/-- Copies the files of some commits of an engine from one path to another. -/
def copyCommits (source target : String) (commits : List Nat) (e : Engine) (t : FileTree) :
    Except Failure BackupSummary × FileTree :=
  match t.makeFolders target with
  | (.error fault, t) => (.error (.system fault), t)
  | (.ok (), t) =>
    match copyAll source target (commits.flatMap fun n => (e.catalog.commit n).manifest.fileNames)
      [] 0 t with
    | (.error e, t) => (.error e, t)
    | (.ok (copied, bytes), t) => (.ok ⟨commits.map e.catalog.version, copied.length, bytes⟩, t)

/-- The folder to back up, with its path from the root, if a backup of it may begin. -/
def sourceFor (path output : String) (t : FileTree) :
    Except Failure (List String × Store.Directory) :=
  match Inspection.findFolder path t with
  | .error e => .error e
  | .ok found =>
    match targetInUse output t with
    | .error e => .error e
    | .ok true => .error (.message ("Output directory " ++ Text.quoted output ++ " is not empty"))
    | .ok false => .ok found

/-- The artifacts that a backup starts to delete, in order, because no commit references them. -/
def discarded (path output : String) (t : FileTree) : List String :=
  match sourceFor path output t with
  | .error _ => []
  | .ok (_, d) => (storeAt path d).openingStrays

/-- Backs a directory up. -/
def run (path output : String) (all : Bool) (t : FileTree) :
    Except Failure BackupSummary × FileTree :=
  match sourceFor path output t with
  | .error e => (.error e, t)
  | .ok (place, d) =>
    let (opened, e) := (engineOver path d).openWriter 0 true
    let t := t.setFolder place (directoryOf e d)
    match opened with
    | .error err => (.error (.error err), t)
    | .ok () =>
      if e.current?.isNone then
        (.error (.message ("No commits found at " ++ Text.quoted path)), t)
      else
        match heldCommits all e.keeper with
        | .error err => (.error (.error err), t)
        | .ok commits => copyCommits path output commits e t

/-- The lines of the report. -/
def textLines (output : String) (s : BackupSummary) : List String :=
  ["✓ Backup created successfully",
    "  Path: " ++ Text.quoted output,
    "  Commits: [" ++ ", ".intercalate (s.versions.map fun v => toString v.number) ++ "]",
    "  Files: " ++ toString s.files,
    "  Size: " ++ toString s.bytes ++ " bytes"]

end Backup

end SnapshotRetention
