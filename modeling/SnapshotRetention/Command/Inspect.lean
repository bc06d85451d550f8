import SnapshotRetention.Command.Failure
import SnapshotRetention.Command.FileTree
import SnapshotRetention.Command.Json
import SnapshotRetention.Text.Rounded
import SnapshotRetention.Writer.History

/-!
# Inspecting a directory

The inspection of a directory lists its commits, oldest first, with the total size of their data
artifacts, and the artifacts that no commit references. It changes nothing. A data artifact that
does not exist counts as empty.
-/

namespace SnapshotRetention

/-- What the inspection tells about one commit. -/
structure CommitSummary where
  manifest : Manifest
  /-- The size of the data artifacts in bytes. -/
  size : Nat
  deriving DecidableEq

/-- The inspection of a directory. -/
structure Inspection where
  /-- The path as it was given. -/
  path : String
  /-- The number of artifacts. -/
  artifactCount : Nat
  /-- The size of all artifacts in bytes. -/
  totalSize : Nat
  /-- The commits, oldest first. -/
  commits : List CommitSummary
  /-- The artifacts that no commit references. -/
  unreferenced : List String
  deriving DecidableEq

namespace Inspection

/-- The complaint that there is no directory to work on. -/
def noDirectory (path : String) : Failure :=
  .message ("No artifact directory found at " ++ Text.quoted path)

/-- The folder of a path that must lead to one, with its path from the root. -/
def findFolder (path : String) (t : FileTree) :
    Except Failure (List String × Store.Directory) :=
  match t.folderAt? path with
  | none => .error (noDirectory path)
  | some found => .ok found

/-- The size of what a name below the folder at a path leads to. -/
def artifactSize (t : FileTree) (path name : String) : Nat := t.sizeAt (Path.join path name)

/-- The sum of some sizes; that it may not fit into a word is not modelled. -/
def total (sizes : List Nat) : Nat := sizes.foldr (· + ·) 0

/-- What the inspection tells about a commit. -/
def summarize (t : FileTree) (path : String) (m : Manifest) : CommitSummary :=
  ⟨m, total (m.files.map (artifactSize t path))⟩

/-- Inspects a directory. -/
def ofPath (path : String) (t : FileTree) : Except Failure Inspection :=
  match findFolder path t with
  | .error e => .error e
  | .ok (_, d) =>
    let store := Store.ofMedium (.directory path d) .never
    match store.readCommits with
    | .error e => .error (.error e)
    | .ok manifests =>
      let artifacts := store.names
      let referenced := manifests.flatMap Manifest.fileNames
      .ok
        { path
          artifactCount := artifacts.length
          totalSize := total (artifacts.map (artifactSize t path))
          commits := manifests.map (summarize t path)
          unreferenced := artifacts.filter fun name => !referenced.contains name }

/-! ## Reports -/

/-- A size in the largest of the units byte, kilobyte and megabyte that it reaches, the latter two
with one decimal place; the unit of bytes is left to the caller. -/
def sizeText (bytes : Nat) : String :=
  if bytes < 1024 then toString bytes
  else if bytes < 1024 * 1024 then Text.fixedPlaces 1 bytes 1024 ++ " KB"
  else Text.fixedPlaces 1 bytes (1024 * 1024) ++ " MB"

/-- The line of a commit in the text report. -/
def commitLine (c : CommitSummary) : String :=
  "  [v:" ++ toString c.manifest.version.number ++ "] " ++ c.manifest.name ++ " - " ++
    toString c.manifest.files.length ++ " files, " ++ sizeText c.size ++ " bytes, at " ++
    toString c.manifest.timestamp

/-- The lines of the text report. -/
def textLines (i : Inspection) : List String :=
  ["SnapKeep Directory Inspection",
    "=============================",
    "",
    "Path: " ++ i.path,
    "",
    "Storage:",
    "  Artifacts:  " ++ toString i.artifactCount,
    "  Total size: " ++ sizeText i.totalSize ++ " bytes",
    "",
    "Commits: " ++ toString i.commits.length] ++
    i.commits.map commitLine ++
    if i.unreferenced.isEmpty then []
    else ["", "Unreferenced artifacts:"] ++ i.unreferenced.map ("  " ++ ·)

/-- A commit in the JSON report. -/
def commitJson (c : CommitSummary) : Json :=
  .record
    [("version", .ofNat c.manifest.version.number.toNat),
      ("generation", .ofNat c.manifest.generation.number.toNat),
      ("timestamp_millis", .ofNat c.manifest.timestamp.toNat),
      ("manifest", .text c.manifest.name),
      ("files", .list (c.manifest.files.map .text)),
      ("size", .ofNat c.size)]

/-- The JSON report. -/
def json (i : Inspection) : Json :=
  .record
    [("path", .text i.path),
      ("commit_count", .ofNat i.commits.length),
      ("artifact_count", .ofNat i.artifactCount),
      ("total_size", .ofNat i.totalSize),
      ("commits", .list (i.commits.map commitJson)),
      ("unreferenced", .list (i.unreferenced.map .text))]

end Inspection

end SnapshotRetention
