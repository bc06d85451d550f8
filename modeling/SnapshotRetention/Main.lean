import SnapshotRetention.Command.Program

/-!
# The command line

The program run on real folders. The paths of the files and folders that it may look at come from
standard input, one a line, a folder's with a slash at its end; the files are read, the program
runs, and the differences it made are carried out. What the program decides is decided in
`Program.run`.
-/

namespace SnapshotRetention

namespace CommandLine

/-- A path from the root as it is written. -/
def pathText (path : List String) : String := "/" ++ "/".intercalate path

/-- The files of a tree that another one lacks or has with other data. -/
def changes (before after : FileTree) : List (List String × Bytes) :=
  after.files.filter fun f => before.fileAt? f.1 != some f.2

/-- The paths of the folders of a tree that another one lacks. -/
def newFolders (before after : FileTree) : List (List String) :=
  (after.folders.map Prod.fst).filter fun path => (before.folder? path).isNone

/-- The paths of the files of a tree that another one no longer has. -/
def removals (before after : FileTree) : List (List String) :=
  (before.files.map Prod.fst).filter fun path => (after.fileAt? path).isNone

/-- The path of a line, without the mark at its end. -/
def stripLine (line : String) : String :=
  String.ofList ((line.toList.reverse.dropWhile fun c => c == '\n' || c == '\r').reverse)

/-- The path of the folder that a file is in; empty for a file of the working directory. -/
def folderPath (path : String) : String :=
  String.ofList (path.toList.reverse.dropWhile (· ≠ '/')).reverse

/-- The tree with one more path: a folder, or a file with its data. -/
def loadPath (path : String) (t : FileTree) : IO FileTree := do
  let folder := folderPath path
  let (_, t) := t.makeFolders folder
  if folder = path then pure t
  else
    let data ← IO.FS.readBinFile path
    pure (t.writeFile path data.data.toList).2

/-- The tree of the paths on the remaining lines of a stream. -/
partial def loadLines (input : IO.FS.Stream) (t : FileTree) : IO FileTree := do
  let line ← input.getLine
  if line.isEmpty then pure t
  else
    let path := stripLine line
    loadLines input (← if path.isEmpty then pure t else loadPath path t)

/-- Carries out what changed between two trees. -/
def save (before after : FileTree) : IO Unit := do
  for path in newFolders before after do
    IO.FS.createDirAll (pathText path)
  for path in removals before after do
    IO.FS.removeFile (pathText path)
  for (path, data) in changes before after do
    IO.FS.writeBinFile (pathText path) ⟨data.toArray⟩

end CommandLine

end SnapshotRetention

open SnapshotRetention in
/-- Runs the program with the given arguments. -/
def main (args : List String) : IO UInt32 := do
  let working := (Path.components (← IO.currentDir).toString).filter fun c => !Path.stays c
  let before ← CommandLine.loadLines (← IO.getStdin) (FileTree.ofWorking working)
  let outcome := Program.run args before
  CommandLine.save before outcome.tree
  for line in outcome.log ++ outcome.output do
    IO.println line
  match outcome.complaint with
  | none => pure ()
  | some complaint => IO.eprintln complaint
  pure (UInt32.ofNat outcome.code)
