import SnapshotRetention.Desk.Request

/-!
# A workbench for engines

A workbench is an engine over one store, with conveniences for trying it out: it commits numbered
segments, each replacing the files before it, or single files, whose data is their name; and it
can be opened again over the same store, with a fresh keeper. All its commits carry the same
timestamp, so that no commit is old.
-/

namespace SnapshotRetention

/-- An engine over store 0 of a catalog, and the number of the next segment. -/
structure Workbench where
  desk : Desk
  config : Config
  nextSegment : Nat

namespace Workbench

/-- The number of the first segment over what a store holds: the newest version. -/
def firstSegment (d : Desk) : Nat :=
  match d.engine?.bind Engine.current? with
  | none => 0
  | some n => (d.catalog.version n).number.toNat

/-- Opens an engine at a desk. -/
def openAt (config : Config) (d : Desk) : Except Error Workbench :=
  match d.openWriter 0 config true with
  | (.error e, _) => .error e
  | (.ok (), d) => .ok ⟨d, config, firstSegment d⟩

/-- A workbench over a store. -/
def ofStore (config : Config) (s : Store) : Except Error Workbench :=
  openAt config (.new (.ofStore s))

/-- A workbench over an empty store in memory. -/
def inMemory (config : Config) : Except Error Workbench := ofStore config .empty

/-- A workbench over an empty directory. -/
def inDirectory (config : Config) : Except Error Workbench :=
  ofStore config (.ofMedium (.directory "." .empty) .never)

/-- Opens the engine again, with a fresh keeper; what was given out before stays valid. -/
def reopen (b : Workbench) : Except Error Workbench := openAt b.config b.desk

/-- The engine. -/
def engine (b : Workbench) : Engine := b.desk.engine?.getD default

/-- Makes a commit. -/
def commit (changes : Changes) (b : Workbench) : Except Error Nat × Workbench :=
  match b.desk.commit changes with
  | (some result, desk) => (result, { b with desk })
  | (none, desk) => (.error .notInitialized, { b with desk })

/-- Commits one more file. -/
def commitFile (name : String) (b : Workbench) : Except Error Nat × Workbench :=
  b.commit ⟨[(name, Bytes.ofText name)], [], 0⟩

/-- The name of a segment. -/
def segmentName (n : Nat) : String := "_" ++ toString n ++ ".seg"

/-- The data files of the newest commit. -/
def currentFiles (b : Workbench) : List String :=
  match b.engine.current? with
  | none => []
  | some n => (b.desk.catalog.commit n).manifest.files

/-- Commits the next segment in place of all files before it. The number of the segment is used
up even if the commit fails. -/
def commitSegment (b : Workbench) : Except Error Nat × Workbench :=
  let name := segmentName b.nextSegment
  let changes : Changes := ⟨[(name, Bytes.ofText name)], b.currentFiles, 0⟩
  { b with nextSegment := b.nextSegment + 1 }.commit changes

/-- Commits a number of segments, the first failure ending it. -/
def commitSegments : Nat → Workbench → Except Error Workbench
  | 0, b => .ok b
  | n + 1, b =>
    match b.commitSegment with
    | (.error e, _) => .error e
    | (.ok _, b) => commitSegments n b

/-- A workbench in memory that already has a number of segments. Their commits were returned to
nobody. -/
def seeded (segments : Nat) (config : Config) : Except Error Workbench :=
  match inMemory config with
  | .error e => .error e
  | .ok b =>
    (commitSegments segments b).map fun b => { b with desk := { b.desk with returned := [] } }

/-- The store. -/
def store (b : Workbench) : Store := b.desk.catalog.store 0

/-- Whether every file of a commit is in the store. -/
def filesExist (commit : Nat) (b : Workbench) : Bool :=
  (b.desk.catalog.commit commit).manifest.fileNames.all fun name =>
    match b.store.exists? name with
    | .ok found => found
    | .error _ => false

/-- Whether the store is a directory. -/
def hasPath (b : Workbench) : Bool :=
  match b.store.medium with
  | .directory .. => true
  | .memory _ => false

/-- The files of all undeleted commits of the writer. -/
def referenced (b : Workbench) : List String :=
  b.engine.commits.flatMap fun n => (b.desk.catalog.commit n).manifest.fileNames

/-- Answers a request of a consumer. -/
def perform (ask : Ask) (b : Workbench) : Answer × Workbench :=
  let (answer, desk) := b.desk.perform ask
  (answer, { b with desk })

/-- Runs a step on the store. -/
def onStore {α : Type} (f : Store → α × Store) (b : Workbench) : α × Workbench :=
  let (a, desk) := b.desk.onStore 0 f
  (a, { b with desk })

/-- A workbench in words. -/
def text (b : Workbench) : String :=
  "TestEngine \x7b writer: " ++ (b.engine.writer.map Writer.text).getD "" ++
    ", policy: " ++ b.engine.keeper.text ++ " \x7d"

end Workbench

end SnapshotRetention
