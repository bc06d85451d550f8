import SnapshotRetention.Writer.Changes
import SnapshotRetention.Writer.Open

/-!
# Writing a commit

A commit first retries the deletions that failed before. It then checks the changes against the
newest undeleted commit, writes the added artifacts and the manifest, synchronises if asked to,
and only then counts as made: it joins the history, its artifacts are counted, the numbers move
on and the policy is shown the history. An error before that point leaves the history and the
numbers as they are, though artifacts may have been written; an error of the policy comes after
the commit has been made.
-/

namespace SnapshotRetention.Engine

/-- The data files of the newest undeleted commit of a history. -/
def baseFiles (history : List Nat) (c : Catalog) : List String :=
  match history.getLast? with
  | none => []
  | some n => (c.commit n).manifest.files

/-- Writes the added artifacts, then the manifest, and synchronises if asked to. -/
def writeOut (add : List (String × Bytes)) (m : Manifest) (sync : Bool) (s : Store) :
    Except Error Unit × Store :=
  match s.writeAll add with
  | (.error e, s) => (.error (.store e), s)
  | (.ok (), s) =>
    match m.encode with
    | .error e => (.error (.manifest e), s)
    | .ok data =>
      match s.write m.name data with
      | (.error e, s) => (.error (.store e), s)
      | (.ok (), s) =>
        if sync then
          match s.sync with
          | (.error e, s) => (.error (.store e), s)
          | (.ok (), s) => (.ok (), s)
        else (.ok (), s)

/-- The numbers after a commit, or none if a counter is at its end. What the numbers are after that
is not modelled: both are left as they were, though one of them may have moved on already. -/
def advance (w : Writer) (timestamp : Timestamp) : Option Writer :=
  match w.nextVersion.next?, w.nextGeneration.next? with
  | some version, some generation =>
    some { w with nextVersion := version, nextGeneration := generation, lastTimestamp := timestamp }
  | _, _ => none

/-- The first step of a commit: deletions that failed before are tried again, whatever comes of
it, and deleted commits leave the history. -/
def prepare (w : Writer) (e : Engine) : Writer × Engine :=
  -- A deletion that still fails is queued again and must not stop the commit.
  let (_, e) := e.onCatalog fun c => c.onDepot w.depot Tracker.retry
  let w := { w with history := e.catalog.undeleted w.history }
  (w, { e with writer := some w })

/-- The manifest of the next commit. -/
def nextManifest (w : Writer) (timestamp : Timestamp) (files : List String) : Manifest :=
  ⟨w.nextVersion, w.nextGeneration, max timestamp w.lastTimestamp, files⟩

/-- The last step of a commit whose manifest is written: it joins the history, the numbers move
on and the policy decides. -/
def register (w : Writer) (m : Manifest) (e : Engine) : Except Error Nat × Engine :=
  let (n, e) := e.onCatalog fun c => c.adopt w.depot m
  let w := { w with history := w.history ++ [n] }
  -- The manifest is in the store by now, so a counter at its end is found too late to undo it.
  match advance w m.timestamp with
  | none => (.error .counterOverflow, { e with writer := some w })
  | some w =>
    let (decided, e) := e.decide w.history
    let e := { e with writer := some { w with history := e.catalog.undeleted w.history } }
    match decided with
    | .error err => (.error err, e)
    | .ok () => (.ok n, e)

/-- Makes a commit with a writer; its number comes back. -/
def commitWith (w : Writer) (changes : Changes) (e : Engine) : Except Error Nat × Engine :=
  let (w, e) := e.prepare w
  match changes.apply (baseFiles w.history e.catalog) with
  | .error cause => (.error (.misuse cause), e)
  | .ok files =>
    let m := nextManifest w changes.timestamp files
    let (written, s) := writeOut changes.add m w.syncOnCommit (e.catalog.storeOf w.depot)
    let e := e.setCatalog (e.catalog.setStoreOf w.depot s)
    match written with
    | .error err => (.error err, e)
    | .ok () => e.register w m

/-- Makes a commit, if there is a writer. -/
def commit? (changes : Changes) (e : Engine) : Option (Except Error Nat) × Engine :=
  match e.writer with
  | none => (none, e)
  | some w =>
    let (result, e) := e.commitWith w changes
    (some result, e)

end SnapshotRetention.Engine
