import SnapshotRetention.Catalog.Tracker
import SnapshotRetention.Retention.Primary

/-!
# The catalog of commits

A commit is described by a manifest and backed either by artifacts, which a tracker counts, or by
nothing at all. The catalog knows every commit made so far, by number, together with the
trackers and the stores they delete from. Deleting a commit takes back its references to its
artifacts; it stays deleted even if an artifact could not be removed, because the tracker has
queued it.
-/

namespace SnapshotRetention

/-- What stands behind a commit. -/
inductive Backing where
  /-- Artifacts, counted by the tracker of a depot. -/
  | artifacts (depot : Nat)
  /-- Nothing; deleting it fails while it is faulty, and its deletions are counted. -/
  | plain (faulty : Bool) (deletions : Nat)
  deriving DecidableEq

/-- One commit. -/
structure Commit where
  manifest : Manifest
  backing : Backing
  deleted : Bool
  deriving DecidableEq

instance : Inhabited Commit := ⟨⟨default, .plain false 0, false⟩⟩

namespace Commit

/-- The version of a commit. -/
def version (c : Commit) : Version := c.manifest.version

/-- What a primary policy sees of a commit. -/
def shown (c : Commit) : Shown := ⟨c.manifest.version, c.manifest.timestamp⟩

/-- A commit without artifacts other than its manifest, whose generation is its version. -/
def plain (number : UInt64) (timestamp : Timestamp) : Commit :=
  ⟨⟨⟨number⟩, ⟨number⟩, timestamp, []⟩, .plain false 0, false⟩

/-- A commit in words. -/
def text (c : Commit) : String :=
  match c.backing with
  | .plain .. => "FakeCommit(" ++ toString c.version.number ++ ")"
  | .artifacts _ =>
    "StoredCommit \x7b version: CommitVersion(" ++ toString c.version.number ++
      "), generation: Generation(" ++ toString c.manifest.generation.number ++
      "), files: " ++ toString c.manifest.files.length ++
      ", deleted: " ++ toString c.deleted ++ " \x7d"

end Commit

/-- A tracker and the number of the store it deletes from. -/
structure Depot where
  store : Nat
  tracker : Tracker

instance : Inhabited Depot := ⟨⟨0, Tracker.empty⟩⟩

/-- The stores, the trackers and the commits, each by number. -/
structure Catalog where
  stores : List Store
  depots : List Depot
  commits : List Commit

namespace Catalog

/-- The catalog of one store, without commits. -/
def ofStore (s : Store) : Catalog := ⟨[s], [], []⟩

instance : Inhabited Catalog := ⟨⟨[], [], []⟩⟩

/-! ## Stores and depots -/

/-- A store by number. -/
def store (c : Catalog) (n : Nat) : Store := c.stores.getD n default

/-- Replaces a store. -/
def setStore (n : Nat) (s : Store) (c : Catalog) : Catalog :=
  { c with stores := c.stores.set n s }

/-- A depot by number. -/
def depot (c : Catalog) (n : Nat) : Depot := c.depots.getD n default

/-- The tracker of a depot. -/
def tracker (c : Catalog) (n : Nat) : Tracker := (c.depot n).tracker

/-- The store of a depot. -/
def storeOf (c : Catalog) (n : Nat) : Store := c.store (c.depot n).store

/-- Replaces the tracker of a depot. -/
def setTracker (n : Nat) (t : Tracker) (c : Catalog) : Catalog :=
  { c with depots := c.depots.set n ⟨(c.depot n).store, t⟩ }

/-- Replaces the store of a depot. -/
def setStoreOf (n : Nat) (s : Store) (c : Catalog) : Catalog :=
  c.setStore (c.depot n).store s

/-- Adds a depot over a store, with nothing referenced; its number is the count of those before. -/
def addDepot (store : Nat) (c : Catalog) : Catalog :=
  { c with depots := c.depots ++ [⟨store, Tracker.empty⟩] }

/-- Runs a step of a depot's tracker on its store. -/
def onDepot {α : Type} (n : Nat) (f : Tracker → Store → α × Tracker × Store) (c : Catalog) :
    α × Catalog :=
  let (a, t, s) := f (c.tracker n) (c.storeOf n)
  (a, (c.setTracker n t).setStoreOf n s)

/-! ## Commits -/

/-- A commit by number. -/
def commit (c : Catalog) (n : Nat) : Commit := c.commits.getD n default

/-- The version of a commit. -/
def version (c : Catalog) (n : Nat) : Version := (c.commit n).version

/-- Whether a commit is deleted. -/
def isDeleted (c : Catalog) (n : Nat) : Bool := (c.commit n).deleted

/-- Replaces a commit. -/
def setCommit (n : Nat) (commit : Commit) (c : Catalog) : Catalog :=
  { c with commits := c.commits.set n commit }

/-- Adds a commit; its number is the count of those before. -/
def addCommit (commit : Commit) (c : Catalog) : Catalog :=
  { c with commits := c.commits ++ [commit] }

/-- Deletes a commit backed by artifacts: marks it and takes its references back. -/
def deleteStored (n depot : Nat) (c : Catalog) : Except Error Unit × Catalog :=
  -- The mark comes first, so that the references are taken back once whatever fails.
  (c.setCommit n { c.commit n with deleted := true }).onDepot depot
    (Tracker.decref (c.commit n).manifest.fileNames)

/-- Deletes a commit. One backed by artifacts is deleted once, and again is nothing; a plain one
counts every deletion that does not fail. -/
def delete (n : Nat) (c : Catalog) : Except Error Unit × Catalog :=
  match (c.commit n).backing with
  | .artifacts depot => if c.isDeleted n then (.ok (), c) else c.deleteStored n depot
  | .plain true _ => (.error (.io (.diskGone (c.version n).number)), c)
  | .plain false deletions =>
    (.ok (), c.setCommit n
      { c.commit n with backing := .plain false (deletions + 1), deleted := true })

/-- Makes deleting a plain commit fail, or work again. -/
def setFaulty (n : Nat) (faulty : Bool) (c : Catalog) : Catalog :=
  match (c.commit n).backing with
  | .artifacts _ => c
  | .plain _ deletions =>
    c.setCommit n { c.commit n with backing := .plain faulty deletions }

/-- Those of some commits that are not deleted, in their order. -/
def undeleted (history : List Nat) (c : Catalog) : List Nat :=
  history.filter fun n => !c.isDeleted n

/-- What a primary policy sees of some commits. -/
def shown (commits : List Nat) (c : Catalog) : List Shown :=
  commits.map fun n => (c.commit n).shown

end Catalog

end SnapshotRetention
