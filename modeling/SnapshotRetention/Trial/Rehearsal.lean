import SnapshotRetention.Desk.Request

/-!
# Rehearsing policies

Policies can be tried on plain commits, which have no artifacts and whose deletions can be made
to fail. A rehearsal feeds a keeper with such commits, one by one or a chosen list at a time, and
keeps the history that a writer would keep; `Primary.rehearse` tries a bare primary policy once.
-/

namespace SnapshotRetention

/-- A keeper fed with plain commits. -/
structure Rehearsal where
  desk : Desk
  /-- The commits presented so far that are not deleted, oldest first. -/
  history : List Nat

namespace Rehearsal

/-- A rehearsal of a decider. -/
def new (decider : Decider) (reclaimOnRelease : Bool) : Rehearsal :=
  ⟨(Desk.new (.ofStore .empty)).install fun id catalog =>
    ⟨.new id reclaimOnRelease catalog, decider, true, none⟩, []⟩

/-- A rehearsal of a script, which starts empty and reclaims on release. -/
def ofScript : Rehearsal := new (.script []) true

/-- A rehearsal of a configured policy. -/
def ofConfig (config : Config) : Except Error Rehearsal :=
  match config.validate with
  | .error e => .error (.config e)
  | .ok () => .ok (new (.stock config.primary) config.reclaimOnRelease)

/-- Runs a step on the engine. -/
def onEngine {α : Type} (f : Engine → α × Engine) (r : Rehearsal) : α × Rehearsal :=
  let (a, desk) := r.desk.onEngine 0 f
  (a, { r with desk })

/-- Replaces the script; any other policy stays. -/
def setScript (lines : List ScriptLine) (r : Rehearsal) : Rehearsal :=
  (r.onEngine fun e =>
    match e.decider with
    | .stock _ | .custom _ => ((), e)
    | .script _ => ((), { e with decider := .script lines })).2

/-- Makes a plain commit without presenting it. -/
def create (version timestamp : UInt64) (r : Rehearsal) : Nat × Rehearsal :=
  let commit := Commit.plain version timestamp
  (r.desk.catalog.commits.length,
    { r with desk := { r.desk with catalog := r.desk.catalog.addCommit commit } })

/-- Presents some of the commits made so far. -/
def present (commits : List Nat) (r : Rehearsal) : Except Error Unit × Rehearsal :=
  let known := commits.filter fun n => decide (n < r.desk.catalog.commits.length)
  r.onEngine (Engine.decide known)

/-- Makes a commit, adds it to the history and presents that; deleted commits leave it. The
version of the commit is, unless given, the number of commits made so far plus one, and its
timestamp the number of its version. -/
def commit (version timestamp : Option UInt64) (r : Rehearsal) : Except Error Unit × Rehearsal :=
  let number := version.getD (UInt64.ofNat (r.desk.catalog.commits.length + 1))
  let (n, r) := r.create number (timestamp.getD number)
  let history := r.history ++ [n]
  let (result, r) := r.present history
  (result, { r with history := r.desk.catalog.undeleted history })

/-- Makes the deletion of a commit fail, or work again. -/
def setFaulty (commit : Nat) (faulty : Bool) (r : Rehearsal) : Rehearsal :=
  { r with desk := { r.desk with catalog := r.desk.catalog.setFaulty commit faulty } }

/-- Deletes a commit behind the keeper's back, if it exists. -/
def deleteRaw (commit : Nat) (r : Rehearsal) : Answer × Rehearsal :=
  if commit < r.desk.catalog.commits.length then
    let (result, catalog) := r.desk.catalog.delete commit
    (.ofResult result, { r with desk := { r.desk with catalog } })
  else (.nothing, r)

/-- Answers a request of a consumer. -/
def perform (ask : Ask) (r : Rehearsal) : Answer × Rehearsal :=
  let (answer, desk) := r.desk.perform ask
  (answer, { r with desk })

end Rehearsal

/-- A commit of a rehearsed history, with the switch that makes its deletion fail. -/
structure Rehearsed where
  version : UInt64
  timestamp : Timestamp
  faulty : Bool

/-- A plain commit whose deletion may be made to fail. -/
def Rehearsed.commit (c : Rehearsed) : Commit :=
  { Commit.plain c.version c.timestamp with backing := .plain c.faulty 0 }

/-- Tries a primary policy on plain commits: its outcome, and which of them it deleted. -/
def Primary.rehearse (p : Primary) (commits : List Rehearsed) : Except Error Unit × List Bool :=
  let catalog : Catalog := ⟨[], [], commits.map Rehearsed.commit⟩
  let numbers := List.range commits.length
  let (result, catalog) :=
    Engine.carryOutAllBare numbers (p.requests (catalog.shown numbers)) catalog
  (result, numbers.map catalog.isDeleted)

end SnapshotRetention
