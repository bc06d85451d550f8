import SnapshotRetention.Writer.Engine
import SnapshotRetention.Writer.History

/-!
# Opening a writer

A writer opens over whatever a store holds: it adopts the commits that the manifests describe,
deletes every artifact that none of them references, and presents the history to the policy. If
any of this fails there is no writer, but what was deleted by then stays deleted.
-/

namespace SnapshotRetention

namespace Catalog

/-- Adds the commit of a manifest to a depot and counts its references; its number comes back. -/
def adopt (depot : Nat) (m : Manifest) (c : Catalog) : Nat × Catalog :=
  (c.commits.length,
    (c.addCommit ⟨m, .artifacts depot, false⟩).setTracker depot
      ((c.tracker depot).incref m.fileNames))

/-- Adopts manifests in order; the numbers of their commits come back. -/
def adoptAll (depot : Nat) : List Manifest → Catalog → List Nat × Catalog
  | [], c => ([], c)
  | m :: ms, c =>
    let (n, c) := c.adopt depot m
    let (ns, c) := adoptAll depot ms c
    (n :: ns, c)

end Catalog

namespace Store

/-- Deletes those of some artifacts that are not kept, up to the first that fails. -/
def deleteStrays (kept : String → Bool) : List String → Store → Except StoreError Unit × Store
  | [], s => (.ok (), s)
  | name :: rest, s =>
    if kept name then deleteStrays kept rest s
    else
      match s.delete name with
      | (.error e, s) => (.error e, s)
      | (.ok (), s) => deleteStrays kept rest s

/-- Of some artifacts, those that `deleteStrays` starts to delete, in order. -/
def triedStrays (kept : String → Bool) : List String → Store → List String
  | [], _ => []
  | name :: rest, s =>
    if kept name then triedStrays kept rest s
    else
      match s.delete name with
      | (.error _, _) => [name]
      | (.ok (), s) => name :: triedStrays kept rest s

/-- Deletes the artifacts that are not kept. -/
def sweep (kept : String → Bool) (s : Store) : Except StoreError Unit × Store :=
  match s.list with
  | .error e => (.error e, s)
  | .ok names => s.deleteStrays kept names

/-- The artifacts that opening a writer over the store starts to delete, in order. -/
def openingStrays (s : Store) : List String :=
  match s.readCommits, s.list with
  | .ok manifests, .ok names =>
    let referenced := manifests.flatMap Manifest.fileNames
    s.triedStrays referenced.contains names
  | _, _ => []

end Store

namespace Writer

/-- The writer after the newest of some manifests, if its numbers can be followed. -/
def after (depot : Nat) (history : List Nat) (sync : Bool) (manifests : List Manifest) :
    Option Writer :=
  match manifests.getLast? with
  | none => some ⟨depot, history, ⟨1⟩, ⟨1⟩, 0, sync⟩
  | some last =>
    match last.version.next?, last.generation.next? with
    | some version, some generation =>
      some ⟨depot, history, version, generation, last.timestamp, sync⟩
    | _, _ => none

end Writer

namespace Engine

/-- Presents the history of a new writer to the policy and keeps what it leaves. -/
def presentHistory (w : Writer) (e : Engine) : Except Error Unit × Engine :=
  match w.history with
  | [] => (.ok (), { e with writer := some w })
  | history =>
    match e.decide history with
    | (.error err, e) => (.error err, e)
    | (.ok (), e) =>
      (.ok (), { e with writer := some { w with history := e.catalog.undeleted history } })

/-- Opens a writer over a store of the catalog, in place of the present one. -/
def openWriter (store : Nat) (sync : Bool) (e : Engine) : Except Error Unit × Engine :=
  let e := e.dropWriter
  match (e.catalog.store store).readCommits with
  | .error err => (.error err, e)
  | .ok manifests =>
    let depot := e.catalog.depots.length
    let (history, c) := (e.catalog.addDepot store).adoptAll depot manifests
    -- References are counted before the sweep, so that no artifact of a commit is a stray.
    let (swept, s) := (c.store store).sweep (c.tracker depot).isReferenced
    let e := e.setCatalog (c.setStore store s)
    match swept with
    | .error err => (.error (.store err), e)
    | .ok () =>
      match Writer.after depot history sync manifests with
      | none => (.error .counterOverflow, e)
      | some w => e.presentHistory w

end Engine

end SnapshotRetention
