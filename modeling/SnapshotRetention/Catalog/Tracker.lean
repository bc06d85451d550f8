import SnapshotRetention.Error
import SnapshotRetention.Store.Basic
import SnapshotRetention.Table.Lemmas

/-!
# Counting references to artifacts

A tracker counts how often each artifact is referenced and deletes it from the store when the
last reference goes. A deletion that fails is queued and tried again later; an artifact that is
already gone counts as deleted. Every due deletion is attempted even after a failure, and the
first failure is the one reported. That a count may not fit into a word is not modelled.
-/

namespace SnapshotRetention

/-- Reference counts and the deletions that still have to happen. -/
structure Tracker where
  /-- The counts, none of them zero. -/
  counts : Table String Nat
  /-- The artifacts whose deletion failed, oldest failure first. -/
  queue : List String

namespace Tracker

/-- A tracker without references. -/
def empty : Tracker := ⟨Table.empty, []⟩

instance : Inhabited Tracker := ⟨empty⟩

/-- How often an artifact is referenced. -/
def refCount (t : Tracker) (name : String) : Nat := (t.counts.get? name).getD 0

/-- Whether an artifact is referenced. -/
def isReferenced (t : Tracker) (name : String) : Bool := decide (0 < t.refCount name)

/-- Adds one reference. -/
def increment (name : String) (t : Tracker) : Tracker :=
  { t with counts := t.counts.insert name (t.refCount name + 1) }

/-- Adds one reference for each time a name is listed. -/
def incref (names : List String) (t : Tracker) : Tracker :=
  names.foldl (fun t name => t.increment name) t

/-- Takes one reference back; an artifact that is not tracked stays so. -/
def decrement (name : String) (t : Tracker) : Tracker :=
  match t.counts.get? name with
  | none => t
  | some count =>
    if 1 < count then { t with counts := t.counts.insert name (count - 1) }
    else { t with counts := t.counts.erase name }

/-- Whether taking one reference back takes the last one. -/
def isLast (t : Tracker) (name : String) : Bool :=
  match t.counts.get? name with
  | none => false
  | some count => decide (count ≤ 1)

/-- Takes one reference back for each time a name is listed; the names that lost their last one
come back in that order. -/
def discount : List String → Tracker → List String × Tracker
  | [], t => ([], t)
  | name :: names, t =>
    let (doomed, t') := discount names (t.decrement name)
    (if t.isLast name then name :: doomed else doomed, t')

/-- Queues an artifact whose deletion failed. -/
def enqueue (name : String) (t : Tracker) : Tracker := { t with queue := t.queue ++ [name] }

/-- Deletes one artifact, which may be gone already, and queues it if that fails. -/
def deleteOne (name : String) (t : Tracker) (s : Store) : Except Error Unit × Tracker × Store :=
  match s.delete name with
  | (.ok (), s) => (.ok (), t, s)
  | (.error (.notFound _), s) => (.ok (), t, s)
  | (.error e, s) => (.error (.store e), t.enqueue name, s)

/-- Of two outcomes in a row, the first failure. -/
def firstFailure (first second : Except Error Unit) : Except Error Unit :=
  match first with
  | .error e => .error e
  | .ok () => second

/-- Deletes artifacts in order, all of them whatever fails, and reports the first failure. -/
def deleteAll : List String → Tracker → Store → Except Error Unit × Tracker × Store
  | [], t, s => (.ok (), t, s)
  | name :: names, t, s =>
    let (first, t, s) := deleteOne name t s
    let (rest, t, s) := deleteAll names t s
    (firstFailure first rest, t, s)

/-- Takes one reference back for each time a name is listed and deletes what lost its last. -/
def decref (names : List String) (t : Tracker) (s : Store) : Except Error Unit × Tracker × Store :=
  let (doomed, t) := discount names t
  deleteAll doomed t s

/-- Tries the queued deletions again; what is referenced by now is no longer queued. -/
def retry (t : Tracker) (s : Store) : Except Error Unit × Tracker × Store :=
  deleteAll (t.queue.filter fun name => !t.isReferenced name) { t with queue := [] } s

/-- A tracker in words. -/
def text (t : Tracker) : String :=
  "FileDeleter \x7b tracked: " ++ toString t.counts.size ++
    ", pending: " ++ toString t.queue.length ++ " \x7d"

/-! ## Counts after each operation -/

theorem refCount_increment (name q : String) (t : Tracker) :
    (t.increment name).refCount q = t.refCount q + if q = name then 1 else 0 := by
  unfold increment refCount
  rw [Table.get?_insert]
  by_cases h : q = name
  · subst h; simp
  · simp [h]

theorem refCount_incref (names : List String) (q : String) (t : Tracker) :
    (t.incref names).refCount q = t.refCount q + names.count q := by
  induction names generalizing t with
  | nil => simp [incref]
  | cons name names ih =>
    show (incref names (t.increment name)).refCount q = _
    rw [ih, refCount_increment, List.count_cons]
    by_cases h : q = name
    · subst h; simp; omega
    · simp [h, Ne.symm h]

end Tracker

end SnapshotRetention
