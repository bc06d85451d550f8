import SnapshotRetention.Table.Lemmas
import SnapshotRetention.Version

/-!
# Holds

For each version that a snapshot holds, the hold table counts the snapshots and remembers a
deletion that waits for the last of them to go. Versions without snapshots have no entry. That a
count may not fit into a word is not modelled.
-/

namespace SnapshotRetention

instance : KeyOrder Version where
  lt_irrefl v := UInt64.lt_irrefl v.number
  lt_trans h k := UInt64.lt_trans h k
  lt_trichotomy v w := by
    rcases Std.lt_trichotomy v.number w.number with h | h | h
    · exact Or.inl h
    · exact Or.inr (Or.inl (Version.ext_number h))
    · exact Or.inr (Or.inr h)

/-- What holds a version. -/
structure Hold where
  /-- The number of snapshots. -/
  count : Nat
  /-- The commit to delete when the last snapshot goes. -/
  pending : Option Nat
  deriving DecidableEq

/-- What giving up one hold did. -/
inductive Unhold where
  /-- The version was not held. -/
  | unknown
  /-- Other holds remain. -/
  | held (remaining : Nat)
  /-- It was the last hold; a deletion may have waited for it. -/
  | freed (pending : Option Nat)
  deriving DecidableEq

/-- The holds of all versions. -/
abbrev HoldTable := Table Version Hold

namespace HoldTable

/-- How many snapshots hold a version. -/
def count (t : HoldTable) (v : Version) : Nat := ((t.get? v).map Hold.count).getD 0

/-- Whether a deletion waits for the holds of a version. -/
def hasPending (t : HoldTable) (v : Version) : Bool :=
  (((t.get? v).bind Hold.pending)).isSome

/-- Whether a version is held. -/
def isHeld (t : HoldTable) (v : Version) : Bool := decide (0 < t.count v)

/-- One more hold of a version. -/
def acquire (v : Version) (t : HoldTable) : HoldTable :=
  match t.get? v with
  | none => t.insert v ⟨1, none⟩
  | some hold => t.insert v { hold with count := hold.count + 1 }

/-- One hold of a version less. -/
def release (v : Version) (t : HoldTable) : Unhold × HoldTable :=
  match t.get? v with
  | none => (.unknown, t)
  | some hold =>
    match hold.count with
    | 0 => (.unknown, t.erase v)
    | 1 => (.freed hold.pending, t.erase v)
    | n + 2 => (.held (n + 1), t.insert v { hold with count := n + 1 })

/-- Makes the deletion of a commit wait for the holds of its version. -/
def setPending (v : Version) (commit : Nat) (t : HoldTable) : HoldTable :=
  match t.get? v with
  | none => t
  | some hold => t.insert v { hold with pending := some commit }

/-- Calls off the deletion that waits for the holds of a version. -/
def clearPending (v : Version) (t : HoldTable) : HoldTable :=
  match t.get? v with
  | none => t
  | some hold => t.insert v { hold with pending := none }

/-- The number of entries without a hold. -/
def strayCount (t : HoldTable) : Nat :=
  (t.entries.filter fun e => decide (e.2.count = 0)).length

/-- The table without entries that have no hold. -/
def sweep (t : HoldTable) : HoldTable := t.filter fun _ hold => decide (0 < hold.count)

/-- The held versions, ascending. -/
def versions (t : HoldTable) : List Version :=
  (t.entries.filter fun e => decide (0 < e.2.count)).map Prod.fst

end HoldTable

end SnapshotRetention
