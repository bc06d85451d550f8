import SnapshotRetention.Error
import SnapshotRetention.Retention.Age

/-!
# Primary policies

A primary policy looks at a history of commits, oldest first, and asks for some of them to be
deleted. It never sees more of a commit than its version and its timestamp. The stock policies
keep the newest commit, all commits, the last few, or those written not long before the newest.
-/

namespace SnapshotRetention

/-- What a primary policy sees of a commit. -/
structure Shown where
  version : Version
  timestamp : Timestamp
  deriving DecidableEq

/-- One thing that a primary policy asks for; commits are named by their position in the history. -/
inductive Request where
  /-- Delete a commit; if that fails, the cycle ends with its error. -/
  | delete (position : Nat)
  /-- Delete a commit and go on even if that fails. -/
  | attempt (position : Nat)
  /-- Release the snapshot handle in a slot. -/
  | release (slot : Nat)
  /-- Drop the snapshot handle in a slot. -/
  | drop (slot : Nat)
  /-- End the cycle with an error. -/
  | fail (error : Error)
  deriving DecidableEq

/-- The stock policies. -/
inductive Primary where
  | keepOnlyLast
  | keepAll
  | keepLast (count : Nat)
  | expireAfter (age : Age)
  deriving DecidableEq

namespace Primary

/-- How many commits a policy that was asked to keep `count` keeps: never none. -/
def keptCount (count : Nat) : Nat := max count 1

/-- Deletes everything but the last `keep` of `n` commits, oldest first. -/
def allButLast (keep n : Nat) : List Request :=
  (List.range (n - keep)).map .delete

/-- The largest age that timestamps can tell apart, in milliseconds. -/
def ageLimit (age : Age) : Nat := min age.milliseconds (UInt64.size - 1)

/-- The positions of the commits that are older than the newest by more than an age. -/
def expired (age : Age) (history : List Shown) : List Nat :=
  match history.getLast? with
  | none => []
  | some newest =>
    let cutoff := newest.timestamp.toNat - ageLimit age
    (List.range (history.length - 1)).filter fun i =>
      match history[i]? with
      | some shown => decide (shown.timestamp.toNat < cutoff)
      | none => false

/-- What a stock policy asks for when it is shown a history. -/
def requests (p : Primary) (history : List Shown) : List Request :=
  match p with
  | .keepAll => []
  | .keepOnlyLast => allButLast 1 history.length
  | .keepLast count => allButLast (keptCount count) history.length
  | .expireAfter age => (expired age history).map .delete

/-- A policy as configurations print it. -/
def text : Primary → String
  | .keepOnlyLast => "KeepOnlyLast"
  | .keepAll => "KeepAll"
  | .keepLast count => "KeepLast(" ++ toString count ++ ")"
  | .expireAfter age => "ExpireAfter(" ++ age.text ++ ")"

end Primary

/-! ## Scripts -/

/-- One line of a scripted policy. -/
inductive ScriptLine where
  /-- Delete every commit of a version. -/
  | delete (version : Version)
  | release (slot : Nat)
  | drop (slot : Nat)
  | fail (text : String)
  deriving DecidableEq

/-- The positions at which a history shows a version. -/
def positionsOf (version : Version) (history : List Shown) : List Nat :=
  (List.range history.length).filter fun i =>
    match history[i]? with
    | some shown => shown.version == version
    | none => false

/-- What a script line asks for when it is shown a history. -/
def ScriptLine.requests (history : List Shown) : ScriptLine → List Request
  | .delete version => (positionsOf version history).map .delete
  | .release slot => [.release slot]
  | .drop slot => [.drop slot]
  | .fail text => [.fail (.misuse (.scripted text))]

/-- What decides about a history. -/
inductive Decider where
  | stock (primary : Primary)
  | script (lines : List ScriptLine)
  /-- A policy of one's own; it may ask for anything. -/
  | custom (choose : List Shown → List Request)

/-- What a decider asks for when it is shown a history. -/
def Decider.requests (d : Decider) (history : List Shown) : List Request :=
  match d with
  | .stock primary => primary.requests history
  | .script lines => lines.flatMap (ScriptLine.requests history)
  | .custom choose => choose history

end SnapshotRetention
