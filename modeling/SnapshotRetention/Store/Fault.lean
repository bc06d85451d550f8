import SnapshotRetention.Store.Error

/-!
# When accesses fail

A fault plan decides, before a store looks at its artifacts, whether an access fails. The most
general plan is a timetable: it may refuse any access for any name at any time, where time is
the number of writes, deletions and synchronisations so far.
-/

namespace SnapshotRetention.Store

/-- Which accesses of a store fail. -/
inductive FaultPlan where
  /-- None. -/
  | never
  /-- All writes while the first switch is on, all deletions while the second is. -/
  | switches (writes deletes : Bool)
  /-- Those listed with their name, or with `*` for every name. -/
  | listed (refused : List (Access × String))
  /-- Those that the timetable refuses. -/
  | timetable (refuses : Nat → Access → String → Bool)

namespace FaultPlan

/-- The name that stands for every name. -/
def anyName : String := "*"

/-- The fault that an access meets at a time, if any. -/
def fault? (plan : FaultPlan) (clock : Nat) (access : Access) (name : String) : Option IoFault :=
  match plan with
  | .never => none
  | .switches writes deletes =>
    match access with
    | .write => if writes then some (.injected access name) else none
    | .delete => if deletes then some (.injected access name) else none
    | .read | .exists | .list | .sync => none
  | .listed refused =>
    if refused.contains (access, name) || refused.contains (access, anyName) then
      some (.scripted access name)
    else none
  | .timetable refuses => if refuses clock access name then some (.injected access name) else none

/-- Turns a switch; plans without switches stay as they are. -/
def turn (access : Access) (on : Bool) : FaultPlan → FaultPlan
  | .switches writes deletes =>
    match access with
    | .write => .switches on deletes
    | .delete | .read | .exists | .list | .sync => .switches writes on
  | plan => plan

/-- Lists an access for some names, or takes it off the list; other plans stay as they are. -/
def relist (access : Access) (names : List String) (on : Bool) : FaultPlan → FaultPlan
  | .listed refused =>
    let rest := refused.filter fun e => !(e.1 == access && names.contains e.2)
    .listed (if on then names.map (fun name => (access, name)) ++ rest else rest)
  | plan => plan

end FaultPlan

end SnapshotRetention.Store
