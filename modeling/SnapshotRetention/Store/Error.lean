import SnapshotRetention.Text.Quoted

/-!
# Why a store refuses

`StoreError` is the cause of a failed store access and `IoFault` the cause of a failed
input-output operation below it. `StoreError.message` is the one place that words them.
-/

namespace SnapshotRetention

/-- The ways to access a store. -/
inductive Access where
  | write | read | delete | exists | list | sync
  deriving DecidableEq

/-- The word for an access in messages. -/
def Access.word : Access → String
  | .write => "write"
  | .read => "read"
  | .delete => "delete"
  | .exists => "exists"
  | .list => "list"
  | .sync => "sync"

/-- The faults that the operating system reports. -/
inductive SystemFault where
  | missing
  | exists
  | notDirectory
  | isDirectory
  | nameTooLong
  deriving DecidableEq

namespace SystemFault

/-- The number of a fault. -/
def code : SystemFault → Nat
  | .missing => 2
  | .exists => 17
  | .notDirectory => 20
  | .isDirectory => 21
  | .nameTooLong => 36

/-- The class of a fault. -/
def kind : SystemFault → String
  | .missing => "NotFound"
  | .exists => "AlreadyExists"
  | .notDirectory => "NotADirectory"
  | .isDirectory => "IsADirectory"
  | .nameTooLong => "InvalidFilename"

/-- The wording of a fault. -/
def text : SystemFault → String
  | .missing => "No such file or directory"
  | .exists => "File exists"
  | .notDirectory => "Not a directory"
  | .isDirectory => "Is a directory"
  | .nameTooLong => "File name too long"

/-- A fault in words, its number last. -/
def message (fault : SystemFault) : String :=
  fault.text ++ " (os error " ++ toString fault.code ++ ")"

end SystemFault

/-- Why an input-output operation failed. -/
inductive IoFault where
  /-- A switch that makes every access of one kind fail was on. -/
  | injected (access : Access) (name : String)
  /-- The access was set to fail for this name. -/
  | scripted (access : Access) (name : String)
  /-- The disk under a commit without artifacts is gone; commits are named by their number. -/
  | diskGone (number : UInt64)
  /-- The operating system refused. -/
  | system (fault : SystemFault)
  deriving DecidableEq

/-- A fault in words. -/
def IoFault.message : IoFault → String
  | .injected access name => "injected " ++ access.word ++ " failure for " ++ name
  | .scripted access name => "scripted " ++ access.word ++ " failure for " ++ name
  | .diskGone number => "disk gone for " ++ toString number
  | .system fault => fault.message

/-- Why a store access failed. -/
inductive StoreError where
  | notFound (name : String)
  | alreadyExists (name : String)
  | invalidName (name : String)
  | io (fault : IoFault)
  deriving DecidableEq

/-- A store error in words. -/
def StoreError.message : StoreError → String
  | .notFound name => "artifact not found: " ++ name
  | .alreadyExists name => "artifact already exists: " ++ name
  | .invalidName name => "invalid artifact name: " ++ Text.quoted name
  | .io fault => "I/O error: " ++ fault.message

end SnapshotRetention
