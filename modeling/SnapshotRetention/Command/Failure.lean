import SnapshotRetention.Error
import SnapshotRetention.Text.Quoted

/-!
# How commands fail

A command fails with a message of its own or with the cause of a failed operation. On the command
line a failure is shown in its structured form: the name of the cause with its fields in braces,
texts between quotes.
-/

namespace SnapshotRetention

/-- Why a command failed. -/
inductive Failure where
  | message (text : String)
  | error (cause : Error)
  | store (cause : StoreError)
  | system (fault : SystemFault)
  deriving DecidableEq

/-- A failure in words. -/
def Failure.words : Failure → String
  | .message text => text
  | .error cause => cause.message
  | .store cause => cause.message
  | .system fault => fault.message

/-! ## Structured forms -/

/-- A name with fields in braces. -/
def record (name : String) (fields : List (String × String)) : String :=
  name ++ " \x7b " ++ ", ".intercalate (fields.map fun f => f.1 ++ ": " ++ f.2) ++ " \x7d"

/-- A name with one text field. -/
def textRecord (name field value : String) : String := record name [(field, Text.quoted value)]

/-- A fault of the operating system in structured form. -/
def SystemFault.structured (fault : SystemFault) : String :=
  record "Os" [("code", toString fault.code), ("kind", fault.kind),
    ("message", Text.quoted fault.text)]

/-- A fault in structured form. -/
def IoFault.structured : IoFault → String
  | .system fault => fault.structured
  | fault => record "Custom" [("kind", "Other"), ("error", Text.quoted fault.message)]

/-- A store error in structured form. -/
def StoreError.structured : StoreError → String
  | .notFound name => textRecord "NotFound" "name" name
  | .alreadyExists name => textRecord "AlreadyExists" "name" name
  | .invalidName name => textRecord "InvalidName" "name" name
  | .io fault => "Io(" ++ fault.structured ++ ")"

/-- A manifest error in structured form. -/
def ManifestError.structured : ManifestError → String
  | .checksumMismatch expected actual =>
    record "ChecksumMismatch" [("expected", toString expected), ("actual", toString actual)]
  | e => textRecord "InvalidFormat" "message" (e.complaint?.getD "")

/-- An error in structured form. -/
def Error.structured : Error → String
  | .store cause => "Storage(" ++ cause.structured ++ ")"
  | .io fault => "Io(" ++ fault.structured ++ ")"
  | .notInitialized => "NotInitialized"
  | .noLiveCommits cycle => record "NoLiveCommits" [("generation", toString cycle)]
  | .commitReleased version =>
    record "CommitReleased" [("version", "CommitVersion(" ++ toString version.number ++ ")")]
  | .manifest cause => cause.structured
  | .outOfOrder generation =>
    record "OutOfOrder" [("generation", "Generation(" ++ toString generation.number ++ ")")]
  | .illegalShardState access state =>
    record "IllegalShardState" [("state", state.label), ("operation", Text.quoted access.word)]
  | .misuse cause => textRecord "InvalidOperation" "message" cause.message
  | .config cause => textRecord "InvalidConfig" "message" cause.message
  | .counterOverflow => Text.quoted (Error.message .counterOverflow)

/-- A failure in structured form. -/
def Failure.structured : Failure → String
  | .message text => Text.quoted text
  | .error cause => cause.structured
  | .store cause => cause.structured
  | .system fault => fault.structured

end SnapshotRetention
