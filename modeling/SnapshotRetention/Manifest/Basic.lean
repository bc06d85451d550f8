import SnapshotRetention.Version

/-!
# Manifests

A manifest describes one commit: its version, its generation, the time it was written and the
data artifacts it consists of. It is itself an artifact, named for its generation. Every name
with the same beginning is reserved for manifests; of these, the ones that end in the decimal
digits of a 64-bit number are read as naming a generation, leading zeros included.
-/

namespace SnapshotRetention

/-- Milliseconds since the start of the Unix epoch. -/
abbrev Timestamp := UInt64

/-- The description of one commit. -/
structure Manifest where
  version : Version
  generation : Generation
  /-- When the commit was written. -/
  timestamp : Timestamp
  /-- The names of the data artifacts; the manifest itself is not among them. -/
  files : List String
  deriving DecidableEq, Inhabited

namespace Manifest

/-- How the names of manifests begin. -/
def reservedStart : String := "commit_"

/-- Whether a name is reserved for manifests. -/
def isReserved (name : String) : Bool :=
  reservedStart.toList.isPrefixOf name.toList

/-- The name of the manifest of a generation. -/
def nameOf (g : Generation) : String := reservedStart ++ toString g.number

/-- The generation that the digits after the reserved start stand for. -/
def generationOfDigits? (digits : List Char) : Option Generation :=
  if digits ≠ [] ∧ digits.all Char.isDigit then
    let n := Nat.ofDigitChars 10 digits 0
    if n < UInt64.size then some ⟨UInt64.ofNat n⟩ else none
  else none

/-- The generation that a name is read as naming. -/
def generationOf? (name : String) : Option Generation :=
  if isReserved name then generationOfDigits? (name.toList.drop reservedStart.length) else none

/-- The artifact name of a manifest. -/
def name (m : Manifest) : String := nameOf m.generation

/-- The names of everything a commit consists of: its data artifacts, then its manifest. -/
def fileNames (m : Manifest) : List String := m.files ++ [m.name]

end Manifest

end SnapshotRetention
