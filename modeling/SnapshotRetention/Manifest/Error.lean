import SnapshotRetention.Manifest.Basic
import SnapshotRetention.Text.Hex

/-!
# Why a manifest is refused

The causes for which a manifest cannot be written or read, and their wording.
-/

namespace SnapshotRetention

/-- Why a manifest cannot be written or read. -/
inductive ManifestError where
  /-- There are more files than the count can hold. -/
  | tooManyFiles
  /-- A file name is longer than its length field can hold. -/
  | nameTooLong (name : String)
  | tooShort
  | badMagic
  | checksumMismatch (expected actual : UInt32)
  | unsupportedFormat (format : Nat)
  | truncatedEntry
  | truncatedName
  | notText
  | trailingBytes
  /-- A manifest of one generation was found under the name of another. -/
  | misplaced (found claimed : Generation)
  deriving DecidableEq

/-- What is wrong with a manifest, unless it is merely damaged. -/
def ManifestError.complaint? : ManifestError → Option String
  | .tooManyFiles => some "too many files in commit"
  | .nameTooLong name => some ("file name too long: " ++ name)
  | .tooShort => some "manifest too short"
  | .badMagic => some "invalid manifest magic"
  | .unsupportedFormat format => some ("unsupported manifest format: " ++ toString format)
  | .truncatedEntry => some "truncated file entry"
  | .truncatedName => some "truncated file name"
  | .notText => some "file name is not utf-8"
  | .trailingBytes => some "trailing bytes after file list"
  | .misplaced found claimed => some ("manifest " ++ found.text ++ " claims " ++ claimed.text)
  | .checksumMismatch .. => none

/-- A manifest error in words. -/
def ManifestError.message (e : ManifestError) : String :=
  match e with
  | .checksumMismatch expected actual =>
    "checksum mismatch: expected " ++ Text.hexPadded 8 expected.toNat ++
      ", got " ++ Text.hexPadded 8 actual.toNat
  | e => "invalid commit manifest: " ++ e.complaint?.getD ""

end SnapshotRetention
