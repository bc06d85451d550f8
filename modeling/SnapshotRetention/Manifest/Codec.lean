import SnapshotRetention.Bytes.Crc32
import SnapshotRetention.Bytes.LittleEndian
import SnapshotRetention.Manifest.Error

/-!
# Manifests as bytes

The body of a manifest is a magic number, a format number, the version, the generation, the
timestamp and the number of files, then for each file the length of its name and the name in
UTF-8; all numbers are little-endian. The checksum of the body follows it. `encode` writes format
1 and fails only if a count or a length does not fit its field; `decode` also reads format 0 and
checks, in this order, the least length, the magic number, the checksum, the format, the files and
that nothing follows them.
-/

namespace SnapshotRetention.Manifest

open Bytes (LittleEndian.encode LittleEndian.decode)

/-- The bytes every manifest starts with. -/
def magic : Bytes := [0x53, 0x4B, 0x43, 0x4D]

/-- The newest format. -/
def currentFormat : Nat := 1

/-- The size of everything before the files. -/
def headerSize : Nat := 34

/-- The size of the checksum. -/
def footerSize : Nat := 4

/-! ## Layout -/

/-- The entry of one file: the length of its name, then the name. -/
def entryBytes (name : String) : Bytes :=
  LittleEndian.encode 2 name.utf8ByteSize ++ Bytes.ofText name

/-- The bytes before the files. -/
def headerBytes (format : Nat) (m : Manifest) : Bytes :=
  magic ++ LittleEndian.encode 2 format ++ LittleEndian.encode 8 m.version.number.toNat ++
    LittleEndian.encode 8 m.generation.number.toNat ++ LittleEndian.encode 8 m.timestamp.toNat ++
    LittleEndian.encode 4 m.files.length

/-- The body of a manifest in a given format. -/
def bodyBytes (format : Nat) (m : Manifest) : Bytes :=
  headerBytes format m ++ m.files.flatMap entryBytes

/-- A body followed by its checksum. -/
def withChecksum (body : Bytes) : Bytes :=
  body ++ LittleEndian.encode footerSize (Bytes.Crc32.checksum body).toNat

/-! ## Writing -/

/-- The first file name too long for its length field. -/
def oversizedName? (m : Manifest) : Option String :=
  m.files.find? fun name => decide (UInt16.size ≤ name.utf8ByteSize)

/-- The manifest as bytes. -/
def encode (m : Manifest) : Except ManifestError Bytes :=
  if UInt32.size ≤ m.files.length then .error .tooManyFiles
  else
    match m.oversizedName? with
    | some name => .error (.nameTooLong name)
    | none => .ok (withChecksum (m.bodyBytes currentFormat))

/-! ## Reading -/

/-- Reads one file entry. -/
def readEntry (bytes : Bytes) : Except ManifestError (String × Bytes) :=
  match Bytes.split? 2 bytes with
  | none => .error .truncatedEntry
  | some (lengthField, rest) =>
    match Bytes.split? (LittleEndian.decode lengthField) rest with
    | none => .error .truncatedName
    | some (front, rest) =>
      match Bytes.text? front with
      | none => .error .notText
      | some name => .ok (name, rest)

/-- Reads a number of file entries. -/
def readEntries : Nat → Bytes → Except ManifestError (List String × Bytes)
  | 0, bytes => .ok ([], bytes)
  | n + 1, bytes =>
    match readEntry bytes with
    | .error e => .error e
    | .ok (name, rest) =>
      match readEntries n rest with
      | .error e => .error e
      | .ok (names, rest) => .ok (name :: names, rest)

/-- A 64-bit field at an offset. -/
def wordAt (offset : Nat) (bytes : Bytes) : UInt64 :=
  UInt64.ofNat (LittleEndian.decode ((bytes.drop offset).take 8))

/-- Reads a body that starts with the magic number and is at least as long as a header. -/
def decodeBody (body : Bytes) : Except ManifestError Manifest :=
  let format := LittleEndian.decode ((body.drop 4).take 2)
  if currentFormat < format then .error (.unsupportedFormat format)
  else
    match readEntries (LittleEndian.decode ((body.drop 30).take 4)) (body.drop headerSize) with
    | .error e => .error e
    | .ok (files, rest) =>
      if rest ≠ [] then .error .trailingBytes
      else .ok ⟨⟨wordAt 6 body⟩, ⟨wordAt 14 body⟩, wordAt 22 body, files⟩

/-- The manifest that the bytes describe. -/
def decode (bytes : Bytes) : Except ManifestError Manifest :=
  if bytes.length < headerSize + footerSize then .error .tooShort
  else if bytes.take 4 ≠ magic then .error .badMagic
  else
    let body := bytes.take (bytes.length - footerSize)
    let expected := UInt32.ofNat (LittleEndian.decode (bytes.drop (bytes.length - footerSize)))
    let actual := Bytes.Crc32.checksum body
    if expected ≠ actual then .error (.checksumMismatch expected actual)
    else decodeBody body

end SnapshotRetention.Manifest
