import SnapshotRetention.Bytes.Basic

/-!
# The CRC-32 checksum

The reflected cyclic redundancy check with polynomial `0xEDB88320`, whose register starts as all
ones and is inverted at the end. A byte is fed by adding it to the low end of the register and
then dividing eight times by the polynomial.
-/

namespace SnapshotRetention.Bytes.Crc32

/-- The reflected generator polynomial. -/
def polynomial : UInt32 := 0xEDB88320

/-- One division step: the lowest bit leaves the register, and the polynomial is added if the
bit was set. -/
def shiftBit (register : UInt32) : UInt32 :=
  if register &&& 1 = 1 then (register >>> 1) ^^^ polynomial else register >>> 1

/-- Eight division steps. -/
def shiftByte (register : UInt32) : UInt32 :=
  shiftBit (shiftBit (shiftBit (shiftBit (shiftBit (shiftBit (shiftBit (shiftBit register)))))))

/-- The register after one more byte. -/
def feed (register : UInt32) (b : UInt8) : UInt32 :=
  shiftByte (register ^^^ b.toUInt32)

/-- The register after a byte string. -/
def run (register : UInt32) (bytes : Bytes) : UInt32 :=
  bytes.foldl feed register

/-- The checksum of a byte string. -/
def checksum (bytes : Bytes) : UInt32 :=
  run 0xFFFFFFFF bytes ^^^ 0xFFFFFFFF

theorem run_append (register : UInt32) (xs ys : Bytes) :
    run register (xs ++ ys) = run (run register xs) ys :=
  List.foldl_append

end SnapshotRetention.Bytes.Crc32
