/-!
# Hexadecimal text

Numbers and byte strings in base sixteen, with the digits `0` to `9` and `a` to `f`.
`hexPadded` widens a number with leading zeros; `bytesHex` gives every byte two digits.
-/

namespace SnapshotRetention.Text

/-- A number in base sixteen, without leading zeros. -/
def hex (n : Nat) : String :=
  String.ofList (Nat.toDigits 16 n)

/-- A number in base sixteen with at least `width` digits. -/
def hexPadded (width n : Nat) : String :=
  let digits := Nat.toDigits 16 n
  String.ofList (List.replicate (width - digits.length) '0' ++ digits)

/-- The two digits of one byte, the high one first. -/
def byteDigits (b : UInt8) : List Char :=
  [Nat.digitChar (b.toNat / 16), Nat.digitChar (b.toNat % 16)]

/-- A byte string in base sixteen, in the order of its bytes. -/
def bytesHex (bytes : List UInt8) : String :=
  String.ofList (bytes.flatMap byteDigits)

end SnapshotRetention.Text
