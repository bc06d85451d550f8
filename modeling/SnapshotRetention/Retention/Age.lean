import SnapshotRetention.Text.Rounded

/-!
# Ages

A length of time in nanoseconds. Its text uses the largest of the units second, millisecond,
microsecond and nanosecond that the age reaches, with as many decimal places as it needs.
-/

namespace SnapshotRetention

/-- A length of time. -/
structure Age where
  nanoseconds : Nat
  deriving DecidableEq, Inhabited

namespace Age

/-- An age of whole milliseconds. -/
def ofMilliseconds (n : Nat) : Age := ⟨n * 1000000⟩

/-- An age of seconds and nanoseconds, if its whole seconds fit in 64 bits. -/
def ofParts? (seconds nanoseconds : Nat) : Option Age :=
  if seconds + nanoseconds / 1000000000 < UInt64.size then
    some ⟨seconds * 1000000000 + nanoseconds⟩
  else none

/-- The whole seconds of an age. -/
def seconds (a : Age) : Nat := a.nanoseconds / 1000000000

/-- The whole milliseconds of an age. -/
def milliseconds (a : Age) : Nat := a.nanoseconds / 1000000

/-- An age in a unit of `10 ^ places` nanoseconds, without trailing zeros. -/
def textIn (places : Nat) (unit : String) (a : Age) : String :=
  let fraction := Text.decimalPadded places (a.nanoseconds % Nat.pow 10 places)
  let digits := (fraction.toList.reverse.dropWhile fun c => c == '0').reverse
  toString (a.nanoseconds / Nat.pow 10 places) ++
    (if digits.isEmpty then "" else "." ++ String.ofList digits) ++ unit

/-- An age in words. -/
def text (a : Age) : String :=
  if 1000000000 ≤ a.nanoseconds then a.textIn 9 "s"
  else if 1000000 ≤ a.nanoseconds then a.textIn 6 "ms"
  else if 1000 ≤ a.nanoseconds then a.textIn 3 "µs"
  else toString a.nanoseconds ++ "ns"

end Age

end SnapshotRetention
