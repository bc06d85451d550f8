/-!
# Rounded decimal text

A quotient of natural numbers is rounded to a fixed number of decimal places, a half going to
the even neighbour.
-/

namespace SnapshotRetention.Text

/-- The whole number nearest to `num / den`, a half going to the even neighbour. -/
def roundHalfEven (num den : Nat) : Nat :=
  let q := num / den
  let r := num % den
  if 2 * r < den then q
  else if den < 2 * r then q + 1
  else if q % 2 = 0 then q
  else q + 1

/-- A digit string widened with leading zeros to at least `width` digits. -/
def decimalPadded (width n : Nat) : String :=
  let digits := Nat.toDigits 10 n
  String.ofList (List.replicate (width - digits.length) '0' ++ digits)

/-- `num / den` with `places` decimal places after a point. -/
def fixedPlaces (places num den : Nat) : String :=
  let scaled := roundHalfEven (num * Nat.pow 10 places) den
  toString (scaled / Nat.pow 10 places) ++ "." ++
    decimalPadded places (scaled % Nat.pow 10 places)

end SnapshotRetention.Text
