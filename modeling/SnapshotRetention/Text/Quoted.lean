import SnapshotRetention.Text.Combining
import SnapshotRetention.Text.Hex
import SnapshotRetention.Text.Unprintable

/-!
# Quoted text

Names and paths in messages stand between double quotes, with everything that a reader could
not see or could mistake written as an escape: quotes and backslashes after a backslash, the
common controls by their letters, and every unprintable or combining character by its number.
An apostrophe stays as it is.
-/

namespace SnapshotRetention.Text

/-- Whether a code point lies in one of the ranges. -/
def inRanges (ranges : List (Nat × Nat)) (n : Nat) : Bool :=
  ranges.any fun r => decide (r.1 ≤ n) && decide (n ≤ r.2)

/-- Whether a character is written by its number: it is unprintable, or it would merge with
the character before it. Printable ASCII never is. -/
def needsNumber (c : Char) : Bool :=
  if 0x20 ≤ c.toNat ∧ c.toNat < 0x7f then false
  else inRanges unprintableRanges c.toNat || inRanges combiningRanges c.toNat

/-- A character by its number: a backslash, `u` and the hexadecimal digits in braces. -/
def numbered (c : Char) : List Char :=
  ['\\', 'u', '\x7b'] ++ (hex c.toNat).toList ++ ['\x7d']

/-- One character of quoted text. -/
def escapeChar (c : Char) : List Char :=
  if c = '"' then ['\\', '"']
  else if c = '\\' then ['\\', '\\']
  else if c = '\n' then ['\\', 'n']
  else if c = '\r' then ['\\', 'r']
  else if c = '\t' then ['\\', 't']
  else if c.toNat = 0 then ['\\', '0']
  else if needsNumber c then numbered c
  else [c]

/-- A name, path or message between double quotes. -/
def quoted (s : String) : String :=
  String.ofList ('"' :: s.toList.flatMap escapeChar ++ ['"'])

end SnapshotRetention.Text
