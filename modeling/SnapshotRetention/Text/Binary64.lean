/-!
# The exact value of a binary word

A 64-bit floating-point word that is not negative stands for `significand * 2 ^ shift / 2 ^ 1074`.
Its exact value as a quotient of natural numbers lets a printer round it once.
-/

namespace SnapshotRetention.Text.Binary64

/-- The stored exponent of a word: its eleven bits above the fraction. -/
def exponent (word : Nat) : Nat :=
  (word >>> 52) % 2048

/-- The stored fraction of a word: its lowest 52 bits. -/
def fraction (word : Nat) : Nat :=
  word % (1 <<< 52)

/-- The significand of a finite word: the fraction, with the hidden leading bit unless
the word is subnormal. -/
def significand (word : Nat) : Nat :=
  if exponent word = 0 then fraction word else (1 <<< 52) + fraction word

/-- How many places the significand is shifted left from the smallest subnormal unit. -/
def shift (word : Nat) : Nat :=
  exponent word - 1

/-- The numerator of a word's value over `2 ^ 1074`. -/
def numerator (word : Nat) : Nat :=
  significand word <<< shift word

/-- The denominator shared by all words. -/
def denominator : Nat := 1 <<< 1074

end SnapshotRetention.Text.Binary64
