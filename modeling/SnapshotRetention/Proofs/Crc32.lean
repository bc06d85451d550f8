import Mathlib.Data.Nat.Bitwise
import Mathlib.Order.Monotone.Basic
import SnapshotRetention.Bytes.Crc32
import SnapshotRetention.Bytes.LittleEndian

/-!
# The checksum tells bursts apart

Two messages of the same length that differ, but only within four bytes that stand together, leave
different registers (`eq_of_run_eq`), whatever stands before and behind. A message and its checksum
leave a register that does not depend on the message (`run_checksum`).

A division step is linear over sums without carry (`shiftBit_xor`) and loses nothing
(`eq_zero_of_shiftBit`), since the highest bit of the polynomial takes the place of the bit that
leaves. So it is injective, and so are shifts by bytes. As long as a register has only been shifted
by as many bytes as are fed, feeding them one by one is adding the number that they stand for at
once (`run_eq_iterate`).
-/

namespace SnapshotRetention.Bytes.Crc32
open LittleEndian (encode decode)

variable {a r : UInt32} {xs ys : Bytes}

/-! ## Division steps -/

/-- The bit that leaves the register is its parity. -/
theorem and_one_eq_one_iff (r : UInt32) : r &&& 1 = 1 ↔ r.toNat % 2 = 1 := by
  rw [← UInt32.toNat_inj, UInt32.toNat_and]
  exact Nat.and_one_is_mod r.toNat ▸ Iff.rfl

theorem shiftBit_odd (h : r.toNat % 2 = 1) : shiftBit r = (r >>> 1) ^^^ polynomial := by
  unfold shiftBit
  rw [if_pos ((and_one_eq_one_iff r).mpr h)]

theorem shiftBit_even (h : r.toNat % 2 = 0) : shiftBit r = r >>> 1 := by
  unfold shiftBit
  rw [if_neg fun hodd => by rw [and_one_eq_one_iff] at hodd; omega]

theorem toNat_shiftRight_one (r : UInt32) : (r >>> 1).toNat = r.toNat / 2 := by
  rw [UInt32.toNat_shiftRight]
  exact Nat.shiftRight_one r.toNat

/-- A division step is linear: sums are without carry. -/
theorem shiftBit_xor (a b : UInt32) : shiftBit (a ^^^ b) = shiftBit a ^^^ shiftBit b := by
  have hparity : (a ^^^ b).toNat % 2 = (a.toNat + b.toNat) % 2 := by
    rw [UInt32.toNat_xor, Nat.xor_mod_two_eq]
  have hsum : (a ^^^ b) >>> 1 = (a >>> 1) ^^^ (b >>> 1) := UInt32.shiftRight_xor
  rcases Nat.mod_two_eq_zero_or_one a.toNat with ha | ha
  · rcases Nat.mod_two_eq_zero_or_one b.toNat with hb | hb
    · rw [shiftBit_even ha, shiftBit_even hb, shiftBit_even (by omega), hsum]
    · rw [shiftBit_even ha, shiftBit_odd hb, shiftBit_odd (by omega), hsum, UInt32.xor_assoc]
  · rcases Nat.mod_two_eq_zero_or_one b.toNat with hb | hb
    · rw [shiftBit_odd ha, shiftBit_even hb, shiftBit_odd (by omega), hsum]
      ac_rfl
    · -- the polynomial is added twice
      rw [shiftBit_odd ha, shiftBit_odd hb, shiftBit_even (by omega), hsum]
      have hcancel : polynomial ^^^ (b >>> 1 ^^^ polynomial) = b >>> 1 := by
        rw [UInt32.xor_comm, UInt32.xor_assoc, UInt32.xor_self, UInt32.xor_zero]
      rw [UInt32.xor_assoc, hcancel]

/-- The polynomial sets the highest bit, which a shift leaves free, so that no step loses the bit
that leaves the register. -/
theorem eq_zero_of_shiftBit (h : shiftBit r = 0) : r = 0 := by
  have hlt := r.toNat_lt
  have hhalf := toNat_shiftRight_one r
  rcases Nat.mod_two_eq_zero_or_one r.toNat with heven | hodd
  · rw [shiftBit_even heven] at h
    have hzero : r.toNat / 2 = 0 := by rw [← hhalf, h]; rfl
    apply UInt32.toNat_inj.mp
    show r.toNat = 0
    omega
  · rw [shiftBit_odd hodd] at h
    have heq : r.toNat / 2 = polynomial.toNat := by
      rw [← hhalf, UInt32.xor_eq_zero_iff.mp h]
    have hhigh : 2 ^ 31 ≤ polynomial.toNat := by decide
    omega

theorem shiftByte_xor (a b : UInt32) : shiftByte (a ^^^ b) = shiftByte a ^^^ shiftByte b := by
  unfold shiftByte
  simp only [shiftBit_xor]

theorem shiftByte_injective : Function.Injective shiftByte := by
  intro a b h
  apply UInt32.xor_eq_zero_iff.mp
  have hzero : shiftByte (a ^^^ b) = 0 := by rw [shiftByte_xor, h, UInt32.xor_self]
  unfold shiftByte at hzero
  iterate 8 replace hzero := eq_zero_of_shiftBit hzero
  exact hzero

/-- A multiple of a power of two is divided by it, as no bit is set that leaves the register. -/
theorem iterate_shiftBit {n : Nat} (h : r.toNat = 2 ^ n * a.toNat) : shiftBit^[n] r = a := by
  induction n generalizing r with
  | zero =>
    apply UInt32.toNat_inj.mp
    simpa using h
  | succ n ih =>
    rw [Nat.pow_succ', Nat.mul_assoc] at h
    rw [Function.iterate_succ_apply, shiftBit_even (by omega)]
    apply ih
    rw [toNat_shiftRight_one]
    omega

theorem shiftByte_multiple (h : r.toNat = 256 * a.toNat) : shiftByte r = a :=
  iterate_shiftBit (n := 8) h

/-! ## A few bytes at once -/

/-- The number that a byte string stands for, as a register. -/
def word (bytes : Bytes) : UInt32 := UInt32.ofNat (decode bytes)

theorem capacity_mono : Monotone LittleEndian.capacity :=
  monotone_nat_of_le_succ fun n => by
    show LittleEndian.capacity n ≤ 256 * LittleEndian.capacity n
    omega

theorem decode_lt_capacity {n : Nat} (h : xs.length ≤ n) :
    decode xs < LittleEndian.capacity n :=
  Nat.lt_of_lt_of_le (LittleEndian.decode_lt xs) (capacity_mono h)

theorem toNat_word (h : xs.length ≤ 4) : (word xs).toNat = decode xs :=
  UInt32.toNat_ofNat_of_lt' (decode_lt_capacity h)

theorem word_encode (c : UInt32) : word (encode 4 c.toNat) = c := by
  unfold word
  rw [LittleEndian.decode_encode (show c.toNat < LittleEndian.capacity 4 from c.toNat_lt),
    UInt32.ofNat_toNat]

/-- Few enough bytes are told apart by the number that they stand for. -/
theorem eq_of_word_eq (hlength : ys.length = xs.length) (h : xs.length ≤ 4)
    (hword : word ys = word xs) : ys = xs := by
  have hdecode : decode ys = decode xs := by
    rw [← toNat_word h, ← toNat_word (hlength ▸ h), hword]
  rw [← LittleEndian.encode_decode ys, ← LittleEndian.encode_decode xs, hlength, hdecode]

/-- A byte and a multiple of 256 have no bits in common. -/
theorem xor_multiple {b n : Nat} (h : b < 2 ^ 8) : b ^^^ 2 ^ 8 * n = b + 2 ^ 8 * n := by
  apply Nat.eq_of_testBit_eq
  intro i
  rw [Nat.testBit_xor, Nat.add_comm, Nat.testBit_two_pow_mul_add n h, Nat.testBit_two_pow_mul]
  by_cases hi : i < 8
  · rw [if_pos hi, decide_eq_false (by omega), Bool.false_and, Bool.xor_false]
  · have hhigh : b.testBit i = false :=
      Nat.testBit_lt_two_pow (Nat.lt_of_lt_of_le h (Nat.pow_le_pow_right (by omega) (by omega)))
    rw [if_neg hi, decide_eq_true (by omega), hhigh, Bool.true_and, Bool.false_xor]

theorem word_cons {b : UInt8} (h : xs.length ≤ 3) :
    word (b :: xs) = b.toUInt32 ^^^ UInt32.ofNat (256 * decode xs) := by
  have hsmall : decode xs < 2 ^ 24 := decode_lt_capacity h
  have hb := b.toNat_lt
  apply UInt32.toNat_inj.mp
  rw [toNat_word (show (b :: xs).length ≤ 4 from Nat.succ_le_succ h), UInt32.toNat_xor,
    UInt8.toNat_toUInt32, UInt32.toNat_ofNat_of_lt' (by unfold UInt32.size; omega)]
  exact (xor_multiple hb).symm

/-- The register after a few bytes: they are added to it, then it is shifted by as many bytes. -/
theorem run_eq_iterate (r : UInt32) (h : xs.length ≤ 4) :
    run r xs = shiftByte^[xs.length] (r ^^^ word xs) := by
  induction xs generalizing r with
  | nil => exact (UInt32.xor_zero).symm
  | cons b xs ih =>
    have hrest : xs.length ≤ 3 := Nat.le_of_succ_le_succ h
    have hsmall : decode xs < 2 ^ 24 := decode_lt_capacity hrest
    -- what the other bytes stand for has been shifted down by a byte when they are added
    have hshift : shiftByte (UInt32.ofNat (256 * decode xs)) = word xs := by
      apply shiftByte_multiple
      rw [toNat_word (by omega), UInt32.toNat_ofNat_of_lt' (by unfold UInt32.size; omega)]
    calc run r (b :: xs) = shiftByte^[xs.length] (feed r b ^^^ word xs) := ih (feed r b) (by omega)
      _ = shiftByte^[xs.length] (shiftByte (r ^^^ word (b :: xs))) := by
        rw [word_cons hrest, ← UInt32.xor_assoc, shiftByte_xor, hshift]
        rfl

theorem feed_injective (b : UInt8) : Function.Injective (feed · b) := by
  intro a c h
  have hadded := shiftByte_injective h
  simpa using hadded

theorem run_injective (xs : Bytes) : Function.Injective (run · xs) := by
  induction xs with
  | nil => exact fun a c h => h
  | cons b xs ih => exact fun a c h => feed_injective b (ih h)

/-- Two messages of the same length that differ within four bytes leave different registers. -/
theorem eq_of_run_eq (front rest : Bytes) (hlength : ys.length = xs.length) (h : xs.length ≤ 4)
    (hrun : run r (front ++ ys ++ rest) = run r (front ++ xs ++ rest)) : ys = xs := by
  rw [run_append, run_append, run_append, run_append] at hrun
  have hwindow : run (run r front) ys = run (run r front) xs := run_injective rest hrun
  rw [run_eq_iterate _ h, run_eq_iterate _ (hlength ▸ h), hlength] at hwindow
  have hadded := shiftByte_injective.iterate _ hwindow
  exact eq_of_word_eq hlength h (by simpa using hadded)

/-! ## The residue -/

/-- The register after any message and its checksum. -/
def residue : UInt32 := shiftByte^[4] 0xFFFFFFFF

theorem run_checksum (body : Bytes) :
    run 0xFFFFFFFF (body ++ encode 4 (checksum body).toNat) = residue := by
  rw [run_append, run_eq_iterate _ (by simp), LittleEndian.length_encode, word_encode]
  unfold checksum residue
  rw [← UInt32.xor_assoc, UInt32.xor_self, UInt32.zero_xor]

end SnapshotRetention.Bytes.Crc32
