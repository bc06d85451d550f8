import SnapshotRetention.Bytes.Basic

/-!
# Little-endian numbers

A number in a fixed count of bytes, the low byte first. Reading gives the number back when it
fits (`decode_encode`), and a byte string is the form of the number it reads as
(`encode_decode`).
-/

namespace SnapshotRetention.Bytes.LittleEndian

/-- The low `width` bytes of a number, the lowest first. -/
def encode : Nat → Nat → Bytes
  | 0, _ => []
  | width + 1, n => UInt8.ofNat n :: encode width (n / 256)

/-- The number that a byte string stands for. -/
def decode : Bytes → Nat
  | [] => 0
  | b :: bytes => b.toNat + 256 * decode bytes

/-- How many numbers have a form of `width` bytes. -/
def capacity : Nat → Nat
  | 0 => 1
  | width + 1 => 256 * capacity width

@[simp] theorem length_encode (width n : Nat) : (encode width n).length = width := by
  induction width generalizing n with
  | zero => rfl
  | succ width ih => simp [encode, ih]

theorem decode_lt (bytes : Bytes) : decode bytes < capacity bytes.length := by
  induction bytes with
  | nil => simp [decode, capacity]
  | cons b bytes ih =>
    have hb := b.toNat_lt
    simp only [decode, List.length_cons, capacity]
    omega

theorem decode_encode {width n : Nat} (h : n < capacity width) : decode (encode width n) = n := by
  induction width generalizing n with
  | zero =>
    simp only [capacity, Nat.lt_one_iff] at h
    simp [encode, decode, h]
  | succ width ih =>
    have hdiv : n / 256 < capacity width := Nat.div_lt_of_lt_mul h
    simp only [encode, decode, ih hdiv, UInt8.toNat_ofNat']
    omega

theorem encode_decode (bytes : Bytes) : encode bytes.length (decode bytes) = bytes := by
  induction bytes with
  | nil => rfl
  | cons b bytes ih =>
    have hb := b.toNat_lt
    have hdiv : (b.toNat + 256 * decode bytes) / 256 = decode bytes := by omega
    have hlow : UInt8.ofNat (b.toNat + 256 * decode bytes) = b := by
      apply UInt8.toNat_inj.mp
      rw [UInt8.toNat_ofNat']
      omega
    simp only [List.length_cons, encode, decode, hdiv, ih, hlow]

end SnapshotRetention.Bytes.LittleEndian
