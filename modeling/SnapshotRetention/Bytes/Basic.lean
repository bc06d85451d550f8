/-!
# Byte strings

Data is a list of bytes. Text is kept as UTF-8: `text?` reads exactly what `ofText` writes
(`text?_ofText`, `ofText_of_text?`). `split?` cuts a known number of bytes off the front.
-/

namespace SnapshotRetention

/-- Artifact data. -/
abbrev Bytes := List UInt8

namespace Bytes

/-- The UTF-8 bytes of a text. -/
def ofText (s : String) : Bytes := s.toByteArray.data.toList

/-- The text that a byte string is the UTF-8 form of. -/
def text? (bytes : Bytes) : Option String := String.fromUTF8? ⟨bytes.toArray⟩

theorem text?_ofText (s : String) : text? (ofText s) = some s := by
  have h : (⟨(ofText s).toArray⟩ : ByteArray) = s.toByteArray := by
    simp [ofText]
  unfold text? String.fromUTF8?
  rw [h, dif_pos s.isValidUTF8]
  rfl

theorem ofText_of_text? {bytes : Bytes} {s : String} (h : text? bytes = some s) :
    ofText s = bytes := by
  unfold text? String.fromUTF8? at h
  split at h
  · cases h
    simp [ofText, String.fromUTF8]
  · cases h

theorem length_ofText (s : String) : (ofText s).length = s.utf8ByteSize := by
  rw [ofText, Array.length_toList, String.utf8ByteSize]
  rfl

/-- The first `n` bytes and the rest, if there are that many. -/
def split? : Nat → Bytes → Option (Bytes × Bytes)
  | 0, bytes => some ([], bytes)
  | _ + 1, [] => none
  | n + 1, b :: bytes =>
    match split? n bytes with
    | some (front, rest) => some (b :: front, rest)
    | none => none

theorem split?_append (front rest : Bytes) :
    split? front.length (front ++ rest) = some (front, rest) := by
  induction front with
  | nil => cases rest <;> rfl
  | cons b front ih => simp [split?, ih]

theorem eq_append_of_split? {n : Nat} {bytes front rest : Bytes}
    (h : split? n bytes = some (front, rest)) : bytes = front ++ rest ∧ front.length = n := by
  induction n generalizing bytes front with
  | zero =>
    simp only [split?, Option.some.injEq, Prod.mk.injEq] at h
    obtain ⟨rfl, rfl⟩ := h
    exact ⟨rfl, rfl⟩
  | succ n ih =>
    cases bytes with
    | nil => simp [split?] at h
    | cons b bytes =>
      simp only [split?] at h
      split at h
      · next front' rest' hs =>
        simp only [Option.some.injEq, Prod.mk.injEq] at h
        obtain ⟨rfl, rfl⟩ := h
        obtain ⟨rfl, hlen⟩ := ih hs
        exact ⟨rfl, by simp [hlen]⟩
      · cases h

end Bytes

end SnapshotRetention
