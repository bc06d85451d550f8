import SnapshotRetention.Manifest.Codec

/-!
# Manifests are read back

The fields of a manifest are read back from the bytes of its body (`decodeBody_bodyBytes`), and the
body from behind its checksum (`decode_withChecksum`). The name under which a manifest is written is
read as naming its generation (`generationOf?_nameOf`), so that manifests of different generations
have different names. No other name that is not reserved is read as naming one
(`isReserved_of_generationOf?`).
-/

namespace SnapshotRetention.Manifest

open Bytes (LittleEndian.encode LittleEndian.decode)
open Bytes.LittleEndian (decode_encode length_encode capacity)

variable {m : Manifest} {front rest : Bytes} {name : String} {g g' : Generation}
  {width offset n : Nat}

/-! ## Names -/

theorem toList_nameOf (g : Generation) :
    (nameOf g).toList = reservedStart.toList ++ Nat.toDigits 10 g.number.toNat := by
  unfold nameOf
  rw [String.toList_append]
  congr 1
  show (toString g.number.toNat).toList = _
  rw [Nat.toString_eq_ofList_toDigits, String.toList_ofList]

theorem isReserved_nameOf (g : Generation) : isReserved (nameOf g) = true := by
  unfold isReserved
  rw [toList_nameOf, List.isPrefixOf_iff_prefix]
  exact List.prefix_append _ _

theorem isReserved_of_generationOf? (h : generationOf? name = some g) :
    isReserved name = true := by
  unfold generationOf? at h
  split at h
  next hreserved => exact hreserved
  next => cases h

/-- The digits of a generation stand for it. -/
theorem generationOfDigits?_toDigits (g : Generation) :
    generationOfDigits? (Nat.toDigits 10 g.number.toNat) = some g := by
  have hdigits : (Nat.toDigits 10 g.number.toNat).all Char.isDigit = true :=
    List.all_eq_true.mpr fun c hc => Nat.isDigit_of_mem_toDigits (by decide) (by decide) hc
  unfold generationOfDigits?
  rw [if_pos ⟨Nat.toDigits_ne_nil, hdigits⟩, Nat.ofDigitChars_ten_toDigits,
    if_pos g.number.toNat_lt, UInt64.ofNat_toNat]

theorem generationOf?_nameOf (g : Generation) : generationOf? (nameOf g) = some g := by
  have hlength : reservedStart.length = reservedStart.toList.length := rfl
  unfold generationOf?
  rw [if_pos (isReserved_nameOf g), toList_nameOf, hlength, List.drop_left]
  exact generationOfDigits?_toDigits g

theorem nameOf_injective (h : nameOf g = nameOf g') : g = g' := by
  have hboth := congrArg generationOf? h
  rw [generationOf?_nameOf, generationOf?_nameOf] at hboth
  exact Option.some.inj hboth

/-! ## File entries -/

theorem readEntry_entryBytes (hname : name.utf8ByteSize < UInt16.size) (rest : Bytes) :
    readEntry (entryBytes name ++ rest) = .ok (name, rest) := by
  have hfield := Bytes.split?_append (LittleEndian.encode 2 name.utf8ByteSize)
    (Bytes.ofText name ++ rest)
  have htext := Bytes.split?_append (Bytes.ofText name) rest
  rw [length_encode] at hfield
  rw [Bytes.length_ofText] at htext
  unfold readEntry entryBytes
  rw [List.append_assoc, hfield]
  dsimp only
  rw [decode_encode (show name.utf8ByteSize < capacity 2 from hname), htext]
  dsimp only
  rw [Bytes.text?_ofText]

theorem readEntries_entryBytes {files : List String}
    (hfiles : ∀ name ∈ files, name.utf8ByteSize < UInt16.size) (rest : Bytes) :
    readEntries files.length (files.flatMap entryBytes ++ rest) = .ok (files, rest) := by
  induction files with
  | nil => rfl
  | cons name files ih =>
    rw [List.flatMap_cons, List.length_cons, List.append_assoc]
    unfold readEntries
    rw [readEntry_entryBytes (hfiles name List.mem_cons_self)]
    dsimp only
    rw [ih fun q hq => hfiles q (List.mem_cons_of_mem _ hq)]

/-! ## Fields -/

/-- A field is found at the place where it was written. -/
theorem field_at (hfront : front.length = offset) (width n : Nat) (rest : Bytes) :
    ((front ++ (LittleEndian.encode width n ++ rest)).drop offset).take width =
      LittleEndian.encode width n := by
  rw [List.drop_left' hfront]
  exact List.take_left' (length_encode width n)

theorem wordAt_field (hfront : front.length = offset) (x : UInt64) (rest : Bytes) :
    wordAt offset (front ++ (LittleEndian.encode 8 x.toNat ++ rest)) = x := by
  unfold wordAt
  rw [field_at hfront, decode_encode (show x.toNat < capacity 8 from x.toNat_lt),
    UInt64.ofNat_toNat]

theorem length_headerBytes (format : Nat) (m : Manifest) :
    (headerBytes format m).length = headerSize := by
  simp [headerBytes, headerSize, magic]

theorem headerSize_le_bodyBytes (format : Nat) (m : Manifest) :
    headerSize ≤ (m.bodyBytes format).length := by
  unfold bodyBytes
  rw [List.length_append, length_headerBytes]
  exact Nat.le_add_right _ _

/-- The fields of a body stand one behind the other, and nothing may follow them. -/
theorem decodeBody_bodyBytes {format : Nat} (hformat : format ≤ currentFormat)
    (hcount : m.files.length < UInt32.size)
    (hfiles : ∀ name ∈ m.files, name.utf8ByteSize < UInt16.size) (rest : Bytes) :
    decodeBody (m.bodyBytes format ++ rest) =
      if rest ≠ [] then .error .trailingBytes else .ok m := by
  have hbody : m.bodyBytes format ++ rest = magic ++ (LittleEndian.encode 2 format ++
      (LittleEndian.encode 8 m.version.number.toNat ++
        (LittleEndian.encode 8 m.generation.number.toNat ++
          (LittleEndian.encode 8 m.timestamp.toNat ++
            (LittleEndian.encode 4 m.files.length ++ (m.files.flatMap entryBytes ++ rest)))))) := by
    simp only [bodyBytes, headerBytes, List.append_assoc]
  have hfield : ((m.bodyBytes format ++ rest).drop 4).take 2 = LittleEndian.encode 2 format := by
    rw [hbody]
    exact field_at (show magic.length = 4 from rfl) 2 format _
  have hversion : wordAt 6 (m.bodyBytes format ++ rest) = m.version.number := by
    rw [hbody, ← List.append_assoc]
    exact wordAt_field (by simp [magic]) _ _
  have hgeneration : wordAt 14 (m.bodyBytes format ++ rest) = m.generation.number := by
    rw [hbody, ← List.append_assoc, ← List.append_assoc]
    exact wordAt_field (by simp [magic]) _ _
  have htimestamp : wordAt 22 (m.bodyBytes format ++ rest) = m.timestamp := by
    rw [hbody, ← List.append_assoc, ← List.append_assoc, ← List.append_assoc]
    exact wordAt_field (by simp [magic]) _ _
  have hlength : ((m.bodyBytes format ++ rest).drop 30).take 4 =
      LittleEndian.encode 4 m.files.length := by
    rw [hbody, ← List.append_assoc, ← List.append_assoc, ← List.append_assoc, ← List.append_assoc]
    exact field_at (by simp [magic]) 4 m.files.length _
  have hentries : (m.bodyBytes format ++ rest).drop headerSize =
      m.files.flatMap entryBytes ++ rest := by
    unfold bodyBytes
    rw [List.append_assoc]
    exact List.drop_left' (length_headerBytes format m)
  have hknown : format < capacity 2 := Nat.lt_of_le_of_lt hformat (by decide)
  unfold decodeBody
  dsimp only
  rw [hfield, decode_encode hknown, if_neg (Nat.not_lt.mpr hformat),
    hlength, decode_encode (show m.files.length < capacity 4 from hcount), hentries,
    readEntries_entryBytes hfiles, hversion, hgeneration, htimestamp]

/-! ## Whole manifests -/

/-- What a body and its checksum are read as is what the body is read as. -/
theorem decode_withChecksum {body : Bytes} (hlength : headerSize ≤ body.length)
    (hmagic : body.take 4 = magic) : decode (withChecksum body) = decodeBody body := by
  have htotal : (withChecksum body).length = body.length + footerSize := by
    unfold withChecksum
    rw [List.length_append, length_encode]
  have hbody : (withChecksum body).take body.length = body := List.take_left' rfl
  have hfooter : (withChecksum body).drop body.length =
      LittleEndian.encode footerSize (Bytes.Crc32.checksum body).toNat := List.drop_left' rfl
  have hstart : (withChecksum body).take 4 = magic := by
    unfold withChecksum
    rw [List.take_append_of_le_length (Nat.le_trans (by decide) hlength)]
    exact hmagic
  unfold decode
  dsimp only
  rw [htotal, if_neg (by omega), hstart, if_neg (by simp), Nat.add_sub_cancel, hbody, hfooter,
    decode_encode (show _ < capacity footerSize from (Bytes.Crc32.checksum body).toNat_lt),
    UInt32.ofNat_toNat, if_neg (by simp)]

end SnapshotRetention.Manifest
