import SnapshotRetention.Proofs.Manifest

/-!
# What is read as a manifest

A byte string is read as a manifest exactly if it is laid out as that manifest in a format that is
known (`Manifest.Laid`, `decode_eq_ok_iff`): the magic number, the fields of the header, an entry
for each file and nothing else, then the checksum. Every manifest whose counts and lengths fit their
fields can be written, in the newest format (`encode_eq_ok_iff`), and what was written is read back
(`decode_of_encode`).

For the way back from a manifest to the bytes, each step of reading is inverted: what an entry, a
list of entries and a body have taken up is the form of what they were read as (`readEntry_ok`,
`readEntries_ok`, `decodeBody_ok`).
-/

namespace SnapshotRetention.Manifest

open Bytes (LittleEndian.encode LittleEndian.decode)
open Bytes.LittleEndian (encode_decode length_encode decode_lt capacity)

variable {m : Manifest} {data body bytes rest : Bytes} {name : String} {names : List String}
  {format offset width n : Nat}

/-! ## Entries -/

theorem readEntry_ok (h : readEntry bytes = .ok (name, rest)) :
    bytes = entryBytes name ++ rest ∧ name.utf8ByteSize < UInt16.size := by
  unfold readEntry at h
  split at h
  next => cases h
  next lengthField after hfield =>
    split at h
    next => cases h
    next front after' hname =>
      split at h
      next => cases h
      next text htext =>
        obtain ⟨rfl, rfl⟩ := Prod.mk.inj (Except.ok.inj h)
        obtain ⟨rfl, hwidth⟩ := Bytes.eq_append_of_split? hfield
        obtain ⟨rfl, hlength⟩ := Bytes.eq_append_of_split? hname
        obtain rfl := Bytes.ofText_of_text? htext
        rw [Bytes.length_ofText] at hlength
        have hforms : LittleEndian.encode 2 (LittleEndian.decode lengthField) = lengthField := by
          rw [← hwidth]
          exact encode_decode lengthField
        have hfits : LittleEndian.decode lengthField < capacity 2 := by
          rw [← hwidth]
          exact decode_lt lengthField
        unfold entryBytes
        rw [hlength, hforms, List.append_assoc]
        exact ⟨rfl, hfits⟩

theorem readEntries_ok (h : readEntries n bytes = .ok (names, rest)) :
    bytes = names.flatMap entryBytes ++ rest ∧ names.length = n ∧
      ∀ name ∈ names, name.utf8ByteSize < UInt16.size := by
  induction n generalizing bytes names with
  | zero =>
    obtain ⟨rfl, rfl⟩ := Prod.mk.inj (Except.ok.inj h)
    exact ⟨rfl, rfl, fun name hname => absurd hname List.not_mem_nil⟩
  | succ n ih =>
    unfold readEntries at h
    split at h
    next => cases h
    next name after hentry =>
      split at h
      next => cases h
      next names' rest' hrest =>
        obtain ⟨rfl, rfl⟩ := Prod.mk.inj (Except.ok.inj h)
        obtain ⟨rfl, hname⟩ := readEntry_ok hentry
        obtain ⟨rfl, hlength, hnames⟩ := ih hrest
        rw [List.flatMap_cons, List.append_assoc, List.length_cons, hlength]
        exact ⟨rfl, rfl, List.forall_mem_cons.mpr ⟨hname, hnames⟩⟩

/-! ## The header -/

/-- A field that is inside is the form of the number that it is read as. -/
theorem encode_field (h : offset + width ≤ bytes.length) :
    LittleEndian.encode width (LittleEndian.decode ((bytes.drop offset).take width)) =
      (bytes.drop offset).take width := by
  have hlength : ((bytes.drop offset).take width).length = width := by
    rw [List.length_take, List.length_drop]
    omega
  have hform := encode_decode ((bytes.drop offset).take width)
  rwa [hlength] at hform

/-- A field that is inside reads as a number below its capacity. -/
theorem decode_field_lt (h : offset + width ≤ bytes.length) :
    LittleEndian.decode ((bytes.drop offset).take width) < capacity width := by
  have hlength : ((bytes.drop offset).take width).length = width := by
    rw [List.length_take, List.length_drop]
    omega
  have hlt := decode_lt ((bytes.drop offset).take width)
  rwa [hlength] at hlt

theorem encode_wordAt (h : offset + 8 ≤ bytes.length) :
    LittleEndian.encode 8 (wordAt offset bytes).toNat = (bytes.drop offset).take 8 := by
  unfold wordAt
  rw [UInt64.toNat_ofNat_of_lt' (decode_field_lt h), encode_field h]

/-- The header of a body is the form of what its fields are read as. -/
theorem headerBytes_fields (hlength : headerSize ≤ body.length) (hmagic : body.take 4 = magic)
    (hfiles : names.length = LittleEndian.decode ((body.drop 30).take 4)) :
    headerBytes (LittleEndian.decode ((body.drop 4).take 2))
      ⟨⟨wordAt 6 body⟩, ⟨wordAt 14 body⟩, wordAt 22 body, names⟩ = body.take headerSize := by
  have hsize : 34 ≤ body.length := hlength
  calc headerBytes (LittleEndian.decode ((body.drop 4).take 2))
        ⟨⟨wordAt 6 body⟩, ⟨wordAt 14 body⟩, wordAt 22 body, names⟩
      = body.take 4 ++ (body.drop 4).take 2 ++ (body.drop 6).take 8 ++ (body.drop 14).take 8 ++
          (body.drop 22).take 8 ++ (body.drop 30).take 4 := by
        unfold headerBytes
        rw [hmagic, hfiles, encode_field (by omega), encode_wordAt (by omega),
          encode_wordAt (by omega), encode_wordAt (by omega), encode_field (by omega)]
    _ = body.take (4 + 2 + 8 + 8 + 8 + 4) := by
        rw [List.take_add, List.take_add, List.take_add, List.take_add, List.take_add]

/-! ## Bodies -/

theorem decodeBody_ok (hlength : headerSize ≤ body.length) (hmagic : body.take 4 = magic)
    (h : decodeBody body = .ok m) : ∃ format, format ≤ currentFormat ∧
      m.files.length < UInt32.size ∧ (∀ name ∈ m.files, name.utf8ByteSize < UInt16.size) ∧
        body = m.bodyBytes format := by
  have hsize : 34 ≤ body.length := hlength
  unfold decodeBody at h
  dsimp only at h
  split at h
  next => cases h
  next hformat =>
    split at h
    next => cases h
    next files rest hentries =>
      split at h
      next => cases h
      next hrest =>
        obtain rfl := Except.ok.inj h
        obtain ⟨hbytes, hcount, hnames⟩ := readEntries_ok hentries
        rw [Classical.not_not.mp hrest, List.append_nil] at hbytes
        refine ⟨_, Nat.le_of_not_lt hformat, ?_, hnames, ?_⟩
        · rw [hcount]
          exact decode_field_lt (by omega)
        · unfold bodyBytes
          rw [headerBytes_fields hlength hmagic hcount, ← hbytes]
          exact (List.take_append_drop headerSize body).symm

/-! ## Whole manifests -/

theorem decode_ok (h : decode data = .ok m) : ∃ body, data = withChecksum body ∧
    headerSize ≤ body.length ∧ body.take 4 = magic ∧ decodeBody body = .ok m := by
  unfold decode at h
  split at h
  next => cases h
  next hshort =>
    split at h
    next => cases h
    next hmagic =>
      dsimp only at h
      split at h
      next => cases h
      next hsum =>
        have hsize : headerSize + footerSize ≤ data.length := Nat.le_of_not_lt hshort
        refine ⟨data.take (data.length - footerSize), ?_, ?_, ?_, h⟩
        · have hfooter : (data.drop (data.length - footerSize)).length = footerSize := by
            rw [List.length_drop]
            omega
          have hform := encode_decode (data.drop (data.length - footerSize))
          have hlt := decode_lt (data.drop (data.length - footerSize))
          rw [hfooter] at hform hlt
          unfold withChecksum
          rw [← Classical.not_not.mp hsum, UInt32.toNat_ofNat_of_lt' hlt, hform,
            List.take_append_drop]
        · rw [List.length_take]
          omega
        · rw [List.take_take, Nat.min_eq_left (by unfold headerSize at hsize; omega)]
          exact Classical.not_not.mp hmagic

/-- The bytes of a manifest in a format that is known: the magic number, the number of the format,
the version, the generation, the timestamp, the number of files and their entries, then the checksum
of all this. -/
structure Laid (format : Nat) (m : Manifest) (data : Bytes) : Prop where
  known : format ≤ currentFormat
  count : m.files.length < UInt32.size
  names : ∀ name ∈ m.files, name.utf8ByteSize < UInt16.size
  bytes : data = withChecksum (m.bodyBytes format)

theorem Laid.decode (h : Laid format m data) : decode data = .ok m := by
  have hbody := decodeBody_bodyBytes h.known h.count h.names []
  rw [List.append_nil, if_neg (by simp)] at hbody
  rw [h.bytes, decode_withChecksum (headerSize_le_bodyBytes format m) rfl]
  exact hbody

/-- What is laid out as a manifest is read as it, and nothing else is. -/
theorem decode_eq_ok_iff : Manifest.decode data = .ok m ↔ ∃ format, Laid format m data := by
  refine ⟨fun h => ?_, fun ⟨format, h⟩ => h.decode⟩
  obtain ⟨body, rfl, hlength, hmagic, hbody⟩ := decode_ok h
  obtain ⟨format, hknown, hcount, hnames, rfl⟩ := decodeBody_ok hlength hmagic hbody
  exact ⟨format, hknown, hcount, hnames, rfl⟩

/-- The number of the format stands behind the magic number. -/
theorem Laid.formatField (h : Laid format m data) :
    LittleEndian.decode ((data.drop 4).take 2) = format := by
  have hdata : data = magic ++ (LittleEndian.encode 2 format ++ data.drop 6) := by
    rw [h.bytes]
    rfl
  rw [hdata, field_at (show magic.length = 4 from rfl) 2 format _]
  exact Bytes.LittleEndian.decode_encode (Nat.lt_of_le_of_lt h.known (by decide))

/-! ## Writing -/

/-- No name is too long exactly if all of them fit. -/
theorem oversizedName?_eq_none_iff :
    m.oversizedName? = none ↔ ∀ name ∈ m.files, name.utf8ByteSize < UInt16.size := by
  unfold oversizedName?
  rw [List.find?_eq_none]
  simp

/-- What is written is laid out in the newest format, and is written if it fits. -/
theorem encode_eq_ok_iff : m.encode = .ok data ↔ Laid currentFormat m data := by
  unfold encode
  split
  next hmany => exact ⟨nofun, fun h => absurd h.count (Nat.not_lt.mpr hmany)⟩
  next hcount =>
    split
    next name hname =>
      refine ⟨nofun, fun h => ?_⟩
      rw [oversizedName?_eq_none_iff.mpr h.names] at hname
      cases hname
    next hnone =>
      refine ⟨fun h => ?_, fun h => congrArg Except.ok h.bytes.symm⟩
      exact ⟨Nat.le_refl _, Nat.lt_of_not_le hcount, oversizedName?_eq_none_iff.mp hnone,
        (Except.ok.inj h).symm⟩

/-- What was written is read as what it was written for. -/
theorem decode_of_encode (h : m.encode = .ok data) : Manifest.decode data = .ok m :=
  (encode_eq_ok_iff.mp h).decode

end SnapshotRetention.Manifest
