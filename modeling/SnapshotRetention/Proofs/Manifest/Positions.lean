import SnapshotRetention.Proofs.Manifest.Layout

/-!
# Reading by position

A manifest is read field by field from places that the bytes read before determine, up to the names
of the files, whose places come from counts and lengths that nobody has checked. `decodeAt` reads
so, and stops short of a result where a place is not inside the bytes (`slice?`). It always has a
result, and that of `decode` (`decodeAt_eq`): whatever the bytes, no place outside is ever read.

Together with the exact layout of what is accepted this is the format of manifests
(`format_exact`).
-/

namespace SnapshotRetention

namespace Bytes

variable {bytes : Bytes} {offset width n : Nat}

/-- The bytes of a place, if it is inside. -/
def slice? (offset width : Nat) (bytes : Bytes) : Option Bytes :=
  if offset + width ≤ bytes.length then some ((bytes.drop offset).take width) else none

theorem slice?_of_le (h : offset + width ≤ bytes.length) :
    slice? offset width bytes = some ((bytes.drop offset).take width) :=
  if_pos h

/-- Bytes can be cut off the front if there are enough of them. -/
theorem split?_eq (n : Nat) (bytes : Bytes) :
    split? n bytes = if n ≤ bytes.length then some (bytes.take n, bytes.drop n) else none := by
  by_cases h : n ≤ bytes.length
  · have hsplit := split?_append (bytes.take n) (bytes.drop n)
    rw [List.take_append_drop, List.length_take, Nat.min_eq_left h] at hsplit
    rw [if_pos h, hsplit]
  · rw [if_neg h]
    cases hsplit : split? n bytes with
    | none => rfl
    | some parts =>
      obtain ⟨rfl, hlength⟩ := eq_append_of_split? hsplit
      rw [List.length_append] at h
      omega

end Bytes

namespace Manifest

open Bytes (LittleEndian.decode slice? slice?_of_le)

variable {m : Manifest} {data body : Bytes} {cursor : Nat}

/-! ## The reader -/

/-- Reads the file entry at a cursor; the cursor behind it comes back too. -/
def readEntryAt (body : Bytes) (cursor : Nat) : Option (Except ManifestError (String × Nat)) :=
  if body.length < cursor + 2 then some (.error .truncatedEntry)
  else do
    let lengthField ← slice? cursor 2 body
    let length := LittleEndian.decode lengthField
    if body.length < cursor + 2 + length then some (.error .truncatedName)
    else do
      let front ← slice? (cursor + 2) length body
      match Bytes.text? front with
      | none => some (.error .notText)
      | some name => some (.ok (name, cursor + 2 + length))

/-- Reads a number of file entries from a cursor on; the cursor behind them comes back too. -/
def readEntriesAt (body : Bytes) : Nat → Nat → Option (Except ManifestError (List String × Nat))
  | 0, cursor => some (.ok ([], cursor))
  | n + 1, cursor => do
    match ← readEntryAt body cursor with
    | .error e => some (.error e)
    | .ok (name, cursor) =>
      match ← readEntriesAt body n cursor with
      | .error e => some (.error e)
      | .ok (names, cursor) => some (.ok (name :: names, cursor))

/-- Reads a body field by field. -/
def decodeBodyAt (body : Bytes) : Option (Except ManifestError Manifest) := do
  let format ← slice? 4 2 body
  if currentFormat < LittleEndian.decode format then
    some (.error (.unsupportedFormat (LittleEndian.decode format)))
  else do
    let version ← slice? 6 8 body
    let generation ← slice? 14 8 body
    let timestamp ← slice? 22 8 body
    let count ← slice? 30 4 body
    let entries ← readEntriesAt body (LittleEndian.decode count) headerSize
    match entries with
    | .error e => some (.error e)
    | .ok (files, cursor) =>
      if cursor ≠ body.length then some (.error .trailingBytes)
      else some (.ok ⟨⟨UInt64.ofNat (LittleEndian.decode version)⟩,
        ⟨UInt64.ofNat (LittleEndian.decode generation)⟩,
        UInt64.ofNat (LittleEndian.decode timestamp), files⟩)

/-- Reads a manifest field by field. There is no result if a place outside the bytes is read. -/
def decodeAt (data : Bytes) : Option (Except ManifestError Manifest) :=
  if data.length < headerSize + footerSize then some (.error .tooShort)
  else do
    let start ← slice? 0 4 data
    if start ≠ magic then some (.error .badMagic)
    else do
      let body ← slice? 0 (data.length - footerSize) data
      let footer ← slice? (data.length - footerSize) footerSize data
      let expected := UInt32.ofNat (LittleEndian.decode footer)
      let actual := Bytes.Crc32.checksum body
      if expected ≠ actual then some (.error (.checksumMismatch expected actual))
      else decodeBodyAt body

/-! ## No place is outside -/

/-- Where a reader stands in a body that has some bytes left to read. -/
def place (body : Bytes) {α : Type} (p : α × Bytes) : α × Nat := (p.1, body.length - p.2.length)

/-- From a cursor that is inside, an entry is read as from the bytes behind the cursor. -/
theorem readEntryAt_eq (h : cursor ≤ body.length) :
    readEntryAt body cursor = some ((readEntry (body.drop cursor)).map (place body)) := by
  unfold readEntryAt readEntry
  rw [Bytes.split?_eq, List.length_drop]
  by_cases hfield : cursor + 2 ≤ body.length
  · rw [if_neg (Nat.not_lt.mpr hfield), slice?_of_le hfield, if_pos (by omega)]
    dsimp only [Option.bind_eq_bind, Option.bind_some]
    rw [Bytes.split?_eq, List.drop_drop, List.length_drop]
    by_cases hname : cursor + 2 + LittleEndian.decode ((body.drop cursor).take 2) ≤ body.length
    · rw [if_neg (Nat.not_lt.mpr hname), slice?_of_le hname, if_pos (by omega)]
      dsimp only [Option.bind_some]
      cases Bytes.text? ((body.drop (cursor + 2)).take
          (LittleEndian.decode ((body.drop cursor).take 2))) with
      | none => rfl
      | some name =>
        rw [List.drop_drop]
        show some (Except.ok (name, _)) = some (Except.ok (name, _))
        rw [List.length_drop]
        congr 3
        omega
    · rw [if_pos (Nat.lt_of_not_le hname), if_neg (by omega)]
      rfl
  · rw [if_pos (Nat.lt_of_not_le hfield), if_neg (by omega)]
    rfl

/-- From a cursor that is inside, the entries are read as from the bytes behind the cursor. -/
theorem readEntriesAt_eq (n : Nat) (h : cursor ≤ body.length) : readEntriesAt body n cursor =
    some ((readEntries n (body.drop cursor)).map (place body)) := by
  induction n generalizing cursor with
  | zero =>
    show some (Except.ok ([], cursor)) = some (Except.ok ([], _))
    rw [List.length_drop]
    congr 3
    omega
  | succ n ih =>
    unfold readEntriesAt readEntries
    rw [readEntryAt_eq h]
    cases hentry : readEntry (body.drop cursor) with
    | error e => rfl
    | ok p =>
      obtain ⟨name, rest⟩ := p
      -- the rest is what stands behind the next cursor
      obtain ⟨hbytes, -⟩ := readEntry_ok hentry
      have hle : rest.length ≤ body.length := by
        have hlength := congrArg List.length hbytes
        rw [List.length_drop, List.length_append] at hlength
        omega
      have hrest : body.drop (body.length - rest.length) = rest := by
        have hsuffix : rest <:+ body :=
          (List.suffix_append (entryBytes name) rest).trans (hbytes ▸ List.drop_suffix cursor body)
        exact (List.suffix_iff_eq_drop.mp hsuffix).symm
      have hnext := ih (Nat.sub_le body.length rest.length)
      rw [hrest] at hnext
      dsimp only [Except.map, place, Option.bind_eq_bind, Option.bind_some]
      rw [hnext]
      cases readEntries n rest with
      | error e => rfl
      | ok p => rfl

theorem decodeBodyAt_eq (h : headerSize ≤ body.length) :
    decodeBodyAt body = some (decodeBody body) := by
  have hsize : 34 ≤ body.length := h
  unfold decodeBodyAt decodeBody
  rw [slice?_of_le (by omega), slice?_of_le (by omega), slice?_of_le (by omega),
    slice?_of_le (by omega), slice?_of_le (by omega)]
  dsimp only [Option.bind_eq_bind, Option.bind_some]
  rw [readEntriesAt_eq _ h]
  split
  next => rfl
  next =>
    dsimp only [Option.bind_some]
    cases hentries : readEntries (LittleEndian.decode ((body.drop 30).take 4))
        (body.drop headerSize) with
    | error e => rfl
    | ok p =>
      obtain ⟨files, rest⟩ := p
      obtain ⟨hbytes, -⟩ := readEntries_ok hentries
      have hlength := congrArg List.length hbytes
      rw [List.length_drop, List.length_append] at hlength
      -- the cursor is at the end exactly if nothing is left
      have hend : body.length - rest.length ≠ body.length ↔ rest ≠ [] := by
        rw [Ne, Ne, ← List.length_eq_zero_iff]
        omega
      show (if body.length - rest.length ≠ body.length then _ else _) =
        some (if rest ≠ [] then _ else _)
      simp only [hend]
      split
      next => rfl
      next => rfl

/-- Whatever the bytes, every place that is read is inside. -/
theorem decodeAt_eq (data : Bytes) : decodeAt data = some (decode data) := by
  unfold decodeAt decode
  by_cases hshort : data.length < headerSize + footerSize
  · rw [if_pos hshort, if_pos hshort]
  · have hsize : headerSize + footerSize ≤ data.length := Nat.le_of_not_lt hshort
    have hheader : (4 : Nat) ≤ headerSize := by decide
    rw [if_neg hshort, if_neg hshort, slice?_of_le (by omega), slice?_of_le (by omega),
      slice?_of_le (by omega)]
    have hfooter : (data.drop (data.length - footerSize)).take footerSize =
        data.drop (data.length - footerSize) := by
      apply List.take_of_length_le
      rw [List.length_drop]
      omega
    have hbody : headerSize ≤ (data.take (data.length - footerSize)).length := by
      rw [List.length_take]
      omega
    dsimp only [Option.bind_eq_bind, Option.bind_some]
    rw [List.drop_zero, hfooter, decodeBodyAt_eq hbody]
    by_cases hmagic : data.take 4 ≠ magic
    · rw [if_pos hmagic, if_pos hmagic]
    · rw [if_neg hmagic, if_neg hmagic]
      exact (apply_ite some _ _ _).symm

/-! ## The format -/

/-- A byte string is read as a manifest if and only if it is laid out as that manifest, any other is
refused, and no place outside of it is read on the way. Exactly the manifests whose files can be
counted and whose names can be measured are written, what is written is read back, and what was read
in the format that is written is written back. -/
theorem format_exact (data : Bytes) (m : Manifest) :
    (decode data = .ok m ↔ ∃ format, Laid format m data) ∧
      ((¬∃ m format, Laid format m data) ↔ ∃ e, decode data = .error e) ∧
      decodeAt data = some (decode data) ∧
      ((∃ data, m.encode = .ok data) ↔
        m.files.length < UInt32.size ∧ ∀ name ∈ m.files, name.utf8ByteSize < UInt16.size) ∧
      (m.encode = .ok data ↔
        decode data = .ok m ∧ LittleEndian.decode ((data.drop 4).take 2) = 1) := by
  refine ⟨decode_eq_ok_iff, ?_, decodeAt_eq data, ?_, ?_⟩
  · simp only [← decode_eq_ok_iff]
    cases decode data with
    | error e => simp
    | ok m => simp
  · refine ⟨fun ⟨data, h⟩ => ?_, fun ⟨hcount, hnames⟩ => ?_⟩
    · have hlaid := encode_eq_ok_iff.mp h
      exact ⟨hlaid.count, hlaid.names⟩
    · exact ⟨_, encode_eq_ok_iff.mpr ⟨Nat.le_refl _, hcount, hnames, rfl⟩⟩
  · rw [encode_eq_ok_iff]
    refine ⟨fun h => ⟨h.decode, h.formatField⟩, fun ⟨h, hformat⟩ => ?_⟩
    obtain ⟨format, hlaid⟩ := decode_eq_ok_iff.mp h
    obtain rfl : format = currentFormat := hlaid.formatField.symm.trans hformat
    exact hlaid

end Manifest

end SnapshotRetention
