import SnapshotRetention.Proofs.Crc32
import SnapshotRetention.Proofs.Manifest.Layout

/-!
# Damaged manifests

What is written as a manifest is no longer read as one if bytes within four that stand together are
changed, if it is cut short, or if anything follows it (`damage_detected`).

Everything that is read as a manifest leaves the same register of the checksum (`run_of_decode`),
but a change within four bytes leaves another one. The checksum says nothing about bytes that are
cut off or follow; there the layout does, as it is self-delimiting: of two manifests none is a
proper beginning of the other (`Laid.eq_of_prefix`).
-/

namespace SnapshotRetention.Manifest

open Bytes (LittleEndian.encode LittleEndian.decode)
open Bytes.Crc32 (run residue run_checksum eq_of_run_eq)

variable {m m' : Manifest} {data data' : Bytes} {format format' : Nat}

/-- Whatever manifest is read leaves the same register. -/
theorem run_of_decode (h : decode data = .ok m) : run 0xFFFFFFFF data = residue := by
  obtain ⟨body, rfl, -⟩ := decode_ok h
  exact run_checksum body

/-- What is not read as any manifest is refused. -/
theorem exists_error (h : ∀ m, decode data ≠ .ok m) : ∃ e, decode data = .error e := by
  cases hdata : decode data with
  | error e => exact ⟨e, rfl⟩
  | ok m => exact absurd hdata (h m)

/-- A body tells how many files there are, and where the last of them ends. -/
theorem eq_nil_of_bodyBytes_append {rest : Bytes} (h : Laid format m data)
    (h' : Laid format' m' data') (heq : m.bodyBytes format = m'.bodyBytes format' ++ rest) :
    rest = [] := by
  have hread := decodeBody_bodyBytes h.known h.count h.names []
  rw [List.append_nil, if_neg (by simp), heq,
    decodeBody_bodyBytes h'.known h'.count h'.names rest] at hread
  split at hread
  next => cases hread
  next hnil => exact Classical.not_not.mp hnil

/-- No manifest is a proper beginning of another. -/
theorem Laid.eq_of_prefix (h : Laid format m data) (h' : Laid format' m' data')
    (hbegins : data' <+: data) : data' = data := by
  have hlength : ∀ body : Bytes, (withChecksum body).length = body.length + footerSize := by
    intro body
    unfold withChecksum
    rw [List.length_append, Bytes.LittleEndian.length_encode]
  have hle := hbegins.length_le
  rw [h.bytes, h'.bytes, hlength, hlength] at hle
  -- the bodies are beginnings of the same bytes, so that one of them is a beginning of the other
  have hbody : m.bodyBytes format <+: data := h.bytes ▸ List.prefix_append _ _
  have hbody' : m'.bodyBytes format' <+: data :=
    (h'.bytes ▸ List.prefix_append _ _ : m'.bodyBytes format' <+: data').trans hbegins
  obtain ⟨rest, hrest⟩ := List.prefix_of_prefix_length_le hbody' hbody (by omega)
  have hnil := eq_nil_of_bodyBytes_append h h' hrest.symm
  rw [hnil, List.append_nil] at hrest
  rw [h.bytes, h'.bytes, hrest]

/-- A change within four bytes, a proper beginning and a proper continuation of what was written are
all refused. -/
theorem damage_detected (h : m.encode = .ok data) :
    (∀ front window window' rest, data = front ++ window ++ rest → window.length ≤ 4 →
      window'.length = window.length → window' ≠ window →
        ∃ e, decode (front ++ window' ++ rest) = .error e) ∧
    (∀ data', data' <+: data → data' ≠ data → ∃ e, decode data' = .error e) ∧
    (∀ data', data <+: data' → data' ≠ data → ∃ e, decode data' = .error e) := by
  have hlaid := encode_eq_ok_iff.mp h
  refine ⟨?_, ?_, ?_⟩
  · intro front window window' rest hdata hwindow hlength hne
    refine exists_error fun m' hread => hne ?_
    have hrun := run_of_decode hlaid.decode
    rw [hdata] at hrun
    exact eq_of_run_eq front rest hlength hwindow ((run_of_decode hread).trans hrun.symm)
  · intro data' hbegins hne
    refine exists_error fun m' hread => hne ?_
    obtain ⟨format, hlaid'⟩ := decode_eq_ok_iff.mp hread
    exact hlaid.eq_of_prefix hlaid' hbegins
  · intro data' hbegins hne
    refine exists_error fun m' hread => hne ?_
    obtain ⟨format, hlaid'⟩ := decode_eq_ok_iff.mp hread
    exact (hlaid'.eq_of_prefix hlaid hbegins).symm

/-- The manifest of a commit of one file is refused with the byte of its file name and the first
three of its checksum changed, without its last byte, and with one more byte. -/
theorem damage_detected_oneFile : ∃ data, encode ⟨⟨7⟩, ⟨7⟩, 0, ["a"]⟩ = .ok data ∧
    (∃ e, decode (data.take 36 ++ [0x62, 0, 0, 0] ++ data.drop 40) = .error e) ∧
    (∃ e, decode (data.take 40) = .error e) ∧ ∃ e, decode (data ++ [0]) = .error e := by
  have hencode : encode ⟨⟨7⟩, ⟨7⟩, 0, ["a"]⟩ =
      .ok (withChecksum (bodyBytes currentFormat ⟨⟨7⟩, ⟨7⟩, 0, ["a"]⟩)) := by decide +kernel
  obtain ⟨hchanged, hcut, hcontinued⟩ := damage_detected hencode
  refine ⟨_, hencode, ?_, ?_, ?_⟩
  · refine hchanged _ [0x61, 0xee, 0x50, 0x2c] _ _ ?_ (by decide) rfl (by decide)
    decide +kernel
  · exact hcut _ (List.take_prefix _ _) (by decide +kernel)
  · exact hcontinued _ (List.prefix_append _ _) (by decide +kernel)

end SnapshotRetention.Manifest
