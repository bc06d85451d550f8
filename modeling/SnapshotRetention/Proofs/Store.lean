import SnapshotRetention.Store.Basic
import SnapshotRetention.Proofs.Table

/-!
# The data in a store

`Store.data?` is the data under a name, whatever the store is set to refuse. Artifacts are written
once: a write that succeeds finds its name free (`write_ok`), so no write changes what was there
(`Holds.write`, `Holds.writeAll`), and a deletion takes at most the artifact it names
(`data?_delete_of_ne`).
-/

namespace SnapshotRetention.Store

variable {s s' : Store} {name q : String} {data : Bytes}

/-- The data of an artifact, whatever is set to fail. -/
def data? (name : String) (s : Store) : Option Bytes := (s.medium.read name).toOption

theorem data?_congr (h : s'.medium = s.medium) (q : String) : s'.data? q = s.data? q := by
  unfold data?
  rw [h]

/-- What can be read is there. -/
theorem data?_of_read (h : s.read name = .ok data) : s.data? name = some data := by
  unfold read at h
  split at h
  next => cases h
  next =>
    unfold data?
    rw [h]
    rfl

/-! ## Media -/

/-- A write succeeds under a free name only, and puts its data there. -/
theorem Medium.read_write {m m' : Medium} (h : m.write name data = .ok m') :
    (m.read name).toOption = none ∧
      ∀ q, (m'.read q).toOption = if q = name then some data else (m.read q).toOption := by
  cases m with
  | memory table =>
    simp only [write] at h
    split at h
    next => cases h
    next =>
      split at h
      next => cases h
      next hfree =>
        obtain rfl := Except.ok.inj h
        have hnone : table.get? name = none := Table.get?_eq_none_of_not_contains hfree
        refine ⟨by simp [Medium.read, hnone, Except.toOption], ?_⟩
        intro q
        simp only [Medium.read, Table.get?_insert]
        by_cases hq : q = name
        · simp [hq, Except.toOption]
        · simp [hq]
  | directory path dir =>
    have hwrite : ∃ dir', dir.write path name data = .ok dir' ∧ m' = .directory path dir' := by
      simp only [write] at h
      cases hd : dir.write path name data with
      | error e => rw [hd] at h; cases h
      | ok dir' => rw [hd] at h; exact ⟨dir', rfl, (Except.ok.inj h).symm⟩
    obtain ⟨dir', hdir, rfl⟩ := hwrite
    unfold Directory.write at hdir
    split at hdir
    next => cases hdir
    next hname =>
      split at hdir
      next => cases hdir
      next hfree =>
        obtain rfl := Except.ok.inj hdir
        have hnone : dir.nodes.get? name = none := Table.get?_eq_none_of_not_contains hfree
        refine ⟨by simp [Medium.read, Directory.file, hname, hnone, Except.toOption], ?_⟩
        intro q
        by_cases hq : q = name
        · simp [hq, Medium.read, Directory.file, hname, Directory.put, Except.toOption]
        · simp [hq, Medium.read, Directory.file, Directory.put]

theorem Medium.read_delete_of_ne {m m' : Medium} (h : m.delete name = .ok m') (hq : q ≠ name) :
    (m'.read q).toOption = (m.read q).toOption := by
  cases m with
  | memory table =>
    simp only [delete] at h
    split at h
    next =>
      obtain rfl := Except.ok.inj h
      simp [Medium.read, hq]
    next => cases h
  | directory path dir =>
    simp only [delete, Directory.delete] at h
    cases hf : dir.file path name with
    | error e => rw [hf] at h; cases h
    | ok data =>
      rw [hf] at h
      obtain rfl := Except.ok.inj h
      simp [Medium.read, Directory.file, hq]

/-! ## Writing and deleting -/

theorem write_ok (h : s.write name data = (.ok (), s')) :
    s.data? name = none ∧ ∀ q, s'.data? q = if q = name then some data else s.data? q := by
  unfold write at h
  split at h
  next => cases h
  next =>
    split at h
    next => cases h
    next medium hm =>
      obtain ⟨-, rfl⟩ := Prod.mk.inj h
      exact Medium.read_write hm

theorem write_error {e : StoreError} (h : s.write name data = (.error e, s')) :
    s'.medium = s.medium := by
  unfold write at h
  split at h
  next =>
    obtain ⟨-, rfl⟩ := Prod.mk.inj h
    rfl
  next =>
    split at h
    next =>
      obtain ⟨-, rfl⟩ := Prod.mk.inj h
      rfl
    next => cases h

theorem data?_delete_of_ne (hq : q ≠ name) (s : Store) : (s.delete name).2.data? q = s.data? q := by
  unfold delete
  split
  next => rfl
  next =>
    split
    next => rfl
    next medium hm => exact Medium.read_delete_of_ne hm hq

theorem data?_sync (s : Store) (q : String) : s.sync.2.data? q = s.data? q := by
  unfold sync
  split
  next => rfl
  next => rfl

/-- All that is in a store is in another one, with the same data. -/
def Holds (s s' : Store) : Prop := ∀ q data, s.data? q = some data → s'.data? q = some data

theorem Holds.refl (s : Store) : Holds s s := fun _ _ h => h

theorem Holds.trans {s'' : Store} (h : Holds s s') (h' : Holds s' s'') : Holds s s'' :=
  fun q data hq => h' q data (h q data hq)

theorem Holds.congr (h : ∀ q, s'.data? q = s.data? q) : Holds s s' :=
  fun q _ hq => (h q).trans hq

/-- A write changes no artifact. -/
theorem Holds.write (name : String) (data : Bytes) (s : Store) : Holds s (s.write name data).2 := by
  cases hw : s.write name data with
  | mk result s' =>
    cases result with
    | error e => exact Holds.congr (data?_congr (write_error hw))
    | ok _ =>
      obtain ⟨hfree, hafter⟩ := write_ok hw
      intro q old hq
      have hne : q ≠ name := by
        rintro rfl
        rw [hfree] at hq
        cases hq
      show s'.data? q = some old
      rw [hafter, if_neg hne, hq]

theorem Holds.writeAll (add : List (String × Bytes)) (s : Store) :
    Holds s (s.writeAll add).2 := by
  induction add generalizing s with
  | nil => exact Holds.refl s
  | cons a rest ih =>
    have hfirst := Holds.write a.1 a.2 s
    unfold Store.writeAll
    split
    next e s' hw =>
      rw [hw] at hfirst
      exact hfirst
    next s' hw =>
      rw [hw] at hfirst
      exact hfirst.trans (ih s')

/-- Writing artifacts succeeds only if all of them are there afterwards. -/
theorem writeAll_ok {add : List (String × Bytes)} (h : s.writeAll add = (.ok (), s'))
    (hmem : name ∈ add.map Prod.fst) : (s'.data? name).isSome := by
  induction add generalizing s with
  | nil => exact absurd hmem List.not_mem_nil
  | cons a rest ih =>
    unfold writeAll at h
    split at h
    next => cases h
    next s'' hw =>
      rcases List.mem_cons.mp hmem with rfl | hmem
      · have hthere : s''.data? a.1 = some a.2 := by
          rw [(write_ok hw).2, if_pos rfl]
        have hrest := Holds.writeAll rest s''
        rw [h] at hrest
        rw [hrest a.1 a.2 hthere]
        rfl
      · exact ih h hmem

end SnapshotRetention.Store
