import SnapshotRetention.Keeper.HoldTable
import SnapshotRetention.Proofs.Table

/-!
# Hold tables: counts and pending deletions

What each operation does to the two views of a hold table, the count of a version
(`HoldTable.count`) and the commit whose deletion waits for it (`HoldTable.pending?`). The table
never keeps an entry without a hold (`HoldTable.Positive`), which is why the sweep of a cycle finds
nothing (`HoldTable.sweep_eq_self`). `HoldTable.pendingCount`, the number of waiting deletions,
moves by at most one with each operation.
-/

namespace SnapshotRetention.HoldTable

/-- The commit whose deletion waits for the holds of a version. -/
def pending? (t : HoldTable) (v : Version) : Option Nat := (t.get? v).bind Hold.pending

/-- Every entry stands for at least one hold. -/
def Positive (t : HoldTable) : Prop := ∀ v hold, t.get? v = some hold → 0 < hold.count

/-- The number of deletions that wait for holds. -/
def pendingCount (t : HoldTable) : Nat := t.entries.countP fun e => e.2.pending.isSome

theorem hasPending_eq (t : HoldTable) (v : Version) : t.hasPending v = (t.pending? v).isSome := rfl

theorem count_of_get? {t : HoldTable} {v : Version} {hold : Hold} (h : t.get? v = some hold) :
    t.count v = hold.count := by
  unfold count
  rw [h]
  rfl

theorem pending?_of_get? {t : HoldTable} {v : Version} {hold : Hold} (h : t.get? v = some hold) :
    t.pending? v = hold.pending := by
  unfold pending?
  rw [h]
  rfl

theorem count_of_get?_none {t : HoldTable} {v : Version} (h : t.get? v = none) :
    t.count v = 0 := by
  unfold count
  rw [h]
  rfl

theorem pending?_of_get?_none {t : HoldTable} {v : Version} (h : t.get? v = none) :
    t.pending? v = none := by
  unfold pending?
  rw [h]
  rfl

theorem count_insert (t : HoldTable) (v : Version) (hold : Hold) (q : Version) :
    count (t.insert v hold) q = if q = v then hold.count else t.count q := by
  unfold count
  rw [Table.get?_insert]
  split <;> rfl

theorem pending?_insert (t : HoldTable) (v : Version) (hold : Hold) (q : Version) :
    pending? (t.insert v hold) q = if q = v then hold.pending else t.pending? q := by
  unfold pending?
  rw [Table.get?_insert]
  split <;> rfl

theorem count_erase (t : HoldTable) (v q : Version) :
    count (t.erase v) q = if q = v then 0 else t.count q := by
  unfold count
  rw [Table.get?_erase]
  split <;> rfl

theorem pending?_erase (t : HoldTable) (v q : Version) :
    pending? (t.erase v) q = if q = v then none else t.pending? q := by
  unfold pending?
  rw [Table.get?_erase]
  split <;> rfl

/-! ## Entries without a hold -/

theorem positive_empty : Positive Table.empty := by
  intro v hold h
  simp at h

theorem Positive.insert {t : HoldTable} (h : t.Positive) {v : Version} {hold : Hold}
    (hpos : 0 < hold.count) : Positive (t.insert v hold) := by
  intro q other hq
  rw [Table.get?_insert] at hq
  split at hq
  next => exact Option.some.inj hq ▸ hpos
  next => exact h q other hq

theorem Positive.erase {t : HoldTable} (h : t.Positive) (v : Version) : Positive (t.erase v) := by
  intro q other hq
  rw [Table.get?_erase] at hq
  split at hq
  next => cases hq
  next => exact h q other hq

theorem Positive.isSome_get?_iff {t : HoldTable} (h : t.Positive) (v : Version) :
    (t.get? v).isSome ↔ 0 < t.count v := by
  cases hg : t.get? v with
  | none => simp [count_of_get?_none hg]
  | some hold => simp [count_of_get? hg, h v hold hg]

theorem Positive.exists_get? {t : HoldTable} (h : t.Positive) {v : Version}
    (hv : 0 < t.count v) : ∃ hold, t.get? v = some hold :=
  Option.isSome_iff_exists.mp ((h.isSome_get?_iff v).mpr hv)

theorem Positive.get?_eq_none {t : HoldTable} (h : t.Positive) {v : Version}
    (hv : t.count v = 0) : t.get? v = none := by
  cases hg : t.get? v with
  | none => rfl
  | some hold =>
    have hpos := h v hold hg
    rw [count_of_get? hg] at hv
    omega

theorem Positive.pending?_eq_none {t : HoldTable} (h : t.Positive) {v : Version}
    (hv : t.count v = 0) : t.pending? v = none :=
  pending?_of_get?_none (h.get?_eq_none hv)

theorem Positive.count_pos_of_pending? {t : HoldTable} (h : t.Positive) {v : Version} {n : Nat}
    (hv : t.pending? v = some n) : 0 < t.count v := by
  rcases Nat.eq_zero_or_pos (t.count v) with h0 | hpos
  · rw [h.pending?_eq_none h0] at hv
    cases hv
  · exact hpos

theorem isHeld_iff (t : HoldTable) (v : Version) : t.isHeld v = true ↔ 0 < t.count v := by
  simp [isHeld]

/-- A table without stray entries is left alone by the sweep. -/
theorem sweep_eq_self {t : HoldTable} (h : t.Positive) : t.sweep = t := by
  unfold sweep Table.filter
  congr 1
  refine List.filter_eq_self.mpr ?_
  intro e he
  simpa using h e.1 e.2 ((Table.mem_entries_iff t e.1 e.2).mp he)

theorem strayCount_eq_zero {t : HoldTable} (h : t.Positive) : t.strayCount = 0 := by
  unfold strayCount
  rw [List.length_eq_zero_iff, List.filter_eq_nil_iff]
  intro e he
  have := h e.1 e.2 ((Table.mem_entries_iff t e.1 e.2).mp he)
  simp only [decide_eq_true_eq]
  omega

/-! ## The held versions -/

theorem mem_versions_iff (t : HoldTable) (v : Version) : v ∈ t.versions ↔ 0 < t.count v := by
  unfold versions
  constructor
  · intro h
    obtain ⟨⟨w, hold⟩, he, rfl⟩ := List.mem_map.mp h
    obtain ⟨hmem, hpos⟩ := List.mem_filter.mp he
    rw [count_of_get? ((Table.mem_entries_iff t w hold).mp hmem)]
    simpa using hpos
  · intro h
    cases hg : t.get? v with
    | none => rw [count_of_get?_none hg] at h; omega
    | some hold =>
      rw [count_of_get? hg] at h
      exact List.mem_map.mpr ⟨(v, hold), List.mem_filter.mpr
        ⟨(Table.mem_entries_iff t v hold).mpr hg, by simpa using h⟩, rfl⟩

/-- The held versions are listed in ascending order. -/
theorem pairwise_versions (t : HoldTable) : t.versions.Pairwise (· < ·) :=
  List.pairwise_map.mpr (t.ascending.filter _)

/-! ## One more hold -/

theorem count_acquire (t : HoldTable) (v q : Version) :
    (t.acquire v).count q = t.count q + if q = v then 1 else 0 := by
  unfold acquire
  split
  next hg =>
    rw [count_insert]
    split
    next hq => rw [hq, count_of_get?_none hg]
    next => rfl
  next hold hg =>
    rw [count_insert]
    split
    next hq => rw [hq, count_of_get? hg]
    next => rfl

theorem pending?_acquire (t : HoldTable) (v q : Version) :
    pending? (t.acquire v) q = t.pending? q := by
  unfold acquire
  split
  next hg =>
    rw [pending?_insert]
    split
    next hq => rw [hq, pending?_of_get?_none hg]
    next => rfl
  next hold hg =>
    rw [pending?_insert]
    split
    next hq => rw [hq, pending?_of_get? hg]
    next => rfl

theorem Positive.acquire {t : HoldTable} (h : t.Positive) (v : Version) :
    Positive (t.acquire v) := by
  unfold HoldTable.acquire
  split
  next => exact h.insert Nat.one_pos
  next => exact h.insert (Nat.succ_pos _)

/-! ## One hold less -/

theorem release_last {t : HoldTable} {v : Version} (h : t.count v = 1) :
    t.release v = (.freed (t.pending? v), t.erase v) := by
  cases hg : t.get? v with
  | none => rw [count_of_get?_none hg] at h; cases h
  | some hold =>
    rw [count_of_get? hg] at h
    rw [pending?_of_get? hg]
    simp only [release, hg, h]

theorem release_more {t : HoldTable} {v : Version} {n : Nat} (h : t.count v = n + 2) :
    t.release v = (.held (n + 1), t.insert v ⟨n + 1, t.pending? v⟩) := by
  cases hg : t.get? v with
  | none => rw [count_of_get?_none hg] at h; cases h
  | some hold =>
    rw [count_of_get? hg] at h
    rw [pending?_of_get? hg]
    simp only [release, hg, h]

theorem count_release {t : HoldTable} {v : Version} (h : 0 < t.count v) (q : Version) :
    (t.release v).2.count q + (if q = v then 1 else 0) = t.count q := by
  obtain ⟨n, hn⟩ := Nat.exists_eq_add_one.mpr h
  cases n with
  | zero =>
    rw [release_last hn, count_erase]
    split
    next hq => rw [hq, hn]
    next => rfl
  | succ n =>
    rw [release_more hn, count_insert]
    split
    next hq => rw [hq, hn]
    next => rfl

/-- Only giving up the last hold of a version takes its pending deletion off the table. -/
theorem pending?_release {t : HoldTable} {v : Version} (h : 0 < t.count v) (q : Version) :
    pending? (t.release v).2 q = if q = v ∧ t.count v = 1 then none else t.pending? q := by
  obtain ⟨n, hn⟩ := Nat.exists_eq_add_one.mpr h
  cases n with
  | zero =>
    rw [release_last hn, pending?_erase, hn]
    simp
  | succ n =>
    have hmore : ¬(q = v ∧ t.count v = 1) := by omega
    rw [release_more hn, pending?_insert, if_neg hmore]
    split
    next hq => rw [hq]
    next => rfl

theorem Positive.release {t : HoldTable} (h : t.Positive) (v : Version) :
    Positive (t.release v).2 := by
  unfold HoldTable.release
  split
  next => exact h
  next hold _ =>
    split
    next => exact h.erase v
    next => exact h.erase v
    next n _ => exact h.insert (Nat.succ_pos n)

/-- What is pending after a release was pending before. -/
theorem pending?_of_release {t : HoldTable} {v q : Version} {n : Nat}
    (h : (t.release v).2.pending? q = some n) : t.pending? q = some n := by
  have herased : pending? (t.erase v) q = some n → t.pending? q = some n := by
    intro h
    rw [pending?_erase] at h
    split at h
    next => cases h
    next => exact h
  unfold release at h
  split at h
  next => exact h
  next hold hg =>
    split at h
    next => exact herased h
    next => exact herased h
    next =>
      rw [pending?_insert] at h
      split at h
      next hq => rw [hq, pending?_of_get? hg, h]
      next => exact h

/-- What a release takes off the table was pending on its version. -/
theorem pending?_of_freed {t : HoldTable} {v : Version} {n : Nat}
    (h : (t.release v).1 = .freed (some n)) : t.pending? v = some n := by
  unfold release at h
  split at h
  next => cases h
  next hold hg =>
    split at h
    next => cases h
    next =>
      rw [pending?_of_get? hg]
      exact Unhold.freed.inj h
    next => cases h

/-! ## Pending deletions -/

theorem count_setPending (t : HoldTable) (v : Version) (n : Nat) (q : Version) :
    (t.setPending v n).count q = t.count q := by
  unfold setPending
  split
  next => rfl
  next hold hg =>
    rw [count_insert]
    split
    next hq => rw [hq, count_of_get? hg]
    next => rfl

theorem pending?_setPending {t : HoldTable} {v : Version} (h : t.Positive) (hv : 0 < t.count v)
    (n : Nat) (q : Version) :
    pending? (t.setPending v n) q = if q = v then some n else t.pending? q := by
  obtain ⟨hold, hg⟩ := h.exists_get? hv
  simp only [setPending, hg]
  rw [pending?_insert]

theorem Positive.setPending {t : HoldTable} (h : t.Positive) (v : Version) (n : Nat) :
    Positive (t.setPending v n) := by
  unfold HoldTable.setPending
  split
  next => exact h
  next hold hg => exact h.insert (h v hold hg)

theorem count_clearPending (t : HoldTable) (v q : Version) :
    (t.clearPending v).count q = t.count q := by
  unfold clearPending
  split
  next => rfl
  next hold hg =>
    rw [count_insert]
    split
    next hq => rw [hq, count_of_get? hg]
    next => rfl

theorem pending?_clearPending (t : HoldTable) (v q : Version) :
    pending? (t.clearPending v) q = if q = v then none else t.pending? q := by
  unfold clearPending
  split
  next hg =>
    split
    next hq => rw [hq, pending?_of_get?_none hg]
    next => rfl
  next hold hg => rw [pending?_insert]

theorem Positive.clearPending {t : HoldTable} (h : t.Positive) (v : Version) :
    Positive (t.clearPending v) := by
  unfold HoldTable.clearPending
  split
  next => exact h
  next hold hg => exact h.insert (h v hold hg)

/-! ## The number of pending deletions -/

theorem pendingCount_insert (t : HoldTable) (v : Version) (hold : Hold) :
    pendingCount (t.insert v hold) =
      pendingCount (t.erase v) + if hold.pending.isSome then 1 else 0 := by
  unfold pendingCount
  rw [(Table.insert_perm t v hold).countP_eq, List.countP_cons]

theorem pendingCount_erase (t : HoldTable) (v : Version) :
    pendingCount (t.erase v) + (if (t.pending? v).isSome then 1 else 0) = t.pendingCount := by
  cases hg : t.get? v with
  | none => rw [Table.erase_eq_self hg, pending?_of_get?_none hg]; rfl
  | some hold =>
    rw [pending?_of_get? hg, ← pendingCount_insert, Table.insert_get? hg]

theorem pendingCount_acquire (t : HoldTable) (v : Version) :
    pendingCount (t.acquire v) = t.pendingCount := by
  rw [← pendingCount_erase t v]
  unfold acquire
  split
  next hg => rw [pendingCount_insert, pending?_of_get?_none hg]
  next hold hg => rw [pendingCount_insert, pending?_of_get? hg]

/-- A pending deletion that is taken off the table is no longer counted. -/
theorem pendingCount_release {t : HoldTable} {v : Version} (h : 0 < t.count v) :
    pendingCount (t.release v).2 +
      (if t.count v = 1 ∧ (t.pending? v).isSome then 1 else 0) = t.pendingCount := by
  obtain ⟨n, hn⟩ := Nat.exists_eq_add_one.mpr h
  rw [← pendingCount_erase t v]
  cases n with
  | zero =>
    rw [release_last hn, hn]
    simp
  | succ n =>
    have hmore : ¬(t.count v = 1 ∧ (t.pending? v).isSome) := by omega
    rw [release_more hn, pendingCount_insert, if_neg hmore, Nat.add_zero]

theorem pendingCount_setPending (t : HoldTable) (v : Version) (n : Nat) :
    pendingCount (t.setPending v n) ≤ t.pendingCount + 1 := by
  unfold setPending
  split
  next => exact Nat.le_succ _
  next hold hg =>
    have := pendingCount_erase t v
    rw [pendingCount_insert]
    simp only [Option.isSome_some, if_true]
    omega

theorem pendingCount_clearPending (t : HoldTable) (v : Version) :
    pendingCount (t.clearPending v) ≤ t.pendingCount := by
  unfold clearPending
  split
  next => exact Nat.le_refl _
  next hold hg =>
    have := pendingCount_erase t v
    rw [pendingCount_insert]
    simp only [Option.isSome_none, Bool.false_eq_true, if_false]
    omega

end SnapshotRetention.HoldTable
