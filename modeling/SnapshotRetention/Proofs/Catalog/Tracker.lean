import SnapshotRetention.Catalog.Tracker
import SnapshotRetention.Proofs.Store

/-!
# What a tracker deletes

Taking references back lowers the counts (`refCount_discount`) and dooms only names whose count is
zero then (`refCount_of_doomed`). Deleting leaves the counts alone (`refCount_deleteAll`) and all
names that it is not given (`data?_deleteAll`). So neither `decref` nor `retry` touches an artifact
that is still referenced.
-/

namespace SnapshotRetention.Tracker

variable {t : Tracker} {s : Store} {q : String}

/-! ## Taking references back -/

theorem refCount_of_tracked {n : Nat} (h : t.counts.get? q = some n) : t.refCount q = n := by
  unfold refCount
  rw [h]
  rfl

theorem refCount_decrement (name q : String) (t : Tracker) :
    (t.decrement name).refCount q = t.refCount q - if q = name then 1 else 0 := by
  unfold decrement
  split
  next hnone =>
    by_cases hq : q = name
    · subst hq
      simp [refCount, hnone]
    · simp [hq]
  next n hn =>
    have hn := refCount_of_tracked hn
    split
    next hlt =>
      unfold refCount
      rw [Table.get?_insert]
      by_cases hq : q = name
      · subst hq
        rw [if_pos rfl, if_pos rfl]
        show n - 1 = t.refCount q - 1
        omega
      · simp [hq]
    next hle =>
      unfold refCount
      rw [Table.get?_erase]
      by_cases hq : q = name
      · subst hq
        rw [if_pos rfl, if_pos rfl]
        show 0 = t.refCount q - 1
        omega
      · simp [hq]

theorem refCount_discount (names : List String) (q : String) (t : Tracker) :
    (discount names t).2.refCount q = t.refCount q - names.count q := by
  induction names generalizing t with
  | nil => rfl
  | cons name names ih =>
    show (discount names (t.decrement name)).2.refCount q = _
    rw [ih, refCount_decrement, List.count_cons]
    by_cases hq : q = name
    · subst hq
      simp
      omega
    · simp [hq, Ne.symm hq]

/-- The last reference is one that leaves none. -/
theorem refCount_of_isLast {name : String} (h : t.isLast name = true) :
    (t.decrement name).refCount name = 0 := by
  rw [refCount_decrement, if_pos rfl]
  unfold isLast at h
  split at h
  next => cases h
  next n hn =>
    have hcount := refCount_of_tracked hn
    have hle : n ≤ 1 := by simpa using h
    omega

/-- What is doomed is not referenced any more. -/
theorem refCount_of_doomed {names : List String} (h : q ∈ (discount names t).1) :
    (discount names t).2.refCount q = 0 := by
  induction names generalizing t with
  | nil => exact absurd h List.not_mem_nil
  | cons name names ih =>
    have hlast : q ∈ (discount names (t.decrement name)).1 →
        (discount names (t.decrement name)).2.refCount q = 0 := ih
    show (discount names (t.decrement name)).2.refCount q = 0
    have hmem : q ∈ if t.isLast name then name :: (discount names (t.decrement name)).1
        else (discount names (t.decrement name)).1 := h
    split at hmem
    next hl =>
      rcases List.mem_cons.mp hmem with rfl | hmem
      · have hzero := refCount_of_isLast hl
        rw [refCount_discount]
        omega
      · exact hlast hmem
    next => exact hlast hmem

/-! ## Deleting -/

theorem refCount_deleteOne (name : String) (t : Tracker) (s : Store) (q : String) :
    (deleteOne name t s).2.1.refCount q = t.refCount q := by
  unfold deleteOne
  split
  all_goals rfl

theorem data?_deleteOne {name : String} (hq : q ≠ name) (t : Tracker) (s : Store) :
    (deleteOne name t s).2.2.data? q = s.data? q := by
  have hdelete := Store.data?_delete_of_ne hq s
  unfold deleteOne
  split
  next s' hd => rw [hd] at hdelete; exact hdelete
  next s' hd => rw [hd] at hdelete; exact hdelete
  next s' _ hd => rw [hd] at hdelete; exact hdelete

theorem refCount_deleteAll (names : List String) (t : Tracker) (s : Store) (q : String) :
    (deleteAll names t s).2.1.refCount q = t.refCount q := by
  induction names generalizing t s with
  | nil => rfl
  | cons name names ih =>
    have hrest := ih (deleteOne name t s).2.1 (deleteOne name t s).2.2
    exact hrest.trans (refCount_deleteOne name t s q)

theorem data?_deleteAll {names : List String} (hq : q ∉ names) (t : Tracker) (s : Store) :
    (deleteAll names t s).2.2.data? q = s.data? q := by
  induction names generalizing t s with
  | nil => rfl
  | cons name names ih =>
    rw [List.mem_cons, not_or] at hq
    have hrest := ih hq.2 (deleteOne name t s).2.1 (deleteOne name t s).2.2
    exact hrest.trans (data?_deleteOne hq.1 t s)

/-! ## Both together -/

theorem refCount_decref (names : List String) (t : Tracker) (s : Store) (q : String) :
    (decref names t s).2.1.refCount q = t.refCount q - names.count q := by
  have hdelete := refCount_deleteAll (discount names t).1 (discount names t).2 s q
  exact hdelete.trans (refCount_discount names q t)

/-- Taking references back deletes nothing that is still referenced. -/
theorem data?_decref {names : List String} (h : names.count q < t.refCount q) (s : Store) :
    (decref names t s).2.2.data? q = s.data? q := by
  refine data?_deleteAll (fun hdoomed => ?_) (discount names t).2 s
  have hzero := refCount_of_doomed hdoomed
  rw [refCount_discount] at hzero
  omega

theorem refCount_retry (t : Tracker) (s : Store) (q : String) :
    (retry t s).2.1.refCount q = t.refCount q :=
  refCount_deleteAll _ { t with queue := [] } s q

/-- Trying queued deletions again deletes nothing that is referenced. -/
theorem data?_retry (h : 0 < t.refCount q) (s : Store) : (retry t s).2.2.data? q = s.data? q := by
  refine data?_deleteAll (fun hqueued => ?_) { t with queue := [] } s
  have hfree := (List.mem_filter.mp hqueued).2
  simp [isReferenced] at hfree
  omega

end SnapshotRetention.Tracker
