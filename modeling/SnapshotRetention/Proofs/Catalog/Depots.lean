import SnapshotRetention.Proofs.Catalog.Deletion

/-!
# Several depots and stores

A catalog may have any number of stores and depots, several depots over one store among them. A step
of a depot (`Catalog.onDepot`) changes the tracker of that depot (`tracker_onDepot`) and the store
it deletes from (`store_onDepot`), and no other. Trying queued deletions again leaves all counts
alone (`refCount_retryDepot`) and clears, if anything, unreferenced names that were queued
(`node_retryDepot`).
-/

namespace SnapshotRetention

namespace Tracker

variable {names : List String} {q : String}

/-- What deleting names does to one name, whatever else is deleted and however often. -/
theorem node_deleteAll (names : List String) (t : Tracker) (s : Store) (q : String) :
    (deleteAll names t s).2.2.medium.node? q = s.medium.node? q ∨
      q ∈ names ∧ (deleteAll names t s).2.2.medium.node? q = none := by
  induction names generalizing t s with
  | nil => exact Or.inl rfl
  | cons name names ih =>
    obtain ⟨kept, hfirst⟩ := deleted_deleteOne name t s
    have hnode := hfirst.store.node q
    have hsub := List.mem_cons_of_mem name (a := q) (l := names)
    rcases ih (deleteOne name t s).2.1 (deleteOne name t s).2.2 with hrest | ⟨hmem, hgone⟩
    · split at hnode
      next hq => exact Or.inr ⟨List.mem_singleton.mp hq.1 ▸ List.mem_cons_self, hrest.trans hnode⟩
      next => exact Or.inl (hrest.trans hnode)
    · exact Or.inr ⟨hsub hmem, hgone⟩

/-- Trying queued deletions again clears nothing but unreferenced names of the queue. -/
theorem node_retry (t : Tracker) (s : Store) (q : String) :
    (retry t s).2.2.medium.node? q = s.medium.node? q ∨
      (q ∈ t.queue ∧ t.refCount q = 0) ∧ (retry t s).2.2.medium.node? q = none := by
  refine (node_deleteAll _ { t with queue := [] } s q).imp_right (And.imp_left fun hmem => ?_)
  obtain ⟨hqueued, hfree⟩ := List.mem_filter.mp hmem
  refine ⟨hqueued, ?_⟩
  simpa [isReferenced] using hfree

/-- With nothing queued nothing is tried again. -/
theorem retry_of_idle {t : Tracker} (h : t.queue = []) (s : Store) : (retry t s).2 = (t, s) := by
  obtain ⟨counts, queue⟩ := t
  obtain rfl : queue = [] := h
  rfl

end Tracker

namespace Catalog

variable {c : Catalog} {n k : Nat} {t : Tracker} {s : Store}

/-- A depot that is there, over a store that is there. -/
structure HasDepot (c : Catalog) (n : Nat) : Prop where
  depot : n < c.depots.length
  store : (c.depot n).store < c.stores.length

/-! ## Replacing one of them -/

theorem store_setStore (n : Nat) (s : Store) (c : Catalog) (k : Nat) :
    (c.setStore n s).store k = if k = n ∧ n < c.stores.length then s else c.store k := by
  unfold setStore store
  simp only [List.getD_eq_getElem?_getD, List.getElem?_set]
  by_cases hk : n = k
  · subst hk
    by_cases hn : n < c.stores.length
    · simp [hn]
    · simp [hn]
  · rw [if_neg hk, if_neg fun h => hk h.1.symm]

theorem store_setStore_of_ne (h : k ≠ n) (s : Store) (c : Catalog) :
    (c.setStore n s).store k = c.store k := by
  rw [store_setStore, if_neg fun hk => h hk.1]

theorem depot_setTracker (n : Nat) (t : Tracker) (c : Catalog) (k : Nat) :
    (c.setTracker n t).depot k =
      if k = n ∧ n < c.depots.length then ⟨(c.depot n).store, t⟩ else c.depot k := by
  unfold setTracker depot
  simp only [List.getD_eq_getElem?_getD, List.getElem?_set]
  by_cases hk : n = k
  · subst hk
    by_cases hn : n < c.depots.length
    · simp [hn]
    · simp [hn]
  · rw [if_neg hk, if_neg fun h => hk h.1.symm]

/-- A depot stays over its store. -/
@[simp] theorem store_depot_setTracker (n : Nat) (t : Tracker) (c : Catalog) (k : Nat) :
    ((c.setTracker n t).depot k).store = (c.depot k).store := by
  rw [depot_setTracker]
  split
  next hk => rw [hk.1]
  next => rfl

theorem storeOf_setStoreOf (h : c.HasDepot n) (s : Store) : (c.setStoreOf n s).storeOf n = s := by
  unfold storeOf setStoreOf
  refine (store_setStore ..).trans (if_pos ⟨rfl, h.store⟩)

/-! ## Steps of a depot -/

section
variable {α : Type} (f : Tracker → Store → α × Tracker × Store)

@[simp] theorem store_depot_onDepot (n : Nat) (c : Catalog) (k : Nat) :
    ((c.onDepot n f).2.depot k).store = (c.depot k).store :=
  store_depot_setTracker n _ c k

theorem tracker_onDepot (n : Nat) (c : Catalog) (k : Nat) :
    (c.onDepot n f).2.tracker k =
      if k = n ∧ n < c.depots.length then (f (c.tracker n) (c.storeOf n)).2.1 else c.tracker k := by
  show (Catalog.depot (c.setTracker n _) k).tracker = _
  rw [depot_setTracker]
  split
  next => rfl
  next => rfl

theorem store_onDepot (n : Nat) (c : Catalog) (k : Nat) :
    (c.onDepot n f).2.store k =
      if k = (c.depot n).store ∧ (c.depot n).store < c.stores.length then
        (f (c.tracker n) (c.storeOf n)).2.2 else c.store k := by
  refine (store_setStore _ _ _ k).trans ?_
  rw [store_depot_setTracker]
  rfl

theorem HasDepot.onDepot (h : c.HasDepot n) (k : Nat) : (c.onDepot k f).2.HasDepot n := by
  refine ⟨?_, ?_⟩
  · show n < (c.depots.set k _).length
    rw [List.length_set]
    exact h.depot
  · rw [store_depot_onDepot]
    show _ < (c.stores.set _ _).length
    rw [List.length_set]
    exact h.store

end

/-! ## Trying queued deletions again -/

/-- The catalog whose queued deletions of one depot have been tried again. -/
def retryDepot (n : Nat) (c : Catalog) : Catalog := (c.onDepot n Tracker.retry).2

theorem HasDepot.retryDepot (h : c.HasDepot n) (k : Nat) : (c.retryDepot k).HasDepot n :=
  h.onDepot _ k

theorem refCount_retryDepot (n : Nat) (c : Catalog) (k : Nat) (name : String) :
    ((c.retryDepot n).tracker k).refCount name = (c.tracker k).refCount name := by
  unfold retryDepot
  rw [tracker_onDepot]
  split
  next hk => rw [Tracker.refCount_retry, hk.1]
  next => rfl

theorem store_retryDepot_of_ne (h : k ≠ (c.depot n).store) :
    (c.retryDepot n).store k = c.store k := by
  unfold retryDepot
  rw [store_onDepot, if_neg fun hk => h hk.1]

theorem node_retryDepot (n : Nat) (c : Catalog) (q : String) :
    ((c.retryDepot n).storeOf n).medium.node? q = (c.storeOf n).medium.node? q ∨
      (q ∈ (c.tracker n).queue ∧ (c.tracker n).refCount q = 0) ∧
        ((c.retryDepot n).storeOf n).medium.node? q = none := by
  unfold retryDepot storeOf
  rw [store_depot_onDepot, store_onDepot]
  split
  next => exact Tracker.node_retry (c.tracker n) (c.storeOf n) q
  next => exact Or.inl rfl

theorem storeOf_retryDepot_of_idle (h : (c.tracker n).queue = []) :
    (c.retryDepot n).storeOf n = c.storeOf n := by
  unfold retryDepot storeOf
  rw [store_depot_onDepot, store_onDepot, Tracker.retry_of_idle h]
  split
  next => rfl
  next => rfl

theorem queue_retryDepot_of_idle (h : (c.tracker n).queue = []) :
    ((c.retryDepot n).tracker n).queue = [] := by
  unfold retryDepot
  rw [tracker_onDepot, Tracker.retry_of_idle h]
  split
  next => exact h
  next => exact h

end Catalog

end SnapshotRetention
