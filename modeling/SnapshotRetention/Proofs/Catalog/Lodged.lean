import SnapshotRetention.Proofs.Catalog.Deletion

/-!
# A catalog behind another one

A writer that opens over a catalog counts its references with a tracker of its own and adds its
commits behind those that are there. So what it does to the catalog is what a writer does to a
catalog of its own (`Catalog.lodge`), up to the numbers of the commits and of the tracker: adopting
a history (`adoptAll_lodge`) and deleting commits (`delete_lodge`) commute with `lodge`.
-/

namespace SnapshotRetention

/-- A commit whose artifacts another depot counts. -/
def Commit.moveTo (depot : Nat) (m : Commit) : Commit := { m with backing := .artifacts depot }

namespace Catalog

variable {b c : Catalog} {s : Store} {old : List Commit} {olds : List Depot} {i : Nat}
  {ns : List Nat} {m : Manifest}

/-- A catalog of one depot, behind some depots and commits that are there already. -/
def lodge (old : List Commit) (olds : List Depot) (b : Catalog) : Catalog :=
  ⟨b.stores, olds ++ b.depots, old ++ b.commits.map (Commit.moveTo olds.length)⟩

@[simp] theorem store_lodge (old : List Commit) (olds : List Depot) (b : Catalog) (n : Nat) :
    (b.lodge old olds).store n = b.store n := rfl

@[simp] theorem setStore_lodge (old : List Commit) (olds : List Depot) (b : Catalog) (n : Nat)
    (s : Store) : (b.lodge old olds).setStore n s = (b.setStore n s).lodge old olds := rfl

theorem Single.stores_eq (h : b.Single) : b.stores = [b.store 0] := by
  obtain ⟨s, hs⟩ := h.stores
  unfold store
  rw [hs]
  rfl

theorem commit_lodge (hi : i < b.commits.length) :
    (b.lodge old olds).commit (old.length + i) = (b.commit i).moveTo olds.length := by
  unfold lodge Catalog.commit
  simp [List.getElem?_append_right, List.getElem?_eq_getElem hi]

theorem manifest_lodge (hi : i < b.commits.length) :
    ((b.lodge old olds).commit (old.length + i)).manifest = (b.commit i).manifest := by
  rw [commit_lodge hi]
  rfl

theorem isDeleted_lodge (hi : i < b.commits.length) :
    (b.lodge old olds).isDeleted (old.length + i) = b.isDeleted i := by
  unfold isDeleted
  rw [commit_lodge hi]
  rfl

/-- The commits behind those that are there, by their numbers. -/
theorem undeleted_lodge (old : List Commit) (olds : List Depot)
    (hns : ∀ i ∈ ns, i < b.commits.length) :
    (b.lodge old olds).undeleted (ns.map (old.length + ·)) =
      (b.undeleted ns).map (old.length + ·) := by
  unfold undeleted
  rw [List.filter_map]
  refine congrArg _ (List.filter_congr fun i hi => ?_)
  rw [Function.comp_apply, isDeleted_lodge (hns i hi)]

theorem shown_lodge (hns : ∀ i ∈ ns, i < b.commits.length) :
    (b.lodge old olds).shown (ns.map (old.length + ·)) = b.shown ns := by
  unfold shown
  rw [List.map_map]
  refine List.map_congr_left fun i hi => ?_
  rw [Function.comp_apply, commit_lodge (hns i hi)]
  rfl

/-- The commits that are there already stay. -/
theorem extends_lodge (c b : Catalog) : c.Extends (b.lodge c.commits c.depots) := by
  refine ⟨?_, fun n hn => ?_⟩
  · unfold lodge
    simp
  · unfold lodge Catalog.commit
    simp [List.getElem?_append_left hn]

theorem Single.depot_lodge (h : b.Single) :
    (b.lodge old olds).depot olds.length = ⟨0, b.tracker 0⟩ := by
  obtain ⟨t, ht⟩ := h.depots
  unfold lodge depot tracker depot
  rw [ht]
  simp

theorem Single.tracker_lodge (h : b.Single) :
    (b.lodge old olds).tracker olds.length = b.tracker 0 := by
  unfold tracker
  rw [h.depot_lodge]
  rfl

/-! ## Opening -/

/-- A tracker of one's own is the first of a catalog of one's own. -/
theorem addDepot_eq_lodge (h : c.stores = [s]) :
    c.addDepot 0 = ((Catalog.ofStore s).addDepot 0).lodge c.commits c.depots := by
  obtain ⟨stores, depots, commits⟩ := c
  obtain rfl : stores = [s] := h
  simp [addDepot, lodge, ofStore]

theorem Single.setTracker_lodge (h : b.Single) (t : Tracker) :
    (b.lodge old olds).setTracker olds.length t = (b.setTracker 0 t).lodge old olds := by
  obtain ⟨t', ht⟩ := h.depots
  unfold setTracker
  rw [h.depot_lodge]
  unfold lodge depot
  simp [ht]

theorem Single.adopt_lodge (h : b.Single) (m : Manifest) :
    (b.lodge old olds).adopt olds.length m =
      (old.length + (b.adopt 0 m).1, (b.adopt 0 m).2.lodge old olds) := by
  have hadd : (b.lodge old olds).addCommit ⟨m, .artifacts olds.length, false⟩ =
      (b.addCommit ⟨m, .artifacts 0, false⟩).lodge old olds := by
    simp [lodge, addCommit, Commit.moveTo]
  have hsingle : (b.addCommit ⟨m, .artifacts 0, false⟩).Single := ⟨h.stores, h.depots⟩
  unfold adopt
  rw [hadd, h.tracker_lodge, hsingle.setTracker_lodge]
  simp [lodge]

theorem Tallied.adoptAll_lodge (h : b.Tallied) (old : List Commit) (olds : List Depot)
    (hqueue : (b.tracker 0).queue = []) (ms : List Manifest) :
    (b.lodge old olds).adoptAll olds.length ms =
      ((b.adoptAll 0 ms).1.map (old.length + ·), (b.adoptAll 0 ms).2.lodge old olds) := by
  induction ms generalizing b with
  | nil => rfl
  | cons m ms ih =>
    have hempty : ((b.adopt 0 m).2.tracker 0).queue = [] := by
      rw [h.single.adopt_eq]
      exact (Tracker.queue_incref m.fileNames (b.tracker 0)).trans hqueue
    have htallied : (b.adopt 0 m).2.Tallied :=
      h.adopt fun q _ hwaits => by rw [hqueue] at hwaits; cases hwaits
    unfold adoptAll
    rw [h.single.adopt_lodge]
    dsimp only
    rw [ih htallied hempty]
    rfl

/-! ## Deleting -/

theorem Single.onDepot_lodge {α : Type} (h : b.Single) (f : Tracker → Store → α × Tracker × Store) :
    (b.lodge old olds).onDepot olds.length f =
      ((b.onDepot 0 f).1, (b.onDepot 0 f).2.lodge old olds) := by
  obtain ⟨s, hs⟩ := h.stores
  obtain ⟨t, ht⟩ := h.depots
  obtain ⟨stores, depots, commits⟩ := b
  obtain rfl : stores = [s] := hs
  obtain rfl : depots = [⟨0, t⟩] := ht
  simp [onDepot, lodge, tracker, depot, storeOf, store, setTracker, setStoreOf, setStore]

theorem setCommit_lodge (i : Nat) (m : Commit) :
    (b.lodge old olds).setCommit (old.length + i) (m.moveTo olds.length) =
      (b.setCommit i m).lodge old olds := by
  unfold setCommit lodge
  simp [List.set_append_right]

/-- Deleting a commit of one's own. -/
theorem Tallied.delete_lodge (h : b.Tallied) (hi : i < b.commits.length) :
    (b.lodge old olds).delete (old.length + i) =
      ((b.delete i).1, (b.delete i).2.lodge old olds) := by
  have hb := h.artifacts i hi
  have hmoved : ((b.lodge old olds).commit (old.length + i)).backing = .artifacts olds.length := by
    rw [commit_lodge hi]
    rfl
  cases hdeleted : b.isDeleted i with
  | true =>
    rw [delete_of_isDeleted hb hdeleted,
      delete_of_isDeleted hmoved ((isDeleted_lodge hi).trans hdeleted)]
  | false =>
    have hkept : (b.lodge old olds).isDeleted (old.length + i) = false :=
      (isDeleted_lodge hi).trans hdeleted
    have hmark : (b.lodge old olds).setCommit (old.length + i)
        { (b.lodge old olds).commit (old.length + i) with deleted := true } =
        (b.setCommit i { b.commit i with deleted := true }).lodge old olds := by
      rw [← setCommit_lodge, commit_lodge hi]
      rfl
    have hsingle : (b.setCommit i { b.commit i with deleted := true }).Single :=
      ⟨h.single.stores, h.single.depots⟩
    unfold Catalog.delete
    rw [hmoved, hb]
    dsimp only
    rw [if_neg (by rw [hkept]; decide), if_neg (by rw [hdeleted]; decide)]
    unfold deleteStored
    rw [hmark, manifest_lodge hi, hsingle.onDepot_lodge]

end Catalog

end SnapshotRetention
