import SnapshotRetention.Proofs.Catalog.Depots
import SnapshotRetention.Proofs.Store.Erodes

/-!
# What several depots keep

A catalog is shelved (`Catalog.Shelved`) if each of its commits is backed by a depot that is there
and each depot counts what its own undeleted commits list. Depots over one store know nothing of
each other, so that deleting a commit of one may take artifacts of the other. What a commit of a
depot lists is left alone when commits are deleted whose depots are the same or over other stores
(`Catalog.Apart`, `Shelved.erodes_deleteEach`).
-/

namespace SnapshotRetention

open Store (Erodes)

/-- The artifacts that a commit keeps in a depot: all of its own if they are there, until it is
deleted. -/
def Commit.referencesIn (d : Nat) (m : Commit) : List String :=
  if m.backing = .artifacts d then m.references else []

namespace Catalog

variable {c d : Catalog} {n m i j depot : Nat} {q : String} {ns : List Nat} {ms : List Manifest}

/-- The artifacts that the undeleted commits of a depot list, each as often as it is listed. -/
def referencedIn (i : Nat) (c : Catalog) : List String := c.commits.flatMap (Commit.referencesIn i)

/-- Each commit is backed by a depot that is there, and each depot counts what its undeleted commits
list. -/
structure Shelved (c : Catalog) : Prop where
  backed : ∀ n, n < c.commits.length →
    ∃ i, (c.commit n).backing = .artifacts i ∧ i < c.depots.length
  counted : ∀ i q, (c.tracker i).refCount q = (c.referencedIn i).count q

/-- Two depots that do not share a store, unless they are one. -/
def Apart (c : Catalog) (i j : Nat) : Prop := i = j ∨ (c.depot i).store ≠ (c.depot j).store

theorem Apart.symm (h : c.Apart i j) : c.Apart j i := h.imp Eq.symm Ne.symm

/-- The depots of one catalog are those of another, which may have more, over the same stores. -/
structure SameDepots (c d : Catalog) : Prop where
  length : c.depots.length ≤ d.depots.length
  store : ∀ k, k < c.depots.length → (d.depot k).store = (c.depot k).store

theorem SameDepots.refl (c : Catalog) : SameDepots c c := ⟨Nat.le_refl _, fun _ _ => rfl⟩

theorem SameDepots.trans {e : Catalog} (h : SameDepots c d) (h' : SameDepots d e) :
    SameDepots c e :=
  ⟨Nat.le_trans h.length h'.length, fun k hk =>
    (h'.store k (Nat.lt_of_lt_of_le hk h.length)).trans (h.store k hk)⟩

theorem SameDepots.apart (h : SameDepots c d) (hi : i < c.depots.length) (hj : j < c.depots.length)
    (ha : c.Apart i j) : d.Apart i j := by
  unfold Apart
  rw [h.store i hi, h.store j hj]
  exact ha

theorem SameDepots.storeOf (h : SameDepots c d) (hi : i < c.depots.length) :
    d.storeOf i = d.store (c.depot i).store := by
  unfold Catalog.storeOf
  rw [h.store i hi]

theorem Shelved.lt_of_backing (h : c.Shelved) (hn : n < c.commits.length)
    (hb : (c.commit n).backing = .artifacts i) : i < c.depots.length := by
  obtain ⟨k, hk, hlt⟩ := h.backed n hn
  obtain rfl := Backing.artifacts.inj (hb.symm.trans hk)
  exact hlt

/-! ## What a commit references -/

theorem referencesIn_of_kept (hkept : c.isDeleted n = false)
    (hb : (c.commit n).backing = .artifacts i) :
    (c.commit n).referencesIn i = (c.commit n).manifest.fileNames := by
  unfold Commit.referencesIn
  rw [if_pos hb, references_of_kept hkept]

theorem referencesIn_of_ne {k : Nat} (hb : (c.commit n).backing = .artifacts i) (hne : k ≠ i) :
    (c.commit n).referencesIn k = [] := by
  unfold Commit.referencesIn
  rw [if_neg fun hk => hne (Backing.artifacts.inj (hk.symm.trans hb))]

/-- An undeleted commit is a reference to each of its artifacts. -/
theorem mem_referencedIn (hn : n < c.commits.length) (hkept : c.isDeleted n = false)
    (hb : (c.commit n).backing = .artifacts i) (hq : q ∈ (c.commit n).manifest.fileNames) :
    q ∈ c.referencedIn i := by
  refine List.mem_flatMap.mpr ⟨c.commit n, List.mem_of_getElem? (getElem?_commits hn), ?_⟩
  rw [referencesIn_of_kept hkept hb]
  exact hq

/-- Marking a commit as deleted takes its references and no others. -/
theorem referencedIn_setDeleted (hn : n < c.commits.length) (i : Nat) :
    (c.referencedIn i).Perm ((c.commit n).referencesIn i ++
      (c.setCommit n { c.commit n with deleted := true }).referencedIn i) := by
  obtain ⟨rest, hall, hset⟩ := flatMap_set_perm (Commit.referencesIn i) (getElem?_commits hn)
  have hnone : ({ c.commit n with deleted := true } : Commit).referencesIn i = [] := by
    unfold Commit.referencesIn Commit.references
    split
    next => exact if_pos rfl
    next => rfl
  have hrest := hset { c.commit n with deleted := true }
  rw [hnone] at hrest
  exact hall.trans (hrest.symm.append_left _)

/-! ## Deleting -/

/-- Deleting an undeleted commit marks it and takes its references back. -/
theorem delete_eq_onDepot (hb : (c.commit n).backing = .artifacts i)
    (hkept : c.isDeleted n = false) : c.delete n =
      (c.setCommit n { c.commit n with deleted := true }).onDepot i
        (Tracker.decref (c.commit n).manifest.fileNames) := by
  unfold Catalog.delete
  rw [hb]
  dsimp only
  rw [if_neg (by rw [hkept]; decide)]
  rfl

theorem sameDepots_delete (n : Nat) (c : Catalog) : SameDepots c (c.delete n).2 := by
  unfold Catalog.delete
  split
  next i _ =>
    split
    next => exact .refl c
    next =>
      exact ⟨Nat.le_of_eq (List.length_set ..).symm,
        fun k _ => store_depot_onDepot _ i (c.setCommit n _) k⟩
  next => exact .refl c
  next => exact ⟨Nat.le_refl _, fun _ _ => rfl⟩

/-- What deleting a commit of a depot does to the references. -/
theorem count_setDeleted (h : c.Shelved) (hn : n < c.commits.length)
    (hkept : c.isDeleted n = false) (hb : (c.commit n).backing = .artifacts i) (q : String) :
    (c.tracker i).refCount q = (c.commit n).manifest.fileNames.count q +
      ((c.setCommit n { c.commit n with deleted := true }).referencedIn i).count q := by
  rw [h.counted, (referencedIn_setDeleted hn i).count_eq, List.count_append,
    referencesIn_of_kept hkept hb]

theorem Shelved.delete (h : c.Shelved) (n : Nat) : (c.delete n).2.Shelved := by
  rcases Nat.lt_or_ge n c.commits.length with hn | hn
  · obtain ⟨i, hb, hi⟩ := h.backed n hn
    cases hdeleted : c.isDeleted n with
    | true =>
      rw [delete_of_isDeleted hb hdeleted]
      exact h
    | false =>
      have hdepots := (sameDepots_delete n c).length
      refine ⟨fun m hm => ?_, fun k q => ?_⟩
      · rw [(sameCommits_delete n c).length] at hm
        obtain ⟨j, hj, hlt⟩ := h.backed m hm
        exact ⟨j, (backing_delete hb m).trans hj, Nat.lt_of_lt_of_le hlt hdepots⟩
      · rw [delete_eq_onDepot hb hdeleted, tracker_onDepot]
        show _ = ((c.setCommit n { c.commit n with deleted := true }).referencedIn k).count q
        by_cases hk : k = i
        · subst hk
          rw [if_pos ⟨rfl, hi⟩, Tracker.refCount_decref]
          show (c.tracker k).refCount q - _ = _
          rw [count_setDeleted h hn hdeleted hb, Nat.add_sub_cancel_left]
        · rw [if_neg fun hand => hk hand.1]
          show (c.tracker k).refCount q = _
          rw [h.counted, (referencedIn_setDeleted hn k).count_eq, referencesIn_of_ne hb hk,
            List.nil_append]
  · rw [delete_of_length_le hn]
    exact h

/-- Deleting a commit puts nothing into any store. -/
theorem erodes_delete (n : Nat) (c : Catalog) (k : Nat) :
    Erodes [] (c.store k) ((c.delete n).2.store k) := by
  unfold Catalog.delete
  split
  next i _ =>
    split
    next => exact .refl _ _
    next =>
      unfold deleteStored
      rw [store_onDepot]
      split
      next hk =>
        obtain ⟨rfl, -⟩ := hk
        exact Store.erodes_deleteAll (fun q hq => absurd hq List.not_mem_nil) _ _
      next => exact .refl _ _
  next => exact .refl _ _
  next => exact .refl _ _

/-- Deleting a commit leaves what another commit lists, if their depots are apart. -/
theorem Shelved.erodes_delete (h : c.Shelved) (hm : m < c.commits.length)
    (hkept : c.isDeleted m = false) (hbm : (c.commit m).backing = .artifacts i) (hne : m ≠ n)
    (hbn : (c.commit n).backing = .artifacts j) (hapart : c.Apart j i) :
    Erodes (c.commit m).manifest.fileNames (c.storeOf i) ((c.delete n).2.storeOf i) := by
  rcases Nat.lt_or_ge n c.commits.length with hn | hn
  · cases hdeleted : c.isDeleted n with
    | true =>
      rw [delete_of_isDeleted hbn hdeleted]
      exact .refl _ _
    | false =>
      have hi := h.lt_of_backing hm hbm
      rw [(sameDepots_delete n c).storeOf hi, delete_eq_onDepot hbn hdeleted, store_onDepot]
      split
      next hshared =>
        obtain rfl : j = i := hapart.resolve_right fun hstores => hstores hshared.1.symm
        -- what the other commit lists keeps a reference
        refine Store.erodes_deleteAll (fun q hq hdoomed => ?_) _ _
        have hzero := Tracker.refCount_of_doomed hdoomed
        have hsame : (c.setCommit n { c.commit n with deleted := true }).commit m = c.commit m := by
          rw [commit_setCommit, if_neg fun hmn => hne hmn.1]
        have hlisted : q ∈ (c.setCommit n { c.commit n with deleted := true }).referencedIn j := by
          refine mem_referencedIn (n := m) ?_ ?_ ?_ ?_
          · rw [length_setCommit]
            exact hm
          · unfold Catalog.isDeleted
            rw [hsame]
            exact hkept
          · rw [hsame]
            exact hbm
          · rw [hsame]
            exact hq
        have hcount := count_setDeleted h hn hdeleted hbn q
        have hpos := List.count_pos_iff.mpr hlisted
        rw [Tracker.refCount_discount] at hzero
        have hzero : (c.tracker j).refCount q - _ = 0 := hzero
        omega
      next => exact .refl _ _
  · rw [delete_of_length_le hn]
    exact .refl _ _

/-! ## Deleting several commits -/

theorem sameDepots_deleteEach (ns : List Nat) (c : Catalog) : SameDepots c (c.deleteEach ns) := by
  induction ns generalizing c with
  | nil => exact .refl c
  | cons n ns ih => exact (sameDepots_delete n c).trans (ih _)

theorem Shelved.deleteEach (h : c.Shelved) (ns : List Nat) : (c.deleteEach ns).Shelved := by
  induction ns generalizing c with
  | nil => exact h
  | cons n ns ih => exact ih (h.delete n)

theorem Shelved.backing_delete (h : c.Shelved) (n m : Nat) :
    ((c.delete n).2.commit m).backing = (c.commit m).backing := by
  rcases Nat.lt_or_ge n c.commits.length with hn | hn
  · obtain ⟨i, hb, -⟩ := h.backed n hn
    exact Catalog.backing_delete hb m
  · rw [delete_of_length_le hn]

theorem Shelved.backing_deleteEach (h : c.Shelved) (ns : List Nat) (m : Nat) :
    ((c.deleteEach ns).commit m).backing = (c.commit m).backing := by
  induction ns generalizing c with
  | nil => rfl
  | cons n ns ih => exact (ih (h.delete n)).trans (h.backing_delete n m)

theorem erodes_deleteEach (ns : List Nat) (c : Catalog) (k : Nat) :
    Erodes [] (c.store k) ((c.deleteEach ns).store k) := by
  induction ns generalizing c with
  | nil => exact .refl _ _
  | cons n ns ih => exact (erodes_delete n c k).trans (ih _)

/-- Deleting commits leaves what another commit lists, if its depot is apart from theirs. -/
theorem Shelved.erodes_deleteEach (h : c.Shelved) (hm : m < c.commits.length)
    (hkept : c.isDeleted m = false) (hbm : (c.commit m).backing = .artifacts i) (hnot : m ∉ ns)
    (hall : ∀ n ∈ ns, ∃ j, (c.commit n).backing = .artifacts j ∧ j < c.depots.length ∧
      c.Apart j i) :
    Erodes (c.commit m).manifest.fileNames (c.storeOf i) ((c.deleteEach ns).storeOf i) := by
  induction ns generalizing c with
  | nil => exact .refl _ _
  | cons n ns ih =>
    rw [List.mem_cons, not_or] at hnot
    obtain ⟨j, hbn, -, hapart⟩ := hall n List.mem_cons_self
    have hfirst := h.erodes_delete hm hkept hbm hnot.1 hbn hapart
    have hsame := sameCommits_delete n c
    have hdepots := sameDepots_delete n c
    have hi := h.lt_of_backing hm hbm
    have hrest := ih (h.delete n) (hsame.length.symm ▸ hm)
      ((isDeleted_delete_of_ne hnot.1 c).trans hkept) ((h.backing_delete n m).trans hbm) hnot.2 ?_
    · rw [hsame.manifest] at hrest
      exact hfirst.trans hrest
    · intro n' hn'
      obtain ⟨j', hbn', hj', hapart'⟩ := hall n' (List.mem_cons_of_mem _ hn')
      exact ⟨j', (h.backing_delete n n').trans hbn', Nat.lt_of_lt_of_le hj' hdepots.length,
        hdepots.apart hj' hi hapart'⟩

/-! ## Other steps -/

/-- Stores and queues do not matter, nor do depots that are added. -/
theorem Shelved.congr (h : c.Shelved) (hcommits : d.commits = c.commits)
    (hdepots : c.depots.length ≤ d.depots.length)
    (hcounted : ∀ k q, (d.tracker k).refCount q = (c.tracker k).refCount q) : d.Shelved := by
  refine ⟨fun n hn => ?_, fun k q => ?_⟩
  · rw [hcommits] at hn
    rw [commit_congr hcommits]
    obtain ⟨i, hb, hi⟩ := h.backed n hn
    exact ⟨i, hb, Nat.lt_of_lt_of_le hi hdepots⟩
  · unfold referencedIn
    rw [hcounted, hcommits]
    exact h.counted k q

theorem length_addDepot (store : Nat) (c : Catalog) :
    (c.addDepot store).depots.length = c.depots.length + 1 := by
  show (c.depots ++ [_]).length = _
  rw [List.length_append]
  rfl

theorem depot_addDepot (store : Nat) (c : Catalog) (k : Nat) : (c.addDepot store).depot k =
    if k = c.depots.length then ⟨store, Tracker.empty⟩ else c.depot k := by
  unfold addDepot depot
  simp only [List.getD_eq_getElem?_getD]
  rcases Nat.lt_trichotomy k c.depots.length with hk | rfl | hk
  · rw [List.getElem?_append_left hk, if_neg (Nat.ne_of_lt hk)]
  · simp
  · rw [if_neg (Nat.ne_of_gt hk), List.getElem?_eq_none (by simp; omega),
      List.getElem?_eq_none (Nat.le_of_lt hk)]

theorem sameDepots_addDepot (store : Nat) (c : Catalog) : SameDepots c (c.addDepot store) := by
  refine ⟨?_, fun k hk => ?_⟩
  · rw [length_addDepot]
    exact Nat.le_succ _
  · rw [depot_addDepot, if_neg (Nat.ne_of_lt hk)]

/-- A depot that is added counts nothing yet. -/
theorem Shelved.addDepot (h : c.Shelved) (store : Nat) : (c.addDepot store).Shelved := by
  refine h.congr rfl (sameDepots_addDepot store c).length fun k q => ?_
  unfold tracker
  rw [depot_addDepot]
  split
  next hk =>
    subst hk
    unfold depot
    rw [List.getD_eq_getElem?_getD, List.getElem?_eq_none (Nat.le_refl _)]
    rfl
  next => rfl

/-- Only the tracker of the depot counts what a commit lists. -/
theorem tracker_adopt (depot : Nat) (m : Manifest) (c : Catalog) (k : Nat) :
    (c.adopt depot m).2.tracker k =
      if k = depot ∧ depot < c.depots.length then (c.tracker depot).incref m.fileNames
      else c.tracker k := by
  show (((c.addCommit _).setTracker depot _).depot k).tracker = _
  rw [depot_setTracker]
  by_cases hk : k = depot ∧ depot < c.depots.length
  · rw [if_pos hk]
    exact congrArg Depot.tracker (if_pos hk)
  · rw [if_neg hk]
    exact congrArg Depot.tracker (if_neg hk)

/-- A commit that joins a depot is counted there. -/
theorem Shelved.adopt (h : c.Shelved) (hdepot : depot < c.depots.length) (m : Manifest) :
    (c.adopt depot m).2.Shelved := by
  have hlength : (c.adopt depot m).2.depots.length = c.depots.length := List.length_set ..
  refine ⟨fun n hn => ?_, fun k q => ?_⟩
  · rw [hlength]
    rw [length_adopt] at hn
    rcases Nat.lt_succ_iff_lt_or_eq.mp hn with hn | rfl
    · rw [commit_adopt_of_lt hn]
      exact h.backed n hn
    · rw [commit_adopt_self]
      exact ⟨depot, rfl, hdepot⟩
  · have hreferenced : (c.adopt depot m).2.referencedIn k = c.referencedIn k ++
        if depot = k then m.fileNames else [] := by
      show (c.commits ++ [_]).flatMap _ = _
      rw [List.flatMap_append, List.flatMap_singleton]
      unfold Commit.referencesIn
      simp only [Backing.artifacts.injEq]
      rfl
    rw [hreferenced, tracker_adopt, List.count_append]
    by_cases hk : k = depot
    · subst hk
      rw [if_pos ⟨rfl, hdepot⟩, if_pos rfl, Tracker.refCount_incref, h.counted]
    · rw [if_neg fun hand => hk hand.1, if_neg (Ne.symm hk), h.counted]
      rfl

/-- What adopting manifests into a depot does, whatever is there already. -/
structure Joins (depot : Nat) (ms : List Manifest) (c : Catalog) (ns : List Nat) (d : Catalog) :
    Prop where
  numbers : ns = List.range' c.commits.length ms.length
  commits : d.commits = c.commits ++ ms.map fun m => ⟨m, .artifacts depot, false⟩
  stores : d.stores = c.stores
  length : d.depots.length = c.depots.length
  store : ∀ k, (d.depot k).store = (c.depot k).store
  counted : ∀ q, (d.tracker depot).refCount q =
    (c.tracker depot).refCount q + (ms.flatMap Manifest.fileNames).count q

theorem joins_adoptAll (hdepot : depot < c.depots.length) (ms : List Manifest) :
    Joins depot ms c (adoptAll depot ms c).1 (adoptAll depot ms c).2 := by
  induction ms generalizing c with
  | nil => exact ⟨rfl, (List.append_nil _).symm, rfl, rfl, fun _ => rfl, fun _ => rfl⟩
  | cons m ms ih =>
    have hlength : (c.adopt depot m).2.depots.length = c.depots.length := List.length_set ..
    have hall := ih (hlength.symm ▸ hdepot)
    refine ⟨?_, ?_, hall.stores, hall.length.trans hlength, fun k => (hall.store k).trans ?_,
      fun q => (hall.counted q).trans ?_⟩
    · show c.commits.length :: (adoptAll depot ms (c.adopt depot m).2).1 = _
      rw [hall.numbers, length_adopt]
      rfl
    · refine hall.commits.trans ?_
      show (c.commits ++ [_]) ++ _ = _
      rw [List.append_assoc]
      rfl
    · exact store_depot_setTracker depot _ (c.addCommit _) k
    · rw [tracker_adopt, if_pos ⟨rfl, hdepot⟩, Tracker.refCount_incref, List.flatMap_cons,
        List.count_append, Nat.add_assoc]

/-- What adopting manifests into a depot leaves. -/
structure Enters (depot : Nat) (ms : List Manifest) (c : Catalog) (ns : List Nat) (d : Catalog) :
    Prop where
  numbers : ns = List.range' c.commits.length ms.length
  commits : d.commits = c.commits ++ ms.map fun m => ⟨m, .artifacts depot, false⟩
  stores : d.stores = c.stores
  length : d.depots.length = c.depots.length
  store : ∀ k, (d.depot k).store = (c.depot k).store
  shelved : d.Shelved

theorem Shelved.adoptAll (h : c.Shelved) (hdepot : depot < c.depots.length) (ms : List Manifest) :
    Enters depot ms c (adoptAll depot ms c).1 (adoptAll depot ms c).2 := by
  have hjoins := joins_adoptAll hdepot ms
  refine ⟨hjoins.numbers, hjoins.commits, hjoins.stores, hjoins.length, hjoins.store, ?_⟩
  clear hjoins
  induction ms generalizing c with
  | nil => exact h
  | cons m ms ih =>
    have hlength : (c.adopt depot m).2.depots.length = c.depots.length := List.length_set ..
    exact ih (h.adopt hdepot m) (hlength.symm ▸ hdepot)

end Catalog

end SnapshotRetention
