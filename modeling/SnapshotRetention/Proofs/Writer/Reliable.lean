import SnapshotRetention.Proofs.Catalog.DeleteOrder
import SnapshotRetention.Proofs.Writer.Rejected
import SnapshotRetention.Proofs.Writer.Sweeping

/-!
# A store in which everything can be deleted

A store never fails (`Store.NeverFails`) if none of its accesses is refused and all that a manifest
in it lists can be deleted: no such name is one that the store does not take, or that of a folder.
Files that go do not change that, nor does a manifest that lists what can be deleted.

A catalog over such a store (`Catalog.Reliable`), with as many depots as there were openings, can
delete each of its commits. It stays reliable when commits are deleted, when queued deletions are
tried again, when a commit is written and joins (`Reliable.write`, `Reliable.joins`) and when a
history is loaded and the rest swept (`Reliable.reload`).
-/

namespace SnapshotRetention

open Catalog (Persists SameCommits SameDepots Joins)
open Store (Erodes Wrote)
open Store.Medium (Alike)

variable {m : Manifest} {g : Generation} {name q : String}

/-! ## Accesses and faults -/

namespace Store

variable {s s' : Store} {keep : List String} {entries : List (String × Bytes)}

@[simp] theorem faults_delete (name : String) (s : Store) :
    (s.delete name).2.faults = s.faults := by
  unfold delete
  split
  next => rfl
  next =>
    split
    next => rfl
    next => rfl

theorem faults_deleteStrays (kept : String → Bool) (names : List String) (s : Store) :
    (s.deleteStrays kept names).2.faults = s.faults := by
  induction names generalizing s with
  | nil => rfl
  | cons name rest ih =>
    have hdelete := faults_delete name s
    unfold deleteStrays
    split
    next => exact ih s
    next =>
      split
      next heq =>
        rw [heq] at hdelete
        exact hdelete
      next s1 heq =>
        rw [heq] at hdelete
        exact (ih s1).trans hdelete

theorem faults_sweep (kept : String → Bool) (s : Store) : (s.sweep kept).2.faults = s.faults := by
  unfold sweep
  split
  next => rfl
  next names _ => exact faults_deleteStrays kept names s

theorem faults_deleteAll (names : List String) (t : Tracker) (s : Store) :
    (Tracker.deleteAll names t s).2.2.faults = s.faults := by
  induction names generalizing t s with
  | nil => rfl
  | cons name names ih =>
    have hfirst : (Tracker.deleteOne name t s).2.2 = (s.delete name).2 := by
      unfold Tracker.deleteOne
      split
      next heq => rw [heq]
      next heq => rw [heq]
      next heq => rw [heq]
    refine (ih (Tracker.deleteOne name t s).2.1 (Tracker.deleteOne name t s).2.2).trans ?_
    rw [hfirst, faults_delete]

/-! ## Stores that never fail -/

/-- No access is refused, and what the manifests list can be deleted. -/
structure NeverFails (s : Store) : Prop where
  faults : s.faults = .never
  lists : ∀ g m, s.readManifest g = .ok m → ∀ q ∈ m.files, ¬s.medium.Fixed q

/-- In memory every name can be deleted. -/
theorem neverFails_of_memory {table : Table String Bytes} (h : s.medium = .memory table)
    (hfaults : s.faults = .never) : s.NeverFails := by
  refine ⟨hfaults, fun g m _ q _ hfixed => ?_⟩
  rw [h] at hfixed
  exact hfixed

theorem readManifest_congr (h : s'.read (Manifest.nameOf g) = s.read (Manifest.nameOf g)) :
    s'.readManifest g = s.readManifest g := by
  unfold readManifest
  rw [h]

/-- A manifest is read from what stands under its name. -/
theorem readManifest_of_sameNode (h : s.faults = .never) (h' : s'.faults = .never)
    (halike : Alike s.medium s'.medium)
    (hnode : s'.medium.node? (Manifest.nameOf g) = s.medium.node? (Manifest.nameOf g)) :
    s'.readManifest g = s.readManifest g := by
  refine readManifest_congr ?_
  rw [read_of_never h', read_of_never h]
  exact halike.place.read_eq hnode

/-- All names that a manifest lists, its own included, can be deleted. -/
theorem NeverFails.free (h : s.NeverFails) (hm : s.readManifest g = .ok m) :
    ∀ q ∈ m.fileNames, ¬s.medium.Fixed q := by
  intro q hq
  rcases List.mem_append.mp hq with hfile | hself
  · exact h.lists g m hm q hfile
  · obtain ⟨-, -, -, hfixed⟩ := readManifest_node hm
    rw [List.mem_singleton.mp hself]
    exact hfixed

/-- Files may go. -/
theorem NeverFails.erodes (h : s.NeverFails) (hs : Erodes keep s s')
    (hfaults : s'.faults = s.faults) : s'.NeverFails := by
  refine ⟨hfaults.trans h.faults, fun g m hm q hq hfixed => ?_⟩
  have hread : s.readManifest g = .ok m := by
    rw [← readManifest_of_sameNode h.faults (hfaults.trans h.faults) hs.alike ?_]
    · exact hm
    · obtain ⟨data, -, hnode, -⟩ := readManifest_node hm
      unfold Manifest.name at hnode
      rw [(readManifest_ok hm).1] at hnode
      exact hnode.trans (hs.node_of_some hnode).symm
  exact h.lists g m hread q hq ((hs.alike.fixed_iff q).mp hfixed)

/-- Files may come, also a manifest that lists what can be deleted. -/
theorem NeverFails.wrote (h : s.NeverFails) (hs : Wrote entries s s')
    (hentries : ∀ e ∈ entries, Manifest.isReserved e.1 = true →
      ∃ m, Manifest.decode e.2 = .ok m ∧ ∀ q ∈ m.files, ¬s.medium.Fixed q) : s'.NeverFails := by
  have hnever := hs.faults.trans h.faults
  refine ⟨hnever, fun g m hm q hq hfixed => ?_⟩
  have hfree : ¬s.medium.Fixed q := by
    by_cases hmem : Manifest.nameOf g ∈ entries.map Prod.fst
    · -- the manifest is the one that has been written
      obtain ⟨e, he, hname⟩ := List.mem_map.mp hmem
      have hreserved : Manifest.isReserved e.1 = true := hname ▸ Manifest.isReserved_nameOf g
      obtain ⟨m', hdecode, hlists⟩ := hentries e he hreserved
      obtain ⟨data, hdata, hnode, -⟩ := readManifest_node hm
      unfold Manifest.name at hnode
      rw [(readManifest_ok hm).1, ← hname, hs.there e he] at hnode
      obtain rfl : e.2 = data := Node.file.inj (Option.some.inj hnode)
      obtain rfl : m' = m := Except.ok.inj (hdecode.symm.trans hdata)
      exact hlists q hq
    · have hread := readManifest_of_sameNode h.faults hnever hs.alike (hs.other _ hmem)
      exact h.lists g m (hread.symm.trans hm) q hq
  exact hfree ((hs.alike.fixed_iff q).mp hfixed)

end Store

/-! ## Catalogs over such a store -/

namespace Catalog

variable {c d : Catalog} {depot n : Nat} {ns : List Nat} {ms : List Manifest} {s : Store}
  {entries : List (String × Bytes)}

/-- All depots are over one store, which never fails, and each commit can be deleted. -/
structure Reliable (c : Catalog) : Prop where
  room : 0 < c.stores.length
  single : ∀ i, (c.depot i).store = 0
  store : (c.store 0).NeverFails
  deletable : c.Deletable

theorem Reliable.storeOf_eq (h : c.Reliable) (i : Nat) : c.storeOf i = c.store 0 := by
  unfold storeOf
  rw [h.single]

theorem Reliable.setStoreOf_eq (h : c.Reliable) (i : Nat) (s : Store) :
    c.setStoreOf i s = c.setStore 0 s := by
  unfold setStoreOf
  rw [h.single]

theorem Reliable.hasDepot (h : c.Reliable) {i : Nat} (hi : i < c.depots.length) : c.HasDepot i :=
  ⟨hi, (h.single i).symm ▸ h.room⟩

theorem Reliable.free (h : c.Reliable) (hn : n < c.commits.length) :
    ∀ q ∈ (c.commit n).manifest.fileNames, ¬(c.store 0).medium.Fixed q := by
  obtain ⟨i, -, -, hfree⟩ := h.deletable.backed n hn
  rwa [h.storeOf_eq] at hfree

theorem reliable_ofStore (hs : s.NeverFails) : (ofStore s).Reliable := by
  refine ⟨Nat.one_pos, fun _ => rfl, hs, fun k => ?_, fun n hn => absurd hn (Nat.not_lt_zero n)⟩
  cases k with
  | zero => exact hs.faults
  | succ k => rfl

/-- What persists stays reliable, if the store does and commits that are new can be deleted. -/
theorem Reliable.persist (h : c.Reliable) (hd : Persists c d) (hover : ∀ i, (d.depot i).store = 0)
    (hstore : (d.store 0).NeverFails)
    (hnew : ∀ n, c.commits.length ≤ n → n < d.commits.length → d.CanDelete n) : d.Reliable :=
  ⟨Nat.lt_of_lt_of_le h.room hd.stores, hover, hstore, h.deletable.persist hd hnew⟩

/-! ## Deleting and trying again -/

theorem store_depot_delete (n : Nat) (c : Catalog) (k : Nat) :
    ((c.delete n).2.depot k).store = (c.depot k).store := by
  unfold Catalog.delete
  split
  next i _ =>
    split
    next => rfl
    next => exact store_depot_onDepot _ i (c.setCommit n _) k
  next => rfl
  next => rfl

theorem Reliable.delete (h : c.Reliable) (n : Nat) : (c.delete n).2.Reliable := by
  have hpersists := h.deletable.persists_delete n
  refine h.persist hpersists (fun i => (store_depot_delete n c i).trans (h.single i))
    (h.store.erodes (erodes_delete n c 0) (hpersists.faults 0)) fun _ hle hn => ?_
  rw [(sameCommits_delete n c).length] at hn
  exact absurd hn (Nat.not_lt.mpr hle)

theorem Reliable.prunes (h : c.Reliable) (hp : Prunes c d) : d.Reliable :=
  hp.induct h fun _ n _ hc => hc.delete n

theorem erodes_retryDepot (n : Nat) (c : Catalog) (k : Nat) :
    Erodes [] (c.store k) ((c.retryDepot n).store k) ∧
      ((c.retryDepot n).store k).faults = (c.store k).faults := by
  unfold retryDepot Tracker.retry
  rw [store_onDepot]
  split
  next hk =>
    obtain ⟨rfl, -⟩ := hk
    exact ⟨Store.erodes_deleteAll (fun q hq => absurd hq List.not_mem_nil) _ _,
      Store.faults_deleteAll ..⟩
  next => exact ⟨.refl _ _, rfl⟩

theorem Reliable.retryDepot (h : c.Reliable) (n : Nat) : (c.retryDepot n).Reliable := by
  have herodes := erodes_retryDepot n c
  have hover := store_depot_onDepot Tracker.retry n c
  have hpersists : Persists c (c.retryDepot n) :=
    { describes := ⟨Nat.le_refl _, fun _ _ => rfl⟩
      backing := fun _ _ => rfl
      depots := ⟨Nat.le_of_eq (List.length_set ..).symm, fun k _ => hover k⟩
      stores := Nat.le_of_eq (List.length_set ..).symm
      alike := fun k => (herodes k).1.alike
      faults := fun k => (herodes k).2 }
  exact h.persist hpersists (fun i => (hover i).trans (h.single i))
    (h.store.erodes (herodes 0).1 (herodes 0).2) fun _ hle hn => absurd hn (Nat.not_lt.mpr hle)

/-! ## Writing -/

theorem persists_setStore (halike : Alike (c.store 0).medium s.medium)
    (hfaults : s.faults = (c.store 0).faults) : Persists c (c.setStore 0 s) := by
  refine ⟨⟨Nat.le_refl _, fun _ _ => rfl⟩, fun _ _ => rfl, ⟨Nat.le_refl _, fun _ _ => rfl⟩,
    Nat.le_of_eq (List.length_set ..).symm, fun k => ?_, fun k => ?_⟩
  · rw [store_setStore]
    split
    next hk => exact hk.1 ▸ halike
    next => exact .refl _
  · rw [store_setStore]
    split
    next hk => exact hk.1 ▸ hfaults
    next => rfl

/-- Files may be written, also a manifest that lists what can be deleted. -/
theorem Reliable.write (h : c.Reliable) (hs : Wrote entries (c.store 0) s)
    (hentries : ∀ e ∈ entries, Manifest.isReserved e.1 = true →
      ∃ m, Manifest.decode e.2 = .ok m ∧ ∀ q ∈ m.files, ¬(c.store 0).medium.Fixed q) :
    (c.setStore 0 s).Reliable := by
  have hstore : (c.setStore 0 s).store 0 = s := (store_setStore ..).trans (if_pos ⟨rfl, h.room⟩)
  refine h.persist (persists_setStore hs.alike hs.faults) h.single ?_ fun _ hle hn =>
    absurd hn (Nat.not_lt.mpr hle)
  rw [hstore]
  exact h.store.wrote hs hentries

/-! ## Joining -/

theorem Joins.commit_of_lt (h : Joins depot ms c ns d) (hn : n < c.commits.length) :
    d.commit n = c.commit n := by
  unfold Catalog.commit
  rw [h.commits, List.getD_eq_getElem?_getD, List.getElem?_append_left hn,
    List.getD_eq_getElem?_getD]

/-- A commit that has joined is that of one of the manifests. -/
theorem Joins.exists_of_le (h : Joins depot ms c ns d) (hle : c.commits.length ≤ n)
    (hn : n < d.commits.length) : ∃ m ∈ ms, d.commit n = ⟨m, .artifacts depot, false⟩ := by
  have hget := getElem?_commits hn
  rw [h.commits, List.getElem?_append_right hle] at hget
  obtain ⟨m, hm, heq⟩ := List.mem_map.mp (List.mem_of_getElem? hget)
  exact ⟨m, hm, heq.symm⟩

theorem Joins.persists (h : Joins depot ms c ns d) : Persists c d := by
  have hcommit := fun n hn => h.commit_of_lt (n := n) hn
  refine ⟨⟨?_, fun n hn => congrArg Commit.manifest (hcommit n hn)⟩,
    fun n hn => congrArg Commit.backing (hcommit n hn), ⟨Nat.le_of_eq h.length.symm,
      fun k _ => h.store k⟩, Nat.le_of_eq (congrArg List.length h.stores).symm, fun k => ?_,
    fun k => ?_⟩
  · rw [h.commits, List.length_append]
    exact Nat.le_add_right _ _
  · rw [store_congr h.stores]
    exact .refl _
  · rw [store_congr h.stores]

/-- Commits may join that list what can be deleted. -/
theorem Reliable.joins (h : c.Reliable) (hdepot : depot < c.depots.length)
    (hj : Joins depot ms c ns d)
    (hfree : ∀ m ∈ ms, ∀ q ∈ m.fileNames, ¬(c.store 0).medium.Fixed q) : d.Reliable := by
  have hstore : d.store 0 = c.store 0 := store_congr hj.stores 0
  have hover : ∀ i, (d.depot i).store = 0 := fun i => (hj.store i).trans (h.single i)
  refine h.persist hj.persists hover (hstore ▸ h.store) fun n hle hn => ?_
  obtain ⟨m, hm, hcommit⟩ := hj.exists_of_le hle hn
  refine ⟨depot, congrArg Commit.backing hcommit, hj.persists.hasDepot (h.hasDepot hdepot), ?_⟩
  unfold storeOf
  rw [hcommit, hover, hstore]
  exact hfree m hm

theorem Reliable.addDepot (h : c.Reliable) : (c.addDepot 0).Reliable := by
  have hpersists : Persists c (c.addDepot 0) :=
    ⟨⟨Nat.le_refl _, fun _ _ => rfl⟩, fun _ _ => rfl, sameDepots_addDepot 0 c, Nat.le_refl _,
      fun _ => .refl _, fun _ => rfl⟩
  refine h.persist hpersists (fun i => ?_) h.store fun _ hle hn => absurd hn (Nat.not_lt.mpr hle)
  rw [depot_addDepot]
  split
  next => rfl
  next => exact h.single i

/-- A history may be loaded into a depot of its own, and what it does not list be swept. -/
theorem Reliable.reload (h : c.Reliable) (hms : (c.store 0).readCommits = .ok ms)
    (hj : Joins c.depots.length ms (c.addDepot 0) ns d) (kept : String → Bool) :
    (d.setStore 0 ((c.store 0).sweep kept).2).Reliable := by
  have hdepot : c.depots.length < (c.addDepot 0).depots.length := by
    rw [length_addDepot]
    exact Nat.lt_succ_self _
  have hjoined := h.addDepot.joins hdepot hj fun m hm =>
    h.store.free (Store.readManifest_of_readCommits hms m hm)
  have hstore : d.store 0 = c.store 0 := store_congr hj.stores 0
  have herodes : Erodes [] (d.store 0) ((c.store 0).sweep kept).2 :=
    hstore ▸ Store.erodes_sweep (fun q hq => absurd hq List.not_mem_nil) (c.store 0)
  have hfaults : ((c.store 0).sweep kept).2.faults = (d.store 0).faults :=
    hstore ▸ Store.faults_sweep kept (c.store 0)
  refine hjoined.persist (persists_setStore herodes.alike hfaults) hjoined.single ?_ fun _ hle hn =>
    absurd hn (Nat.not_lt.mpr hle)
  rw [store_setStore, if_pos ⟨rfl, hjoined.room⟩]
  exact hjoined.store.erodes herodes hfaults

end Catalog

end SnapshotRetention
