import SnapshotRetention.Proofs.Catalog.Shelves

/-!
# Commits may be deleted in any order

Where no access fails and no commit lists a name that its store cannot delete
(`Catalog.Deletable`), deleting a commit takes its references back and clears the names that lose
their last one (`Catalog.Strikes`). Which commit dooms a shared artifact depends on the order, but
two commits together doom the same names either way (`Tracker.discount_perm`), and a store from
which the same names have been cleared is the same store (`Store.Wiped.unique`). So two deletions
can be exchanged (`Deletable.delete_comm`), and with them any number (`Deletable.deleteEach_perm`).
-/

namespace SnapshotRetention

namespace Store

open Medium (Alike)

variable {names names' : List String} {name : String} {s s' s'' : Store}

/-! ## Clearing names -/

/-- What a deletion of each of some names leaves, if none of them fails. -/
structure Wiped (names : List String) (s s' : Store) : Prop where
  node : ∀ q, s'.medium.node? q = if q ∈ names then none else s.medium.node? q
  alike : Alike s.medium s'.medium
  faults : s'.faults = s.faults
  clock : s'.clock = s.clock + names.length
  failedDeletes : s'.failedDeletes = s.failedDeletes

theorem Wiped.nil (s : Store) : Wiped [] s s :=
  ⟨fun _ => (if_neg List.not_mem_nil).symm, .refl _, rfl, rfl, rfl⟩

theorem Wiped.append (h : Wiped names s s') (h' : Wiped names' s' s'') :
    Wiped (names ++ names') s s'' := by
  refine ⟨fun q => ?_, h.alike.trans h'.alike, h'.faults.trans h.faults, ?_,
    h'.failedDeletes.trans h.failedDeletes⟩
  · rw [h'.node, h.node]
    by_cases hq' : q ∈ names'
    · rw [if_pos hq', if_pos (List.mem_append_right _ hq')]
    · simp [hq']
  · rw [h'.clock, h.clock, List.length_append, Nat.add_assoc]

/-- The order in which names are cleared does not matter. -/
theorem Wiped.unique (h : Wiped names s s') (h' : Wiped names' s s'')
    (hperm : names.Perm names') : s'' = s' := by
  have hmedium : s''.medium = s'.medium := by
    refine (h.alike.place.symm.trans h'.alike.place).eq_of_node fun q => ?_
    rw [h.node, h'.node]
    simp only [hperm.mem_iff]
  have hclock : s''.clock = s'.clock := by rw [h'.clock, h.clock, hperm.length_eq]
  have hfaults := h'.faults.trans h.faults.symm
  have hfailed := h'.failedDeletes.trans h.failedDeletes.symm
  cases s'
  cases s''
  simp only at hmedium hclock hfaults hfailed
  rw [hmedium, hclock, hfaults, hfailed]

/-- In a store that never fails a deletion clears its name, if that is not fixed. -/
theorem wiped_delete (hnever : s.faults = .never) (hfree : ¬s.medium.Fixed name) :
    ((s.delete name).1 = .ok () ∨ ∃ n, (s.delete name).1 = .error (.notFound n)) ∧
      Wiped [name] s (s.delete name).2 := by
  have hclock : (s.delete name).2.clock = s.clock + 1 ∧
      (s.delete name).2.failedDeletes = s.failedDeletes := by
    unfold delete fault?
    rw [hnever, FaultPlan.fault?_never]
    dsimp only
    split
    next => exact ⟨rfl, rfl⟩
    next => exact ⟨rfl, rfl⟩
  have hresult : (s.delete name).1 = .ok () ∨ ∃ n, (s.delete name).1 = .error (.notFound n) := by
    unfold delete fault?
    rw [hnever, FaultPlan.fault?_never]
    dsimp only
    split
    next e he =>
      by_cases hfound : ∀ n, e ≠ .notFound n
      · exact absurd (Medium.fixed_of_delete_error he hfound) hfree
      · push Not at hfound
        obtain ⟨n, rfl⟩ := hfound
        exact Or.inr ⟨n, rfl⟩
    next => exact Or.inl rfl
  have hcleared : Cleared [name] [] s (s.delete name).2 :=
    cleared_delete (hresult.imp (fun h => Prod.ext h rfl) fun ⟨n, h⟩ => ⟨n, Prod.ext h rfl⟩)
  refine ⟨hresult, fun q => ?_, hcleared.alike, hcleared.faults, hclock.1, hclock.2⟩
  rw [hcleared.node]
  simp

end Store

namespace Tracker

open Store (Wiped)

variable {t : Tracker} {s : Store} {name other q : String} {names names' : List String}

/-! ## Taking references back -/

theorem get?_decrement (name q : String) (t : Tracker) : (t.decrement name).counts.get? q =
    if q = name then (t.counts.get? name).bind fun n => if 1 < n then some (n - 1) else none
    else t.counts.get? q := by
  unfold decrement
  split
  next hnone =>
    split
    next hq => rw [hq, hnone, Option.bind_none]
    next => rfl
  next n hn =>
    rw [hn, Option.bind_some]
    by_cases hmore : 1 < n
    · rw [if_pos hmore, if_pos hmore]
      exact Table.get?_insert ..
    · rw [if_neg hmore, if_neg hmore]
      exact Table.get?_erase ..

/-- References to different names are taken back in any order. -/
theorem decrement_comm (h : name ≠ other) (t : Tracker) :
    (t.decrement name).decrement other = (t.decrement other).decrement name := by
  have hcounts : ((t.decrement name).decrement other).counts =
      ((t.decrement other).decrement name).counts := by
    refine Table.ext_get? fun q => ?_
    simp only [get?_decrement, if_neg h, if_neg (Ne.symm h)]
    by_cases hq : q = name
    · rw [if_neg fun hother => h (hq.symm.trans hother), if_pos hq, if_pos hq]
    · rw [if_neg hq, if_neg hq]
  have hqueue : ((t.decrement name).decrement other).queue =
      ((t.decrement other).decrement name).queue :=
    (queue_discount [name, other] t).trans (queue_discount [other, name] t).symm
  cases hfirst : (t.decrement name).decrement other
  cases hsecond : (t.decrement other).decrement name
  rw [hfirst, hsecond] at hcounts hqueue
  simp only at hcounts hqueue
  rw [hcounts, hqueue]

theorem isLast_decrement (h : name ≠ other) (t : Tracker) :
    (t.decrement name).isLast other = t.isLast other := by
  unfold isLast
  rw [get?_decrement, if_neg (Ne.symm h)]

theorem discount_cons (name : String) (names : List String) (t : Tracker) :
    discount (name :: names) t =
      (if t.isLast name then name :: (discount names (t.decrement name)).1
        else (discount names (t.decrement name)).1, (discount names (t.decrement name)).2) := rfl

theorem discount_append (names names' : List String) (t : Tracker) :
    discount (names ++ names') t =
      ((discount names t).1 ++ (discount names' (discount names t).2).1,
        (discount names' (discount names t).2).2) := by
  induction names generalizing t with
  | nil => rfl
  | cons name names ih =>
    rw [List.cons_append, discount_cons, discount_cons, ih]
    split
    next => rfl
    next => rfl

/-- The order in which references are taken back does not matter, up to the order in which the
names are doomed. -/
theorem discount_perm (h : names.Perm names') (t : Tracker) :
    (discount names t).1.Perm (discount names' t).1 ∧
      (discount names t).2 = (discount names' t).2 := by
  induction h generalizing t with
  | nil => exact ⟨.refl _, rfl⟩
  | cons name _ ih =>
    obtain ⟨hdoomed, htracker⟩ := ih (t.decrement name)
    refine ⟨?_, htracker⟩
    show (if t.isLast name then name :: _ else _).Perm (if t.isLast name then name :: _ else _)
    split
    next => exact hdoomed.cons name
    next => exact hdoomed
  | swap name other rest =>
    by_cases hsame : other = name
    · rw [hsame]
      exact ⟨.refl _, rfl⟩
    · simp only [discount_cons, isLast_decrement hsame, isLast_decrement (Ne.symm hsame),
        decrement_comm hsame]
      refine ⟨?_, trivial⟩
      split
      next =>
        split
        next => exact List.Perm.swap ..
        next => exact .refl _
      next => exact .refl _
  | trans _ _ ih ih' =>
    exact ⟨(ih t).1.trans (ih' t).1, (ih t).2.trans (ih' t).2⟩

/-- Two lists of references may be taken back in either order. -/
theorem discount_comm (names names' : List String) (t : Tracker) :
    ((discount names t).1 ++ (discount names' (discount names t).2).1).Perm
        ((discount names' t).1 ++ (discount names (discount names' t).2).1) ∧
      (discount names' (discount names t).2).2 = (discount names (discount names' t).2).2 := by
  have hswap : (names ++ names').Perm (names' ++ names) := List.perm_append_comm
  have hperm := discount_perm hswap t
  rw [discount_append, discount_append] at hperm
  exact hperm

/-! ## Deleting -/

/-- Deleting names that are not fixed from a store that never fails queues nothing. -/
theorem deleteAll_of_free (hnever : s.faults = .never) (hfree : ∀ q ∈ names, ¬s.medium.Fixed q)
    (t : Tracker) : (deleteAll names t s).1 = .ok () ∧ (deleteAll names t s).2.1 = t ∧
      Wiped names s (deleteAll names t s).2.2 := by
  induction names generalizing s with
  | nil => exact ⟨rfl, rfl, .nil s⟩
  | cons name names ih =>
    obtain ⟨hresult, hdelete⟩ := Store.wiped_delete hnever (hfree name List.mem_cons_self)
    have hfirst : deleteOne name t s = (.ok (), t, (s.delete name).2) := by
      unfold deleteOne
      split
      next heq => rw [heq]
      next heq => rw [heq]
      next e s' hnot heq =>
        rw [heq] at hresult
        rcases hresult with hok | ⟨n, herror⟩
        · cases hok
        · exact absurd (Except.error.inj herror) (hnot n)
    obtain ⟨hok, htracker, hrest⟩ := ih (hdelete.faults.trans hnever)
      fun q hq hf => hfree q (List.mem_cons_of_mem _ hq) ((hdelete.alike.fixed_iff q).mp hf)
    have hcons : deleteAll (name :: names) t s =
        (firstFailure (deleteOne name t s).1 (deleteAll names (deleteOne name t s).2.1
          (deleteOne name t s).2.2).1,
          (deleteAll names (deleteOne name t s).2.1 (deleteOne name t s).2.2).2) := rfl
    rw [hcons, hfirst]
    exact ⟨hok, htracker, hdelete.append hrest⟩

end Tracker

namespace Catalog

open Store (Wiped)
open Store.Medium (Alike)

variable {c d e : Catalog} {n m i j : Nat} {ns ns' : List Nat}

/-! ## What stays -/

/-- The depots and stores of a catalog are those of another one, which may have more: the same
accesses fail there, and the same names are fixed. What is behind a commit stays behind it. -/
structure Persists (c d : Catalog) : Prop where
  describes : Extends c d
  backing : ∀ n, n < c.commits.length → (d.commit n).backing = (c.commit n).backing
  depots : SameDepots c d
  stores : c.stores.length ≤ d.stores.length
  alike : ∀ k, Alike (c.store k).medium (d.store k).medium
  faults : ∀ k, (d.store k).faults = (c.store k).faults

theorem Persists.refl (c : Catalog) : Persists c c :=
  ⟨.refl c, fun _ _ => rfl, .refl c, Nat.le_refl _, fun _ => .refl _, fun _ => rfl⟩

theorem Persists.hasDepot (h : Persists c d) (hi : c.HasDepot i) : d.HasDepot i :=
  ⟨Nat.lt_of_lt_of_le hi.depot h.depots.length,
    h.depots.store i hi.depot ▸ Nat.lt_of_lt_of_le hi.store h.stores⟩

/-! ## Commits that can be deleted -/

/-- A commit is backed by a depot that is there, and its store can delete all that it lists. -/
def CanDelete (n : Nat) (c : Catalog) : Prop :=
  ∃ i, (c.commit n).backing = .artifacts i ∧ c.HasDepot i ∧
    ∀ q ∈ (c.commit n).manifest.fileNames, ¬(c.storeOf i).medium.Fixed q

/-- No access fails, and every commit can be deleted. -/
structure Deletable (c : Catalog) : Prop where
  never : ∀ k, (c.store k).faults = .never
  backed : ∀ n, n < c.commits.length → c.CanDelete n

theorem CanDelete.persist (hn : n < c.commits.length) (h : c.CanDelete n) (hd : Persists c d) :
    d.CanDelete n := by
  obtain ⟨i, hb, hi, hfree⟩ := h
  refine ⟨i, (hd.backing n hn).trans hb, hd.hasDepot hi, fun q hq => ?_⟩
  rw [hd.describes.manifest n hn] at hq
  rw [hd.depots.storeOf hi.depot, ((hd.alike _).fixed_iff q)]
  exact hfree q hq

/-- Commits that are added have to be ones that can be deleted. -/
theorem Deletable.persist (h : c.Deletable) (hd : Persists c d)
    (hnew : ∀ n, c.commits.length ≤ n → n < d.commits.length → d.CanDelete n) : d.Deletable := by
  refine ⟨fun k => (hd.faults k).trans (h.never k), fun n hn => ?_⟩
  rcases Nat.lt_or_ge n c.commits.length with hlt | hle
  · exact (h.backed n hlt).persist hlt hd
  · exact hnew n hle hn

/-! ## One deletion -/

/-- What deleting a commit of a depot does: its references are taken back, and what they were the
last of is cleared. -/
structure Strikes (n i : Nat) (c d : Catalog) : Prop where
  commits : d.commits.length = c.commits.length
  commit : ∀ m, d.commit m = if m = n then { c.commit n with deleted := true } else c.commit m
  depots : d.depots.length = c.depots.length
  placed : ∀ k, (d.depot k).store = (c.depot k).store
  tracker : ∀ k, d.tracker k =
    if k = i then (Tracker.discount (c.commit n).references (c.tracker i)).2 else c.tracker k
  stores : d.stores.length = c.stores.length
  store : ∀ k, Wiped (if k = (c.depot i).store then
    (Tracker.discount (c.commit n).references (c.tracker i)).1 else []) (c.store k) (d.store k)

theorem Strikes.persists (h : Strikes n i c d) : Persists c d := by
  have hcommit : ∀ m, (d.commit m).manifest = (c.commit m).manifest ∧
      (d.commit m).backing = (c.commit m).backing := by
    intro m
    rw [h.commit]
    split
    next hm => rw [hm]; exact ⟨rfl, rfl⟩
    next => exact ⟨rfl, rfl⟩
  exact ⟨⟨Nat.le_of_eq h.commits.symm, fun m _ => (hcommit m).1⟩, fun m _ => (hcommit m).2,
    ⟨Nat.le_of_eq h.depots.symm, fun k _ => h.placed k⟩, Nat.le_of_eq h.stores.symm,
    fun k => (h.store k).alike, fun k => (h.store k).faults⟩

/-- A commit that is deleted already has nothing to take back. -/
theorem strikes_of_isDeleted (hdeleted : c.isDeleted n = true) : Strikes n i c c := by
  have hnone : (c.commit n).references = [] := if_pos hdeleted
  refine ⟨rfl, fun m => ?_, rfl, fun _ => rfl, fun k => ?_, rfl, fun k => ?_⟩
  · split
    next hm =>
      rw [hm]
      have hmark : (c.commit n).deleted = true := hdeleted
      rw [← hmark]
    next => rfl
  · rw [hnone]
    split
    next hk => rw [hk]; rfl
    next => rfl
  · rw [hnone]
    split
    next => exact .nil _
    next => exact .nil _

/-- Deleting a commit that can be deleted succeeds. -/
theorem Deletable.strikes (h : c.Deletable) (hn : n < c.commits.length)
    (hb : (c.commit n).backing = .artifacts i) :
    (c.delete n).1 = .ok () ∧ Strikes n i c (c.delete n).2 := by
  cases hdeleted : c.isDeleted n with
  | true =>
    rw [delete_of_isDeleted hb hdeleted]
    exact ⟨rfl, strikes_of_isDeleted hdeleted⟩
  | false =>
    obtain ⟨i', hb', hi, hfree⟩ := h.backed n hn
    obtain rfl : i' = i := Backing.artifacts.inj (hb'.symm.trans hb)
    have hlisted := references_of_kept hdeleted
    have hdoomed : ∀ q ∈ (Tracker.discount (c.commit n).references (c.tracker i')).1,
        ¬(c.storeOf i').medium.Fixed q := fun q hq => hfree q (hlisted ▸ Tracker.mem_of_doomed hq)
    obtain ⟨hok, htracker, hstore⟩ := Tracker.deleteAll_of_free (h.never (c.depot i').store)
      hdoomed (Tracker.discount (c.commit n).references (c.tracker i')).2
    rw [delete_eq_onDepot hb hdeleted, ← hlisted]
    refine ⟨hok, List.length_set .., fun m => ?_, List.length_set .., fun k => ?_, fun k => ?_,
      List.length_set .., fun k => ?_⟩
    · refine (commit_setCommit n _ c m).trans ?_
      simp only [hn, and_true]
    · rw [store_depot_onDepot]
      rfl
    · rw [tracker_onDepot]
      by_cases hk : k = i'
      · rw [if_pos ⟨hk, hi.depot⟩, if_pos hk]
        exact htracker
      · rw [if_neg fun hand => hk hand.1, if_neg hk]
        rfl
    · by_cases hk : k = (c.depot i').store
      · rw [if_pos hk, store_onDepot, if_pos ⟨hk, hi.store⟩, hk]
        exact hstore
      · rw [if_neg hk, store_onDepot, if_neg fun hand => hk hand.1]
        exact .nil _

theorem Deletable.delete_ok (h : c.Deletable) (n : Nat) : (c.delete n).1 = .ok () := by
  rcases Nat.lt_or_ge n c.commits.length with hn | hn
  · obtain ⟨i, hb, -, -⟩ := h.backed n hn
    exact (h.strikes hn hb).1
  · unfold Catalog.delete
    rw [commit_of_length_le hn]
    rfl

theorem Deletable.persists_delete (h : c.Deletable) (n : Nat) : Persists c (c.delete n).2 := by
  rcases Nat.lt_or_ge n c.commits.length with hn | hn
  · obtain ⟨i, hb, -, -⟩ := h.backed n hn
    exact (h.strikes hn hb).2.persists
  · rw [delete_of_length_le hn]
    exact .refl c

theorem Deletable.delete (h : c.Deletable) (n : Nat) : (c.delete n).2.Deletable :=
  h.persist (h.persists_delete n) fun _ hle hm => absurd hm
    (Nat.not_lt.mpr ((sameCommits_delete n c).length ▸ hle))

/-! ## The order of deletions -/

/-- Catalogs are the same if they have the same commits, depots and stores. -/
theorem eq_of_parts (hcommits : d.commits.length = c.commits.length)
    (hcommit : ∀ n, d.commit n = c.commit n) (hdepots : d.depots.length = c.depots.length)
    (hover : ∀ k, (d.depot k).store = (c.depot k).store)
    (htracker : ∀ k, d.tracker k = c.tracker k) (hstores : d.stores.length = c.stores.length)
    (hstore : ∀ k, d.store k = c.store k) : d = c := by
  have hdepot : ∀ k, d.depot k = c.depot k := by
    intro k
    have hk := htracker k
    have hk' := hover k
    unfold tracker at hk
    cases hd : d.depot k
    cases hc : c.depot k
    rw [hd, hc] at hk hk'
    simp only at hk hk'
    rw [hk, hk']
  obtain ⟨stores, depots, commits⟩ := c
  obtain ⟨stores', depots', commits'⟩ := d
  obtain rfl : commits' = commits := eq_of_getD default hcommits hcommit
  obtain rfl : depots' = depots := eq_of_getD default hdepots hdepot
  obtain rfl : stores' = stores := eq_of_getD default hstores hstore
  rfl

/-- Two deletions may be exchanged. -/
theorem Strikes.comm {d' e' : Catalog} (hne : n ≠ m) (hn : Strikes n i c d) (hm : Strikes m j d e)
    (hm' : Strikes m j c d') (hn' : Strikes n i d' e') : e = e' := by
  have hcommit : d.commit m = c.commit m := (hn.commit m).trans (if_neg hne.symm)
  have hcommit' : d'.commit n = c.commit n := (hm'.commit n).trans (if_neg hne)
  refine eq_of_parts ((hm.commits.trans hn.commits).trans (hn'.commits.trans hm'.commits).symm)
    (fun k => ?_) ((hm.depots.trans hn.depots).trans (hn'.depots.trans hm'.depots).symm)
    (fun k => ((hm.placed k).trans (hn.placed k)).trans ((hn'.placed k).trans (hm'.placed k)).symm)
    (fun k => ?_) ((hm.stores.trans hn.stores).trans (hn'.stores.trans hm'.stores).symm)
    (fun k => ?_)
  · rw [hm.commit, hn'.commit, hcommit, hcommit', hn.commit, hm'.commit]
    by_cases hk : k = m
    · rw [if_pos hk, if_neg fun h => hne (h.symm.trans hk), if_pos hk]
    · rw [if_neg hk, if_neg hk]
  · rw [hm.tracker, hn'.tracker, hcommit, hcommit', hn.tracker, hn.tracker, hm'.tracker,
      hm'.tracker]
    by_cases hij : i = j
    · subst hij
      rw [if_pos rfl, if_pos rfl]
      by_cases hk : k = i
      · rw [if_pos hk, if_pos hk]
        exact (Tracker.discount_comm ..).2
      · rw [if_neg hk, if_neg hk, if_neg hk, if_neg hk]
    · rw [if_neg (Ne.symm hij), if_neg hij]
      by_cases hk : k = j
      · rw [if_pos hk, if_neg fun h => hij (h.symm.trans hk), if_pos hk]
      · rw [if_neg hk, if_neg hk]
  · -- both ways the same names are cleared
    refine ((hm'.store k).append (hn'.store k)).unique ((hn.store k).append (hm.store k)) ?_
    rw [hcommit, hcommit', hn.placed, hm'.placed, hn.tracker, hm'.tracker]
    by_cases hij : i = j
    · subst hij
      rw [if_pos rfl, if_pos rfl]
      split
      next => exact (Tracker.discount_comm ..).1
      next => exact .refl _
    · rw [if_neg (Ne.symm hij), if_neg hij]
      exact List.perm_append_comm

/-- Two commits may be deleted in either order. -/
theorem Deletable.delete_comm (h : c.Deletable) (n m : Nat) :
    ((c.delete n).2.delete m).2 = ((c.delete m).2.delete n).2 := by
  by_cases hnm : n = m
  · rw [hnm]
  rcases Nat.lt_or_ge n c.commits.length with hn | hn
  · rcases Nat.lt_or_ge m c.commits.length with hm | hm
    · obtain ⟨i, hbn, -, -⟩ := h.backed n hn
      obtain ⟨j, hbm, -, -⟩ := h.backed m hm
      have hlength := fun k => (sameCommits_delete k c).length
      exact Strikes.comm hnm (h.strikes hn hbn).2
        ((h.delete n).strikes ((hlength n).symm ▸ hm) ((backing_delete hbn m).trans hbm)).2
        (h.strikes hm hbm).2
        ((h.delete m).strikes ((hlength m).symm ▸ hn) ((backing_delete hbm n).trans hbn)).2
    · rw [delete_of_length_le hm, delete_of_length_le ((sameCommits_delete n c).length.symm ▸ hm)]
  · rw [delete_of_length_le hn,
      delete_of_length_le (n := n) ((sameCommits_delete m c).length.symm ▸ hn)]

theorem Deletable.deleteEach (h : c.Deletable) (ns : List Nat) : (c.deleteEach ns).Deletable := by
  induction ns generalizing c with
  | nil => exact h
  | cons n ns ih => exact ih (h.delete n)

/-- Commits may be deleted in any order. -/
theorem Deletable.deleteEach_perm (h : c.Deletable) (hperm : ns.Perm ns') :
    c.deleteEach ns = c.deleteEach ns' := by
  induction hperm generalizing c with
  | nil => rfl
  | cons n _ ih => exact ih (h.delete n)
  | swap n m ns =>
    show ((c.delete m).2.delete n).2.deleteEach ns = ((c.delete n).2.delete m).2.deleteEach ns
    rw [h.delete_comm]
  | trans _ _ ih ih' => exact (ih h).trans (ih' h)

end Catalog

end SnapshotRetention
