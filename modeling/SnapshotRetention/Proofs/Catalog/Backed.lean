import SnapshotRetention.Proofs.Catalog.Frame
import SnapshotRetention.Proofs.Catalog.Tracker
import SnapshotRetention.Proofs.Lists
import SnapshotRetention.Writer.Open

/-!
# Commits and their artifacts

A catalog over one store, whose commits are all counted by the one tracker of the store, is backed
(`Catalog.Backed`) when the tracker counts exactly what the undeleted commits list and all of that
is in the store. Deleting commits, trying deletions again, writing to the store and adopting a
written commit keep a catalog backed and take nothing from a commit that stays undeleted
(`Catalog.Later`).

The argument is the same each time: an artifact is deleted only without references, and an undeleted
commit is a reference to each of its artifacts.
-/

namespace SnapshotRetention

/-- The artifacts that a commit keeps: all of its own, until it is deleted. -/
def Commit.references (m : Commit) : List String := if m.deleted then [] else m.manifest.fileNames

namespace Catalog

variable {c d : Catalog} {n : Nat} {name : String}

/-- The artifacts that the undeleted commits list, each as often as it is listed. -/
def referenced (c : Catalog) : List String := c.commits.flatMap Commit.references

/-- One store, and one tracker that deletes from it. -/
structure Single (c : Catalog) : Prop where
  stores : ∃ s, c.stores = [s]
  depots : ∃ t, c.depots = [⟨0, t⟩]

/-- All commits have artifacts, which are counted and present until the commit is deleted. -/
structure Backed (c : Catalog) : Prop where
  single : c.Single
  artifacts : ∀ n, n < c.commits.length → (c.commit n).backing = .artifacts 0
  counted : ∀ name, (c.tracker 0).refCount name = c.referenced.count name
  present : ∀ name ∈ c.referenced, ((c.store 0).data? name).isSome

/-- `d` comes after `c`: it describes the commits of `c`, none of which has come back, and has kept
the artifacts of those that are left. -/
structure Later (c d : Catalog) : Prop where
  describes : Extends c d
  deleted : ∀ n, n < c.commits.length → c.isDeleted n = true → d.isDeleted n = true
  data : ∀ n, n < c.commits.length → d.isDeleted n = false →
    ∀ name ∈ (c.commit n).manifest.fileNames, (d.store 0).data? name = (c.store 0).data? name

theorem Later.refl (c : Catalog) : Later c c := ⟨.refl c, fun _ _ h => h, fun _ _ _ _ _ => rfl⟩

theorem Later.trans {e : Catalog} (h : Later c d) (h' : Later d e) : Later c e := by
  refine ⟨h.describes.trans h'.describes, ?_, ?_⟩
  · intro n hn hdeleted
    exact h'.deleted n (Nat.lt_of_lt_of_le hn h.describes.length) (h.deleted n hn hdeleted)
  · intro n hn hkept name hname
    have hlt := Nat.lt_of_lt_of_le hn h.describes.length
    -- what is left at the end was left in between
    have hkept' : d.isDeleted n = false := by
      cases hd : d.isDeleted n with
      | false => rfl
      | true =>
        rw [h'.deleted n hlt hd] at hkept
        cases hkept
    have hname' : name ∈ (d.commit n).manifest.fileNames := by
      rw [h.describes.manifest n hn]
      exact hname
    exact (h'.data n hlt hkept name hname').trans (h.data n hn hkept' name hname)

/-! ## References -/

theorem getElem?_commits (hn : n < c.commits.length) : c.commits[n]? = some (c.commit n) := by
  unfold Catalog.commit
  rw [List.getD_eq_getElem?_getD, List.getElem?_eq_getElem hn]
  rfl

theorem references_of_kept (hkept : c.isDeleted n = false) :
    (c.commit n).references = (c.commit n).manifest.fileNames := by
  have hundeleted : ¬(c.commit n).deleted = true := Bool.eq_false_iff.mp hkept
  unfold Commit.references
  rw [if_neg hundeleted]

/-- An undeleted commit is a reference to each of its artifacts. -/
theorem mem_referenced (hn : n < c.commits.length) (hkept : c.isDeleted n = false)
    (hname : name ∈ (c.commit n).manifest.fileNames) : name ∈ c.referenced := by
  refine List.mem_flatMap.mpr ⟨c.commit n, List.mem_of_getElem? (getElem?_commits hn), ?_⟩
  rw [references_of_kept hkept]
  exact hname

/-- An artifact that is listed is one of an undeleted commit. -/
theorem exists_of_mem_referenced (h : name ∈ c.referenced) :
    ∃ n, n < c.commits.length ∧ c.isDeleted n = false ∧ name ∈ (c.commit n).manifest.fileNames := by
  obtain ⟨commit, hcommit, hname⟩ := List.mem_flatMap.mp h
  obtain ⟨n, hn, rfl⟩ := List.mem_iff_getElem.mp hcommit
  have heq : c.commits[n] = c.commit n := Option.some.inj
    ((List.getElem?_eq_getElem hn).symm.trans (getElem?_commits hn))
  rw [heq] at hname
  unfold Commit.references at hname
  split at hname
  next => cases hname
  next hkept => exact ⟨n, hn, Bool.eq_false_iff.mpr hkept, hname⟩

/-- The artifacts that are listed, by the numbers of the undeleted commits. -/
theorem referenced_eq (c : Catalog) : c.referenced =
    (c.undeleted (List.range c.commits.length)).flatMap
      fun n => (c.commit n).manifest.fileNames := by
  have hcommits : c.commits = (List.range c.commits.length).map c.commit := by
    refine List.ext_getElem (by simp) fun n hn _ => ?_
    rw [List.getElem_map, List.getElem_range]
    exact Option.some.inj ((List.getElem?_eq_getElem hn).symm.trans (getElem?_commits hn))
  unfold referenced undeleted
  rw [flatMap_filter]
  conv => lhs; rw [hcommits]
  rw [List.flatMap_map]
  refine congrArg (fun f => List.flatMap f _) (funext fun n => ?_)
  unfold Commit.references isDeleted
  cases (c.commit n).deleted with
  | false => rfl
  | true => rfl

theorem Backed.refCount_pos (h : c.Backed) (hname : name ∈ c.referenced) :
    0 < (c.tracker 0).refCount name := by
  rw [h.counted]
  exact List.count_pos_iff.mpr hname

/-! ## Steps of the tracker and of the store -/

theorem Single.onDepot_eq {α : Type} (h : c.Single) (f : Tracker → Store → α × Tracker × Store) :
    c.onDepot 0 f = ((f (c.tracker 0) (c.store 0)).1,
      ⟨[(f (c.tracker 0) (c.store 0)).2.2], [⟨0, (f (c.tracker 0) (c.store 0)).2.1⟩],
        c.commits⟩) := by
  obtain ⟨s, hs⟩ := h.stores
  obtain ⟨t, ht⟩ := h.depots
  obtain ⟨stores, depots, commits⟩ := c
  cases hs
  cases ht
  rfl

theorem Single.storeOf_eq (h : c.Single) : c.storeOf 0 = c.store 0 := by
  obtain ⟨t, ht⟩ := h.depots
  unfold storeOf depot
  rw [ht]
  rfl

theorem Single.setStoreOf_eq (h : c.Single) (s : Store) :
    c.setStoreOf 0 s = ⟨[s], c.depots, c.commits⟩ := by
  obtain ⟨s', hs⟩ := h.stores
  obtain ⟨t, ht⟩ := h.depots
  obtain ⟨stores, depots, commits⟩ := c
  cases hs
  cases ht
  rfl

theorem Single.store_setStoreOf (h : c.Single) (s : Store) : (c.setStoreOf 0 s).store 0 = s := by
  rw [h.setStoreOf_eq]
  rfl

theorem Backed.onStore (h : c.Backed) {s : Store}
    (hkeeps : ∀ name ∈ c.referenced, s.data? name = (c.store 0).data? name) {t : Tracker}
    (hcounts : ∀ name, t.refCount name = (c.tracker 0).refCount name) :
    Backed ⟨[s], [⟨0, t⟩], c.commits⟩ ∧ Later c ⟨[s], [⟨0, t⟩], c.commits⟩ := by
  refine ⟨⟨⟨⟨s, rfl⟩, ⟨t, rfl⟩⟩, h.artifacts, ?_, ?_⟩,
    ⟨⟨Nat.le_refl _, fun _ _ => rfl⟩, fun _ _ hd => hd, ?_⟩⟩
  · intro name
    exact (hcounts name).trans (h.counted name)
  · intro name hname
    show (s.data? name).isSome
    rw [hkeeps name hname]
    exact h.present name hname
  · intro n hn hkept name hname
    exact hkeeps name (mem_referenced hn hkept hname)

/-- Trying deletions again takes nothing that is referenced. -/
theorem Backed.retry (h : c.Backed) :
    Backed (c.onDepot 0 Tracker.retry).2 ∧ Later c (c.onDepot 0 Tracker.retry).2 := by
  rw [h.single.onDepot_eq]
  refine h.onStore ?_ fun name => Tracker.refCount_retry _ _ name
  intro name hname
  exact Tracker.data?_retry (h.refCount_pos hname) _

/-- A store with everything that is referenced may take the place of the store. -/
theorem Backed.setStore (h : c.Backed) {s : Store}
    (hkeeps : ∀ name ∈ c.referenced, s.data? name = (c.store 0).data? name) :
    Backed (c.setStore 0 s) ∧ Later c (c.setStore 0 s) := by
  obtain ⟨s', hs⟩ := h.single.stores
  obtain ⟨t, ht⟩ := h.single.depots
  have htracker : c.tracker 0 = t := by
    unfold tracker depot
    rw [ht]
    rfl
  have heq : c.setStore 0 s = ⟨[s], [⟨0, t⟩], c.commits⟩ := by
    unfold Catalog.setStore
    rw [hs, ht]
    rfl
  rw [heq]
  exact h.onStore hkeeps fun name => by rw [htracker]

/-- A store that holds all that was there may take the place of the store. -/
theorem Backed.setStoreOf (h : c.Backed) {s : Store} (hs : (c.store 0).Holds s) :
    Backed (c.setStoreOf 0 s) ∧ Later c (c.setStoreOf 0 s) := by
  obtain ⟨t, ht⟩ := h.single.depots
  have hstore : c.setStoreOf 0 s = c.setStore 0 s := by
    unfold Catalog.setStoreOf depot
    rw [ht]
    rfl
  rw [hstore]
  refine h.setStore ?_
  intro name hname
  obtain ⟨data, hdata⟩ := Option.isSome_iff_exists.mp (h.present name hname)
  rw [hs name data hdata, hdata]

/-! ## Deleting commits -/

/-- Marking a commit as deleted takes its references off and no others. -/
theorem referenced_setDeleted (hn : n < c.commits.length) (hkept : c.isDeleted n = false) :
    c.referenced.Perm ((c.commit n).manifest.fileNames ++
      (c.setCommit n { c.commit n with deleted := true }).referenced) := by
  obtain ⟨rest, hbefore, hafter⟩ := flatMap_set_perm Commit.references (getElem?_commits hn)
  have hnone : Commit.references { c.commit n with deleted := true } = [] := rfl
  have hset := hafter { c.commit n with deleted := true }
  rw [hnone, List.nil_append] at hset
  rw [references_of_kept hkept] at hbefore
  exact hbefore.trans (hset.symm.append_left _)

/-- Deleting an undeleted commit marks it and takes its references back. -/
theorem Single.delete (h : c.Single) (hkept : c.isDeleted n = false)
    (hb : (c.commit n).backing = .artifacts 0) :
    c.delete n = ((Tracker.decref (c.commit n).manifest.fileNames (c.tracker 0) (c.store 0)).1,
      ⟨[(Tracker.decref (c.commit n).manifest.fileNames (c.tracker 0) (c.store 0)).2.2],
        [⟨0, (Tracker.decref (c.commit n).manifest.fileNames (c.tracker 0) (c.store 0)).2.1⟩],
        (c.setCommit n { c.commit n with deleted := true }).commits⟩) := by
  have hsingle : (c.setCommit n { c.commit n with deleted := true }).Single :=
    ⟨h.stores, h.depots⟩
  have hstored : c.delete n = (c.setCommit n { c.commit n with deleted := true }).onDepot 0
      (Tracker.decref (c.commit n).manifest.fileNames) := by
    unfold Catalog.delete
    rw [hb]
    dsimp only
    rw [if_neg (by rw [hkept]; decide)]
    rfl
  rw [hstored, hsingle.onDepot_eq]
  rfl

/-- Deleting a commit leaves the artifacts of all others. -/
theorem Backed.delete (h : c.Backed) (hn : n < c.commits.length) :
    Backed (c.delete n).2 ∧ Later c (c.delete n).2 := by
  cases hdeleted : c.isDeleted n with
  | true =>
    rw [delete_of_isDeleted (h.artifacts n hn) hdeleted]
    exact ⟨h, Later.refl c⟩
  | false =>
    have hperm := referenced_setDeleted hn hdeleted
    have hlength := length_setCommit n { c.commit n with deleted := true } c
    have hcount : ∀ name, c.referenced.count name =
        (c.commit n).manifest.fileNames.count name +
          (c.setCommit n { c.commit n with deleted := true }).referenced.count name := by
      intro name
      rw [hperm.count_eq, List.count_append]
    -- what the remaining commits list has a reference beside those of the deleted one
    have hkeeps : ∀ name ∈ (c.setCommit n { c.commit n with deleted := true }).referenced,
        (Tracker.decref (c.commit n).manifest.fileNames (c.tracker 0) (c.store 0)).2.2.data? name =
          (c.store 0).data? name := by
      intro name hname
      refine Tracker.data?_decref ?_ _
      have hpos := List.count_pos_iff.mpr hname
      rw [h.counted, hcount]
      omega
    -- the frame lemmas are about `delete`, so they come before it is opened
    have hmark : (c.delete n).2.isDeleted n = true := isDeleted_delete_self hn (h.artifacts n hn)
    have hframe := sameCommits_delete n c
    have hbacking := backing_delete (h.artifacts n hn)
    rw [h.single.delete hdeleted (h.artifacts n hn)] at hmark hframe hbacking ⊢
    refine ⟨⟨⟨⟨_, rfl⟩, ⟨_, rfl⟩⟩, ?_, ?_, ?_⟩,
      ⟨hframe.extends, ?_, ?_⟩⟩
    · intro m hm
      exact (hbacking m).trans (h.artifacts m (hlength ▸ hm))
    · intro name
      refine (Tracker.refCount_decref _ (c.tracker 0) (c.store 0) name).trans ?_
      rw [h.counted, hcount, Nat.add_sub_cancel_left]
      rfl
    · intro name hname
      show ((Tracker.decref _ (c.tracker 0) (c.store 0)).2.2.data? name).isSome
      rw [hkeeps name hname]
      exact h.present name (hperm.mem_iff.mpr (List.mem_append_right _ hname))
    · intro m hm hd
      show ((c.setCommit n { c.commit n with deleted := true }).commit m).deleted = true
      rw [commit_setCommit]
      split
      next => rfl
      next => exact hd
    · intro m hm hkept name hname
      have hne : m ≠ n := by
        rintro rfl
        rw [hmark] at hkept
        cases hkept
      have hsame : (c.setCommit n { c.commit n with deleted := true }).commit m = c.commit m := by
        rw [commit_setCommit, if_neg fun hm => hne hm.1]
      refine hkeeps name (mem_referenced (hlength ▸ hm) hkept ?_)
      rw [hsame]
      exact hname

/-- Deleting commits leaves the artifacts of all others. -/
theorem Backed.prunes (h : c.Backed) (hp : Prunes c d) : d.Backed ∧ Later c d := by
  refine hp.induct (P := fun d => d.Backed ∧ Later c d) ⟨h, .refl c⟩ ?_
  intro c' n hn hc'
  obtain ⟨hbacked, hlater⟩ := hc'.1.delete hn
  exact ⟨hbacked, hc'.2.trans hlater⟩

/-! ## Adopting commits -/

theorem referenced_addCommit (m : Manifest) (c : Catalog) :
    (c.addCommit ⟨m, .artifacts 0, false⟩).referenced = c.referenced ++ m.fileNames := by
  unfold referenced addCommit
  rw [List.flatMap_append, List.flatMap_singleton]
  rfl

theorem commit_addCommit (commit : Commit) (hn : n < c.commits.length) :
    (c.addCommit commit).commit n = c.commit n := by
  unfold addCommit Catalog.commit
  rw [List.getD_eq_getElem?_getD, List.getD_eq_getElem?_getD, List.getElem?_append_left hn]

theorem commit_addCommit_self (commit : Commit) (c : Catalog) :
    (c.addCommit commit).commit c.commits.length = commit := by
  unfold addCommit Catalog.commit
  simp

theorem length_adopt (depot : Nat) (m : Manifest) (c : Catalog) :
    (c.adopt depot m).2.commits.length = c.commits.length + 1 :=
  List.length_append

theorem commit_adopt_of_lt {depot : Nat} {m : Manifest} (hn : n < c.commits.length) :
    (c.adopt depot m).2.commit n = c.commit n :=
  commit_addCommit ⟨m, .artifacts depot, false⟩ hn

theorem commit_adopt_self (depot : Nat) (m : Manifest) (c : Catalog) :
    (c.adopt depot m).2.commit c.commits.length = ⟨m, .artifacts depot, false⟩ :=
  commit_addCommit_self _ c

/-- A commit may join two catalogs of the same commits. -/
theorem SameCommits.adopt (h : c.SameCommits d) (depot : Nat) (m : Manifest) :
    SameCommits (c.adopt depot m).2 (d.adopt depot m).2 := by
  have hlength : (d.adopt depot m).2.commits.length = (c.adopt depot m).2.commits.length := by
    rw [length_adopt, length_adopt, h.length]
  refine ⟨hlength, fun n => ?_⟩
  rcases Nat.lt_trichotomy n c.commits.length with hn | rfl | hn
  · rw [commit_adopt_of_lt hn, commit_adopt_of_lt (h.length.symm ▸ hn)]
    exact h.manifest n
  · have hself := commit_adopt_self depot m d
    rw [h.length] at hself
    rw [hself, commit_adopt_self]
  · have hle : (c.adopt depot m).2.commits.length ≤ n := by
      rw [length_adopt]
      exact hn
    rw [commit_of_length_le hle, commit_of_length_le (hlength ▸ hle)]

theorem Single.adopt_eq (h : c.Single) (m : Manifest) : (c.adopt 0 m).2 =
    ⟨c.stores, [⟨0, (c.tracker 0).incref m.fileNames⟩],
      (c.addCommit ⟨m, .artifacts 0, false⟩).commits⟩ := by
  obtain ⟨t, ht⟩ := h.depots
  obtain ⟨stores, depots, commits⟩ := c
  cases ht
  rfl

/-- A commit whose artifacts are in the store may be adopted. -/
theorem Backed.adopt (h : c.Backed) {m : Manifest}
    (hpresent : ∀ name ∈ m.fileNames, ((c.store 0).data? name).isSome) :
    Backed (c.adopt 0 m).2 ∧ Later c (c.adopt 0 m).2 := by
  have hreferenced := referenced_addCommit m c
  rw [h.single.adopt_eq]
  refine ⟨⟨⟨h.single.stores, ⟨_, rfl⟩⟩, ?_, ?_, ?_⟩,
    ⟨⟨?_, ?_⟩, ?_, fun n hn hkept name hname => rfl⟩⟩
  · intro n hn
    show ((c.addCommit ⟨m, .artifacts 0, false⟩).commit n).backing = .artifacts 0
    have hn : n < c.commits.length + 1 := by simpa [addCommit] using hn
    rcases Nat.lt_succ_iff_lt_or_eq.mp hn with hlt | rfl
    · rw [commit_addCommit _ hlt]
      exact h.artifacts n hlt
    · rw [commit_addCommit_self]
  · intro name
    refine (Tracker.refCount_incref m.fileNames name (c.tracker 0)).trans ?_
    show _ = (c.addCommit ⟨m, .artifacts 0, false⟩).referenced.count name
    rw [hreferenced, List.count_append, h.counted]
  · intro name hname
    have hname : name ∈ (c.addCommit ⟨m, .artifacts 0, false⟩).referenced := hname
    rw [hreferenced] at hname
    rcases List.mem_append.mp hname with hname | hname
    · exact h.present name hname
    · exact hpresent name hname
  · show c.commits.length ≤ (c.commits ++ [_]).length
    rw [List.length_append]
    exact Nat.le_add_right _ _
  · intro n hn
    exact congrArg Commit.manifest (commit_addCommit ⟨m, .artifacts 0, false⟩ hn)
  · intro n hn hd
    exact (congrArg Commit.deleted (commit_addCommit ⟨m, .artifacts 0, false⟩ hn)).trans hd

end Catalog

end SnapshotRetention
