import SnapshotRetention.Catalog.Basic

/-!
# What deleting a commit leaves alone

Deleting a commit keeps the description of every commit and the number of commits
(`Catalog.SameCommits`), never takes a deletion mark back and marks no other commit; it marks the
commit itself unless that is a faulty one (`isDeleted_deleteEach_iff`). Adding commits keeps the
descriptions of those before (`Catalog.Extends`), so a version once read stays right. Catalogs from
which some commits have been deleted (`Catalog.Prunes`) keep what each deletion keeps
(`Prunes.induct`).
-/

namespace SnapshotRetention.Catalog

variable {c d : Catalog}

/-- Two catalogs that describe the same commits. -/
structure SameCommits (c d : Catalog) : Prop where
  length : d.commits.length = c.commits.length
  manifest : ∀ n, (d.commit n).manifest = (c.commit n).manifest

/-- A catalog that describes all commits of another one, and perhaps more. -/
structure Extends (c d : Catalog) : Prop where
  length : c.commits.length ≤ d.commits.length
  manifest : ∀ n, n < c.commits.length → (d.commit n).manifest = (c.commit n).manifest

theorem SameCommits.refl (c : Catalog) : SameCommits c c := ⟨rfl, fun _ => rfl⟩

theorem SameCommits.trans {e : Catalog} (h : SameCommits c d) (h' : SameCommits d e) :
    SameCommits c e :=
  ⟨h'.length.trans h.length, fun n => (h'.manifest n).trans (h.manifest n)⟩

theorem SameCommits.symm (h : SameCommits c d) : SameCommits d c :=
  ⟨h.length.symm, fun n => (h.manifest n).symm⟩

/-- What is behind the commits does not matter to a commit. -/
theorem commit_congr (h : d.commits = c.commits) (n : Nat) : d.commit n = c.commit n := by
  unfold Catalog.commit
  rw [h]

theorem store_congr (h : d.stores = c.stores) (k : Nat) : d.store k = c.store k := by
  unfold Catalog.store
  rw [h]

theorem isDeleted_congr (h : d.commits = c.commits) (n : Nat) : d.isDeleted n = c.isDeleted n :=
  congrArg Commit.deleted (commit_congr h n)

theorem undeleted_congr (h : d.commits = c.commits) (ns : List Nat) :
    d.undeleted ns = c.undeleted ns :=
  List.filter_congr fun n _ => congrArg not (isDeleted_congr h n)

theorem SameCommits.of_commits (h : d.commits = c.commits) : SameCommits c d :=
  ⟨congrArg List.length h, fun n => congrArg Commit.manifest (commit_congr h n)⟩

theorem SameCommits.version (h : SameCommits c d) (n : Nat) : d.version n = c.version n :=
  congrArg Manifest.version (h.manifest n)

theorem SameCommits.extends (h : SameCommits c d) : Extends c d :=
  ⟨Nat.le_of_eq h.length.symm, fun n _ => h.manifest n⟩

theorem Extends.refl (c : Catalog) : Extends c c := (SameCommits.refl c).extends

theorem Extends.trans {e : Catalog} (h : Extends c d) (h' : Extends d e) : Extends c e :=
  ⟨Nat.le_trans h.length h'.length, fun n hn =>
    (h'.manifest n (Nat.lt_of_lt_of_le hn h.length)).trans (h.manifest n hn)⟩

theorem Extends.version (h : Extends c d) {n : Nat} (hn : n < c.commits.length) :
    d.version n = c.version n :=
  congrArg Manifest.version (h.manifest n hn)

/-! ## Replacing one commit -/

theorem commit_setCommit (n : Nat) (commit : Commit) (c : Catalog) (m : Nat) :
    (c.setCommit n commit).commit m =
      if m = n ∧ n < c.commits.length then commit else c.commit m := by
  unfold setCommit Catalog.commit
  simp only [List.getD_eq_getElem?_getD, List.getElem?_set]
  by_cases hm : n = m
  · subst hm
    rw [if_pos rfl]
    by_cases hn : n < c.commits.length
    · simp [hn]
    · simp [hn]
  · rw [if_neg hm, if_neg (fun h => hm h.1.symm)]

theorem length_setCommit (n : Nat) (commit : Commit) (c : Catalog) :
    (c.setCommit n commit).commits.length = c.commits.length :=
  List.length_set ..

/-- A commit may be replaced by one with the same description. -/
theorem sameCommits_setCommit {n : Nat} {commit : Commit}
    (h : commit.manifest = (c.commit n).manifest) : SameCommits c (c.setCommit n commit) := by
  refine ⟨length_setCommit n commit c, ?_⟩
  intro m
  rw [commit_setCommit]
  split
  next hm => rw [h, hm.1]
  next => rfl

/-! ## Deleting -/

theorem sameCommits_delete (n : Nat) (c : Catalog) : SameCommits c (c.delete n).2 := by
  unfold delete
  split
  next depot _ =>
    split
    next => exact SameCommits.refl c
    next =>
      have hset : SameCommits c (c.setCommit n { c.commit n with deleted := true }) :=
        sameCommits_setCommit rfl
      exact ⟨hset.length, hset.manifest⟩
  next => exact SameCommits.refl c
  next => exact sameCommits_setCommit rfl

/-- Deleting a commit marks at most that commit. -/
theorem isDeleted_delete_of_ne {n m : Nat} (h : m ≠ n) (c : Catalog) :
    (c.delete n).2.isDeleted m = c.isDeleted m := by
  have hset : ∀ commit, ((c.setCommit n commit).commit m).deleted = (c.commit m).deleted := by
    intro commit
    rw [commit_setCommit, if_neg (fun hm => h hm.1)]
  unfold delete
  split
  next =>
    split
    next => rfl
    next => exact hset _
  next => rfl
  next => exact hset _

/-- A deletion mark stays. -/
theorem isDeleted_delete_of_isDeleted {m : Nat} (n : Nat) {c : Catalog}
    (h : c.isDeleted m = true) : (c.delete n).2.isDeleted m = true := by
  have hset : ∀ commit : Commit, commit.deleted = true →
      ((c.setCommit n commit).commit m).deleted = true := by
    intro commit hdel
    rw [commit_setCommit]
    split
    next => exact hdel
    next => exact h
  unfold delete
  split
  next =>
    split
    next => exact h
    next => exact hset _ rfl
  next => exact h
  next => exact hset _ rfl

/-- A commit backed by artifacts is marked whatever becomes of its artifacts. -/
theorem isDeleted_delete_self {n depot : Nat} {c : Catalog} (hn : n < c.commits.length)
    (hb : (c.commit n).backing = .artifacts depot) : (c.delete n).2.isDeleted n = true := by
  unfold delete
  rw [hb]
  dsimp only
  split
  next h => exact h
  next =>
    show ((c.setCommit n { c.commit n with deleted := true }).commit n).deleted = true
    rw [commit_setCommit, if_pos ⟨rfl, hn⟩]

/-- Nothing happens to a deleted commit again. -/
theorem delete_of_isDeleted {n depot : Nat} {c : Catalog}
    (hb : (c.commit n).backing = .artifacts depot) (h : c.isDeleted n = true) :
    c.delete n = (.ok (), c) := by
  unfold delete
  rw [hb]
  dsimp only
  rw [if_pos h]

/-- Deleting a commit backed by artifacts changes what backs no commit. -/
theorem backing_delete {n depot : Nat} {c : Catalog}
    (hb : (c.commit n).backing = .artifacts depot) (m : Nat) :
    ((c.delete n).2.commit m).backing = (c.commit m).backing := by
  unfold delete
  rw [hb]
  dsimp only
  split
  next => rfl
  next =>
    show ((c.setCommit n { c.commit n with deleted := true }).commit m).backing = _
    rw [commit_setCommit]
    split
    next hm => rw [hm.1]
    next => rfl

/-! ## Commits that cannot be deleted -/

section
variable {n : Nat}

/-- Whether a commit is a plain one whose deletion is made to fail. -/
def isFaulty (c : Catalog) (n : Nat) : Bool :=
  match (c.commit n).backing with
  | .artifacts _ => false
  | .plain faulty _ => faulty

/-- Deleting a faulty commit fails and changes nothing. -/
theorem delete_of_isFaulty (h : c.isFaulty n = true) :
    c.delete n = (.error (.io (.diskGone (c.version n).number)), c) := by
  unfold isFaulty at h
  unfold delete
  cases hb : (c.commit n).backing with
  | artifacts depot =>
    rw [hb] at h
    cases h
  | plain faulty deletions =>
    rw [hb] at h
    obtain rfl : faulty = true := h
    rfl

/-- Deleting a commit makes no commit faulty and mends none. -/
theorem isFaulty_delete (n : Nat) (c : Catalog) (m : Nat) :
    (c.delete n).2.isFaulty m = c.isFaulty m := by
  unfold isFaulty
  cases hb : (c.commit n).backing with
  | artifacts depot => rw [backing_delete hb]
  | plain faulty deletions =>
    cases faulty with
    | true =>
      unfold delete
      rw [hb]
    | false =>
      unfold delete
      rw [hb]
      dsimp only
      rw [commit_setCommit]
      by_cases hm : m = n ∧ n < c.commits.length
      · rw [if_pos hm, hm.1, hb]
      · rw [if_neg hm]

/-- Deleting a commit marks it, unless it is faulty. -/
theorem isDeleted_delete_iff (hn : n < c.commits.length) :
    (c.delete n).2.isDeleted n = true ↔ c.isDeleted n = true ∨ c.isFaulty n = false := by
  cases hfaulty : c.isFaulty n with
  | true =>
    rw [delete_of_isFaulty hfaulty]
    simp
  | false =>
    have hdeleted : (c.delete n).2.isDeleted n = true := by
      unfold isFaulty at hfaulty
      cases hb : (c.commit n).backing with
      | artifacts depot => exact isDeleted_delete_self hn hb
      | plain faulty deletions =>
        rw [hb] at hfaulty
        obtain rfl : faulty = false := hfaulty
        unfold delete
        rw [hb]
        show ((c.setCommit n _).commit n).deleted = true
        rw [commit_setCommit, if_pos ⟨rfl, hn⟩]
    simp [hdeleted]

end

/-! ## Deleting several commits -/

/-- Deletes commits in order, whatever fails. -/
def deleteEach (commits : List Nat) (c : Catalog) : Catalog :=
  commits.foldl (fun c n => (c.delete n).2) c

theorem sameCommits_deleteEach (ns : List Nat) (c : Catalog) : SameCommits c (c.deleteEach ns) := by
  induction ns generalizing c with
  | nil => exact SameCommits.refl c
  | cons n ns ih => exact (sameCommits_delete n c).trans (ih _)

theorem isDeleted_deleteEach_of_not_mem {ns : List Nat} {m : Nat} (h : m ∉ ns) (c : Catalog) :
    (c.deleteEach ns).isDeleted m = c.isDeleted m := by
  induction ns generalizing c with
  | nil => rfl
  | cons n ns ih =>
    rw [List.mem_cons, not_or] at h
    have hrest : (c.deleteEach (n :: ns)).isDeleted m = (c.delete n).2.isDeleted m := ih h.2 _
    rw [hrest, isDeleted_delete_of_ne h.1]

theorem isFaulty_deleteEach (ns : List Nat) (c : Catalog) (m : Nat) :
    (c.deleteEach ns).isFaulty m = c.isFaulty m := by
  induction ns generalizing c with
  | nil => rfl
  | cons n ns ih => exact (ih _).trans (isFaulty_delete n c m)

/-- Of the commits that are deleted in order, whatever fails, all are marked but the faulty ones. -/
theorem isDeleted_deleteEach_iff {ns : List Nat} {m : Nat} (hm : m < c.commits.length) :
    (c.deleteEach ns).isDeleted m = true ↔
      c.isDeleted m = true ∨ m ∈ ns ∧ c.isFaulty m = false := by
  induction ns generalizing c with
  | nil => simp [deleteEach]
  | cons n ns ih =>
    have hrest : (c.deleteEach (n :: ns)).isDeleted m = true ↔
        (c.delete n).2.isDeleted m = true ∨ m ∈ ns ∧ c.isFaulty m = false := by
      rw [← isFaulty_delete n c m]
      exact ih ((sameCommits_delete n c).length.symm ▸ hm)
    rw [hrest, List.mem_cons]
    by_cases hmn : m = n
    · subst hmn
      rw [isDeleted_delete_iff hm, or_assoc]
      simp only [true_or, true_and]
      exact or_congr_right (or_iff_left_of_imp And.right)
    · rw [isDeleted_delete_of_ne hmn]
      simp only [hmn, false_or]

/-! ## Pruning -/

/-- `d` is what deleting some commits, one after the other, leaves of `c`. -/
def Prunes (c d : Catalog) : Prop := ∃ ns, d = c.deleteEach ns

theorem Prunes.refl (c : Catalog) : Prunes c c := ⟨[], rfl⟩

theorem Prunes.delete (n : Nat) (c : Catalog) : Prunes c (c.delete n).2 := ⟨[n], rfl⟩

theorem Prunes.trans {e : Catalog} (h : Prunes c d) (h' : Prunes d e) : Prunes c e := by
  obtain ⟨ns, rfl⟩ := h
  obtain ⟨ms, rfl⟩ := h'
  exact ⟨ns ++ ms, List.foldl_append.symm⟩

theorem commit_of_length_le {n : Nat} (h : c.commits.length ≤ n) : c.commit n = default := by
  unfold Catalog.commit
  rw [List.getD_eq_getElem?_getD, List.getElem?_eq_none h]
  rfl

/-- There is nothing to delete under a number that no commit has. -/
theorem delete_of_length_le {n : Nat} (h : c.commits.length ≤ n) : (c.delete n).2 = c := by
  have hset : ∀ commit, c.setCommit n commit = c := by
    intro commit
    unfold setCommit
    rw [List.set_eq_of_length_le h]
  have hbacking : (c.commit n).backing = .plain false 0 := by
    rw [commit_of_length_le h]
    rfl
  unfold Catalog.delete
  rw [hbacking]
  exact hset _

/-- What the deletion of each commit keeps, pruning keeps. -/
theorem Prunes.induct {P : Catalog → Prop} (h : Prunes c d) (hc : P c)
    (hstep : ∀ (c : Catalog) (n : Nat), n < c.commits.length → P c → P (c.delete n).2) : P d := by
  obtain ⟨ns, rfl⟩ := h
  induction ns generalizing c with
  | nil => exact hc
  | cons n ns ih =>
    have hdeleted : P (c.delete n).2 := by
      rcases Nat.lt_or_ge n c.commits.length with hn | hn
      · exact hstep c n hn hc
      · rwa [delete_of_length_le hn]
    exact ih hdeleted

theorem Prunes.sameCommits (h : Prunes c d) : SameCommits c d := by
  obtain ⟨ns, rfl⟩ := h
  exact sameCommits_deleteEach ns c

/-- What was deleted stays deleted when commits are deleted. -/
theorem Prunes.isDeleted (h : Prunes c d) {n : Nat} (hn : c.isDeleted n = true) :
    d.isDeleted n = true :=
  h.induct (P := fun d => d.isDeleted n = true) hn
    fun _ m _ hdeleted => isDeleted_delete_of_isDeleted m hdeleted

/-- Commits backed by artifacts that are deleted together are all marked. -/
theorem isDeleted_deleteEach_of_mem {ns : List Nat} {n : Nat} (hn : n ∈ ns)
    (hb : ∀ m ∈ ns, m < c.commits.length ∧ ∃ depot, (c.commit m).backing = .artifacts depot) :
    (c.deleteEach ns).isDeleted n = true := by
  obtain ⟨hlt, depot, hbacking⟩ := hb n hn
  have hfaulty : c.isFaulty n = false := by
    unfold isFaulty
    rw [hbacking]
  exact (isDeleted_deleteEach_iff hlt).mpr (Or.inr ⟨hn, hfaulty⟩)

/-- What backs commits with artifacts stays when commits are deleted. -/
theorem Prunes.artifacts (h : Prunes c d) {depot : Nat}
    (hc : ∀ n, n < c.commits.length → (c.commit n).backing = .artifacts depot) :
    ∀ n, n < d.commits.length → (d.commit n).backing = .artifacts depot := by
  refine h.induct (P := fun d => ∀ n, n < d.commits.length →
    (d.commit n).backing = .artifacts depot) hc ?_
  intro c n hn hall m hm
  rw [(sameCommits_delete n c).length] at hm
  exact (backing_delete (hall n hn) m).trans (hall m hm)

/-- What is left of what is left is all of it. -/
theorem undeleted_undeleted (ns : List Nat) (c : Catalog) :
    c.undeleted (c.undeleted ns) = c.undeleted ns := by
  unfold undeleted
  rw [List.filter_filter]
  simp only [Bool.and_self]

end SnapshotRetention.Catalog
