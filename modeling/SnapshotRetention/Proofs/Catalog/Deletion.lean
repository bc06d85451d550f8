import SnapshotRetention.Proofs.Catalog.Backed
import SnapshotRetention.Proofs.Store.Steps

/-!
# What deleting a commit does to the store

A tracker that takes references back dooms each name that loses its last one, and no name twice
(`Tracker.nodup_doomed`, `Tracker.mem_doomed`). Of the names it deletes, those that the store keeps
are queued (`Tracker.Deleted`).

A catalog is tallied (`Catalog.Tallied`) if its tracker counts what the undeleted commits list and
queues nothing that they list, whatever is in the store. Deleting a commit of a tallied catalog
(`Tallied.delete`, and `Tallied.induct_prunes` for several) and trying the queue again
(`Tallied.retried`) clear the names that nothing lists any more, up to those that are queued then
(`Catalog.Disposed`).
-/

namespace SnapshotRetention

namespace Tracker

variable {t t' : Tracker} {s s' : Store} {q : String} {names kept : List String}

/-! ## Doomed names -/

theorem get?_decrement_of_none (h : t.counts.get? q = none) (name : String) :
    (t.decrement name).counts.get? q = none := by
  unfold decrement
  split
  next => exact h
  next count hcount =>
    have hne : q ≠ name := by
      rintro rfl
      cases h.symm.trans hcount
    split
    next => rw [Table.get?_insert, if_neg hne, h]
    next => rw [Table.get?_erase, if_neg hne, h]

/-- What is not tracked cannot lose a reference. -/
theorem not_mem_doomed (h : t.counts.get? q = none) (names : List String) :
    q ∉ (discount names t).1 := by
  induction names generalizing t with
  | nil => exact List.not_mem_nil
  | cons name names ih =>
    have hrest := ih (get?_decrement_of_none h name)
    show q ∉ if t.isLast name then name :: (discount names (t.decrement name)).1
      else (discount names (t.decrement name)).1
    split
    next hlast =>
      have hne : q ≠ name := by
        rintro rfl
        unfold isLast at hlast
        rw [h] at hlast
        cases hlast
      rw [List.mem_cons, not_or]
      exact ⟨hne, hrest⟩
    next => exact hrest

theorem get?_decrement_of_isLast {name : String} (h : t.isLast name = true) :
    (t.decrement name).counts.get? name = none := by
  unfold isLast at h
  unfold decrement
  split at h
  next => cases h
  next count hcount =>
    rw [if_neg (Nat.not_lt.mpr (of_decide_eq_true h)), Table.get?_erase, if_pos rfl]

/-- A name loses its last reference once. -/
theorem nodup_doomed (names : List String) (t : Tracker) : (discount names t).1.Nodup := by
  induction names generalizing t with
  | nil => exact List.nodup_nil
  | cons name names ih =>
    show (if t.isLast name then name :: (discount names (t.decrement name)).1
      else (discount names (t.decrement name)).1).Nodup
    split
    next hlast =>
      exact List.nodup_cons.mpr ⟨not_mem_doomed (get?_decrement_of_isLast hlast) names, ih _⟩
    next => exact ih _

theorem isLast_of_refCount {name : String} (hpos : 0 < t.refCount name)
    (hnone : (t.decrement name).refCount name = 0) : t.isLast name = true := by
  rw [refCount_decrement, if_pos rfl] at hnone
  unfold refCount at hpos hnone
  unfold isLast
  cases hget : t.counts.get? name with
  | none =>
    rw [hget] at hpos
    exact absurd hpos (Nat.lt_irrefl 0)
  | some count =>
    rw [hget] at hnone
    have hle : count - 1 = 0 := hnone
    exact decide_eq_true (by omega)

/-- The doomed names are those that are referenced before and not after. -/
theorem mem_doomed (hpos : 0 < t.refCount q) :
    q ∈ (discount names t).1 ↔ (discount names t).2.refCount q = 0 := by
  refine ⟨refCount_of_doomed, ?_⟩
  induction names generalizing t with
  | nil =>
    intro hnone
    exact absurd hnone (Nat.ne_of_gt hpos)
  | cons name names ih =>
    intro hnone
    have hnone : (discount names (t.decrement name)).2.refCount q = 0 := hnone
    show q ∈ if t.isLast name then name :: (discount names (t.decrement name)).1
      else (discount names (t.decrement name)).1
    rcases Nat.eq_zero_or_pos ((t.decrement name).refCount q) with hzero | hmore
    · -- the first of the names takes the last reference
      have hq : q = name := by
        rw [refCount_decrement] at hzero
        split at hzero
        next hq => exact hq
        next => omega
      subst hq
      rw [if_pos (isLast_of_refCount hpos hzero)]
      exact List.mem_cons_self
    · have hrest := ih hmore hnone
      split
      next => exact List.mem_cons_of_mem _ hrest
      next => exact hrest

theorem queue_discount (names : List String) (t : Tracker) :
    (discount names t).2.queue = t.queue := by
  induction names generalizing t with
  | nil => rfl
  | cons name names ih =>
    refine (ih (t.decrement name)).trans ?_
    unfold decrement
    split
    next => rfl
    next =>
      split
      next => rfl
      next => rfl

theorem queue_incref (names : List String) (t : Tracker) : (t.incref names).queue = t.queue := by
  induction names generalizing t with
  | nil => rfl
  | cons name names ih => exact ih (t.increment name)

/-- Names are doomed in the order in which they are listed. -/
theorem sublist_doomed (names : List String) (t : Tracker) :
    (discount names t).1.Sublist names := by
  induction names generalizing t with
  | nil => exact List.Sublist.refl _
  | cons name names ih =>
    show (if t.isLast name then name :: (discount names (t.decrement name)).1
      else (discount names (t.decrement name)).1).Sublist _
    split
    next => exact (ih _).cons_cons name
    next => exact (ih _).cons name

/-- Only listed names are doomed. -/
theorem mem_of_doomed (h : q ∈ (discount names t).1) : q ∈ names :=
  (sublist_doomed names t).subset h

/-! ## Deleting -/

/-- What deleting names does: those that the store keeps are queued, and if there are any the
deletion fails. -/
structure Deleted (names kept : List String) (t : Tracker) (s : Store)
    (out : Except Error Unit × Tracker × Store) : Prop where
  sublist : kept.Sublist names
  tracker : out.2.1 = { t with queue := t.queue ++ kept }
  store : Store.Cleared names kept s out.2.2
  result : out.1 = .ok () ↔ kept = []

theorem deleted_deleteOne (name : String) (t : Tracker) (s : Store) :
    ∃ kept, Deleted [name] kept t s (deleteOne name t s) := by
  have hsame : t = { t with queue := t.queue ++ [] } := by rw [List.append_nil]
  unfold deleteOne
  split
  next s' hd =>
    exact ⟨[], List.nil_sublist _, hsame, Store.cleared_delete (Or.inl hd),
      ⟨fun _ => rfl, fun _ => rfl⟩⟩
  next n s' hd =>
    exact ⟨[], List.nil_sublist _, hsame, Store.cleared_delete (Or.inr ⟨n, hd⟩),
      ⟨fun _ => rfl, fun _ => rfl⟩⟩
  next e s' hfound hd =>
    refine ⟨[name], List.Sublist.refl _, rfl, Store.cleared_delete_error hd ?_, ⟨nofun, nofun⟩⟩
    rintro n rfl
    exact hfound n rfl

theorem firstFailure_eq_ok {first second : Except Error Unit} :
    firstFailure first second = .ok () ↔ first = .ok () ∧ second = .ok () := by
  unfold firstFailure
  cases first with
  | error e => exact ⟨nofun, fun h => nomatch h.1⟩
  | ok u => exact ⟨fun h => ⟨rfl, h⟩, fun h => h.2⟩

theorem deleted_deleteAll (hnodup : names.Nodup) (t : Tracker) (s : Store) :
    ∃ kept, Deleted names kept t s (deleteAll names t s) := by
  induction names generalizing t s with
  | nil =>
    refine ⟨[], List.Sublist.refl _, ?_, .nil rfl rfl rfl, ⟨fun _ => rfl, fun _ => rfl⟩⟩
    rw [List.append_nil]
    rfl
  | cons name names ih =>
    obtain ⟨hnot, hrest⟩ := List.nodup_cons.mp hnodup
    obtain ⟨kept, hfirst⟩ := deleted_deleteOne name t s
    obtain ⟨kept', hafter⟩ := ih hrest (deleteOne name t s).2.1 (deleteOne name t s).2.2
    refine ⟨kept ++ kept', hfirst.sublist.append hafter.sublist, ?_, ?_, ?_⟩
    · refine hafter.tracker.trans ?_
      rw [hfirst.tracker, List.append_assoc]
    · refine hfirst.store.append hafter.store hfirst.sublist.subset hafter.sublist.subset ?_
      intro q hq hmem
      exact hnot (List.mem_singleton.mp hq ▸ hmem)
    · show firstFailure (deleteOne name t s).1 _ = .ok () ↔ _
      rw [firstFailure_eq_ok, hfirst.result, List.append_eq_nil_iff]
      exact and_congr_right fun _ => hafter.result

end Tracker

namespace Catalog

variable {c d : Catalog} {n : Nat} {q : String} {waiting names kept : List String}

/-! ## Tallied catalogs -/

/-- The tracker counts what the undeleted commits list, whether it is in the store or not, and
queues names that none of them lists, each of them once. -/
structure Tallied (c : Catalog) : Prop where
  single : c.Single
  artifacts : ∀ n, n < c.commits.length → (c.commit n).backing = .artifacts 0
  counted : ∀ name, (c.tracker 0).refCount name = c.referenced.count name
  nodup : (c.tracker 0).queue.Nodup
  loose : ∀ q ∈ (c.tracker 0).queue, q ∉ c.referenced

theorem Tallied.refCount_pos_iff (h : c.Tallied) (q : String) :
    0 < (c.tracker 0).refCount q ↔ q ∈ c.referenced := by
  rw [h.counted]
  exact List.count_pos_iff

theorem Tallied.refCount_eq_zero_iff (h : c.Tallied) (q : String) :
    (c.tracker 0).refCount q = 0 ↔ q ∉ c.referenced := by
  rw [h.counted]
  exact List.count_eq_zero

/-- What deleting some names leaves that nothing lists any more: the names that were kept are queued
behind those that go on waiting. -/
structure Disposed (waiting names kept : List String) (c d : Catalog) : Prop where
  tallied : d.Tallied
  shrinks : ∀ q ∈ d.referenced, q ∈ c.referenced
  covers : ∀ q, q ∈ c.referenced ∨ q ∈ (c.tracker 0).queue ↔
    q ∈ d.referenced ∨ q ∈ waiting ∨ q ∈ names
  waits : ∀ q ∈ waiting, q ∈ (c.tracker 0).queue
  queue : (d.tracker 0).queue = waiting ++ kept
  loose : ∀ q ∈ names, q ∉ d.referenced ∧ q ∉ waiting
  sublist : kept.Sublist names
  cleared : Store.Cleared names kept (c.store 0) (d.store 0)

theorem Disposed.node_of_referenced (h : Disposed waiting names kept c d) (hq : q ∈ d.referenced) :
    (d.store 0).medium.node? q = (c.store 0).medium.node? q :=
  h.cleared.node_of_not_mem fun hmem => (h.loose q hmem).1 hq

theorem Disposed.node_of_queued (h : Disposed waiting names kept c d)
    (hq : q ∈ (d.tracker 0).queue) :
    (d.store 0).medium.node? q = (c.store 0).medium.node? q := by
  rw [h.queue] at hq
  rcases List.mem_append.mp hq with hq | hq
  · exact h.cleared.node_of_not_mem fun hmem => (h.loose q hmem).2 hq
  · exact h.cleared.node_of_kept hq

/-- The catalog whose queued deletions have been tried again. -/
def retried (c : Catalog) : Catalog := (c.onDepot 0 Tracker.retry).2

theorem Single.retried (h : c.Single) : c.retried.Single := by
  unfold Catalog.retried
  rw [h.onDepot_eq]
  exact ⟨⟨_, rfl⟩, ⟨_, rfl⟩⟩

theorem Single.commits_retried (h : c.Single) : c.retried.commits = c.commits := by
  unfold Catalog.retried
  rw [h.onDepot_eq]

theorem Tallied.retried (h : c.Tallied) :
    ∃ kept, Disposed [] (c.tracker 0).queue kept c c.retried := by
  have hall : ((c.tracker 0).queue.filter fun name => !(c.tracker 0).isReferenced name) =
      (c.tracker 0).queue := by
    refine List.filter_eq_self.mpr ?_
    intro q hq
    have hzero := (h.refCount_eq_zero_iff q).mpr (h.loose q hq)
    simp [Tracker.isReferenced, hzero]
  have hretry : Tracker.retry (c.tracker 0) (c.store 0) =
      Tracker.deleteAll (c.tracker 0).queue { c.tracker 0 with queue := [] } (c.store 0) := by
    unfold Tracker.retry
    rw [hall]
  obtain ⟨kept, hdeleted⟩ :=
    Tracker.deleted_deleteAll h.nodup { c.tracker 0 with queue := [] } (c.store 0)
  rw [← hretry] at hdeleted
  have hqueue : (Tracker.retry (c.tracker 0) (c.store 0)).2.1.queue = kept :=
    congrArg Tracker.queue hdeleted.tracker
  unfold Catalog.retried
  rw [h.single.onDepot_eq]
  refine ⟨kept,
    { tallied := ⟨⟨⟨_, rfl⟩, ⟨_, rfl⟩⟩, h.artifacts, ?_, ?_, ?_⟩
      shrinks := fun q hq => hq
      covers := fun q => or_congr_right (by simp)
      waits := fun q hq => absurd hq List.not_mem_nil
      queue := hqueue
      loose := fun q hq => ⟨h.loose q hq, List.not_mem_nil⟩
      sublist := hdeleted.sublist
      cleared := hdeleted.store }⟩
  · intro name
    exact (Tracker.refCount_retry _ _ name).trans (h.counted name)
  · show (Tracker.retry (c.tracker 0) (c.store 0)).2.1.queue.Nodup
    rw [hqueue]
    exact hdeleted.sublist.nodup h.nodup
  · intro q hq
    have hq : q ∈ (Tracker.retry (c.tracker 0) (c.store 0)).2.1.queue := hq
    rw [hqueue] at hq
    exact h.loose q (hdeleted.sublist.subset hq)

/-- What an undeleted commit lists is referenced by it or by the others. -/
theorem mem_referenced_setDeleted (hn : n < c.commits.length) (hkept : c.isDeleted n = false)
    (q : String) : q ∈ c.referenced ↔ q ∈ (c.commit n).manifest.fileNames ∨
      q ∈ (c.setCommit n { c.commit n with deleted := true }).referenced := by
  rw [(referenced_setDeleted hn hkept).mem_iff, List.mem_append]

/-- Where nothing is deleted, nothing is disposed of. -/
theorem Tallied.disposed_nil (h : c.Tallied) : Disposed (c.tracker 0).queue [] [] c c :=
  { tallied := h
    shrinks := fun q hq => hq
    covers := fun q => or_congr_right (by simp)
    waits := fun q hq => hq
    queue := (List.append_nil _).symm
    loose := fun q hq => absurd hq List.not_mem_nil
    sublist := List.Sublist.refl _
    cleared := .nil rfl rfl rfl }

section
variable (h : c.Tallied) (hn : n < c.commits.length) (hkept : c.isDeleted n = false)
include h hn hkept

/-- The references that are left once those of a commit are taken back are those of the others. -/
theorem Tallied.refCount_discount (name : String) :
    (Tracker.discount (c.commit n).manifest.fileNames (c.tracker 0)).2.refCount name =
      (c.setCommit n { c.commit n with deleted := true }).referenced.count name := by
  rw [Tracker.refCount_discount, h.counted, (referenced_setDeleted hn hkept).count_eq,
    List.count_append, Nat.add_sub_cancel_left]

/-- A commit dooms what no other lists. -/
theorem Tallied.mem_doomed {q : String} :
    q ∈ (Tracker.discount (c.commit n).manifest.fileNames (c.tracker 0)).1 ↔
      q ∈ c.referenced ∧ q ∉ (c.setCommit n { c.commit n with deleted := true }).referenced := by
  have hzero := List.count_eq_zero
    (a := q) (l := (c.setCommit n { c.commit n with deleted := true }).referenced)
  rw [← h.refCount_discount hn hkept] at hzero
  constructor
  · intro hq
    exact ⟨(mem_referenced_setDeleted hn hkept q).mpr (Or.inl (Tracker.mem_of_doomed hq)),
      hzero.mp (Tracker.refCount_of_doomed hq)⟩
  · rintro ⟨hq, hlast⟩
    exact (Tracker.mem_doomed ((h.refCount_pos_iff q).mpr hq)).mpr (hzero.mpr hlast)

/-- Deleting an undeleted commit disposes of what it dooms. -/
theorem Tallied.delete_of_kept :
    ∃ kept, Disposed (c.tracker 0).queue
        (Tracker.discount (c.commit n).manifest.fileNames (c.tracker 0)).1 kept c (c.delete n).2 ∧
      ((c.delete n).1 = .ok () ↔ kept = []) := by
  have hsub := mem_referenced_setDeleted hn hkept
  have hdoomed := fun q => h.mem_doomed hn hkept (q := q)
  have hlength := length_setCommit n { c.commit n with deleted := true } c
  have hbacking := backing_delete (h.artifacts n hn)
  rw [h.single.delete hkept (h.artifacts n hn)] at hbacking ⊢
  obtain ⟨kept, hall⟩ := Tracker.deleted_deleteAll
    (Tracker.nodup_doomed (c.commit n).manifest.fileNames (c.tracker 0))
    (Tracker.discount (c.commit n).manifest.fileNames (c.tracker 0)).2 (c.store 0)
  have hqueue : (Tracker.decref (c.commit n).manifest.fileNames (c.tracker 0)
      (c.store 0)).2.1.queue = (c.tracker 0).queue ++ kept := by
    refine (congrArg Tracker.queue hall.tracker).trans ?_
    rw [Tracker.queue_discount]
  refine ⟨kept,
    { tallied := ⟨⟨⟨_, rfl⟩, ⟨_, rfl⟩⟩, ?_, ?_, ?_, ?_⟩
      shrinks := fun q hq => (hsub q).mpr (Or.inr hq)
      covers := ?_
      waits := fun q hq => hq
      queue := hqueue
      loose := ?_
      sublist := hall.sublist
      cleared := hall.store }, hall.result⟩
  · intro m hm
    exact (hbacking m).trans (h.artifacts m (hlength ▸ hm))
  · intro name
    exact (Tracker.refCount_deleteAll _ _ (c.store 0) name).trans
      (h.refCount_discount hn hkept name)
  · show (Tracker.decref _ (c.tracker 0) (c.store 0)).2.1.queue.Nodup
    rw [hqueue]
    refine List.Nodup.append h.nodup (hall.sublist.nodup (Tracker.nodup_doomed _ _)) ?_
    intro q hq hmem
    exact h.loose q hq ((hdoomed q).mp (hall.sublist.subset hmem)).1
  · intro q hq
    have hq : q ∈ (Tracker.decref (c.commit n).manifest.fileNames (c.tracker 0)
      (c.store 0)).2.1.queue := hq
    rw [hqueue] at hq
    rcases List.mem_append.mp hq with hq | hq
    · exact fun hmem => h.loose q hq ((hsub q).mpr (Or.inr hmem))
    · exact ((hdoomed q).mp (hall.sublist.subset hq)).2
  · intro q
    constructor
    · rintro (hq | hq)
      · by_cases hstays : q ∈ (c.setCommit n { c.commit n with deleted := true }).referenced
        · exact Or.inl hstays
        · exact Or.inr (Or.inr ((hdoomed q).mpr ⟨hq, hstays⟩))
      · exact Or.inr (Or.inl hq)
    · rintro (hq | hq | hq)
      · exact Or.inl ((hsub q).mpr (Or.inr hq))
      · exact Or.inr hq
      · exact Or.inl ((hdoomed q).mp hq).1
  · intro q hq
    obtain ⟨hlisted, hlast⟩ := (hdoomed q).mp hq
    exact ⟨hlast, fun hwaits => h.loose q hwaits hlisted⟩

end

/-- Deleting a commit. -/
theorem Tallied.delete (h : c.Tallied) (hn : n < c.commits.length) :
    ∃ names kept, Disposed (c.tracker 0).queue names kept c (c.delete n).2 ∧
      ((c.delete n).1 = .ok () ↔ kept = []) := by
  cases hdeleted : c.isDeleted n with
  | true =>
    rw [delete_of_isDeleted (h.artifacts n hn) hdeleted]
    exact ⟨[], [], h.disposed_nil, ⟨fun _ => rfl, fun _ => rfl⟩⟩
  | false => exact ⟨_, h.delete_of_kept hn hdeleted⟩

theorem Tallied.prunes (h : c.Tallied) (hp : Prunes c d) : d.Tallied := by
  refine hp.induct h fun c n hn hc => ?_
  obtain ⟨names, kept, hd, -⟩ := hc.delete hn
  exact hd.tallied

/-- What disposing of files keeps, pruning keeps. -/
theorem Tallied.induct_prunes {P : Catalog → Prop} (h : c.Tallied) (hp : Prunes c d) (hc : P c)
    (hstep : ∀ {waiting names kept : List String} {c d : Catalog},
      Disposed waiting names kept c d → SameCommits c d →
        (∀ n, c.isDeleted n = true → d.isDeleted n = true) → P c → P d) : P d := by
  have hall : d.Tallied ∧ P d := by
    refine hp.induct (P := fun d => d.Tallied ∧ P d) ⟨h, hc⟩ fun c n hn hall => ?_
    obtain ⟨names, kept, hd, -⟩ := hall.1.delete hn
    exact ⟨hd.tallied, hstep hd (sameCommits_delete n c)
      (fun _ => isDeleted_delete_of_isDeleted n) hall.2⟩
  exact hall.2

/-- A commit is counted from its adoption. -/
theorem Tallied.adopt (h : c.Tallied) {m : Manifest}
    (hfree : ∀ q ∈ m.fileNames, q ∉ (c.tracker 0).queue) : (c.adopt 0 m).2.Tallied := by
  have hreferenced := referenced_addCommit m c
  have hqueue : ((c.tracker 0).incref m.fileNames).queue = (c.tracker 0).queue :=
    Tracker.queue_incref m.fileNames (c.tracker 0)
  rw [h.single.adopt_eq]
  refine ⟨⟨h.single.stores, ⟨_, rfl⟩⟩, ?_, ?_, ?_, ?_⟩
  · intro n hn
    show ((c.addCommit ⟨m, .artifacts 0, false⟩).commit n).backing = .artifacts 0
    have hn : n < c.commits.length + 1 := by simpa [addCommit] using hn
    rcases Nat.lt_succ_iff_lt_or_eq.mp hn with hlt | rfl
    · rw [commit_addCommit _ hlt]
      exact h.artifacts n hlt
    · rw [commit_addCommit_self]
  · intro name
    refine (Tracker.refCount_incref m.fileNames name (c.tracker 0)).trans ?_
    show _ = (c.addCommit ⟨m, .artifacts 0, false⟩).referenced.count name
    rw [hreferenced, List.count_append, h.counted]
  · show ((c.tracker 0).incref m.fileNames).queue.Nodup
    rw [hqueue]
    exact h.nodup
  · intro q hq
    have hq : q ∈ ((c.tracker 0).incref m.fileNames).queue := hq
    rw [hqueue] at hq
    show q ∉ (c.addCommit ⟨m, .artifacts 0, false⟩).referenced
    rw [hreferenced, List.mem_append, not_or]
    exact ⟨h.loose q hq, fun hmem => hfree q hmem hq⟩

/-- Another store may take the place of the store. -/
theorem Tallied.setStoreOf (h : c.Tallied) (s : Store) : (c.setStoreOf 0 s).Tallied := by
  rw [h.single.setStoreOf_eq]
  obtain ⟨t, ht⟩ := h.single.depots
  exact ⟨⟨⟨s, rfl⟩, ⟨t, ht⟩⟩, h.artifacts, h.counted, h.nodup, h.loose⟩

end Catalog

end SnapshotRetention
