import SnapshotRetention.Proofs.Catalog.Deletion

/-!
# Every name accounted for

A catalog over a store is tidy (`Catalog.Tidy`) if each name is listed by an undeleted commit, or
waits in the queue of the tracker, or has what stood there from the start. The last is `base`, what
stands under the names that are none of the catalog's business: entries of a directory that are no
files, and files of commits that were never made. A catalog is housed (`Catalog.Housed`) if what it
lists and what waits are files that can be deleted.

Deleting commits, trying the queue again, and adopting a commit for which the missing files have
been written keep both (`Tidy.disposed`, `Housed.disposed`, `Tidy.adopt`, `Housed.adopt`).
-/

namespace SnapshotRetention.Catalog

open Store (Node)

variable {base : String → Option Node} {c d : Catalog} {n : Nat} {q : String} {s : Store}
  {waiting names kept : List String} {entries : List (String × Bytes)} {m : Manifest}

/-- Each name is listed, or waits, or has what stood there from the start. -/
structure Tidy (base : String → Option Node) (c : Catalog) : Prop where
  tallied : c.Tallied
  /-- What waits for its deletion is still there, or will always be. -/
  there : ∀ q ∈ (c.tracker 0).queue,
    (c.store 0).medium.Fixed q ∨ (c.store 0).medium.node? q ≠ none
  rest : ∀ q, q ∉ c.referenced → q ∉ (c.tracker 0).queue → (c.store 0).medium.node? q = base q
  /-- Nothing stood where the catalog keeps its files. -/
  vacant : ∀ q, q ∈ c.referenced ∨ q ∈ (c.tracker 0).queue →
    (c.store 0).medium.Fixed q ∨ base q = none

/-- What is listed and what waits are files that can be deleted. -/
def Housed (c : Catalog) : Prop :=
  ∀ q, q ∈ c.referenced ∨ q ∈ (c.tracker 0).queue →
    (∃ data, (c.store 0).medium.node? q = some (.file data)) ∧ ¬(c.store 0).medium.Fixed q

/-- A deletion finds what it deletes, or nothing can refuse it. -/
def Answers (c : Catalog) : Prop :=
  (c.store 0).faults = .never ∨ ∀ q ∈ c.referenced, (c.store 0).medium.node? q ≠ none

theorem Housed.answers (h : c.Housed) : c.Answers := by
  refine Or.inr fun q hq hnone => ?_
  obtain ⟨⟨data, hdata⟩, -⟩ := h q (Or.inl hq)
  cases hdata.symm.trans hnone

/-- The artifacts in the store are what is listed and what waits, if nothing else stood there. -/
theorem Tidy.mem_names_iff (h : Tidy base c) (hh : c.Housed)
    (hbase : ∀ q data, base q ≠ some (.file data)) (q : String) :
    q ∈ (c.store 0).names ↔ q ∈ c.referenced ∨ q ∈ (c.tracker 0).queue := by
  rw [Store.mem_names_iff]
  constructor
  · rintro ⟨data, hdata⟩
    by_cases hlisted : q ∈ c.referenced
    · exact Or.inl hlisted
    · by_cases hwaits : q ∈ (c.tracker 0).queue
      · exact Or.inr hwaits
      · exact absurd ((h.rest q hlisted hwaits).symm.trans hdata) (hbase q data)
  · exact fun hq => (hh q hq).1

/-! ## Deleting -/

theorem Disposed.fixed_iff (hd : Disposed waiting names kept c d) (q : String) :
    (d.store 0).medium.Fixed q ↔ (c.store 0).medium.Fixed q :=
  hd.cleared.alike.fixed_iff q

theorem Disposed.mem_queue (hd : Disposed waiting names kept c d) :
    q ∈ (d.tracker 0).queue ↔ q ∈ waiting ∨ q ∈ kept := by
  rw [hd.queue, List.mem_append]

/-- What is listed or waits afterwards was listed or waited before. -/
theorem Disposed.mem_before (hd : Disposed waiting names kept c d)
    (hq : q ∈ d.referenced ∨ q ∈ (d.tracker 0).queue) :
    q ∈ c.referenced ∨ q ∈ (c.tracker 0).queue := by
  rw [hd.covers]
  refine hq.imp_right fun hq => ?_
  exact (hd.mem_queue.mp hq).imp_right fun hk => hd.sublist.subset hk

theorem Disposed.node_of_mem (hd : Disposed waiting names kept c d)
    (hq : q ∈ d.referenced ∨ q ∈ (d.tracker 0).queue) :
    (d.store 0).medium.node? q = (c.store 0).medium.node? q :=
  hq.elim hd.node_of_referenced hd.node_of_queued

theorem Tidy.disposed (h : Tidy base c) (ha : c.Answers) (hd : Disposed waiting names kept c d) :
    Tidy base d := by
  refine ⟨hd.tallied, ?_, ?_, ?_⟩
  · intro q hq
    rw [hd.fixed_iff, hd.node_of_queued hq]
    rcases hd.mem_before (Or.inr hq) with hlisted | hwaits
    · rcases ha with hnever | hthere
      · -- nothing is refused, so what was listed and is queued now cannot be deleted
        refine Or.inl (hd.cleared.fixed (hd.cleared.never hnever) q ?_)
        refine (hd.mem_queue.mp hq).resolve_left fun hw => ?_
        exact h.tallied.loose q (hd.waits q hw) hlisted
      · exact Or.inr (hthere q hlisted)
    · exact h.there q hwaits
  · intro q hlisted hqueued
    by_cases hbefore : q ∈ c.referenced ∨ q ∈ (c.tracker 0).queue
    · -- it has been cleared
      have hname : q ∈ names := by
        rcases (hd.covers q).mp hbefore with hl | hw | hn
        · exact absurd hl hlisted
        · exact absurd (hd.mem_queue.mpr (Or.inl hw)) hqueued
        · exact hn
      have hkept : q ∉ kept := fun hk => hqueued (hd.mem_queue.mpr (Or.inr hk))
      have hnode := hd.cleared.node q
      rw [if_pos ⟨hname, hkept⟩] at hnode
      rw [hnode]
      exact ((h.vacant q hbefore).resolve_left (hd.cleared.cleared q hname hkept)).symm
    · have hname : q ∉ names := fun hn => hbefore ((hd.covers q).mpr (Or.inr (Or.inr hn)))
      rw [not_or] at hbefore
      rw [hd.cleared.node_of_not_mem hname]
      exact h.rest q hbefore.1 hbefore.2
  · intro q hq
    rw [hd.fixed_iff]
    exact h.vacant q (hd.mem_before hq)

theorem Housed.disposed (h : c.Housed) (hd : Disposed waiting names kept c d) : d.Housed := by
  intro q hq
  rw [hd.node_of_mem hq, hd.fixed_iff]
  exact h q (hd.mem_before hq)

theorem Disposed.answers (ha : c.Answers) (hd : Disposed waiting names kept c d) : d.Answers := by
  refine ha.imp (fun hnever => hd.cleared.faults.trans hnever) ?_
  intro hthere q hq
  rw [hd.node_of_referenced hq]
  exact hthere q (hd.shrinks q hq)

/-- Deleting commits leaves each name accounted for. -/
theorem Tidy.prunes (h : Tidy base c) (ha : c.Answers) (hp : Prunes c d) : Tidy base d := by
  have hall : Tidy base d ∧ d.Answers := by
    refine h.tallied.induct_prunes hp (P := fun d => Tidy base d ∧ d.Answers) ⟨h, ha⟩ ?_
    exact fun hd _ _ hc => ⟨hc.1.disposed hc.2 hd, hd.answers hc.2⟩
  exact hall.1

/-! ## Refusals -/

/-- `d` comes from a housed catalog, and if no deletion was refused since, nothing is queued but
what was queued then. -/
structure Undisturbed (c d : Catalog) : Prop where
  housed : d.Housed
  failedDeletes : (c.store 0).failedDeletes ≤ (d.store 0).failedDeletes
  queue : (d.store 0).failedDeletes = (c.store 0).failedDeletes →
    (d.tracker 0).queue ⊆ (c.tracker 0).queue

theorem Undisturbed.refl (h : c.Housed) : Undisturbed c c :=
  ⟨h, Nat.le_refl _, fun _ => List.Subset.refl _⟩

theorem Undisturbed.trans {e : Catalog} (h : Undisturbed c d) (h' : Undisturbed d e) :
    Undisturbed c e := by
  have hle := h.failedDeletes
  have hle' := h'.failedDeletes
  refine ⟨h'.housed, Nat.le_trans hle hle', fun heq => ?_⟩
  exact List.Subset.trans (h'.queue (by omega)) (h.queue (by omega))

/-- Without a refusal everything that is housed and deleted goes. -/
theorem Housed.kept_eq_nil (h : c.Housed) (hd : Disposed waiting names kept c d)
    (hfailed : (d.store 0).failedDeletes = (c.store 0).failedDeletes) : kept = [] := by
  refine List.eq_nil_iff_forall_not_mem.mpr fun q hq => ?_
  have hbefore := hd.mem_before (Or.inr (hd.mem_queue.mpr (Or.inr hq)))
  exact (h q hbefore).2 (hd.cleared.fixed hfailed q hq)

theorem Housed.undisturbed (h : c.Housed) (hd : Disposed waiting names kept c d) :
    Undisturbed c d := by
  refine ⟨h.disposed hd, hd.cleared.failedDeletes, fun hfailed q hq => ?_⟩
  rw [hd.mem_queue, h.kept_eq_nil hd hfailed] at hq
  exact hd.waits q (hq.resolve_right List.not_mem_nil)

theorem Housed.prunes (h : c.Housed) (ht : c.Tallied) (hp : Prunes c d) : Undisturbed c d := by
  refine ht.induct_prunes hp (P := Undisturbed c) (.refl h) fun hd _ _ hundisturbed => ?_
  exact hundisturbed.trans (hundisturbed.housed.undisturbed hd)

/-- If no deletion is refused, nothing is left of the queue. -/
theorem Housed.queue_retried (h : c.Housed) (ht : c.Tallied)
    (hfailed : (c.retried.store 0).failedDeletes = (c.store 0).failedDeletes) :
    (c.retried.tracker 0).queue = [] := by
  obtain ⟨kept, hd⟩ := ht.retried
  rw [hd.queue, h.kept_eq_nil hd hfailed]
  rfl

/-! ## Writing -/

section
variable (h : c.Single)
include h

theorem Single.queue_setStoreOf (s : Store) :
    ((c.setStoreOf 0 s).tracker 0).queue = (c.tracker 0).queue := by
  rw [h.setStoreOf_eq]
  rfl

theorem Single.referenced_setStoreOf (s : Store) : (c.setStoreOf 0 s).referenced = c.referenced := by
  rw [h.setStoreOf_eq]
  rfl

theorem Single.setStoreOf (s : Store) : (c.setStoreOf 0 s).Single := by
  rw [h.setStoreOf_eq]
  exact ⟨⟨s, rfl⟩, h.depots⟩

theorem Single.store_written (s : Store) (m : Manifest) :
    ((c.setStoreOf 0 s).adopt 0 m).2.store 0 = s := by
  rw [(h.setStoreOf s).adopt_eq]
  exact h.store_setStoreOf s

theorem Single.queue_written (s : Store) (m : Manifest) :
    (((c.setStoreOf 0 s).adopt 0 m).2.tracker 0).queue = (c.tracker 0).queue := by
  rw [(h.setStoreOf s).adopt_eq, ← h.queue_setStoreOf s]
  exact Tracker.queue_incref _ _

theorem Single.mem_referenced_written (s : Store) (m : Manifest) (q : String) :
    q ∈ ((c.setStoreOf 0 s).adopt 0 m).2.referenced ↔ q ∈ c.referenced ∨ q ∈ m.fileNames := by
  have hreferenced := referenced_addCommit m (c.setStoreOf 0 s)
  rw [(h.setStoreOf s).adopt_eq]
  show q ∈ ((c.setStoreOf 0 s).addCommit ⟨m, .artifacts 0, false⟩).referenced ↔ _
  rw [hreferenced, List.mem_append, h.referenced_setStoreOf]

end

/-- What waits cannot be written. -/
theorem Tidy.not_mem_queue (h : Tidy base c) (hw : Store.Wrote entries (c.store 0) s)
    (hq : q ∈ entries.map Prod.fst) : q ∉ (c.tracker 0).queue := by
  obtain ⟨hfree, hfixed⟩ := hw.free q hq
  exact fun hwaits => (h.there q hwaits).elim hfixed fun hsome => hsome hfree

/-- Nothing stood where something is written. -/
theorem Tidy.base_of_wrote (h : Tidy base c) (hw : Store.Wrote entries (c.store 0) s)
    (hq : q ∈ entries.map Prod.fst) : base q = none := by
  obtain ⟨hfree, hfixed⟩ := hw.free q hq
  by_cases hlisted : q ∈ c.referenced
  · exact (h.vacant q (Or.inl hlisted)).resolve_left hfixed
  · exact (h.rest q hlisted (h.not_mem_queue hw hq)).symm.trans hfree

/-- A commit whose missing files have just been written may be adopted. -/
theorem Tidy.adopt (h : Tidy base c) (hw : Store.Wrote entries (c.store 0) s)
    (hsub : ∀ q ∈ entries.map Prod.fst, q ∈ m.fileNames)
    (hfiles : ∀ q ∈ m.fileNames, q ∈ c.referenced ∨ q ∈ entries.map Prod.fst) :
    Tidy base ((c.setStoreOf 0 s).adopt 0 m).2 := by
  have hsingle := h.tallied.single
  have hfree : ∀ q ∈ m.fileNames, q ∉ (c.tracker 0).queue := by
    intro q hq hwaits
    exact (hfiles q hq).elim (h.tallied.loose q hwaits) fun hmem => h.not_mem_queue hw hmem hwaits
  have htallied := (h.tallied.setStoreOf s).adopt (m := m)
    ((hsingle.queue_setStoreOf s).symm ▸ hfree)
  refine ⟨htallied, ?_, ?_, ?_⟩
  all_goals rw [hsingle.store_written, hsingle.queue_written]
  · intro q hq
    rw [hw.alike.fixed_iff, hw.other q fun hmem => h.not_mem_queue hw hmem hq]
    exact h.there q hq
  · intro q hlisted hqueued
    rw [hsingle.mem_referenced_written, not_or] at hlisted
    rw [hw.other q fun hmem => hlisted.2 (hsub q hmem)]
    exact h.rest q hlisted.1 hqueued
  · intro q hq
    rw [hsingle.mem_referenced_written] at hq
    rw [hw.alike.fixed_iff]
    rcases hq with (hlisted | hnew) | hwaits
    · exact h.vacant q (Or.inl hlisted)
    · rcases hfiles q hnew with hlisted | hmem
      · exact h.vacant q (Or.inl hlisted)
      · exact Or.inr (h.base_of_wrote hw hmem)
    · exact h.vacant q (Or.inr hwaits)

theorem Housed.node_of_wrote (h : c.Housed) (hw : Store.Wrote entries (c.store 0) s)
    (hq : q ∈ c.referenced ∨ q ∈ (c.tracker 0).queue) :
    s.medium.node? q = (c.store 0).medium.node? q := by
  refine hw.other q fun hmem => ?_
  obtain ⟨⟨data, hdata⟩, -⟩ := h q hq
  cases (hw.free q hmem).1.symm.trans hdata

theorem Housed.adopt (h : c.Housed) (hsingle : c.Single)
    (hw : Store.Wrote entries (c.store 0) s)
    (hfiles : ∀ q ∈ m.fileNames, q ∈ c.referenced ∨ q ∈ entries.map Prod.fst) :
    Housed ((c.setStoreOf 0 s).adopt 0 m).2 := by
  have hold : ∀ q, q ∈ c.referenced ∨ q ∈ (c.tracker 0).queue →
      (∃ data, s.medium.node? q = some (.file data)) ∧ ¬s.medium.Fixed q := by
    intro q hq
    rw [h.node_of_wrote hw hq, hw.alike.fixed_iff]
    exact h q hq
  intro q hq
  rw [hsingle.mem_referenced_written, hsingle.queue_written] at hq
  rw [hsingle.store_written]
  rcases hq with (hlisted | hnew) | hwaits
  · exact hold q (Or.inl hlisted)
  · rcases hfiles q hnew with hlisted | hmem
    · exact hold q (Or.inl hlisted)
    · obtain ⟨e, he, rfl⟩ := List.mem_map.mp hmem
      exact ⟨⟨e.2, hw.there e he⟩, fun hf =>
        (hw.free e.1 hmem).2 ((hw.alike.fixed_iff e.1).mp hf)⟩
  · exact hold q (Or.inr hwaits)

/-- Other accesses may fail from now on. -/
theorem Tidy.refuse (h : Tidy base c) (hmedium : s.medium = (c.store 0).medium) :
    Tidy base (c.setStoreOf 0 s) := by
  have hsingle := h.tallied.single
  refine ⟨h.tallied.setStoreOf s, ?_, ?_, ?_⟩
  all_goals
    rw [hsingle.store_setStoreOf, hsingle.queue_setStoreOf, hmedium]
    try rw [hsingle.referenced_setStoreOf]
  · exact h.there
  · exact h.rest
  · exact h.vacant

theorem Housed.refuse (h : c.Housed) (hsingle : c.Single)
    (hmedium : s.medium = (c.store 0).medium) : Housed (c.setStoreOf 0 s) := by
  unfold Housed
  rw [hsingle.referenced_setStoreOf, hsingle.queue_setStoreOf, hsingle.store_setStoreOf, hmedium]
  exact h

/-- Files of a commit that is not made stand where they were written. -/
theorem Tidy.write (h : Tidy base c) (hh : c.Housed) (hw : Store.Wrote entries (c.store 0) s) :
    Tidy (fun q => if q ∈ entries.map Prod.fst then s.medium.node? q else base q)
      (c.setStoreOf 0 s) := by
  have hsingle := h.tallied.single
  refine ⟨h.tallied.setStoreOf s, ?_, ?_, ?_⟩
  all_goals
    rw [hsingle.store_setStoreOf, hsingle.queue_setStoreOf]
  · intro q hq
    rw [hw.alike.fixed_iff, hh.node_of_wrote hw (Or.inr hq)]
    exact h.there q hq
  · intro q hlisted hqueued
    rw [hsingle.referenced_setStoreOf] at hlisted
    split
    next => rfl
    next hmem =>
      rw [hw.other q hmem]
      exact h.rest q hlisted hqueued
  · intro q hq
    rw [hsingle.referenced_setStoreOf] at hq
    rw [hw.alike.fixed_iff]
    have hmem : q ∉ entries.map Prod.fst := by
      intro hmem
      obtain ⟨⟨data, hdata⟩, -⟩ := hh q hq
      cases (hw.free q hmem).1.symm.trans hdata
    rw [if_neg hmem]
    exact h.vacant q hq

theorem Housed.write (h : c.Housed) (hsingle : c.Single)
    (hw : Store.Wrote entries (c.store 0) s) : Housed (c.setStoreOf 0 s) := by
  intro q hq
  rw [hsingle.referenced_setStoreOf, hsingle.queue_setStoreOf] at hq
  rw [hsingle.store_setStoreOf, h.node_of_wrote hw hq, hw.alike.fixed_iff]
  exact h q hq

end SnapshotRetention.Catalog
