import SnapshotRetention.Proofs.Catalog.Tidy

/-!
# Two catalogs of the same commits

Two catalogs are twins (`Catalog.Twins`) if they describe the same commits and the same stands under
each name that both list, whatever either of them has deleted. They stay twins if commits of one are
deleted (`Twins.prunes`) and if a commit joins both for which the same has been written
(`Twins.adopt`).

In a store that never fails only what no access changes is left behind (`Catalog.Unfailing`). So
twins whose stores were once the same have the same stores again as soon as they list the same
(`Twins.medium_eq`).
-/

namespace SnapshotRetention.Catalog

open Store (Node Medium Wrote)

variable {origin : Medium} {base : String → Option Node} {c c' d : Catalog} {n : Nat} {q : String}
  {s s' : Store} {waiting names kept : List String} {entries : List (String × Bytes)} {m : Manifest}

/-! ## Stores that never fail -/

/-- Each name is accounted for, and what waits cannot be deleted. -/
structure Unfailing (origin : Medium) (base : String → Option Node) (c : Catalog) : Prop where
  tidy : Tidy base c
  never : (c.store 0).faults = .never
  alike : origin.Alike (c.store 0).medium
  fixed : ∀ q ∈ (c.tracker 0).queue, origin.Fixed q

theorem Unfailing.single (h : c.Unfailing origin base) : c.Single := h.tidy.tallied.single

theorem Unfailing.disposed (h : c.Unfailing origin base)
    (hd : Disposed waiting names kept c d) : d.Unfailing origin base := by
  refine ⟨h.tidy.disposed (Or.inl h.never) hd, hd.cleared.faults.trans h.never,
    h.alike.trans hd.cleared.alike, fun q hq => ?_⟩
  rcases hd.mem_queue.mp hq with hwaits | hkept
  · exact h.fixed q (hd.waits q hwaits)
  · -- nothing is refused, so what is kept cannot be deleted
    exact (h.alike.fixed_iff q).mp (hd.cleared.fixed (hd.cleared.never h.never) q hkept)

theorem Unfailing.retried (h : c.Unfailing origin base) : c.retried.Unfailing origin base := by
  obtain ⟨kept, hd⟩ := h.tidy.tallied.retried
  exact h.disposed hd

theorem Unfailing.prunes (h : c.Unfailing origin base) (hp : Prunes c d) :
    d.Unfailing origin base :=
  h.tidy.tallied.induct_prunes hp h fun hd _ _ hc => hc.disposed hd

/-- A commit whose missing files have just been written may be adopted. -/
theorem Unfailing.adopt (h : c.Unfailing origin base) (hw : Wrote entries (c.store 0) s)
    (hsub : ∀ q ∈ entries.map Prod.fst, q ∈ m.fileNames)
    (hfiles : ∀ q ∈ m.fileNames, q ∈ c.referenced ∨ q ∈ entries.map Prod.fst) :
    ((c.setStoreOf 0 s).adopt 0 m).2.Unfailing origin base := by
  refine ⟨h.tidy.adopt hw hsub hfiles, ?_, ?_, ?_⟩
  · rw [h.single.store_written]
    exact hw.faults.trans h.never
  · rw [h.single.store_written]
    exact h.alike.trans hw.alike
  · rw [h.single.queue_written]
    exact h.fixed

/-! ## Twins -/

/-- The same commits, and the same under each name that both list. -/
structure Twins (c d : Catalog) : Prop where
  same : c.SameCommits d
  nodes : ∀ q ∈ c.referenced, q ∈ d.referenced →
    (d.store 0).medium.node? q = (c.store 0).medium.node? q

theorem Twins.refl (c : Catalog) : Twins c c := ⟨.refl c, fun _ _ _ => rfl⟩

theorem Twins.symm (h : Twins c d) : Twins d c :=
  ⟨h.same.symm, fun q hd hc => (h.nodes q hc hd).symm⟩

/-- What is still listed after commits have been deleted stands as before. -/
theorem Tallied.node_of_prunes (h : c.Tallied) (hp : Prunes c d) (hq : q ∈ d.referenced) :
    q ∈ c.referenced ∧ (d.store 0).medium.node? q = (c.store 0).medium.node? q := by
  have hall : ∀ q ∈ d.referenced, q ∈ c.referenced ∧
      (d.store 0).medium.node? q = (c.store 0).medium.node? q := by
    refine h.induct_prunes hp (P := fun d => ∀ q ∈ d.referenced, q ∈ c.referenced ∧
      (d.store 0).medium.node? q = (c.store 0).medium.node? q) (fun q hq => ⟨hq, rfl⟩) ?_
    intro waiting names kept c' d' hd _ _ hc' q hq
    obtain ⟨hlisted, hnode⟩ := hc' q (hd.shrinks q hq)
    exact ⟨hlisted, (hd.node_of_referenced hq).trans hnode⟩
  exact hall q hq

/-- Commits of one may be deleted. -/
theorem Twins.prunes (h : Twins c d) (hc : c.Tallied) (hp : Prunes c c') : Twins c' d := by
  refine ⟨hp.sameCommits.symm.trans h.same, fun q hq hd => ?_⟩
  obtain ⟨hlisted, hnode⟩ := hc.node_of_prunes hp hq
  exact (h.nodes q hlisted hd).trans hnode.symm

/-- Queued deletions of one may be tried again. -/
theorem Twins.retried (h : Twins c d) (hc : c.Tallied) : Twins c.retried d := by
  have hsame : SameCommits c c.retried := .of_commits hc.single.commits_retried
  obtain ⟨kept, hdisposed⟩ := hc.retried
  refine ⟨hsame.symm.trans h.same, fun q hq hd => ?_⟩
  exact (h.nodes q (hdisposed.shrinks q hq) hd).trans (hdisposed.node_of_referenced hq).symm

/-- A commit joins both, after the same has been written. -/
theorem Twins.adopt (h : Twins c d) (hc : c.Single) (hd : d.Single)
    (hw : Wrote entries (c.store 0) s) (hw' : Wrote entries (d.store 0) s')
    (hfiles : ∀ q ∈ m.fileNames, q ∈ c.referenced ∨ q ∈ entries.map Prod.fst)
    (hfiles' : ∀ q ∈ m.fileNames, q ∈ d.referenced ∨ q ∈ entries.map Prod.fst) :
    Twins ((c.setStoreOf 0 s).adopt 0 m).2 ((d.setStoreOf 0 s').adopt 0 m).2 := by
  have hsame : (c.setStoreOf 0 s).SameCommits (d.setStoreOf 0 s') := ⟨h.same.length, h.same.manifest⟩
  refine ⟨hsame.adopt 0 m, fun q hq hq' => ?_⟩
  rw [hc.mem_referenced_written] at hq
  rw [hd.mem_referenced_written] at hq'
  rw [hc.store_written, hd.store_written]
  by_cases hmem : q ∈ entries.map Prod.fst
  · obtain ⟨e, he, rfl⟩ := List.mem_map.mp hmem
    exact (hw'.there e he).trans (hw.there e he).symm
  · -- what was not written was listed before
    have hlisted : q ∈ c.referenced :=
      hq.elim (fun hold => hold) fun hnew => (hfiles q hnew).resolve_right hmem
    have hlisted' : q ∈ d.referenced :=
      hq'.elim (fun hold => hold) fun hnew => (hfiles' q hnew).resolve_right hmem
    rw [hw.other q hmem, hw'.other q hmem]
    exact h.nodes q hlisted hlisted'

/-- Twins that list the same have the same artifacts, if their stores were the same once. -/
theorem Twins.medium_eq (h : Twins c d) (hc : c.Unfailing origin base)
    (hd : d.Unfailing origin base) (hlisted : ∀ q, q ∈ d.referenced ↔ q ∈ c.referenced) :
    (d.store 0).medium = (c.store 0).medium := by
  refine (hc.alike.place.symm.trans hd.alike.place).eq_of_node fun q => ?_
  by_cases hq : q ∈ c.referenced
  · exact h.nodes q hq ((hlisted q).mpr hq)
  · by_cases hfixed : origin.Fixed q
    · exact (hd.alike.fixed q hfixed).trans (hc.alike.fixed q hfixed).symm
    · have hrest := hc.tidy.rest q hq fun hwaits => hfixed (hc.fixed q hwaits)
      have hrest' := hd.tidy.rest q (fun hmem => hq ((hlisted q).mp hmem))
        fun hwaits => hfixed (hd.fixed q hwaits)
      exact hrest'.trans hrest.symm

end SnapshotRetention.Catalog
