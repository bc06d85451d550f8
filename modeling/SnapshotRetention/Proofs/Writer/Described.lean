import SnapshotRetention.Proofs.Writer.Loading

/-!
# The store describes the history

In a store that never fails, each undeleted commit has its manifest under the name of its
generation, no deletion is ever left over, and what a rejected commit has written has no reserved
name (`Catalog.Described`). Deleting commits, trying the queue again, writing for a commit that is
rejected and adopting one that is not all keep this, and so does each commit of a writer whose
numbers can be followed (`Writer.Keeps.commit`).

So in every state of a run the store is read as describing the commits that the writer has
undeleted (`Writer.Keeps.describes`), however they were deleted and whatever decides about them:
none of this depends on what the keeper holds.
-/

namespace SnapshotRetention

open Catalog (Prunes Tidy Housed Disposed)
open Store (Node Wrote)

namespace Catalog

variable {c d : Catalog} {n : Nat} {q : String} {s : Store} {waiting names kept : List String}
  {entries : List (String × Bytes)} {m : Manifest} {data : Bytes}

/-- Each undeleted commit has its manifest in the store, and nothing else there has a reserved
name. -/
structure Described (c : Catalog) : Prop where
  tidy : ∃ base, Tidy base c ∧ ∀ q data, base q = some (.file data) →
    Manifest.isReserved q = false ∧ ¬(c.store 0).medium.Fixed q
  housed : c.Housed
  never : (c.store 0).faults = .never
  queue : (c.tracker 0).queue = []
  written : ∀ n, n < c.commits.length → c.isDeleted n = false → ∃ data,
    (c.commit n).manifest.encode = .ok data ∧
      (c.store 0).medium.node? (c.commit n).manifest.name = some (.file data)
  plain : ∀ n, n < c.commits.length → ∀ q ∈ (c.commit n).manifest.files,
    Manifest.isReserved q = false

theorem Described.tallied (h : c.Described) : c.Tallied := by
  obtain ⟨base, htidy, -⟩ := h.tidy
  exact htidy.tallied

theorem mem_referenced_name (hn : n < c.commits.length) (hkept : c.isDeleted n = false) :
    (c.commit n).manifest.name ∈ c.referenced :=
  mem_referenced hn hkept (List.mem_append_right _ (List.mem_singleton.mpr rfl))

/-! ## Deleting -/

/-- What goes is cleared, as no deletion fails. -/
theorem Described.disposed (h : c.Described) (hd : Disposed waiting names kept c d)
    (hsame : c.SameCommits d) (hmono : ∀ n, c.isDeleted n = true → d.isDeleted n = true) :
    d.Described := by
  have hkept := h.housed.kept_eq_nil hd (hd.cleared.never h.never)
  obtain ⟨base, htidy, hbase⟩ := h.tidy
  refine ⟨⟨base, htidy.disposed h.housed.answers hd, ?_⟩, h.housed.disposed hd,
    hd.cleared.faults.trans h.never, ?_, ?_, ?_⟩
  · intro q data hfile
    rw [hd.fixed_iff]
    exact hbase q data hfile
  · have hwaiting : waiting = [] :=
      List.eq_nil_iff_forall_not_mem.mpr fun q hq => by
        have hqueued := hd.waits q hq
        rw [h.queue] at hqueued
        cases hqueued
    rw [hd.queue, hwaiting, hkept]
    rfl
  · intro n hn hundeleted
    have hn' : n < c.commits.length := hsame.length ▸ hn
    have hbefore : c.isDeleted n = false := by
      refine Bool.eq_false_iff.mpr fun hgone => ?_
      rw [hmono n hgone] at hundeleted
      cases hundeleted
    rw [hd.node_of_referenced (mem_referenced_name hn hundeleted), hsame.manifest]
    exact h.written n hn' hbefore
  · intro n hn
    rw [hsame.manifest]
    exact h.plain n (hsame.length ▸ hn)

theorem Described.prunes (h : c.Described) (hp : c.Prunes d) : d.Described :=
  h.tallied.induct_prunes hp h fun hd hsame hmono hc => hc.disposed hd hsame hmono

theorem Described.retried (h : c.Described) : c.retried.Described := by
  have hcommits := h.tallied.single.commits_retried
  obtain ⟨kept, hd⟩ := h.tallied.retried
  exact h.disposed hd (.of_commits hcommits) fun n hn => (isDeleted_congr hcommits n).trans hn

/-! ## Writing -/

/-- Files of a commit that is rejected have no reserved names. -/
theorem Described.write (h : c.Described) (hw : Wrote entries (c.store 0) s)
    (hplain : ∀ q ∈ entries.map Prod.fst, Manifest.isReserved q = false) :
    (c.setStoreOf 0 s).Described := by
  have hsingle := h.tallied.single
  obtain ⟨base, htidy, hbase⟩ := h.tidy
  refine ⟨⟨_, htidy.write h.housed hw, ?_⟩, h.housed.write hsingle hw, ?_, ?_, ?_, h.plain⟩
  · intro q data hfile
    rw [hsingle.store_setStoreOf, hw.alike.fixed_iff]
    split at hfile
    next hmem => exact ⟨hplain q hmem, (hw.free q hmem).2⟩
    next => exact hbase q data hfile
  · rw [hsingle.store_setStoreOf]
    exact hw.faults.trans h.never
  · rw [hsingle.queue_setStoreOf]
    exact h.queue
  · intro n hn hkept
    rw [hsingle.store_setStoreOf]
    obtain ⟨data, hdata, hnode⟩ := h.written n hn hkept
    exact ⟨data, hdata,
      (h.housed.node_of_wrote hw (Or.inl (mem_referenced_name hn hkept))).trans hnode⟩

/-- A commit that has been written joins. -/
theorem Described.adopt (h : c.Described) (hw : Wrote (entries ++ [(m.name, data)]) (c.store 0) s)
    (hdata : m.encode = .ok data)
    (hsub : ∀ q ∈ (entries ++ [(m.name, data)]).map Prod.fst, q ∈ m.fileNames)
    (hfiles : ∀ q ∈ m.fileNames,
      q ∈ c.referenced ∨ q ∈ (entries ++ [(m.name, data)]).map Prod.fst)
    (hplain : ∀ q ∈ m.files, Manifest.isReserved q = false) :
    ((c.setStoreOf 0 s).adopt 0 m).2.Described := by
  have hsingle := h.tallied.single
  have hlength : ((c.setStoreOf 0 s).adopt 0 m).2.commits.length = c.commits.length + 1 :=
    length_adopt 0 m (c.setStoreOf 0 s)
  have hold : ∀ n, n < c.commits.length →
      ((c.setStoreOf 0 s).adopt 0 m).2.commit n = c.commit n :=
    fun n hn => commit_adopt_of_lt (c := c.setStoreOf 0 s) hn
  have hnew : ((c.setStoreOf 0 s).adopt 0 m).2.commit c.commits.length =
      ⟨m, .artifacts 0, false⟩ := commit_adopt_self 0 m (c.setStoreOf 0 s)
  obtain ⟨base, htidy, hbase⟩ := h.tidy
  refine ⟨⟨base, htidy.adopt hw hsub hfiles, ?_⟩, h.housed.adopt hsingle hw hfiles, ?_, ?_, ?_, ?_⟩
  · intro q data hfile
    rw [hsingle.store_written, hw.alike.fixed_iff]
    exact hbase q data hfile
  · rw [hsingle.store_written]
    exact hw.faults.trans h.never
  · rw [hsingle.queue_written]
    exact h.queue
  · intro n hn hkept
    rw [hsingle.store_written]
    rcases Nat.lt_succ_iff_lt_or_eq.mp (hlength ▸ hn) with hn | rfl
    · unfold isDeleted at hkept
      rw [hold n hn] at hkept ⊢
      obtain ⟨data, hdata, hnode⟩ := h.written n hn hkept
      exact ⟨data, hdata,
        (h.housed.node_of_wrote hw (Or.inl (mem_referenced_name hn hkept))).trans hnode⟩
    · rw [hnew]
      exact ⟨data, hdata, hw.there (m.name, data)
        (List.mem_append_right _ (List.mem_singleton.mpr rfl))⟩
  · intro n hn
    rcases Nat.lt_succ_iff_lt_or_eq.mp (hlength ▸ hn) with hn | rfl
    · rw [hold n hn]
      exact h.plain n hn
    · rw [hnew]
      exact hplain

end Catalog

/-! ## The writer -/

namespace Writer

variable {w w1 : Writer} {c d : Catalog} {m : Manifest} {e e1 : Engine} {changes : Changes}
  {data : Bytes} {s : Store}

/-- Counters that agree go on agreeing. -/
theorem next?_number {v v' : Version} {g g' : Generation} (h : g.number = v.number)
    (hg : g.next? = some g') (hv : v.next? = some v') : g'.number = v'.number := by
  obtain ⟨n, hn, rfl⟩ := Option.map_eq_some_iff.mp hg
  obtain ⟨n', hn', rfl⟩ := Option.map_eq_some_iff.mp hv
  rw [h] at hn
  exact Option.some.inj (hn.symm.trans hn')

/-- A writer whose generations go with its versions, over a described catalog. -/
structure Keeps (w : Writer) (c : Catalog) : Prop where
  continues : w.Continues c
  described : c.Described
  /-- The generation of a commit is the number of its version. -/
  numbered : ∀ n, n < c.commits.length →
    (c.commit n).manifest.generation.number = (c.version n).number
  same : w.nextGeneration.number = w.nextVersion.number

theorem Keeps.prunes (h : w.Keeps c) (hp : c.Prunes d) : w.Keeps d := by
  have hsame := hp.sameCommits
  refine ⟨h.continues.prunes hp, h.described.prunes hp, fun n hn => ?_, h.same⟩
  rw [hsame.manifest, hsame.version]
  exact h.numbered n (hsame.length ▸ hn)

/-- A commit that is rejected leaves the commits alone. -/
theorem Keeps.rejected {err : Error} (h : w.Keeps e.catalog)
    (hstage : e.stage w changes = (.error err, e1)) :
    ∃ w', e1.writer = some w' ∧ w'.Keeps e1.catalog := by
  have hsingle := h.described.tallied.single
  have hretried := h.described.retried
  obtain ⟨s, rfl, hwritten⟩ :=
    Engine.exists_wrote_of_stage_error hsingle h.continues.depot hstage
  obtain ⟨-, written, hwrote, hplain⟩ :=
    hwritten.resolve_right fun hor => Store.not_refusesSync_of_never hretried.never hor.2.1
  have hcommits : (e.catalog.retried.setStoreOf 0 s).commits = e.catalog.commits :=
    hsingle.commits_retried
  have hcommit := Catalog.commit_congr hcommits
  refine ⟨_, rfl, ?_, hretried.write hwrote hplain, ?_, h.same⟩
  · exact (h.continues.congr hcommits).prune
  · intro n hn
    have hn : n < (e.catalog.retried.setStoreOf 0 s).commits.length := hn
    rw [hcommits] at hn
    show ((e.catalog.retried.setStoreOf 0 s).commit n).manifest.generation.number =
      ((e.catalog.retried.setStoreOf 0 s).commit n).version.number
    rw [hcommit]
    exact h.numbered n hn

/-- The files of a new commit have no reserved names. -/
theorem Keeps.plain (h : w.Keeps c) (hs : Engine.Stages w changes c w1 m data s) :
    ∀ q ∈ m.files, Manifest.isReserved q = false := by
  obtain ⟨files, hfiles, rfl⟩ := hs.manifest
  intro q hq
  rcases Changes.mem_of_apply hfiles hq with hbase | hadd
  · unfold Engine.baseFiles at hbase
    split at hbase
    next => cases hbase
    next n hlast =>
      have hn : n ∈ w1.history := List.mem_of_getLast? hlast
      rw [hs.writer] at hn
      have hlength := congrArg List.length h.described.tallied.single.commits_retried
      refine h.described.retried.plain n (hlength ▸ ?_) q hbase
      exact h.continues.range n (List.mem_filter.mp hn).1
  · exact Changes.isReserved_of_added hfiles hadd

/-- A commit that has been written joins, and the numbers move on. -/
theorem Keeps.join {v : Version} {g : Generation} (h : w.Keeps c)
    (hs : Engine.Stages w changes c w1 m data s) (hv : w.nextVersion.next? = some v)
    (hg : w.nextGeneration.next? = some g) :
    Keeps { w1 with
      history := w1.history ++ [(c.retried.setStoreOf 0 s).commits.length]
      nextVersion := v
      nextGeneration := g
      lastTimestamp := m.timestamp } ((c.retried.setStoreOf 0 s).adopt 0 m).2 := by
  have hsingle := h.described.tallied.single
  have hcommits : (c.retried.setStoreOf 0 s).commits = c.commits := hsingle.commits_retried
  obtain ⟨hversion, hgeneration⟩ := hs.numbers
  have hlength := Catalog.length_adopt 0 m (c.retried.setStoreOf 0 s)
  refine ⟨hs.continues hsingle h.continues hv,
    h.described.retried.adopt hs.wrote hs.encoded (fun q hq => hs.mem_fileNames hq)
      (fun q hq => hs.listed_or_written hsingle h.continues.range hq) (h.plain hs), ?_, ?_⟩
  · intro n hn
    unfold Catalog.version
    rcases Nat.lt_succ_iff_lt_or_eq.mp (hlength ▸ hn) with hn | rfl
    · rw [Catalog.commit_adopt_of_lt hn, Catalog.commit_congr hcommits]
      exact h.numbered n (hcommits ▸ hn)
    · rw [Catalog.commit_adopt_self]
      show m.generation.number = m.version.number
      rw [hversion, hgeneration]
      exact h.same
  · show g.number = v.number
    exact next?_number h.same hg hv

/-- A commit whose numbers can be followed keeps the writer going, whether it is rejected or not and
whatever the policy says. -/
theorem Keeps.commit {v : Version} {g : Generation} (h : w.Keeps e.catalog)
    (hv : w.nextVersion.next? = some v) (hg : w.nextGeneration.next? = some g)
    (changes : Changes) : ∃ w', (e.commitWith w changes).2.writer = some w' ∧
      w'.Keeps (e.commitWith w changes).2.catalog := by
  refine Engine.commitWith_induct h.described.tallied.single h.continues.depot hv hg
    (fun _ _ hstage => h.rejected hstage) (fun _ _ _ _ hs => h.join hs hv hg) ?_
  intro w c d hprunes hkeeps
  have hpruned := hkeeps.prunes hprunes
  exact ⟨hpruned.continues.prune, hpruned.described, hpruned.numbered, hpruned.same⟩

/-! ## Reading the history back -/

/-- The manifests of the commits that a writer has undeleted, oldest first. -/
def manifests (w : Writer) (c : Catalog) : List Manifest :=
  (c.undeleted w.history).map fun n => (c.commit n).manifest

theorem Continues.mem_manifests (h : w.Continues c) : m ∈ w.manifests c ↔
    ∃ n, n < c.commits.length ∧ c.isDeleted n = false ∧ (c.commit n).manifest = m := by
  unfold manifests Catalog.undeleted
  rw [List.mem_map]
  refine exists_congr fun n => ?_
  rw [List.mem_filter, ← and_assoc]
  refine and_congr_left fun _ => ⟨fun hand => ?_, fun hand => ?_⟩
  · exact ⟨h.range n hand.1, by simpa using hand.2⟩
  · exact ⟨h.complete n hand.1 hand.2, by simp [hand.2]⟩

/-- What the undeleted commits list is what their manifests list. -/
theorem Continues.referenced_eq (h : w.Continues c) :
    c.referenced = (w.manifests c).flatMap Manifest.fileNames := by
  unfold manifests
  rw [c.referenced_eq, ← h.undeleted_history, List.flatMap_map]

theorem Continues.ascending_manifests (h : w.Continues c) :
    ((w.manifests c).map Manifest.version).Pairwise (· < ·) := by
  unfold manifests
  rw [List.map_map, List.pairwise_map]
  refine (h.sorted.filter _).imp_of_mem ?_
  intro n n' hn hn' hlt
  exact h.ascending n n' hlt (h.range n' (List.mem_filter.mp hn').1)

/-- The store describes the commits that are undeleted. -/
theorem Keeps.describes (h : w.Keeps c) : (c.store 0).Describes (w.manifests c) := by
  have hmem := fun m => h.continues.mem_manifests (m := m)
  obtain ⟨base, htidy, hbase⟩ := h.described.tidy
  refine ⟨?_, ?_, ?_, h.continues.ascending_manifests⟩
  · intro m hm
    obtain ⟨n, hn, hkept, rfl⟩ := (hmem m).mp hm
    obtain ⟨data, hdata, hnode⟩ := h.described.written n hn hkept
    exact ⟨data, hdata, hnode,
      (h.described.housed _ (Or.inl (Catalog.mem_referenced_name hn hkept))).2⟩
  · intro q hq hreserved
    obtain ⟨data, hdata⟩ := (Store.mem_names_iff _ q).mp hq
    have hlisted : q ∈ c.referenced := by
      by_contra hnot
      have hnode := htidy.rest q hnot (by rw [h.described.queue]; exact List.not_mem_nil)
      have hplain := (hbase q data (hnode.symm.trans hdata)).1
      rw [hreserved] at hplain
      cases hplain
    obtain ⟨n, hn, hkept, hfile⟩ := Catalog.exists_of_mem_referenced hlisted
    rcases List.mem_append.mp hfile with hfile | hself
    · have hplain := h.described.plain n hn q hfile
      rw [hreserved] at hplain
      cases hplain
    · exact ⟨_, (hmem _).mpr ⟨n, hn, hkept, rfl⟩, (List.mem_singleton.mp hself).symm⟩
  · refine List.pairwise_map.mpr ?_
    refine (List.pairwise_map.mp h.continues.ascending_manifests).imp_of_mem ?_
    intro m m' hm hm' hlt
    obtain ⟨n, hn, -, rfl⟩ := (hmem m).mp hm
    obtain ⟨n', hn', -, rfl⟩ := (hmem m').mp hm'
    rw [h.numbered n hn, h.numbered n' hn']
    exact hlt

end Writer

end SnapshotRetention
