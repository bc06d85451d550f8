import SnapshotRetention.Proofs.Writer.FailedDeletes
import SnapshotRetention.Proofs.Writer.Reopening

/-!
# Manifests that outlive their artifacts

Deleting a commit removes its data artifacts and then its manifest, and goes on where one of them
cannot be removed. So a manifest whose own deletion fails stays behind when the data that it lists is
gone, and a writer that opens then is presented with a commit that is not complete
(`outlived_by_refused`).

Main statement: `outlived_only_by_waiting` — in a store that was empty and that refuses nothing but
deletions, these are the only such manifests. In every state of a run the store can be read back,
and each manifest in it has all its data artifacts unless it waits in the queue, where only
manifests of deleted commits wait. A commit during which no deletion is refused leaves none of them.

What every step keeps is `Catalog.Manifested`: the manifest of each undeleted commit is in the
store, and what else has a reserved name there waits. Nothing depends on what the keeper holds or on
what the policy asks for.
-/

namespace SnapshotRetention

open Catalog (Prunes Tidy Housed Disposed)
open Store (Node Wrote)

/-! ## Stores that refuse deletions only -/

namespace Store

variable {s : Store}

/-- Only deletions are ever refused. -/
def FaultPlan.OnlyDeletes (plan : FaultPlan) : Prop :=
  ∀ clock access name, access ≠ .delete → plan.fault? clock access name = none

theorem FaultPlan.onlyDeletes_never : FaultPlan.never.OnlyDeletes := fun _ _ _ _ => rfl

theorem FaultPlan.OnlyDeletes.not_refusesSync (h : s.faults.OnlyDeletes) : ¬s.RefusesSync := by
  rintro ⟨clock, fault, hfault⟩
  cases (h clock .sync "" nofun).symm.trans hfault

/-- What can be read does not depend on which deletions are refused. -/
theorem readCommits_of_onlyDeletes (h : s.faults.OnlyDeletes) :
    s.readCommits = { s with faults := .never }.readCommits := by
  refine readCommits_congr ?_ fun name => ?_
  · unfold list fault?
    rw [h s.clock .list "" nofun]
    rfl
  · unfold read fault?
    rw [h s.clock .read name nofun]
    rfl

/-- A store is read as describing a history if each of its reserved names is that of a manifest
whose generation is the number of its version. -/
theorem exists_describes {P : Manifest → Prop}
    (h : ∀ q ∈ s.names, Manifest.isReserved q = true → ∃ m data, m.name = q ∧
      m.encode = .ok data ∧ s.medium.node? q = some (.file data) ∧ ¬s.medium.Fixed q ∧
        m.generation.number = m.version.number ∧ P m) : ∃ ms, s.Describes ms ∧ ∀ m ∈ ms, P m := by
  choose! named data hname hdata hnode hfixed hnumber hP using h
  have hreserved := fun q (hq : q ∈ s.names.filter Manifest.isReserved) => List.mem_filter.mp hq
  let le : Manifest → Manifest → Bool := fun m m' => m.generation.le m'.generation
  let ms := ((s.names.filter Manifest.isReserved).map named).mergeSort le
  have hmem : ∀ m, m ∈ ms ↔ ∃ q ∈ s.names.filter Manifest.isReserved, named q = m :=
    fun m => List.mem_mergeSort.trans List.mem_map
  have hsorted : ms.Pairwise fun m m' => le m m' = true := by
    refine List.pairwise_mergeSort ?_ ?_ _
    · intro m m' m'' hle hle'
      exact decide_eq_true (UInt64.le_trans (of_decide_eq_true hle) (of_decide_eq_true hle'))
    · intro m m'
      rw [Bool.or_eq_true]
      exact (UInt64.le_total m.generation.number m'.generation.number).imp decide_eq_true
        decide_eq_true
  -- different names are those of different generations
  have hdistinct : ms.Pairwise fun m m' => m.generation ≠ m'.generation := by
    have hnodup : ((s.names.filter Manifest.isReserved).map named).Pairwise
        fun m m' => m.generation ≠ m'.generation := by
      refine List.pairwise_map.mpr (((Medium.nodup_names s.medium).filter _).imp_of_mem ?_)
      intro q q' hq hq' hne heq
      refine hne ?_
      rw [← hname q (hreserved q hq).1 (hreserved q hq).2,
        ← hname q' (hreserved q' hq').1 (hreserved q' hq').2]
      exact congrArg Manifest.nameOf heq
    exact (List.mergeSort_perm _ le).symm.pairwise hnodup fun hne heq => hne heq.symm
  have hgenerations : (ms.map fun m => m.generation.number).Pairwise (· < ·) := by
    refine List.pairwise_map.mpr ((hsorted.and hdistinct).imp ?_)
    rintro m m' ⟨hle, hne⟩
    exact UInt64.lt_of_le_of_ne (of_decide_eq_true hle) fun heq => hne (congrArg Generation.mk heq)
  refine ⟨ms, ⟨?_, ?_, hgenerations, ?_⟩, ?_⟩
  · intro m hm
    obtain ⟨q, hq, rfl⟩ := (hmem m).mp hm
    obtain ⟨hmem, hres⟩ := hreserved q hq
    rw [hname q hmem hres]
    exact ⟨data q, hdata q hmem hres, hnode q hmem hres, hfixed q hmem hres⟩
  · intro q hq hres
    exact ⟨named q, (hmem _).mpr ⟨q, List.mem_filter.mpr ⟨hq, hres⟩, rfl⟩, hname q hq hres⟩
  · refine List.pairwise_map.mpr ((List.pairwise_map.mp hgenerations).imp_of_mem ?_)
    intro m m' hm hm' hlt
    obtain ⟨q, hq, rfl⟩ := (hmem m).mp hm
    obtain ⟨q', hq', rfl⟩ := (hmem m').mp hm'
    rw [hnumber q (hreserved q hq).1 (hreserved q hq).2,
      hnumber q' (hreserved q' hq').1 (hreserved q' hq').2] at hlt
    exact hlt
  · intro m hm
    obtain ⟨q, hq, rfl⟩ := (hmem m).mp hm
    exact hP q (hreserved q hq).1 (hreserved q hq).2

end Store

/-! ## The invariant -/

namespace Catalog

variable {c d : Catalog} {n : Nat} {q : String} {s : Store} {waiting names kept : List String}
  {entries : List (String × Bytes)} {m : Manifest} {data : Bytes}

/-- The manifest of a commit is in the store, under the name of its generation. -/
def Written (n : Nat) (c : Catalog) : Prop :=
  ∃ data, (c.commit n).manifest.encode = .ok data ∧
    (c.store 0).medium.node? (c.commit n).manifest.name = some (.file data)

/-- Each undeleted commit has its manifest in the store, and what else has a reserved name there is
the manifest of a deleted commit and waits. -/
structure Manifested (c : Catalog) : Prop where
  tidy : ∃ base, Tidy base c ∧ ∀ q data, base q = some (.file data) → Manifest.isReserved q = false
  housed : c.Housed
  deletes : (c.store 0).faults.OnlyDeletes
  written : ∀ n, n < c.commits.length → c.isDeleted n = false → c.Written n
  waiting : ∀ q ∈ (c.tracker 0).queue, Manifest.isReserved q = true →
    ∃ n, n < c.commits.length ∧ c.isDeleted n = true ∧ (c.commit n).manifest.name = q ∧ c.Written n
  plain : ∀ n, n < c.commits.length → ∀ q ∈ (c.commit n).manifest.files,
    Manifest.isReserved q = false
  /-- The generation of a commit is the number of its version. -/
  numbered : ∀ n, n < c.commits.length →
    (c.commit n).manifest.generation.number = (c.version n).number

theorem Manifested.tallied (h : c.Manifested) : c.Tallied := by
  obtain ⟨base, htidy, -⟩ := h.tidy
  exact htidy.tallied

/-- A reserved name that is listed is the name of an undeleted commit's manifest. -/
theorem Manifested.exists_of_referenced (h : c.Manifested) (hq : q ∈ c.referenced)
    (hreserved : Manifest.isReserved q = true) :
    ∃ n, n < c.commits.length ∧ c.isDeleted n = false ∧ (c.commit n).manifest.name = q := by
  obtain ⟨n, hn, hkept, hfile⟩ := exists_of_mem_referenced hq
  refine ⟨n, hn, hkept, ?_⟩
  rcases List.mem_append.mp hfile with hdata | hself
  · cases (h.plain n hn q hdata).symm.trans hreserved
  · exact (List.mem_singleton.mp hself).symm

/-- A manifest stays where it is while its place is left alone. -/
theorem Written.congr (h : c.Written n) (hcommit : (d.commit n).manifest = (c.commit n).manifest)
    (hnode : (d.store 0).medium.node? (c.commit n).manifest.name =
      (c.store 0).medium.node? (c.commit n).manifest.name) : d.Written n := by
  unfold Written
  rw [hcommit, hnode]
  exact h

/-! ## Deleting -/

theorem Manifested.disposed (h : c.Manifested) (hd : Disposed waiting names kept c d)
    (hsame : c.SameCommits d) (hmono : ∀ n, c.isDeleted n = true → d.isDeleted n = true) :
    d.Manifested := by
  have hundeleted : ∀ n, d.isDeleted n = false → c.isDeleted n = false := by
    intro n hkept
    refine Bool.eq_false_iff.mpr fun hgone => ?_
    cases hkept.symm.trans (hmono n hgone)
  have hstays : ∀ n, c.Written n → (c.commit n).manifest.name ∈ d.referenced ∨
      (c.commit n).manifest.name ∈ (d.tracker 0).queue → d.Written n :=
    fun n hwritten hmem => hwritten.congr (hsame.manifest n) (hd.node_of_mem hmem)
  obtain ⟨base, htidy, hbase⟩ := h.tidy
  refine ⟨⟨base, htidy.disposed h.housed.answers hd, hbase⟩, h.housed.disposed hd, ?_, ?_, ?_, ?_,
    ?_⟩
  · rw [hd.cleared.faults]
    exact h.deletes
  · intro n hn hkept
    refine hstays n (h.written n (hsame.length ▸ hn) (hundeleted n hkept)) (Or.inl ?_)
    rw [← hsame.manifest]
    exact mem_referenced_name hn hkept
  · intro q hq hreserved
    rcases hd.mem_before (Or.inr hq) with hlisted | hwaits
    · -- it is queued now, so the commit whose manifest it is has been deleted
      obtain ⟨n, hn, hkept, rfl⟩ := h.exists_of_referenced hlisted hreserved
      have hn' : n < d.commits.length := hsame.length.symm ▸ hn
      refine ⟨n, hn', ?_, congrArg Manifest.name (hsame.manifest n),
        hstays n (h.written n hn hkept) (Or.inr hq)⟩
      by_contra hnot
      refine hd.tallied.loose _ hq ?_
      rw [← hsame.manifest]
      exact mem_referenced_name hn' (Bool.eq_false_iff.mpr hnot)
    · obtain ⟨n, hn, hgone, rfl, hwritten⟩ := h.waiting q hwaits hreserved
      exact ⟨n, hsame.length.symm ▸ hn, hmono n hgone, congrArg Manifest.name (hsame.manifest n),
        hstays n hwritten (Or.inr hq)⟩
  · intro n hn
    rw [hsame.manifest]
    exact h.plain n (hsame.length ▸ hn)
  · intro n hn
    rw [hsame.manifest, hsame.version]
    exact h.numbered n (hsame.length ▸ hn)

theorem Manifested.prunes (h : c.Manifested) (hp : c.Prunes d) : d.Manifested :=
  h.tallied.induct_prunes hp h fun hd hsame hmono hc => hc.disposed hd hsame hmono

theorem Manifested.retried (h : c.Manifested) : c.retried.Manifested := by
  have hcommits := h.tallied.single.commits_retried
  obtain ⟨kept, hd⟩ := h.tallied.retried
  exact h.disposed hd (.of_commits hcommits) fun n hn => (isDeleted_congr hcommits n).trans hn

/-! ## Writing -/

/-- The manifest of a commit whose name is accounted for stays where it is while others are
written. -/
theorem Manifested.written_setStoreOf (h : c.Manifested) (hw : Wrote entries (c.store 0) s)
    (hwritten : c.Written n) (hmem : (c.commit n).manifest.name ∈ c.referenced ∨
      (c.commit n).manifest.name ∈ (c.tracker 0).queue) : (c.setStoreOf 0 s).Written n := by
  refine hwritten.congr rfl ?_
  rw [h.tallied.single.store_setStoreOf]
  exact h.housed.node_of_wrote hw hmem

/-- Files of a commit that is turned down have no reserved names. -/
theorem Manifested.write (h : c.Manifested) (hw : Wrote entries (c.store 0) s)
    (hplain : ∀ q ∈ entries.map Prod.fst, Manifest.isReserved q = false) :
    (c.setStoreOf 0 s).Manifested := by
  have hsingle := h.tallied.single
  obtain ⟨base, htidy, hbase⟩ := h.tidy
  refine ⟨⟨_, htidy.write h.housed hw, ?_⟩, h.housed.write hsingle hw, ?_, ?_, ?_, h.plain,
    h.numbered⟩
  · intro q data hfile
    split at hfile
    next hmem => exact hplain q hmem
    next => exact hbase q data hfile
  · rw [hsingle.store_setStoreOf, hw.faults]
    exact h.deletes
  · intro n hn hkept
    exact h.written_setStoreOf hw (h.written n hn hkept) (Or.inl (mem_referenced_name hn hkept))
  · intro q hq hreserved
    rw [hsingle.queue_setStoreOf] at hq
    obtain ⟨n, hn, hgone, rfl, hwritten⟩ := h.waiting q hq hreserved
    exact ⟨n, hn, hgone, rfl, h.written_setStoreOf hw hwritten (Or.inr hq)⟩

/-- A commit that has been written joins. -/
theorem Manifested.adopt (h : c.Manifested)
    (hw : Wrote (entries ++ [(m.name, data)]) (c.store 0) s) (hdata : m.encode = .ok data)
    (hsub : ∀ q ∈ (entries ++ [(m.name, data)]).map Prod.fst, q ∈ m.fileNames)
    (hfiles : ∀ q ∈ m.fileNames,
      q ∈ c.referenced ∨ q ∈ (entries ++ [(m.name, data)]).map Prod.fst)
    (hplain : ∀ q ∈ m.files, Manifest.isReserved q = false)
    (hnumber : m.generation.number = m.version.number) :
    ((c.setStoreOf 0 s).adopt 0 m).2.Manifested := by
  have hsingle := h.tallied.single
  have hlength : ((c.setStoreOf 0 s).adopt 0 m).2.commits.length = c.commits.length + 1 :=
    length_adopt 0 m (c.setStoreOf 0 s)
  have hold : ∀ n, n < c.commits.length →
      ((c.setStoreOf 0 s).adopt 0 m).2.commit n = c.commit n :=
    fun n hn => commit_adopt_of_lt (c := c.setStoreOf 0 s) hn
  have hnew : ((c.setStoreOf 0 s).adopt 0 m).2.commit c.commits.length =
      ⟨m, .artifacts 0, false⟩ := commit_adopt_self 0 m (c.setStoreOf 0 s)
  have hstays : ∀ n, n < c.commits.length → c.Written n →
      (c.commit n).manifest.name ∈ c.referenced ∨
        (c.commit n).manifest.name ∈ (c.tracker 0).queue →
      ((c.setStoreOf 0 s).adopt 0 m).2.Written n := by
    intro n hn hwritten hmem
    refine hwritten.congr (congrArg Commit.manifest (hold n hn)) ?_
    rw [hsingle.store_written]
    exact h.housed.node_of_wrote hw hmem
  obtain ⟨base, htidy, hbase⟩ := h.tidy
  refine ⟨⟨base, htidy.adopt hw hsub hfiles, hbase⟩, h.housed.adopt hsingle hw hfiles, ?_, ?_, ?_,
    ?_, ?_⟩
  · rw [hsingle.store_written, hw.faults]
    exact h.deletes
  · intro n hn hkept
    rcases Nat.lt_succ_iff_lt_or_eq.mp (hlength ▸ hn) with hn | rfl
    · unfold isDeleted at hkept
      rw [hold n hn] at hkept
      exact hstays n hn (h.written n hn hkept) (Or.inl (mem_referenced_name hn hkept))
    · unfold Written
      rw [hnew, hsingle.store_written]
      exact ⟨data, hdata, hw.there (m.name, data)
        (List.mem_append_right _ (List.mem_singleton.mpr rfl))⟩
  · intro q hq hreserved
    rw [hsingle.queue_written] at hq
    obtain ⟨n, hn, hgone, rfl, hwritten⟩ := h.waiting q hq hreserved
    refine ⟨n, hlength ▸ Nat.lt_succ_of_lt hn, ?_, by rw [hold n hn],
      hstays n hn hwritten (Or.inr hq)⟩
    unfold isDeleted
    rw [hold n hn]
    exact hgone
  · intro n hn
    rcases Nat.lt_succ_iff_lt_or_eq.mp (hlength ▸ hn) with hn | rfl
    · rw [hold n hn]
      exact h.plain n hn
    · rw [hnew]
      exact hplain
  · intro n hn
    unfold version
    rcases Nat.lt_succ_iff_lt_or_eq.mp (hlength ▸ hn) with hn | rfl
    · rw [hold n hn]
      exact h.numbered n hn
    · rw [hnew]
      exact hnumber

/-- Other deletions may be refused from now on. -/
theorem Manifested.refuse (h : c.Manifested) (hmedium : s.medium = (c.store 0).medium)
    (hdeletes : s.faults.OnlyDeletes) : (c.setStoreOf 0 s).Manifested := by
  have hsingle := h.tallied.single
  have hstore := hsingle.store_setStoreOf s
  have hstays : ∀ n, c.Written n → (c.setStoreOf 0 s).Written n := fun n hwritten =>
    hwritten.congr rfl (by rw [hstore, hmedium])
  obtain ⟨base, htidy, hbase⟩ := h.tidy
  refine ⟨⟨base, htidy.refuse hmedium, hbase⟩, h.housed.refuse hsingle hmedium, ?_,
    fun n hn hkept => hstays n (h.written n hn hkept), ?_, h.plain, h.numbered⟩
  · rw [hstore]
    exact hdeletes
  · intro q hq hreserved
    rw [hsingle.queue_setStoreOf] at hq
    obtain ⟨n, hn, hgone, rfl, hwritten⟩ := h.waiting q hq hreserved
    exact ⟨n, hn, hgone, rfl, hstays n hwritten⟩

/-! ## Reading the history back -/

/-- A manifest in the store is that of an undeleted commit, all of whose artifacts are there, or it
waits and is that of a deleted commit. -/
structure Stands (m : Manifest) (c : Catalog) : Prop where
  complete : m.name ∉ (c.tracker 0).queue → ∀ q ∈ m.files, q ∈ (c.store 0).names
  deleted : m.name ∈ (c.tracker 0).queue →
    ∃ n, n < c.commits.length ∧ c.isDeleted n = true ∧ (c.commit n).manifest = m

/-- The store is read as describing manifests that stand. -/
theorem Manifested.exists_describes (h : c.Manifested) :
    ∃ ms, (c.store 0).Describes ms ∧ ∀ m ∈ ms, c.Stands m := by
  refine Store.exists_describes fun q hq hreserved => ?_
  obtain ⟨base, htidy, hbase⟩ := h.tidy
  obtain ⟨data, hdata⟩ := (Store.mem_names_iff _ q).mp hq
  by_cases hlisted : q ∈ c.referenced
  · obtain ⟨n, hn, hkept, rfl⟩ := h.exists_of_referenced hlisted hreserved
    obtain ⟨data, hencoded, hnode⟩ := h.written n hn hkept
    refine ⟨_, data, rfl, hencoded, hnode, (h.housed _ (Or.inl hlisted)).2, h.numbered n hn,
      ⟨fun _ q hq => ?_, fun hwaits => absurd hlisted (h.tallied.loose _ hwaits)⟩⟩
    exact (Store.mem_names_iff _ q).mpr
      (h.housed q (Or.inl (mem_referenced hn hkept (List.mem_append_left _ hq)))).1
  · by_cases hwaits : q ∈ (c.tracker 0).queue
    · obtain ⟨n, hn, hgone, rfl, data, hencoded, hnode⟩ := h.waiting q hwaits hreserved
      exact ⟨_, data, rfl, hencoded, hnode, (h.housed _ (Or.inr hwaits)).2, h.numbered n hn,
        ⟨fun hnot => absurd hwaits hnot, fun _ => ⟨n, hn, hgone, rfl⟩⟩⟩
    · -- what stood there from the start has no reserved name
      have hnode := htidy.rest q hlisted hwaits
      cases (hbase q data (hnode.symm.trans hdata)).symm.trans hreserved

end Catalog

/-! ## The writer -/

namespace Engine

variable {e e1 : Engine} {w w1 : Writer} {m : Manifest} {s s' : Store} {c : Catalog}
  {changes : Changes} {data : Bytes} {id bound : Nat} {reclaimOnRelease sync : Bool} {d : Decider}

/-- The catalog is in order, and the next generation of the writer goes with its next version. -/
structure Orderly (e : Engine) : Prop where
  manifested : e.catalog.Manifested
  same : ∀ w, e.writer = some w → w.nextGeneration.number = w.nextVersion.number

/-- Registering a manifest moves both numbers on, or neither. -/
theorem register_same (h : w.nextGeneration.number = w.nextVersion.number) :
    ∀ w', (e.register w m).2.writer = some w' →
      w'.nextGeneration.number = w'.nextVersion.number := by
  intro w' hw'
  cases hadvance : advance { w with history := w.history ++ [e.catalog.commits.length] }
      m.timestamp with
  | none =>
    rw [register_of_none hadvance] at hw'
    obtain rfl := Option.some.inj hw'
    exact h
  | some w1 =>
    rw [register_of_advance hadvance] at hw'
    obtain rfl := Option.some.inj hw'
    show w1.nextGeneration.number = w1.nextVersion.number
    unfold advance at hadvance
    split at hadvance
    next v g hv hg =>
      obtain rfl := Option.some.inj hadvance
      exact Writer.next?_number h hg hv
    next => cases hadvance

/-- The files of a new commit have no reserved names. -/
theorem Stages.plain (hs : Stages w changes c w1 m data s) (hsingle : c.Single)
    (hrange : ∀ n ∈ w.history, n < c.commits.length)
    (hplain : ∀ n, n < c.commits.length → ∀ q ∈ (c.commit n).manifest.files,
      Manifest.isReserved q = false) : ∀ q ∈ m.files, Manifest.isReserved q = false := by
  obtain ⟨files, hfiles, rfl⟩ := hs.manifest
  intro q hq
  rcases Changes.mem_of_apply hfiles hq with hbase | hadd
  · unfold baseFiles at hbase
    split at hbase
    next => cases hbase
    next n hlast =>
      have hn : n ∈ w1.history := List.mem_of_getLast? hlast
      rw [hs.writer] at hn
      have hlt := hrange n (List.mem_filter.mp hn).1
      rw [Catalog.commit_congr hsingle.commits_retried] at hbase
      exact hplain n hlt q hbase
  · exact Changes.isReserved_of_added hfiles hadd

/-- A commit, whether it is turned down or not, keeps the catalog in order. -/
theorem Orderly.commitWith (h : e.Orderly) (hrunning : Running bound e) (hw : e.writer = some w)
    (changes : Changes) : (e.commitWith w changes).2.Orderly := by
  have hsingle := h.manifested.tallied.single
  have hretried := h.manifested.retried
  have hsame := h.same w hw
  rcases e.commitWith_cases w changes with ⟨err, e1, hstage, heq⟩ | ⟨w1, m, e1, hstage, heq⟩
  · rw [heq]
    obtain ⟨s, rfl, hwritten⟩ := exists_wrote_of_stage_error hsingle (hrunning.depot hw) hstage
    obtain ⟨-, written, hwrote, hplain⟩ :=
      hwritten.resolve_right fun hor => hretried.deletes.not_refusesSync hor.2.1
    refine ⟨hretried.write hwrote hplain, fun w' hw' => ?_⟩
    obtain rfl := Option.some.inj hw'
    exact hsame
  · -- a writer that has written a manifest fits its keeper
    have hfits := ((hrunning.writer w hw).resolve_right fun hstuck =>
      stage_of_stuck hstuck hstage).1
    obtain ⟨data, s, hs, rfl⟩ := stages_of_stage hsingle (hrunning.depot hw) hstage
    obtain ⟨hversion, hgeneration⟩ := hs.numbers
    have hadopted := hretried.adopt hs.wrote hs.encoded (fun q hq => hs.mem_fileNames hq)
      (fun q hq => hs.listed_or_written hsingle hfits.range hq)
      (hs.plain hsingle hfits.range h.manifested.plain) (by rw [hversion, hgeneration, hsame])
    rw [heq]
    refine ⟨hadopted.prunes (register_prunes (hs.depot.trans (hrunning.depot hw))),
      register_same ?_⟩
    rw [hs.nextGeneration, hs.nextVersion, hsame]

/-- Only deletions are refused from now on. -/
def RefusesDeletes (_ : Engine) : Act → Prop
  | .refuse faults => faults.OnlyDeletes
  | .commit _ _ | .use _ => True

theorem Orderly.act (h : e.Orderly) (hrunning : Running bound e) {a : Act}
    (ha : e.RefusesDeletes a) : (e.act a).Orderly := by
  cases a with
  | commit d changes =>
    have hd := (hrunning.withDecider d).running
    have horderly : Orderly { e with decider := d } := ⟨h.manifested, h.same⟩
    cases hw : e.writer with
    | none =>
      rw [(act_commit_of_none d changes hw).2]
      exact horderly
    | some w =>
      rw [(act_commit_of_some d changes hw).2]
      exact horderly.commitWith hd hw changes
  | use u => exact ⟨h.manifested.prunes (Keeper.use_prunes u e.keeper), h.same⟩
  | refuse faults => exact ⟨h.manifested.refuse rfl ha, h.same⟩

/-! ## Opening over an empty store -/

/-- Nothing is in the store and nothing is listed. -/
theorem Swept.manifested (h : Swept s [] sync w c s') (hdeletes : s.faults.OnlyDeletes) :
    (c.setStoreOf 0 s').Manifested := by
  have hsingle := h.recounts.tallied.single
  have hqueue : ((c.setStoreOf 0 s').tracker 0).queue = [] := by
    rw [hsingle.queue_setStoreOf]
    exact h.recounts.queue
  have hrange : ∀ n, ¬n < (c.setStoreOf 0 s').commits.length := by
    intro n
    rw [h.length]
    exact Nat.not_lt_zero n
  obtain ⟨base, hbase, htidy⟩ := h.tidy
  refine ⟨⟨base, htidy, fun q data hfile => absurd hfile (hbase q data)⟩, ?_, ?_,
    fun n hn => absurd hn (hrange n), ?_, fun n hn => absurd hn (hrange n),
    fun n hn => absurd hn (hrange n)⟩
  · intro q hq
    rw [hsingle.referenced_setStoreOf, hqueue, h.referenced_eq] at hq
    exact hq.elim (fun hq => absurd hq List.not_mem_nil) fun hq => absurd hq List.not_mem_nil
  · rw [hsingle.store_setStoreOf, h.cleared.faults]
    exact hdeletes
  · intro q hq
    rw [hqueue] at hq
    cases hq

theorem readCommits_of_names_nil (hempty : s.names = []) (hdeletes : s.faults.OnlyDeletes) :
    s.readCommits = .ok [] :=
  (Store.readCommits_of_onlyDeletes hdeletes).trans
    (readCommits_of_empty (s := { s with faults := .never }) hempty rfl)

/-- A writer opens over an empty store. -/
theorem exists_opened (id : Nat) (reclaimOnRelease : Bool) (d : Decider) (sync : Bool)
    (hempty : s.names = []) (hdeletes : s.faults.OnlyDeletes) :
    ∃ w, ((onStore id reclaimOnRelease d s).load 0 sync).1 = .ok w ∧
      Orderly ((onStore id reclaimOnRelease d s).openWriter 0 sync).2 := by
  have hms := readCommits_of_names_nil hempty hdeletes
  obtain ⟨c, -, -, hload⟩ :=
    load_eq (e := onStore id reclaimOnRelease d s) rfl hms sync
  have hsweep : s.sweep (c.tracker 0).isReferenced = (.ok (), s) := by
    unfold Store.sweep Store.list Store.fault?
    rw [hdeletes s.clock .list "" nofun, hempty]
    rfl
  rw [hsweep] at hload
  obtain ⟨c', s', hswept, he⟩ := swept_load rfl hms hload
  have hmanifested := hswept.manifested hdeletes
  have hw := congrArg Prod.fst hload
  refine ⟨_, hw, ?_⟩
  rw [openWriter_of_load hload, he]
  exact ⟨hmanifested, fun w hw => by obtain rfl := Option.some.inj hw; rfl⟩

/-! ## Main statement -/

/-- What can be read back from the store is every manifest in it, each of which stands. -/
structure ReadsBack (e : Engine) (ms : List Manifest) : Prop where
  read : (e.catalog.store 0).readCommits = .ok ms
  /-- Every manifest in the store is among them. -/
  all : ∀ q ∈ (e.catalog.store 0).names, Manifest.isReserved q = true → ∃ m ∈ ms, m.name = q
  stands : ∀ m ∈ ms, e.catalog.Stands m

theorem Orderly.exists_readsBack (h : e.Orderly) : ∃ ms, e.ReadsBack ms := by
  obtain ⟨ms, hdescribes, hstands⟩ := h.manifested.exists_describes
  refine ⟨ms, ?_, hdescribes.reserved, hstands⟩
  rw [Store.readCommits_of_onlyDeletes h.manifested.deletes]
  exact Store.Describes.readCommits
    ⟨hdescribes.written, hdescribes.reserved, hdescribes.generations, hdescribes.versions⟩ rfl

/-- Only a manifest that waits for its deletion outlives the data that it lists. -/
theorem outlived_only_by_waiting (hempty : s.names = []) (hdeletes : s.faults.OnlyDeletes)
    (h : Follows RefusesDeletes ((onStore id reclaimOnRelease d s).openWriter 0 sync).2 e) :
    (∃ ms, e.ReadsBack ms) ∧ ∀ d' changes, e.shows (.commit d' changes) ≠ [] →
      ((e.act (.commit d' changes)).catalog.store 0).failedDeletes =
        (e.catalog.store 0).failedDeletes →
          ∃ ms, (e.act (.commit d' changes)).ReadsBack ms ∧
            ∀ m ∈ ms, ∀ q ∈ m.files, q ∈ ((e.act (.commit d' changes)).catalog.store 0).names := by
  obtain ⟨w, hload, horderly⟩ := exists_opened id reclaimOnRelease d sync hempty hdeletes
  obtain ⟨e1, hload⟩ : ∃ e1, (onStore id reclaimOnRelease d s).load 0 sync = (.ok w, e1) :=
    ⟨_, Prod.ext hload rfl⟩
  have hpresented := (loaded_load (readCommits_of_names_nil hempty hdeletes)
    (fun m hm => absurd hm List.not_mem_nil) hload).present
  rw [openWriter_of_load hload] at horderly h
  obtain ⟨⟨bound, hrunning⟩, horderly⟩ := h.induct (P := Orderly) hpresented.running horderly
    fun e bound a hrunning _ ha he => he.act hrunning ha
  refine ⟨horderly.exists_readsBack, fun d' changes hne hfailed => ?_⟩
  have hact := horderly.act hrunning (a := .commit d' changes) trivial
  obtain ⟨base, htidy, -⟩ := horderly.manifested.tidy
  obtain ⟨-, -, hqueue⟩ := commit_accounted hrunning htidy horderly.manifested.housed hne
  obtain ⟨ms, hms⟩ := hact.exists_readsBack
  refine ⟨ms, hms, fun m hm => (hms.stands m hm).complete ?_⟩
  rw [hqueue hfailed]
  exact List.not_mem_nil

/-! ## A manifest that outlives its artifact -/

/-- The manifest of the first commit cannot be deleted while the second commit replaces it. -/
def stranded : Engine :=
  ((opened.act (.commit (.stock .keepOnlyLast) ⟨[("a", [1])], [], 0⟩)).act
    (.refuse (.listed [(.delete, "commit_1")]))).act
      (.commit (.stock .keepOnlyLast) ⟨[("b", [2])], ["a"], 0⟩)

theorem follows_stranded :
    Follows RefusesDeletes ((onStore 0 true (.stock .keepOnlyLast) .empty).openWriter 0 true).2
      stranded := by
  have hlisted : (Store.FaultPlan.listed [(.delete, "commit_1")]).OnlyDeletes := by
    intro clock access name haccess
    simp [Store.FaultPlan.fault?, haccess]
  exact .act _ (.act _ (.act _ .refl trivial trivial) trivial hlisted) trivial trivial

/-- Deletions work again, and the next commit clears what is left. -/
theorem outlived_only_by_waiting_cleared :
    (∃ ms, (stranded.act (.refuse .never)).ReadsBack ms) ∧
      ∃ ms, ((stranded.act (.refuse .never)).act
        (.commit (.stock .keepOnlyLast) ⟨[("c", [3])], [], 0⟩)).ReadsBack ms ∧
          ∀ m ∈ ms, ∀ q ∈ m.files, q ∈ (((stranded.act (.refuse .never)).act
            (.commit (.stock .keepOnlyLast) ⟨[("c", [3])], [], 0⟩)).catalog.store 0).names := by
  have hrun := follows_stranded.act (.refuse .never) trivial Store.FaultPlan.onlyDeletes_never
  obtain ⟨hreads, hcleared⟩ :=
    outlived_only_by_waiting rfl Store.FaultPlan.onlyDeletes_never hrun
  exact ⟨hreads, hcleared _ _ (by decide +kernel) (by decide +kernel)⟩

/-- Between two operations the manifest of the first commit is in the store and the artifact that it
lists is not, and the commit is presented to whoever reads the store. -/
theorem outlived_by_refused :
    Follows RefusesDeletes ((onStore 0 true (.stock .keepOnlyLast) .empty).openWriter 0 true).2
      stranded ∧ (stranded.catalog.store 0).names = ["b", "commit_1", "commit_2"] ∧
      (stranded.catalog.store 0).readCommits =
        .ok [⟨⟨1⟩, ⟨1⟩, 0, ["a"]⟩, ⟨⟨2⟩, ⟨2⟩, 0, ["b"]⟩] := by
  have hlist : (stranded.catalog.store 0).list = .ok ["b", "commit_1", "commit_2"] := by
    decide +kernel
  have hgenerations : Store.generationsOf ["b", "commit_1", "commit_2"] = [⟨1⟩, ⟨2⟩] := by
    have hfound : ["b", "commit_1", "commit_2"].filterMap Manifest.generationOf? = [⟨1⟩, ⟨2⟩] := by
      decide +kernel
    unfold Store.generationsOf
    rw [hfound]
    exact List.mergeSort_of_pairwise (by decide)
  refine ⟨follows_stranded, by decide +kernel, ?_⟩
  unfold Store.readCommits
  rw [hlist]
  dsimp only
  rw [hgenerations]
  decide +kernel

end Engine

end SnapshotRetention
