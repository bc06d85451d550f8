import SnapshotRetention.Proofs.Store.Works
import SnapshotRetention.Proofs.Writer.Loading

/-!
# What failures of the store leave intact

However accesses of its store fail, a writer keeps what it needs of the catalog
(`Writer.Intact`): what is listed and what waits are files, counted and queued as they should be,
every listed name is short enough for a manifest, and the names of manifests are accepted. Deleting
commits, trying the queue again, writing any files and adopting a commit all keep this, and a writer
that opens over a store with everything that its manifests list starts with it (`Swept.intact`).

If such a store works, then sound changes (`Changes.Sound`) are written up to the manifest, and the
manifest as well if its name is free (`Intact.stage_of_free`); if its name is taken, that is the error
(`Intact.stage_of_taken`).
-/

namespace SnapshotRetention

open Catalog (Prunes Disposed)
open Store (Wrote Medium)

/-- The names of manifests are names that artifacts can have. -/
theorem Manifest.isValidName_nameOf (g : Generation) : Store.isValidName (nameOf g) = true := by
  have hne : ∀ name : String, name.toList.head? ≠ some 'c' → nameOf g ≠ name := by
    rintro name hname rfl
    rw [toList_nameOf] at hname
    exact hname rfl
  have hchars : ∀ c ∈ (nameOf g).toList, c ≠ '/' ∧ c ≠ '\\' ∧ c.toNat ≠ 0 := by
    intro c hc
    rw [toList_nameOf] at hc
    rcases List.mem_append.mp hc with hstart | hdigit
    · have hall : (reservedStart.toList.all fun c =>
          decide (c ≠ '/' ∧ c ≠ '\\' ∧ c.toNat ≠ 0)) = true := by decide
      exact of_decide_eq_true (List.all_eq_true.mp hall c hstart)
    · have hdigit := Nat.isDigit_of_mem_toDigits (by decide) (by decide) hdigit
      refine ⟨?_, ?_, ?_⟩
      · rintro rfl
        cases hdigit
      · rintro rfl
        cases hdigit
      · intro hzero
        have hlow : 48 ≤ c.toNat :=
          UInt32.le_iff_toNat_le.mp (of_decide_eq_true (Bool.and_eq_true_iff.mp hdigit).1)
        omega
  unfold Store.isValidName
  have hall := List.all_eq_true.mpr fun c hc => by
    obtain ⟨h1, h2, h3⟩ := hchars c hc
    show (decide (c ≠ '/') && decide (c ≠ '\\') && decide (c.toNat ≠ 0)) = true
    simp [h1, h2, h3]
  rw [hall]
  simp [hne "" (by decide), hne "." (by decide), hne ".." (by decide)]

/-- Changes that are sound for a store and the files of a commit: the removed files are there, each
once, and the added names are new, each once, not reserved, accepted, and short enough for a
manifest, as is the number of files. -/
structure Changes.Sound (changes : Changes) (files : List String) (s : Store) : Prop where
  removedOnce : changes.remove.Nodup
  removed : ∀ q ∈ changes.remove, q ∈ files
  addedOnce : (changes.add.map Prod.fst).Nodup
  plain : ∀ q ∈ changes.add.map Prod.fst, Manifest.isReserved q = false
  accepted : ∀ q ∈ changes.add.map Prod.fst, s.medium.Accepts q
  short : ∀ q ∈ changes.add.map Prod.fst, q.utf8ByteSize < UInt16.size
  absent : ∀ q ∈ changes.add.map Prod.fst, s.medium.node? q = none
  few : ∀ after, changes.apply files = .ok after → after.length < UInt32.size

/-- Sound changes add no manifest. -/
theorem Changes.Sound.not_mem_of_nameOf {changes : Changes} {files : List String} {s : Store}
    (h : changes.Sound files s) (g : Generation) :
    Manifest.nameOf g ∉ changes.add.map Prod.fst := by
  intro hmem
  have hplain := h.plain _ hmem
  rw [Manifest.isReserved_nameOf] at hplain
  cases hplain

namespace Catalog

variable {c d : Catalog} {q : String} {waiting names kept : List String}

/-- What is neither listed nor waits is left alone. -/
theorem Disposed.untouched (hd : Disposed waiting names kept c d) (hlisted : q ∉ c.referenced)
    (hqueued : q ∉ (c.tracker 0).queue) :
    (d.store 0).medium.node? q = (c.store 0).medium.node? q ∧ q ∉ d.referenced ∧
      q ∉ (d.tracker 0).queue := by
  have hnone : ¬(q ∈ c.referenced ∨ q ∈ (c.tracker 0).queue) := fun hor => hor.elim hlisted hqueued
  refine ⟨hd.cleared.node_of_not_mem fun hmem => hnone ((hd.covers q).mpr (Or.inr (Or.inr hmem))),
    fun hmem => hnone (hd.mem_before (Or.inl hmem)), fun hmem => hnone (hd.mem_before (Or.inr hmem))⟩

/-- What is free stays free. -/
theorem Disposed.free (hd : Disposed waiting names kept c d)
    (hfree : (c.store 0).medium.node? q = none) : (d.store 0).medium.node? q = none := by
  rw [hd.cleared.node, hfree]
  split
  next => rfl
  next => rfl

end Catalog

namespace Engine

variable {add : List (String × Bytes)} {m : Manifest} {s s1 : Store} {data : Bytes}

/-- In a store that works, a manifest whose name is free is written. -/
theorem writeOut_of_free (hadd : s.writeAll add = (.ok (), s1)) (hdata : m.encode = .ok data)
    (hworks : s1.Works) (haccepts : s1.medium.Accepts m.name)
    (hfree : s1.medium.node? m.name = none) (sync : Bool) :
    (writeOut add m sync s).1 = .ok () := by
  obtain ⟨s2, hmanifest⟩ := Store.exists_write hworks haccepts hfree data
  have hsync := Store.sync_of_works (hworks.congr (Store.wrote_write hmanifest).faults)
  unfold writeOut
  simp only [hadd, hdata, hmanifest, hsync]
  split
  next => rfl
  next => rfl

/-- In a store that works, a manifest whose name is taken is not written. -/
theorem writeOut_of_taken (hadd : s.writeAll add = (.ok (), s1)) (hdata : m.encode = .ok data)
    (hworks : s1.Works) (haccepts : s1.medium.Accepts m.name)
    (htaken : s1.medium.node? m.name ≠ none) (sync : Bool) :
    (writeOut add m sync s).1 = .error (.store (.alreadyExists m.name)) := by
  have hmanifest := Store.write_taken_of_works hworks haccepts htaken data
  unfold writeOut
  simp only [hadd, hdata]
  split
  next err s2 heq =>
    rw [heq] at hmanifest
    rw [Except.error.inj hmanifest]
  next s2 heq =>
    rw [heq] at hmanifest
    cases hmanifest

end Engine

namespace Writer

variable {w w1 : Writer} {c d : Catalog} {m : Manifest} {e : Engine} {changes : Changes}
  {data : Bytes} {s : Store} {waiting names kept : List String} {entries : List (String × Bytes)}

/-- A writer over a catalog that no failure of the store has harmed. -/
structure Intact (w : Writer) (c : Catalog) : Prop where
  continues : w.Continues c
  tallied : c.Tallied
  housed : c.Housed
  /-- Every listed name fits into a manifest. -/
  short : ∀ n, n < c.commits.length → ∀ q ∈ (c.commit n).manifest.files,
    q.utf8ByteSize < UInt16.size
  accepts : ∀ g, (c.store 0).medium.Accepts (Manifest.nameOf g)

/-- Deleted commits may leave the history. -/
theorem Intact.prune (h : w.Intact c) :
    Intact { w with history := c.undeleted w.history } c :=
  ⟨h.continues.prune, h.tallied, h.housed, h.short, h.accepts⟩

/-- Every file of the newest undeleted commit fits into a manifest, if all files of commits do. -/
theorem Continues.short_baseFiles (h : w.Continues c) (hshort : ∀ n, n < c.commits.length →
    ∀ q ∈ (c.commit n).manifest.files, q.utf8ByteSize < UInt16.size) :
    ∀ q ∈ Engine.baseFiles (c.undeleted w.history) c, q.utf8ByteSize < UInt16.size := by
  intro q hq
  unfold Engine.baseFiles at hq
  split at hq
  next => cases hq
  next n hlast =>
    have hn := (List.mem_filter.mp (List.mem_of_getLast? hlast)).1
    exact hshort n (h.range n hn) q hq

/-! ## Deleting -/

theorem Intact.disposed (h : w.Intact c) (hd : Disposed waiting names kept c d)
    (hcontinues : w.Continues d) (hsame : c.SameCommits d) : w.Intact d := by
  refine ⟨hcontinues, hd.tallied, h.housed.disposed hd, fun n hn => ?_, fun g => ?_⟩
  · rw [hsame.manifest]
    exact h.short n (hsame.length ▸ hn)
  · exact (hd.cleared.alike.place.accepts_iff _).mpr (h.accepts g)

theorem Intact.delete (h : w.Intact c) {n : Nat} (hn : n < c.commits.length) :
    w.Intact (c.delete n).2 := by
  obtain ⟨names, kept, hd, -⟩ := h.tallied.delete hn
  exact h.disposed hd (h.continues.prunes (.delete n c)) (Catalog.sameCommits_delete n c)

theorem Intact.retried (h : w.Intact c) : w.Intact c.retried := by
  have hcommits := h.tallied.single.commits_retried
  obtain ⟨kept, hd⟩ := h.tallied.retried
  exact h.disposed hd (h.continues.congr hcommits) (.of_commits hcommits)

/-! ## Writing -/

/-- Whatever is written, nothing that was there changes. -/
theorem Intact.write (h : w.Intact c) (hw : Wrote entries (c.store 0) s) :
    w.Intact (c.setStoreOf 0 s) := by
  have hsingle := h.tallied.single
  refine ⟨h.continues.congr rfl, h.tallied.setStoreOf s, h.housed.write hsingle hw, h.short,
    fun g => ?_⟩
  rw [hsingle.store_setStoreOf]
  exact (hw.alike.place.accepts_iff _).mpr (h.accepts g)

theorem Intact.refuse (h : w.Intact c) (hmedium : s.medium = (c.store 0).medium) :
    w.Intact (c.setStoreOf 0 s) := by
  have hsingle := h.tallied.single
  refine ⟨h.continues.congr rfl, h.tallied.setStoreOf s, h.housed.refuse hsingle hmedium, h.short,
    fun g => ?_⟩
  rw [hsingle.store_setStoreOf, hmedium]
  exact h.accepts g

/-- A commit that has been written joins, and the numbers move on. -/
theorem Intact.join {v : Version} {g : Generation} (h : w.Intact c)
    (hs : Engine.Stages w changes c w1 m data s) (hv : w.nextVersion.next? = some v) :
    Intact { w1 with
      history := w1.history ++ [(c.retried.setStoreOf 0 s).commits.length]
      nextVersion := v
      nextGeneration := g
      lastTimestamp := m.timestamp } ((c.retried.setStoreOf 0 s).adopt 0 m).2 := by
  have hsingle := h.tallied.single
  have hretried := h.retried
  have hwritten := hretried.write hs.wrote
  have hfiles : ∀ q ∈ m.fileNames, q ∈ c.retried.referenced ∨
      q ∈ (changes.add ++ [(m.name, data)]).map Prod.fst :=
    fun q hq => hs.listed_or_written hsingle h.continues.range hq
  have hlength := Catalog.length_adopt 0 m (c.retried.setStoreOf 0 s)
  refine ⟨hs.continues hsingle h.continues hv, hwritten.tallied.adopt ?_,
    hretried.housed.adopt hsingle.retried hs.wrote hfiles, ?_, ?_⟩
  · -- what waits is there, so it has not been written
    rw [hsingle.retried.queue_setStoreOf]
    intro q hq hwaits
    rcases hfiles q hq with hlisted | hmem
    · exact hretried.tallied.loose q hwaits hlisted
    · obtain ⟨⟨bytes, hbytes⟩, -⟩ := hretried.housed q (Or.inr hwaits)
      cases (hs.wrote.free q hmem).1.symm.trans hbytes
  · intro n hn
    rcases Nat.lt_succ_iff_lt_or_eq.mp (hlength ▸ hn) with hn | rfl
    · rw [Catalog.commit_adopt_of_lt hn]
      exact hwritten.short n hn
    · rw [Catalog.commit_adopt_self]
      exact (Manifest.encode_eq_ok_iff.mp hs.encoded).names
  · intro g
    rw [hsingle.retried.store_written]
    exact (hs.wrote.alike.place.accepts_iff _).mpr (hretried.accepts g)

/-! ## Sound changes -/

/-- Sound changes stay sound while deletions are tried again. -/
theorem Intact.sound_retried (h : w.Intact c) {files : List String}
    (hsound : changes.Sound files (c.store 0)) : changes.Sound files (c.retried.store 0) := by
  obtain ⟨kept, hd⟩ := h.tallied.retried
  exact { hsound with
    accepted := fun q hq => (hd.cleared.alike.place.accepts_iff q).mpr (hsound.accepted q hq)
    absent := fun q hq => hd.free (hsound.absent q hq) }

section
variable (h : w.Intact e.catalog) (hworks : (e.catalog.store 0).Works)
  (hsound : changes.Sound (Engine.baseFiles (e.catalog.undeleted w.history) e.catalog)
    (e.catalog.store 0))
include h hworks hsound

/-- In a store that works, everything that sound changes add is written, and the manifest comes next.
-/
theorem Intact.exists_writeAll : ∃ files data s1,
    changes.apply (Engine.baseFiles (e.catalog.retried.undeleted w.history) e.catalog.retried) =
        .ok files ∧
      (Engine.nextManifest w changes.timestamp files).encode = .ok data ∧
        (e.catalog.retried.store 0).writeAll changes.add = (.ok (), s1) := by
  have hretried := h.retried
  have hbase : Engine.baseFiles (e.catalog.retried.undeleted w.history) e.catalog.retried =
      Engine.baseFiles (e.catalog.undeleted w.history) e.catalog :=
    Engine.baseFiles_of_commits h.tallied.single.commits_retried w.history
  have hsound' := h.sound_retried hsound
  rw [hbase]
  -- the files of the newest commit are there, so no added name is one of them
  have hnew : ∀ q ∈ changes.add.map Prod.fst,
      q ∉ Engine.baseFiles (e.catalog.undeleted w.history) e.catalog := by
    intro q hq hmem
    have hlisted := Catalog.mem_referenced_of_mem_baseFiles h.continues.range hmem
    obtain ⟨⟨data, hdata⟩, -⟩ := h.housed q (Or.inl hlisted)
    cases (hsound.absent q hq).symm.trans hdata
  obtain ⟨files, hfiles⟩ := Changes.exists_apply hsound.removedOnce hsound.removed hsound.addedOnce
    hsound.plain hnew
  have hshort : ∀ q ∈ files, q.utf8ByteSize < UInt16.size := by
    intro q hq
    rcases Changes.mem_of_apply hfiles hq with hold | hadded
    · exact h.continues.short_baseFiles h.short q hold
    · exact hsound.short q hadded
  obtain ⟨kept, hd⟩ := h.tallied.retried
  obtain ⟨s1, hadd⟩ := Store.exists_writeAll (hworks.congr hd.cleared.faults) hsound'.addedOnce
    hsound'.accepted hsound'.absent
  exact ⟨files, _, s1, hfiles, Manifest.encode_eq_ok_iff.mpr
    ⟨Nat.le_refl _, hsound.few files hfiles, hshort, rfl⟩, hadd⟩

/-- If the name of the next manifest is free, the commit is written. -/
theorem Intact.stage_of_free
    (hfree : (e.catalog.store 0).medium.node? (Manifest.nameOf w.nextGeneration) = none) :
    ∃ p, (e.stage w changes).1 = .ok p := by
  obtain ⟨files, data, s1, hfiles, hdata, hadd⟩ := h.exists_writeAll hworks hsound
  obtain ⟨kept, hd⟩ := h.tallied.retried
  have hwrote := Store.wrote_writeAll hadd
  have hother := hwrote.other _ (hsound.not_mem_of_nameOf w.nextGeneration)
  have hworks1 := hworks.congr (hwrote.faults.trans hd.cleared.faults)
  have hout := Engine.writeOut_of_free hadd hdata hworks1
    ((hwrote.alike.place.accepts_iff _).mpr (h.retried.accepts _)) (hother.trans (hd.free hfree))
    w.syncOnCommit
  rw [Engine.stage_result h.tallied.single h.continues.depot, hfiles]
  dsimp only
  rw [hout]
  exact ⟨_, rfl⟩

/-- If the name of the next manifest is taken by something that is neither listed nor waits, the
commit fails with that. -/
theorem Intact.stage_of_taken
    (htaken : (e.catalog.store 0).medium.node? (Manifest.nameOf w.nextGeneration) ≠ none)
    (hlisted : Manifest.nameOf w.nextGeneration ∉ e.catalog.referenced)
    (hqueued : Manifest.nameOf w.nextGeneration ∉ (e.catalog.tracker 0).queue) :
    (e.stage w changes).1 =
      .error (.store (.alreadyExists (Manifest.nameOf w.nextGeneration))) := by
  obtain ⟨files, data, s1, hfiles, hdata, hadd⟩ := h.exists_writeAll hworks hsound
  obtain ⟨kept, hd⟩ := h.tallied.retried
  have hwrote := Store.wrote_writeAll hadd
  have hother := hwrote.other _ (hsound.not_mem_of_nameOf w.nextGeneration)
  have hstill := (hd.untouched hlisted hqueued).1
  have hout := Engine.writeOut_of_taken hadd hdata
    (hworks.congr (hwrote.faults.trans hd.cleared.faults))
    ((hwrote.alike.place.accepts_iff _).mpr (h.retried.accepts _))
    (fun hnone => htaken ((hother.trans hstill).symm.trans hnone)) w.syncOnCommit
  rw [Engine.stage_result h.tallied.single h.continues.depot, hfiles]
  dsimp only
  rw [hout]
  rfl

end

end Writer

/-! ## Opening -/

namespace Engine

variable {s s' : Store} {ms : List Manifest} {sync : Bool} {w : Writer} {c : Catalog}

/-- What has been read from manifests fits into one. -/
theorem Swept.short (h : Swept s ms sync w c s') (hms : s.readCommits = .ok ms) :
    ∀ n, n < (c.setStoreOf 0 s').commits.length →
      ∀ q ∈ ((c.setStoreOf 0 s').commit n).manifest.files, q.utf8ByteSize < UInt16.size := by
  intro n hn
  have hn := h.length ▸ hn
  rw [h.commit_eq hn]
  obtain ⟨data, hdata, -, -⟩ := Store.readCommits_node hms _ (List.getElem_mem hn)
  obtain ⟨format, hlaid⟩ := Manifest.decode_eq_ok_iff.mp hdata
  exact hlaid.names

/-- A writer that has loaded its history finds everything that its manifests list. -/
theorem Swept.intact (h : Swept s ms sync w c s') (hms : s.readCommits = .ok ms)
    (hpresent : ∀ m ∈ ms, ∀ name ∈ m.files, s.exists? name = .ok true)
    (haccepts : ∀ g, s.medium.Accepts (Manifest.nameOf g)) : w.Intact (c.setStoreOf 0 s') := by
  have hsingle := h.recounts.tallied.single
  refine ⟨h.continues hms, h.recounts.tallied.setStoreOf s', h.housed hms hpresent, h.short hms,
    fun g => ?_⟩
  rw [hsingle.store_setStoreOf]
  exact (h.cleared.alike.place.accepts_iff _).mpr (haccepts g)

end Engine

end SnapshotRetention
