import SnapshotRetention.Proofs.Catalog.Tidy
import SnapshotRetention.Proofs.Keeper.Prunes
import SnapshotRetention.Proofs.Writer.Run

/-!
# What a commit writes

A commit that reaches the policy has written the files it adds and its manifest, and nothing else,
over the catalog whose queued deletions have been tried again (`Engine.Stages`). From then on
commits are only deleted (`act_commit_prunes`). A commit that is turned down has written some of the
files it adds, under names that are not reserved, or else everything, and then it was only not
synchronised (`Engine.Unsynced`, `exists_wrote_of_stage_error`).
-/

namespace SnapshotRetention

open Store (Wrote)
open Catalog (Prunes)

namespace Catalog

variable {c : Catalog}

/-- The store may take its own place. -/
theorem Single.setStoreOf_store (h : c.Single) : c.setStoreOf 0 (c.store 0) = c := by
  obtain ⟨s, hs⟩ := h.stores
  rw [h.setStoreOf_eq]
  obtain ⟨stores, depots, commits⟩ := c
  cases hs
  rfl

/-- Every file of the newest undeleted commit of a history is listed. -/
theorem mem_referenced_of_mem_baseFiles {history : List Nat}
    (hrange : ∀ n ∈ history, n < c.commits.length) {name : String}
    (hname : name ∈ Engine.baseFiles (c.undeleted history) c) : name ∈ c.referenced := by
  unfold Engine.baseFiles at hname
  split at hname
  next => exact absurd hname List.not_mem_nil
  next n hlast =>
    obtain ⟨hn, hkept⟩ := List.mem_filter.mp (List.mem_of_getLast? hlast)
    have hkept : c.isDeleted n = false := by simpa using hkept
    exact mem_referenced (hrange n hn) hkept (List.mem_append_left _ hname)

end Catalog

namespace Engine

variable {e e1 : Engine} {w w1 : Writer} {m : Manifest} {changes : Changes} {s s' : Store}
  {add : List (String × Bytes)} {sync : Bool} {data : Bytes} {bound : Nat} {d : Decider}

theorem baseFiles_of_commits {c d : Catalog} (hcommits : d.commits = c.commits)
    (history : List Nat) : baseFiles (d.undeleted history) d = baseFiles (c.undeleted history) c := by
  unfold baseFiles Catalog.undeleted Catalog.isDeleted Catalog.commit
  rw [hcommits]

/-! ## Writing out -/

/-- The added artifacts and the manifest have been written. -/
theorem exists_wrote_of_writeOut (h : writeOut add m sync s = (.ok (), s')) :
    ∃ data, m.encode = .ok data ∧ Wrote (add ++ [(m.name, data)]) s s' := by
  unfold writeOut at h
  split at h
  next => cases (Prod.mk.inj h).1
  next s1 hadd =>
    split at h
    next => cases (Prod.mk.inj h).1
    next data hdata =>
      split at h
      next => cases (Prod.mk.inj h).1
      next s2 hmanifest =>
        have hboth := (Store.wrote_writeAll hadd).append (Store.wrote_write hmanifest)
        refine ⟨data, hdata, ?_⟩
        split at h
        next =>
          have hsync := Store.wrote_sync s2
          split at h
          next => cases (Prod.mk.inj h).1
          next s3 heq =>
            obtain ⟨-, rfl⟩ := Prod.mk.inj h
            rw [heq] at hsync
            have hall := hboth.append hsync
            rwa [List.append_nil] at hall
        next =>
          obtain ⟨-, rfl⟩ := Prod.mk.inj h
          exact hboth

/-- If anything fails, some of the added artifacts are written, or else all of them and the manifest
and only the synchronisation was refused. -/
theorem exists_wrote_of_writeOut_error {err : Error}
    (h : writeOut add m sync s = (.error err, s')) :
    ((writeOut add m false s).1 = .error err ∧ ∃ written, written <+: add ∧ Wrote written s s') ∨
      (writeOut add m false s).1 = .ok () ∧ s.RefusesSync ∧
        ∃ data, m.encode = .ok data ∧ Wrote (add ++ [(m.name, data)]) s s' := by
  unfold writeOut at h ⊢
  split at h
  next e s1 hadd =>
    obtain ⟨herr, rfl⟩ := Prod.mk.inj h
    exact Or.inl ⟨herr, Store.exists_wrote_of_error hadd⟩
  next s1 hadd =>
    have hwrote := Store.wrote_writeAll hadd
    split at h
    next =>
      obtain ⟨herr, rfl⟩ := Prod.mk.inj h
      exact Or.inl ⟨herr, add, List.prefix_refl _, hwrote⟩
    next data hdata =>
      split at h
      next e s2 hmanifest =>
        obtain ⟨herr, rfl⟩ := Prod.mk.inj h
        have hall := hwrote.append (Store.wrote_write_error hmanifest)
        rw [List.append_nil] at hall
        exact Or.inl ⟨herr, add, List.prefix_refl _, hall⟩
      next s2 hmanifest =>
        have hboth := hwrote.append (Store.wrote_write hmanifest)
        have hsync := Store.wrote_sync s2
        split at h
        next =>
          split at h
          next e s3 heq =>
            obtain ⟨-, rfl⟩ := Prod.mk.inj h
            rw [heq] at hsync
            have hall := hboth.append hsync
            rw [List.append_nil] at hall
            refine Or.inr ⟨?_, (Store.refusesSync_of_error heq).congr hboth.faults.symm, data, hdata,
              hall⟩
            rfl
          next => cases (Prod.mk.inj h).1
        next => cases (Prod.mk.inj h).1

/-! ## Staging -/

/-- What a commit that is not turned down writes over a catalog. -/
structure Stages (w : Writer) (changes : Changes) (c : Catalog) (w1 : Writer) (m : Manifest)
    (data : Bytes) (s : Store) : Prop where
  writer : w1 = { w with history := c.retried.undeleted w.history }
  manifest : ∃ files, changes.apply (baseFiles w1.history c.retried) = .ok files ∧
    m = nextManifest w1 changes.timestamp files
  encoded : m.encode = .ok data
  wrote : Wrote (changes.add ++ [(m.name, data)]) (c.retried.store 0) s

theorem prepare_eq (hdepot : w.depot = 0) : e.prepare w =
    ({ w with history := e.catalog.retried.undeleted w.history },
      { e with
        keeper := { e.keeper with catalog := e.catalog.retried }
        writer := some { w with history := e.catalog.retried.undeleted w.history } }) := by
  unfold prepare
  rw [hdepot]
  rfl

theorem catalog_prepare (hdepot : w.depot = 0) : (e.prepare w).2.catalog = e.catalog.retried :=
  congrArg (fun p => p.2.catalog) (prepare_eq hdepot)

/-- The engine after an attempt to write a commit that left a store behind. -/
def writtenTo (w : Writer) (s : Store) (e : Engine) : Engine :=
  { e with
    keeper := { e.keeper with catalog := e.catalog.retried.setStoreOf 0 s }
    writer := some { w with history := e.catalog.retried.undeleted w.history } }

/-- Writing a commit: the changes are checked against the history that is left, then everything is
written out. -/
theorem stage_eq (hsingle : e.catalog.Single) (hdepot : w.depot = 0) (changes : Changes) :
    e.stage w changes =
      match changes.apply (baseFiles (e.catalog.retried.undeleted w.history) e.catalog.retried) with
      | .error cause => (.error (.misuse cause), e.writtenTo w (e.catalog.retried.store 0))
      | .ok files =>
        match writeOut changes.add (nextManifest w changes.timestamp files) w.syncOnCommit
          (e.catalog.retried.store 0) with
        | (.error err, s) => (.error err, e.writtenTo w s)
        | (.ok (), s) => (.ok ({ w with history := e.catalog.retried.undeleted w.history },
            nextManifest w changes.timestamp files), e.writtenTo w s) := by
  have hdepot' : (e.prepare w).1.depot = 0 := hdepot
  unfold stage writtenTo
  dsimp only
  rw [catalog_prepare hdepot, hdepot', hsingle.retried.storeOf_eq, prepare_eq hdepot]
  dsimp only
  cases changes.apply (baseFiles (e.catalog.retried.undeleted w.history) e.catalog.retried) with
  | error cause =>
    dsimp only
    rw [hsingle.retried.setStoreOf_store]
  | ok files =>
    dsimp only
    rw [show nextManifest { w with history := e.catalog.retried.undeleted w.history }
      changes.timestamp files = nextManifest w changes.timestamp files from rfl]
    cases writeOut changes.add (nextManifest w changes.timestamp files) w.syncOnCommit
      (e.catalog.retried.store 0) with
    | mk written s =>
      cases written with
      | error err => rfl
      | ok _ => rfl

theorem stages_of_stage (hsingle : e.catalog.Single) (hdepot : w.depot = 0)
    (h : e.stage w changes = (.ok (w1, m), e1)) :
    ∃ data s, Stages w changes e.catalog w1 m data s ∧
      e1 = { e with
        keeper := { e.keeper with catalog := e.catalog.retried.setStoreOf 0 s }
        writer := some w1 } := by
  rw [stage_eq hsingle hdepot] at h
  split at h
  next => cases (Prod.mk.inj h).1
  next files hfiles =>
    split at h
    next => cases (Prod.mk.inj h).1
    next s hwritten =>
      obtain ⟨hok, rfl⟩ := Prod.mk.inj h
      obtain ⟨rfl, rfl⟩ := Prod.mk.inj (Except.ok.inj hok)
      obtain ⟨data, hdata, hwrote⟩ := exists_wrote_of_writeOut hwritten
      exact ⟨data, s, ⟨rfl, ⟨files, hfiles, rfl⟩, hdata, hwrote⟩, rfl⟩

/-- Whether a commit is turned down depends on the changes and on what can be written. -/
theorem stage_result (hsingle : e.catalog.Single) (hdepot : w.depot = 0) (changes : Changes) :
    (e.stage w changes).1 =
      match changes.apply (baseFiles (e.catalog.retried.undeleted w.history) e.catalog.retried) with
      | .error cause => .error (.misuse cause)
      | .ok files =>
        match (writeOut changes.add (nextManifest w changes.timestamp files) w.syncOnCommit
          (e.catalog.retried.store 0)).1 with
        | .error err => .error err
        | .ok () => .ok ({ w with history := e.catalog.retried.undeleted w.history },
            nextManifest w changes.timestamp files) := by
  rw [stage_eq hsingle hdepot]
  cases changes.apply (baseFiles (e.catalog.retried.undeleted w.history) e.catalog.retried) with
  | error cause => rfl
  | ok files =>
    dsimp only
    cases writeOut changes.add (nextManifest w changes.timestamp files) w.syncOnCommit
      (e.catalog.retried.store 0) with
    | mk written s =>
      cases written with
      | error err => rfl
      | ok _ => rfl

/-- A commit that is turned down although it would go through if it were not synchronised: its
manifest has been written by then. -/
def Unsynced (w : Writer) (changes : Changes) (e : Engine) : Prop :=
  (∃ err, (e.stage w changes).1 = .error err) ∧
    ∃ p, (e.stage { w with syncOnCommit := false } changes).1 = .ok p

/-- What is decided afterwards has no part in it. -/
theorem unsynced_withDecider (hsingle : e.catalog.Single) (hdepot : w.depot = 0) (d : Decider) :
    { e with decider := d }.Unsynced w changes ↔ e.Unsynced w changes := by
  have hsame : ∀ w : Writer, w.depot = 0 →
      ({ e with decider := d }.stage w changes).1 = (e.stage w changes).1 := fun w hdepot =>
    (stage_result (e := { e with decider := d }) hsingle hdepot changes).trans
      (stage_result hsingle hdepot changes).symm
  unfold Unsynced
  rw [hsame w hdepot, hsame { w with syncOnCommit := false } hdepot]

/-- A commit that is turned down has written some of the files that it adds, or else all that it
writes, and then only the synchronisation was refused. -/
theorem exists_wrote_of_stage_error {err : Error} (hsingle : e.catalog.Single)
    (hdepot : w.depot = 0) (h : e.stage w changes = (.error err, e1)) :
    ∃ s, e1 = { e with
        keeper := { e.keeper with catalog := e.catalog.retried.setStoreOf 0 s }
        writer := some { w with history := e.catalog.retried.undeleted w.history } } ∧
      ((¬e.Unsynced w changes ∧ ∃ written, Wrote written (e.catalog.retried.store 0) s ∧
          ∀ q ∈ written.map Prod.fst, Manifest.isReserved q = false) ∨
        e.Unsynced w changes ∧ (e.catalog.retried.store 0).RefusesSync ∧
          ∃ w1 m data, Stages w changes e.catalog w1 m data s) := by
  have hfailed : (e.stage w changes).1 = .error err := congrArg Prod.fst h
  have hunsynced :=
    stage_result (e := e) (w := { w with syncOnCommit := false }) hsingle hdepot changes
  rw [stage_eq hsingle hdepot] at h
  split at h
  next cause hcause =>
    obtain ⟨-, rfl⟩ := Prod.mk.inj h
    rw [hcause] at hunsynced
    refine ⟨_, rfl, Or.inl ⟨?_, [], .nil rfl rfl rfl, fun q hq => absurd hq List.not_mem_nil⟩⟩
    rintro ⟨-, p, hp⟩
    cases hunsynced.symm.trans hp
  next files hfiles =>
    have hmanifest : nextManifest { w with syncOnCommit := false } changes.timestamp files =
        nextManifest w changes.timestamp files := rfl
    rw [hfiles] at hunsynced
    dsimp only at hunsynced
    rw [hmanifest] at hunsynced
    split at h
    next err' s hwritten =>
      obtain ⟨-, rfl⟩ := Prod.mk.inj h
      refine ⟨s, rfl, ?_⟩
      rcases exists_wrote_of_writeOut_error hwritten with
        ⟨herr, written, hbegins, hwrote⟩ | ⟨hok, hrefuses, data, hdata, hwrote⟩
      · refine Or.inl ⟨?_, written, hwrote, fun q hq => ?_⟩
        · rintro ⟨-, p, hp⟩
          rw [herr] at hunsynced
          cases hunsynced.symm.trans hp
        · exact Changes.isReserved_of_added hfiles (List.map_subset Prod.fst hbegins.subset hq)
      · refine Or.inr ⟨⟨⟨err, hfailed⟩, ?_⟩, hrefuses, _, _, data, rfl, ⟨files, hfiles, rfl⟩,
          hdata, hwrote⟩
        rw [hok] at hunsynced
        exact ⟨_, hunsynced⟩
    next => cases (Prod.mk.inj h).1

section
variable {c : Catalog} (h : Stages w changes c w1 m data s)
include h

theorem Stages.depot : w1.depot = w.depot := by rw [h.writer]

theorem Stages.nextVersion : w1.nextVersion = w.nextVersion := by rw [h.writer]

theorem Stages.nextGeneration : w1.nextGeneration = w.nextGeneration := by rw [h.writer]

/-- The new commit has the next numbers of the writer. -/
theorem Stages.numbers : m.version = w.nextVersion ∧ m.generation = w.nextGeneration := by
  obtain ⟨files, -, rfl⟩ := h.manifest
  exact ⟨h.nextVersion, h.nextGeneration⟩

/-- The name of the manifest was free. -/
theorem Stages.free :
    (c.retried.store 0).medium.node? (Manifest.nameOf w.nextGeneration) = none := by
  have hmem : m.name ∈ (changes.add ++ [(m.name, data)]).map Prod.fst := by
    rw [List.map_append]
    exact List.mem_append_right _ (List.mem_singleton.mpr rfl)
  rw [← h.numbers.2]
  exact (h.wrote.free m.name hmem).1

/-- All that is written belongs to the commit. -/
theorem Stages.mem_fileNames {q : String}
    (hq : q ∈ (changes.add ++ [(m.name, data)]).map Prod.fst) : q ∈ m.fileNames := by
  obtain ⟨files, hfiles, hm⟩ := h.manifest
  rw [List.map_append] at hq
  unfold Manifest.fileNames
  rcases List.mem_append.mp hq with hq | hq
  · refine List.mem_append_left _ ?_
    rw [hm]
    exact Changes.mem_of_added hfiles hq
  · exact List.mem_append_right _ hq

/-- Of all that is written only the manifest has a reserved name. -/
theorem Stages.eq_name_of_reserved {q : String}
    (hq : q ∈ (changes.add ++ [(m.name, data)]).map Prod.fst)
    (hreserved : Manifest.isReserved q = true) : q = m.name := by
  obtain ⟨files, hfiles, -⟩ := h.manifest
  rw [List.map_append] at hq
  refine List.mem_singleton.mp ((List.mem_append.mp hq).resolve_left fun hadd => ?_)
  rw [Changes.isReserved_of_added hfiles hadd] at hreserved
  cases hreserved

/-- The rest of the commit is listed already. -/
theorem Stages.listed_or_written (hsingle : c.Single)
    (hrange : ∀ n ∈ w.history, n < c.commits.length) {q : String} (hq : q ∈ m.fileNames) :
    q ∈ c.retried.referenced ∨ q ∈ (changes.add ++ [(m.name, data)]).map Prod.fst := by
  obtain ⟨files, hfiles, hm⟩ := h.manifest
  rw [List.map_append]
  rcases List.mem_append.mp hq with hfile | hself
  · rw [hm] at hfile
    rcases Changes.mem_of_apply hfiles hfile with hbase | hadd
    · rw [h.writer] at hbase
      refine Or.inl (Catalog.mem_referenced_of_mem_baseFiles ?_ hbase)
      rw [hsingle.commits_retried]
      exact hrange
    · exact Or.inr (List.mem_append_left _ hadd)
  · exact Or.inr (List.mem_append_right _ hself)

/-- A commit that has been written joins, and the writer goes on with the numbers that follow. -/
theorem Stages.continues (hsingle : c.Single) (hw : w.Continues c) {v : Version} {g : Generation}
    (hv : w.nextVersion.next? = some v) :
    Writer.Continues { w1 with
      history := w1.history ++ [(c.retried.setStoreOf 0 s).commits.length]
      nextVersion := v
      nextGeneration := g
      lastTimestamp := m.timestamp } ((c.retried.setStoreOf 0 s).adopt 0 m).2 := by
  have hcommits : (c.retried.setStoreOf 0 s).commits = c.commits := hsingle.commits_retried
  have hcontinues : w1.Continues (c.retried.setStoreOf 0 s) := by
    rw [h.writer]
    exact (hw.congr hcommits).prune
  obtain ⟨hversion, -⟩ := h.numbers
  refine hcontinues.adopt (hversion.trans h.nextVersion.symm) ?_ (h.depot.trans hw.depot) rfl
  rw [hversion]
  exact Version.lt_of_next? hv

end

/-! ## Registering -/

theorem carryOutBare_prunes (commits : List Nat) (r : Request) (c : Catalog) :
    Prunes c (carryOutBare commits r c).2 := by
  unfold carryOutBare
  split
  next =>
    split
    next => exact .refl c
    next n _ => exact .delete n c
  next =>
    split
    next => exact .refl c
    next n _ => exact .delete n c
  all_goals exact .refl c

theorem carryOutAllBare_prunes (commits : List Nat) (requests : List Request) (c : Catalog) :
    Prunes c (carryOutAllBare commits requests c).2 := by
  induction requests generalizing c with
  | nil => exact .refl c
  | cons r rest ih =>
    have hr := carryOutBare_prunes commits r c
    unfold carryOutAllBare
    split
    next e c1 heq =>
      rw [heq] at hr
      exact hr
    next c1 heq =>
      rw [heq] at hr
      exact hr.trans (ih c1)

/-- Whoever decides about commits, they are only deleted. -/
theorem decide_prunes (commits : List Nat) (e : Engine) :
    Prunes e.catalog (e.decide commits).2.catalog := by
  unfold decide
  dsimp only
  split
  next => exact Keeper.cycle_prunes commits _ e.keeper
  next => exact carryOutAllBare_prunes commits _ e.catalog

/-- Once a commit is registered, commits are only deleted. -/
theorem register_prunes_withCommit :
    Prunes (e.withCommit w m).catalog (e.register w m).2.catalog := by
  cases hadvance : advance { w with history := w.history ++ [e.catalog.commits.length] }
      m.timestamp with
  | none =>
    rw [register_of_none hadvance]
    exact .refl _
  | some w1 =>
    rw [register_of_advance hadvance]
    exact decide_prunes w1.history (e.withCommit w m)

theorem register_prunes (hdepot : w.depot = 0) :
    Prunes (e.catalog.adopt 0 m).2 (e.register w m).2.catalog := by
  rw [← hdepot]
  exact register_prunes_withCommit

/-- The numbers move on once a commit is registered, unless one of them is at its end. -/
theorem register_writer {v : Version} {g : Generation} (hv : w.nextVersion.next? = some v)
    (hg : w.nextGeneration.next? = some g) : (e.register w m).2.writer = some
      { w with
        history := (e.register w m).2.catalog.undeleted (w.history ++ [e.catalog.commits.length])
        nextVersion := v
        nextGeneration := g
        lastTimestamp := m.timestamp } := by
  have hadvance : advance { w with history := w.history ++ [e.catalog.commits.length] }
      m.timestamp = some { w with
        history := w.history ++ [e.catalog.commits.length]
        nextVersion := v
        nextGeneration := g
        lastTimestamp := m.timestamp } := by
    unfold advance
    simp only [hv, hg]
  rw [register_of_advance hadvance]
  rfl

/-- What is kept if a commit is turned down, if it joins once it is written, and if commits are
deleted, each commit keeps whose numbers can be followed, whatever the policy says. -/
theorem commitWith_induct {P : Writer → Catalog → Prop} {v : Version} {g : Generation}
    (hsingle : e.catalog.Single) (hdepot : w.depot = 0) (hv : w.nextVersion.next? = some v)
    (hg : w.nextGeneration.next? = some g)
    (hrejected : ∀ err e1, e.stage w changes = (.error err, e1) →
      ∃ w', e1.writer = some w' ∧ P w' e1.catalog)
    (hjoined : ∀ w1 m data s, Stages w changes e.catalog w1 m data s →
      P { w1 with
        history := w1.history ++ [(e.catalog.retried.setStoreOf 0 s).commits.length]
        nextVersion := v
        nextGeneration := g
        lastTimestamp := m.timestamp } ((e.catalog.retried.setStoreOf 0 s).adopt 0 m).2)
    (hpruned : ∀ w c d, Prunes c d → P w c → P { w with history := d.undeleted w.history } d) :
    ∃ w', (e.commitWith w changes).2.writer = some w' ∧
      P w' (e.commitWith w changes).2.catalog := by
  rcases e.commitWith_cases w changes with ⟨err, e1, hstage, heq⟩ | ⟨w1, m, e1, hstage, heq⟩
  · rw [heq]
    exact hrejected err e1 hstage
  · obtain ⟨data, s, hs, he1⟩ := stages_of_stage hsingle hdepot hstage
    have hcatalog : e1.catalog = e.catalog.retried.setStoreOf 0 s := by
      rw [he1]
      rfl
    have hprunes := register_prunes (e := e1) (m := m) (hs.depot.trans hdepot)
    have hwriter := register_writer (e := e1) (m := m) (hs.nextVersion ▸ hv)
      (hs.nextGeneration ▸ hg)
    have hjoin := hjoined w1 m data s hs
    rw [← hcatalog] at hjoin
    rw [heq]
    exact ⟨_, hwriter, hpruned _ _ _ hprunes hjoin⟩

/-- A commit that reaches the policy has been written, and from then on commits are only deleted.
-/
theorem act_commit_prunes (h : Running bound e) (hne : e.shows (.commit d changes) ≠ []) :
    ∃ w w1 m data s, e.writer = some w ∧ w.Fits e.keeper ∧
      Stages w changes e.catalog w1 m data s ∧
      Prunes ((e.catalog.retried.setStoreOf 0 s).adopt 0 m).2
        (e.act (.commit d changes)).catalog := by
  cases hw : e.writer with
  | none => exact absurd (act_commit_of_none d changes hw).1 hne
  | some w =>
    obtain ⟨hshows, hact⟩ := act_commit_of_some d changes hw
    rw [hshows] at hne
    have hsingle := h.safe.backed.single
    have hdepot := h.depot hw
    unfold committed at hne
    rcases commitWith_cases w changes { e with decider := d } with
      ⟨err, e1, hstage, -⟩ | ⟨w1, m, e1, hstage, hcommit⟩
    · rw [hstage] at hne
      exact absurd rfl hne
    · obtain ⟨data, s, hstages, rfl⟩ :=
        stages_of_stage (e := { e with decider := d }) hsingle hdepot hstage
      refine ⟨w, w1, m, data, s, rfl, ?_, hstages, ?_⟩
      · refine ((h.writer w hw).resolve_right fun hstuck => ?_).1
        exact stage_of_stuck (e := { e with decider := d }) hstuck hstage
      · rw [hact, hcommit]
        refine register_prunes ?_
        rw [hstages.writer]
        exact hdepot

end Engine

end SnapshotRetention
