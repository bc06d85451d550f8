import SnapshotRetention.Proofs.Writer.Changes
import SnapshotRetention.Proofs.Writer.Fits
import SnapshotRetention.Writer.Commit

/-!
# One commit

A commit is written and then registered. Writing (`Engine.stage`) retries deletions, checks the
changes and writes artifacts, and may fail at any point; whatever happens, only the store, the
tracker and the history of the writer change (`Staged`), and nothing is taken away. If it does not
fail, everything that the new manifest lists is in the store, and the name of the manifest was free
(`Written`).

A commit that is registered joins the history. The policy is called unless the numbers are at their
end, and an attempt to commit shows to it exactly what it is called with (`commitShows`).
-/

namespace SnapshotRetention

open Keeper

namespace Engine

variable {e : Engine} {w w1 : Writer} {s s' : Store} {add : List (String × Bytes)} {m : Manifest}
  {sync : Bool}

theorem commits_of_writer (hw : e.writer = some w) : e.commits = e.catalog.undeleted w.history := by
  unfold commits
  rw [hw]

/-- The part of a commit before the manifest that it writes is registered. -/
def stage (w : Writer) (changes : Changes) (e : Engine) :
    Except Error (Writer × Manifest) × Engine :=
  let (w, e) := e.prepare w
  match changes.apply (baseFiles w.history e.catalog) with
  | .error cause => (.error (.misuse cause), e)
  | .ok files =>
    let m := nextManifest w changes.timestamp files
    let (written, s) := writeOut changes.add m w.syncOnCommit (e.catalog.storeOf w.depot)
    let e := e.setCatalog (e.catalog.setStoreOf w.depot s)
    match written with
    | .error err => (.error err, e)
    | .ok () => (.ok (w, m), e)

/-- A commit that cannot be written ends there, and one that is written is registered. -/
theorem commitWith_cases (w : Writer) (changes : Changes) (e : Engine) :
    (∃ err e1, e.stage w changes = (.error err, e1) ∧ e.commitWith w changes = (.error err, e1)) ∨
      ∃ w1 m e1, e.stage w changes = (.ok (w1, m), e1) ∧
        e.commitWith w changes = e1.register w1 m := by
  unfold stage commitWith
  generalize e.prepare w = prepared
  obtain ⟨w1, e1⟩ := prepared
  dsimp only
  cases changes.apply (baseFiles w1.history e1.catalog) with
  | error cause => exact Or.inl ⟨_, _, rfl, rfl⟩
  | ok files =>
    dsimp only
    cases (writeOut changes.add (nextManifest w1 changes.timestamp files) w1.syncOnCommit
      (e1.catalog.storeOf w1.depot)).1 with
    | error err => exact Or.inl ⟨_, _, rfl, rfl⟩
    | ok _ => exact Or.inr ⟨_, _, _, rfl, rfl⟩

theorem commitWith_of_error {changes : Changes} {err : Error} {e1 : Engine}
    (h : e.stage w changes = (.error err, e1)) : e.commitWith w changes = (.error err, e1) := by
  rcases e.commitWith_cases w changes with ⟨err', e2, hstage, heq⟩ | ⟨w1, m, e2, hstage, -⟩
  · obtain ⟨herr, rfl⟩ := Prod.mk.inj (hstage.symm.trans h)
    rw [heq, Except.error.inj herr]
  · cases (Prod.mk.inj (hstage.symm.trans h)).1

theorem commitWith_of_ok {changes : Changes} {w1 : Writer} {e1 : Engine}
    (h : e.stage w changes = (.ok (w1, m), e1)) : e.commitWith w changes = e1.register w1 m := by
  rcases e.commitWith_cases w changes with ⟨err, e2, hstage, -⟩ | ⟨w2, m2, e2, hstage, heq⟩
  · cases (Prod.mk.inj (hstage.symm.trans h)).1
  · obtain ⟨hok, rfl⟩ := Prod.mk.inj (hstage.symm.trans h)
    obtain ⟨rfl, rfl⟩ := Prod.mk.inj (Except.ok.inj hok)
    exact heq

theorem commit?_of_writer (hw : e.writer = some w) (changes : Changes) : e.commit? changes =
    (some (e.commitWith w changes).1, (e.commitWith w changes).2) := by
  unfold commit?
  rw [hw]

/-- A commit that succeeds has been written and registered. -/
theorem register_of_commit? {changes : Changes} {n : Nat} {e' : Engine} (hw : e.writer = some w)
    (h : e.commit? changes = (some (.ok n), e')) :
    ∃ w1 m e1, e.stage w changes = (.ok (w1, m), e1) ∧ e1.register w1 m = (.ok n, e') := by
  have hcommit : e.commitWith w changes = (.ok n, e') := by
    rw [commit?_of_writer hw] at h
    obtain ⟨hok, rfl⟩ := Prod.mk.inj h
    exact Prod.ext (Option.some.inj hok) rfl
  rcases e.commitWith_cases w changes with ⟨err, e1, -, heq⟩ | ⟨w1, m, e1, hstage, heq⟩
  · cases (Prod.mk.inj (heq.symm.trans hcommit)).1
  · exact ⟨w1, m, e1, hstage, heq.symm.trans hcommit⟩

/-! ## Registering -/

/-- The engine once a commit has joined the history, when the policy decides. -/
def withCommit (w : Writer) (m : Manifest) (e : Engine) : Engine :=
  e.setCatalog (e.catalog.adopt w.depot m).2

/-- A commit whose numbers cannot be followed joins the history, but the policy is not called. -/
theorem register_of_none
    (hnone : advance { w with history := w.history ++ [e.catalog.commits.length] } m.timestamp =
      none) :
    e.register w m = (.error .counterOverflow, { e.withCommit w m with
      writer := some { w with history := w.history ++ [e.catalog.commits.length] } }) := by
  have hadopt : (e.onCatalog fun c => c.adopt w.depot m) =
      (e.catalog.commits.length, e.withCommit w m) := rfl
  unfold register
  rw [hadopt]
  dsimp only
  rw [hnone]

/-- Any other commit is decided about by the policy, whose error is that of the commit. -/
theorem register_of_advance
    (hsome : advance { w with history := w.history ++ [e.catalog.commits.length] } m.timestamp =
      some w1) :
    e.register w m =
      (((e.withCommit w m).decide w1.history).1.map fun _ => e.catalog.commits.length,
        { ((e.withCommit w m).decide w1.history).2 with
          writer := some { w1 with
            history :=
              ((e.withCommit w m).decide w1.history).2.catalog.undeleted w1.history } }) := by
  have hadopt : (e.onCatalog fun c => c.adopt w.depot m) =
      (e.catalog.commits.length, e.withCommit w m) := rfl
  unfold register
  rw [hadopt]
  dsimp only
  rw [hsome]
  dsimp only
  cases ((e.withCommit w m).decide w1.history).1 with
  | error err => rfl
  | ok _ => rfl

/-- The commits that registering a manifest shows to the policy. -/
def registered (w : Writer) (m : Manifest) (e : Engine) : List Nat :=
  match advance { w with history := w.history ++ [e.catalog.commits.length] } m.timestamp with
  | none => []
  | some w => w.history

/-- The commits that an attempt to commit shows to the policy. -/
def committed (w : Writer) (changes : Changes) (e : Engine) : List Nat :=
  match e.stage w changes with
  | (.error _, _) => []
  | (.ok (w, m), e) => e.registered w m

/-- What a commit shows to the policy, and what comes of it. The policy is called at most once, when
everything has been written and the commit has joined the history, and with what it is shown. -/
inductive CommitShows (w : Writer) (changes : Changes) (e : Engine) :
    List Nat → Except Error Nat × Engine → Prop where
  /-- The commit is not written. -/
  | rejected {err : Error} {e1 : Engine} (hstage : e.stage w changes = (.error err, e1)) :
    CommitShows w changes e [] (.error err, e1)
  /-- The commit is written, but its numbers cannot be followed. -/
  | overflow {w1 : Writer} {m : Manifest} {e1 : Engine}
    (hstage : e.stage w changes = (.ok (w1, m), e1))
    (hnone : advance { w1 with history := w1.history ++ [e1.catalog.commits.length] }
      m.timestamp = none) :
    CommitShows w changes e [] (.error .counterOverflow, { e1.withCommit w1 m with
      writer := some { w1 with history := w1.history ++ [e1.catalog.commits.length] } })
  /-- The policy decides about the commit, which succeeds if the policy does. -/
  | decided {w1 w2 : Writer} {m : Manifest} {e1 : Engine}
    (hstage : e.stage w changes = (.ok (w1, m), e1))
    (hsome : advance { w1 with history := w1.history ++ [e1.catalog.commits.length] }
      m.timestamp = some w2) :
    CommitShows w changes e w2.history
      (((e1.withCommit w1 m).decide w2.history).1.map fun _ => e1.catalog.commits.length,
        { ((e1.withCommit w1 m).decide w2.history).2 with
          writer := some { w2 with
            history := ((e1.withCommit w1 m).decide w2.history).2.catalog.undeleted w2.history } })

/-- An attempt to commit shows to the policy exactly what that is called with. -/
theorem commitShows (w : Writer) (changes : Changes) (e : Engine) :
    CommitShows w changes e (e.committed w changes) (e.commitWith w changes) := by
  unfold committed
  rcases e.commitWith_cases w changes with ⟨err, e1, hstage, heq⟩ | ⟨w1, m, e1, hstage, heq⟩
  · rw [hstage, heq]
    exact .rejected hstage
  · rw [hstage, heq]
    show CommitShows w changes e (e1.registered w1 m) _
    unfold registered
    split
    next hnone =>
      rw [register_of_none hnone]
      exact .overflow hstage hnone
    next w2 hsome =>
      rw [register_of_advance hsome]
      exact .decided hstage hsome

/-! ## Writing -/

theorem writeOut_holds (add : List (String × Bytes)) (m : Manifest) (sync : Bool) (s : Store) :
    s.Holds (writeOut add m sync s).2 := by
  have hadd := Store.Holds.writeAll add s
  unfold writeOut
  split
  next e s' hw =>
    rw [hw] at hadd
    exact hadd
  next s' hw =>
    rw [hw] at hadd
    split
    next => exact hadd
    next data _ =>
      have hmanifest := Store.Holds.write m.name data s'
      split
      next e s'' hw' =>
        rw [hw'] at hmanifest
        exact hadd.trans hmanifest
      next s'' hw' =>
        rw [hw'] at hmanifest
        have hboth := hadd.trans hmanifest
        have hsync : s.Holds s''.sync.2 :=
          hboth.trans (Store.Holds.congr fun q => Store.data?_sync s'' q)
        split
        next =>
          split
          next e s3 heq =>
            rw [heq] at hsync
            exact hsync
          next s3 heq =>
            rw [heq] at hsync
            exact hsync
        next => exact hboth

/-- What was written is in the store, and the manifest was not there before. -/
theorem writeOut_ok (h : writeOut add m sync s = (.ok (), s')) :
    (∀ name ∈ add.map Prod.fst, (s'.data? name).isSome) ∧ (s'.data? m.name).isSome ∧
      s.data? m.name = none := by
  unfold writeOut at h
  split at h
  next => cases (Prod.mk.inj h).1
  next s1 hw =>
    split at h
    next => cases (Prod.mk.inj h).1
    next data _ =>
      split at h
      next => cases (Prod.mk.inj h).1
      next s2 hw' =>
        -- a sync changes nothing, whether there is one or not
        have hsame : ∀ q, s'.data? q = s2.data? q := by
          have hsync := Store.data?_sync s2
          split at h
          next =>
            split at h
            next => cases (Prod.mk.inj h).1
            next s3 heq =>
              obtain ⟨-, rfl⟩ := Prod.mk.inj h
              rw [heq] at hsync
              exact hsync
          next =>
            obtain ⟨-, rfl⟩ := Prod.mk.inj h
            exact fun q => rfl
        obtain ⟨hfree, hafter⟩ := Store.write_ok hw'
        refine ⟨?_, ?_, ?_⟩
        · intro name hname
          obtain ⟨d, hd⟩ := Option.isSome_iff_exists.mp (Store.writeAll_ok hw hname)
          have hkeeps := Store.Holds.write m.name data s1
          rw [hw'] at hkeeps
          rw [hsame, hkeeps name d hd]
          rfl
        · rw [hsame, hafter, if_pos rfl]
          rfl
        · -- a name that is free after the artifacts were written was free before
          cases hbefore : s.data? m.name with
          | none => rfl
          | some old =>
            have hadd := Store.Holds.writeAll add s m.name old hbefore
            rw [hw, hfree] at hadd
            cases hadd

/-- What the writing part of a commit leaves, whether it fails or not. -/
structure Staged (w : Writer) (e e1 : Engine) : Prop where
  writer : e1.writer = some { w with history := e.catalog.undeleted w.history }
  guarded : e1.guarded = e.guarded
  decider : e1.decider = e.decider
  /-- Nothing but the store and the tracker has changed. -/
  keeper : e1.keeper = { e.keeper with catalog := e1.catalog }
  commits : e1.catalog.commits = e.catalog.commits
  backed : e1.catalog.Backed
  later : e.catalog.Later e1.catalog

/-- Every file of the newest undeleted commit is in the store. -/
theorem baseFiles_present {c : Catalog} {history : List Nat} (hbacked : c.Backed)
    (hrange : ∀ n ∈ history, n < c.commits.length) {name : String}
    (hname : name ∈ baseFiles (c.undeleted history) c) : ((c.store 0).data? name).isSome := by
  unfold baseFiles at hname
  split at hname
  next => exact absurd hname List.not_mem_nil
  next n hlast =>
    obtain ⟨hn, hkept⟩ := List.mem_filter.mp (List.mem_of_getLast? hlast)
    have hkept : c.isDeleted n = false := by simpa using hkept
    exact hbacked.present name (Catalog.mem_referenced (hrange n hn) hkept
      (List.mem_append_left _ hname))

/-- Writing to the store takes nothing away. -/
theorem Staged.write {e1 : Engine} (h : Staged w e e1) (hs : (e1.catalog.store 0).Holds s) :
    Staged w e (e1.setCatalog (e1.catalog.setStoreOf 0 s)) := by
  obtain ⟨hbacked, hlater⟩ := h.backed.setStoreOf hs
  exact
    { writer := h.writer
      guarded := h.guarded
      decider := h.decider
      keeper :=
        congrArg (fun k : Keeper => { k with catalog := e1.catalog.setStoreOf 0 s }) h.keeper
      commits := h.commits
      backed := hbacked
      later := h.later.trans hlater }

section
variable (hb : e.catalog.Backed) (hdepot : w.depot = 0)
include hb hdepot

theorem staged_prepare : Staged w e (e.prepare w).2 := by
  have hretry := hb.retry
  rw [← hdepot] at hretry
  exact ⟨rfl, rfl, rfl, rfl, rfl, hretry.1, hretry.2⟩

theorem staged_stage (changes : Changes) : Staged w e (e.stage w changes).2 := by
  have hprepared := staged_prepare hb hdepot
  unfold stage
  dsimp only
  split
  next => exact hprepared
  next files hfiles =>
    have hdepot' : (e.prepare w).1.depot = 0 := hdepot
    have hstaged := hprepared.write (writeOut_holds changes.add
      (nextManifest (e.prepare w).1 changes.timestamp files) (e.prepare w).1.syncOnCommit
      ((e.prepare w).2.catalog.store 0))
    rw [hdepot', hprepared.backed.single.storeOf_eq]
    split
    next => exact hstaged
    next => exact hstaged

/-- What is known of a manifest that has been written. -/
structure Written (w : Writer) (e : Engine) (w1 : Writer) (m : Manifest) (e1 : Engine) : Prop where
  writer : w1 = { w with history := e.catalog.undeleted w.history }
  version : m.version = w.nextVersion
  generation : m.generation = w.nextGeneration
  free : m.name ∉ e.catalog.referenced
  present : (∀ n ∈ w.history, n < e.catalog.commits.length) →
    ∀ name ∈ m.fileNames, ((e1.catalog.store 0).data? name).isSome

theorem written_stage {changes : Changes} {w1 : Writer} {e1 : Engine}
    (h : e.stage w changes = (.ok (w1, m), e1)) : Written w e w1 m e1 := by
  have hprepared := staged_prepare hb hdepot
  have hdepot' : (e.prepare w).1.depot = 0 := hdepot
  have hreferenced : (e.prepare w).2.catalog.referenced = e.catalog.referenced :=
    congrArg (List.flatMap Commit.references) hprepared.commits
  have hlength : (e.prepare w).2.catalog.commits.length = e.catalog.commits.length :=
    congrArg List.length hprepared.commits
  unfold stage at h
  dsimp only at h
  split at h
  next => cases (Prod.mk.inj h).1
  next files hfiles =>
    rw [hdepot', hprepared.backed.single.storeOf_eq] at h
    split at h
    next => cases (Prod.mk.inj h).1
    next hwritten =>
      obtain ⟨hok, rfl⟩ := Prod.mk.inj h
      obtain ⟨rfl, rfl⟩ := Prod.mk.inj (Except.ok.inj hok)
      obtain ⟨hadded, hmanifest, hfree⟩ := writeOut_ok (Prod.ext hwritten rfl)
      refine ⟨rfl, rfl, rfl, ?_, ?_⟩
      · intro hmem
        have hthere := hprepared.backed.present _ (hreferenced ▸ hmem)
        rw [hfree] at hthere
        cases hthere
      · intro hrange name hname
        have hstored := hprepared.backed.single.store_setStoreOf
          (writeOut changes.add (nextManifest (e.prepare w).1 changes.timestamp files)
            (e.prepare w).1.syncOnCommit ((e.prepare w).2.catalog.store 0)).2
        refine (congrArg (fun s : Store => (s.data? name).isSome) hstored).trans ?_
        -- a listed file is one of the newest commit before or has just been added
        rcases List.mem_append.mp hname with hfile | hself
        · rcases Changes.mem_of_apply hfiles hfile with hbase | hadd
          · have hbase : name ∈ baseFiles ((e.prepare w).2.catalog.undeleted w.history)
                (e.prepare w).2.catalog := hbase
            have hthere :=
              baseFiles_present hprepared.backed (fun n hn => hlength ▸ hrange n hn) hbase
            obtain ⟨data, hdata⟩ := Option.isSome_iff_exists.mp hthere
            rw [writeOut_holds changes.add _ _ _ name data hdata]
            rfl
          · exact hadded name hadd
        · rw [List.mem_singleton.mp hself]
          exact hmanifest

end

end Engine

end SnapshotRetention
