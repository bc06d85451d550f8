import SnapshotRetention.Proofs.Catalog.Depots
import SnapshotRetention.Proofs.Writer.Blocked
import SnapshotRetention.Proofs.Writer.FailedDeletes

/-!
# Commits that are turned down

A commit that ends with an error before the policy is called has tried queued deletions again and
may have written some artifacts, and that is all (`Engine.stage_error`): the history, the numbers of
the next commit, the counts, the holds, the published list and the statistics are what they were,
and so is each artifact, unless nothing references it and its deletion was queued
(`rejected_changes_nothing`). This holds in every state, for whatever number of stores.

What it leaves in the store is another matter. Removals, reserved names and duplicates are checked
before anything is written, but whether a name can be written shows only when its turn comes, and
whether the manifest can be encoded only afterwards. So a change set that is turned down leaves
behind the artifacts before the first one that could not be written (`Engine.leftBehind`), and every
change set that adds one of them is turned down as well (`rejected_leaves_written`).
-/

namespace SnapshotRetention

open Store (Wrote)

namespace Engine

variable {e e' e1 : Engine} {w : Writer} {changes : Changes} {err : Error}

/-! ## Where a commit can end -/

theorem prepare_retryDepot (w : Writer) (e : Engine) : e.prepare w =
    ({ w with history := e.catalog.undeleted w.history },
      { e with
        keeper := { e.keeper with catalog := e.catalog.retryDepot w.depot }
        writer := some { w with history := e.catalog.undeleted w.history } }) := rfl

/-- The engine after an attempt to write a commit that left some catalog behind. -/
def attempted (w : Writer) (c : Catalog) (e : Engine) : Engine :=
  { e with
    keeper := { e.keeper with catalog := c }
    writer := some { w with history := e.catalog.undeleted w.history } }

/-- A commit is turned down because its changes cannot be applied, or because it cannot be
written. -/
theorem stage_error (h : e.stage w changes = (.error err, e1)) :
    (∃ cause, changes.apply (baseFiles (e.catalog.undeleted w.history) e.catalog) = .error cause ∧
        err = .misuse cause ∧ e1 = e.attempted w (e.catalog.retryDepot w.depot)) ∨
      ∃ files s,
        changes.apply (baseFiles (e.catalog.undeleted w.history) e.catalog) = .ok files ∧
          writeOut changes.add (nextManifest w changes.timestamp files) w.syncOnCommit
              ((e.catalog.retryDepot w.depot).storeOf w.depot) = (.error err, s) ∧
            e1 = e.attempted w ((e.catalog.retryDepot w.depot).setStoreOf w.depot s) := by
  unfold stage at h
  rw [prepare_retryDepot] at h
  dsimp only at h
  split at h
  next cause hcause =>
    obtain ⟨herr, rfl⟩ := Prod.mk.inj h
    exact Or.inl ⟨cause, hcause, (Except.error.inj herr).symm, rfl⟩
  next files hfiles =>
    split at h
    next err' hwritten =>
      obtain ⟨herr, rfl⟩ := Prod.mk.inj h
      obtain rfl := Except.error.inj herr
      exact Or.inr ⟨files, _, hfiles, Prod.ext hwritten rfl, rfl⟩
    next => cases (Prod.mk.inj h).1

/-- A commit that is not turned down has been written over the catalog whose queued deletions have
been tried again. -/
theorem stage_ok {w1 : Writer} {m : Manifest} (h : e.stage w changes = (.ok (w1, m), e1)) :
    w1 = { w with history := e.catalog.undeleted w.history } ∧ ∃ files s,
      changes.apply (baseFiles (e.catalog.undeleted w.history) e.catalog) = .ok files ∧
        m = nextManifest w changes.timestamp files ∧
          writeOut changes.add m w.syncOnCommit
              ((e.catalog.retryDepot w.depot).storeOf w.depot) = (.ok (), s) ∧
            e1 = e.attempted w ((e.catalog.retryDepot w.depot).setStoreOf w.depot s) := by
  unfold stage at h
  rw [prepare_retryDepot] at h
  dsimp only at h
  split at h
  next => cases (Prod.mk.inj h).1
  next files hfiles =>
    split at h
    next => cases (Prod.mk.inj h).1
    next hwritten =>
      obtain ⟨hok, rfl⟩ := Prod.mk.inj h
      obtain ⟨rfl, rfl⟩ := Prod.mk.inj (Except.ok.inj hok)
      exact ⟨rfl, files, _, hfiles, rfl, Prod.ext hwritten rfl, rfl⟩

/-- A commit that shows nothing to the policy has not been written, or has the last numbers there
are. -/
theorem stage_of_committed_eq_nil (hw : e.writer = some w)
    (h : e.commit? changes = (some (.error err), e')) (hshown : e.committed w changes = [])
    (herr : err ≠ .counterOverflow) : e.stage w changes = (.error err, e') := by
  rw [commit?_of_writer hw] at h
  obtain ⟨hresult, hafter⟩ := Prod.mk.inj h
  have hcommit : e.commitWith w changes = (.error err, e') :=
    Prod.ext (Option.some.inj hresult) hafter
  have hshows := e.commitShows w changes
  generalize e.committed w changes = shown at hshows hshown
  generalize e.commitWith w changes = outcome at hshows hcommit
  cases hshows with
  | rejected hstage =>
    obtain ⟨herr', rfl⟩ := Prod.mk.inj hcommit
    rw [hstage, Except.error.inj herr']
  | overflow => exact absurd (Except.error.inj (Prod.mk.inj hcommit).1).symm herr
  | decided hstage hsome =>
    obtain ⟨-, hhistory, -⟩ := advance_eq_some hsome
    rw [hhistory] at hshown
    exact absurd hshown (by simp)

/-! ## What stays as it was -/

/-- What a commit that is turned down leaves as it was. -/
structure Untouched (w : Writer) (changes : Changes) (e e' : Engine) : Prop where
  /-- The undeleted history. -/
  commits : e'.commits = e.commits
  /-- The next commit gets the numbers that it would have got. -/
  writer : ∃ w', e'.writer = some w' ∧ w'.nextVersion = w.nextVersion ∧
    w'.nextGeneration = w.nextGeneration ∧ w'.lastTimestamp = w.lastTimestamp ∧
      w'.depot = w.depot ∧ w'.syncOnCommit = w.syncOnCommit
  /-- Of the keeper only the catalog may differ, not the holds, the list or the statistics. -/
  keeper : e'.keeper = { e.keeper with catalog := e'.catalog }
  decider : e'.decider = e.decider ∧ e'.guarded = e.guarded
  /-- No commit is made or deleted. -/
  table : e'.catalog.commits = e.catalog.commits
  counted : ∀ depot name,
    (e'.catalog.tracker depot).refCount name = (e.catalog.tracker depot).refCount name
  /-- Other stores are left alone. -/
  others : ∀ k, k ≠ (e.catalog.depot w.depot).store → e'.catalog.store k = e.catalog.store k
  /-- What stood in the store stands there still, unless its deletion was queued. -/
  kept : ∀ q, (e.catalog.storeOf w.depot).medium.node? q ≠ none →
    (e'.catalog.storeOf w.depot).medium.node? q = (e.catalog.storeOf w.depot).medium.node? q ∨
      q ∈ (e.catalog.tracker w.depot).queue ∧ (e.catalog.tracker w.depot).refCount q = 0
  /-- What is new there was to be written. -/
  new : ∀ q, (e'.catalog.storeOf w.depot).medium.node? q ≠ none →
    (e.catalog.storeOf w.depot).medium.node? q ≠ none ∨ q ∈ changes.add.map Prod.fst ∨
      q = Manifest.nameOf w.nextGeneration

/-- What is written over the catalog whose queued deletions have been tried again. -/
structure WroteOver (w : Writer) (changes : Changes) (c d : Catalog) : Prop where
  commits : d.commits = c.commits
  depot : ∀ k, (d.depot k).store = (c.depot k).store
  counted : ∀ k name, (d.tracker k).refCount name = (c.tracker k).refCount name
  others : ∀ k, k ≠ (c.depot w.depot).store → d.store k = c.store k
  wrote : ∃ entries, Wrote entries ((c.retryDepot w.depot).storeOf w.depot) (d.storeOf w.depot) ∧
    ∀ q ∈ entries.map Prod.fst, q ∈ changes.add.map Prod.fst ∨
      q = Manifest.nameOf w.nextGeneration

theorem wroteOver_retryDepot (w : Writer) (changes : Changes) (c : Catalog) :
    WroteOver w changes c (c.retryDepot w.depot) :=
  { commits := rfl
    depot := Catalog.store_depot_onDepot _ w.depot c
    counted := c.refCount_retryDepot w.depot
    others := fun _ hk => Catalog.store_retryDepot_of_ne hk
    wrote := ⟨[], .nil rfl rfl rfl, fun _ hq => absurd hq List.not_mem_nil⟩ }

/-- Whatever is written next is written over the same catalog. -/
theorem wroteOver_setStoreOf {c : Catalog} {s : Store} {entries : List (String × Bytes)}
    (hwrote : Wrote entries ((c.retryDepot w.depot).storeOf w.depot) s)
    (hnames : ∀ q ∈ entries.map Prod.fst, q ∈ changes.add.map Prod.fst ∨
      q = Manifest.nameOf w.nextGeneration) :
    WroteOver w changes c ((c.retryDepot w.depot).setStoreOf w.depot s) := by
  have hretried := wroteOver_retryDepot w changes c
  refine
    { commits := rfl
      depot := hretried.depot
      counted := hretried.counted
      others := fun k hk => ?_
      wrote := ?_ }
  · refine (Catalog.store_setStore_of_ne ?_ s _).trans (hretried.others k hk)
    rwa [hretried.depot]
  · unfold Catalog.setStoreOf Catalog.storeOf
    rw [Catalog.store_setStore]
    split
    next => exact ⟨entries, hwrote, hnames⟩
    next => exact hretried.wrote

theorem WroteOver.untouched {d : Catalog} (h : WroteOver w changes e.catalog d)
    (hw : e.writer = some w) : Untouched w changes e (e.attempted w d) := by
  obtain ⟨entries, hwrote, hnames⟩ := h.wrote
  have hnode := e.catalog.node_retryDepot w.depot
  refine
    { commits := ?_
      writer := ⟨_, rfl, rfl, rfl, rfl, rfl, rfl⟩
      keeper := rfl
      decider := ⟨rfl, rfl⟩
      table := h.commits
      counted := h.counted
      others := h.others
      kept := fun q hq => ?_
      new := fun q hq => ?_ }
  · have hundeleted : d.undeleted (e.catalog.undeleted w.history) =
        e.catalog.undeleted (e.catalog.undeleted w.history) :=
      Catalog.undeleted_congr h.commits _
    unfold Engine.commits
    rw [hw]
    exact hundeleted.trans (Catalog.undeleted_undeleted w.history e.catalog)
  · rcases hnode q with hsame | ⟨hqueued, -⟩
    · -- what is written was free, so it is something else
      refine Or.inl ((hwrote.other q fun hmem => hq ?_).trans hsame)
      exact hsame.symm.trans (hwrote.free q hmem).1
    · exact Or.inr hqueued
  · by_cases hmem : q ∈ entries.map Prod.fst
    · exact Or.inr (hnames q hmem)
    · have hstood : ((e.catalog.retryDepot w.depot).storeOf w.depot).medium.node? q ≠ none :=
        fun hnone => hq ((hwrote.other q hmem).trans hnone)
      rcases hnode q with hsame | ⟨-, hgone⟩
      · exact Or.inl (hsame ▸ hstood)
      · exact absurd hgone hstood

theorem untouched_of_stage_error (hw : e.writer = some w)
    (h : e.stage w changes = (.error err, e1)) : Untouched w changes e e1 := by
  rcases stage_error h with ⟨cause, -, -, rfl⟩ | ⟨files, s, hfiles, hwritten, rfl⟩
  · exact (wroteOver_retryDepot w changes e.catalog).untouched hw
  · have hname : (nextManifest w changes.timestamp files).name =
      Manifest.nameOf w.nextGeneration := rfl
    rcases exists_wrote_of_writeOut_error hwritten with
      ⟨-, written, hbegins, hwrote⟩ | ⟨-, -, data, -, hwrote⟩
    · refine (wroteOver_setStoreOf hwrote fun q hq => Or.inl ?_).untouched hw
      exact List.map_subset Prod.fst hbegins.subset hq
    · refine (wroteOver_setStoreOf hwrote fun q hq => ?_).untouched hw
      rw [List.map_append] at hq
      exact (List.mem_append.mp hq).imp_right fun hself => (List.mem_singleton.mp hself).trans hname

/-- A commit that ends with an error before the policy is called loses and changes nothing that
exists. That a number cannot be followed is no such error: the commit has been made by then, and the
program stops. -/
theorem rejected_changes_nothing (hw : e.writer = some w)
    (h : e.commit? changes = (some (.error err), e')) (hshown : e.committed w changes = [])
    (herr : err ≠ .counterOverflow) : Untouched w changes e e' :=
  untouched_of_stage_error hw (stage_of_committed_eq_nil hw h hshown herr)

/-- The artifacts of the first commit wait for their deletion, and the second commit adds a file and
then one under a name that no artifact can have: the queue is cleared, the first file is written,
and all else is as before. -/
theorem rejected_changes_nothing_recovered :
    (recovered.commit? ⟨[("c", [3]), ("d/e", [4])], [], 7⟩).1 =
        some (.error (.store (.invalidName "d/e"))) ∧
      (recovered.catalog.store 0).names = ["a", "b", "commit_1", "commit_2"] ∧
        ((recovered.commit? ⟨[("c", [3]), ("d/e", [4])], [], 7⟩).2.catalog.store 0).names =
            ["b", "c", "commit_2"] ∧
          Untouched ⟨0, [0, 1], ⟨3⟩, ⟨3⟩, 0, true⟩ ⟨[("c", [3]), ("d/e", [4])], [], 7⟩ recovered
            (recovered.commit? ⟨[("c", [3]), ("d/e", [4])], [], 7⟩).2 := by
  have hresult : (recovered.commit? ⟨[("c", [3]), ("d/e", [4])], [], 7⟩).1 =
      some (.error (.store (.invalidName "d/e"))) := by decide +kernel
  exact ⟨hresult, by decide +kernel, by decide +kernel,
    rejected_changes_nothing (by decide +kernel) (Prod.ext hresult rfl) (by decide +kernel) nofun⟩

end Engine

/-! ## What stays behind -/

namespace Store

variable {s s' : Store} {entries : List (String × Bytes)} {name : String}

/-- Whether an artifact can be written under a name now, if nothing is set to fail. -/
def Medium.takes (name : String) (m : Medium) : Bool := (m.write name []).isOk

theorem Medium.takes_iff (m : Medium) (name : String) :
    m.takes name = true ↔ m.Accepts name ∧ m.node? name = none := by
  unfold takes
  constructor
  · intro h
    cases hw : m.write name [] with
    | error e => rw [hw] at h; cases h
    | ok m' => exact ⟨accepts_of_write hw, (write_ok hw).1⟩
  · rintro ⟨haccepts, hfree⟩
    obtain ⟨m', hw⟩ := exists_write haccepts hfree []
    rw [hw]
    rfl

/-- What is written under other names does not matter. -/
theorem Wrote.takes_eq (h : Wrote entries s s') (hname : name ∉ entries.map Prod.fst) :
    s'.medium.takes name = s.medium.takes name := by
  rw [Bool.eq_iff_iff, Medium.takes_iff, Medium.takes_iff, h.alike.place.accepts_iff,
    h.other name hname]

/-- In a store that works, artifacts of different names are written up to the first one that cannot
be. -/
theorem wrote_leading (hworks : s.Works) (hnodup : (entries.map Prod.fst).Nodup) :
    Wrote (entries.takeWhile fun a => s.medium.takes a.1) s (s.writeAll entries).2 := by
  induction entries generalizing s with
  | nil => exact .nil rfl rfl rfl
  | cons a rest ih =>
    obtain ⟨hnot, hrest⟩ := List.nodup_cons.mp hnodup
    unfold writeAll
    split
    next e s1 hw =>
      have hrefused : s.medium.takes a.1 = false := by
        rw [Bool.eq_false_iff, Ne, Medium.takes_iff]
        rintro ⟨haccepts, hfree⟩
        obtain ⟨s2, hok⟩ := exists_write hworks haccepts hfree a.2
        cases hw.symm.trans hok
      rw [List.takeWhile_cons_of_neg (by simp [hrefused])]
      exact wrote_write_error hw
    next s1 hw =>
      have hfirst := wrote_write hw
      have htakes : s.medium.takes a.1 = true :=
        (Medium.takes_iff _ _).mpr ⟨accepts_of_write hw, (hfirst.free a.1 (by simp)).1⟩
      have hsame : rest.takeWhile (fun b => s1.medium.takes b.1) =
          rest.takeWhile fun b => s.medium.takes b.1 :=
        takeWhile_congr fun b hb => hfirst.takes_eq fun hmem =>
          hnot (List.mem_singleton.mp hmem ▸ List.mem_map_of_mem hb)
      have hothers := ih (hworks.congr hfirst.faults) hrest
      rw [hsame] at hothers
      rw [List.takeWhile_cons, if_pos htakes]
      exact hfirst.append hothers

end Store

namespace Engine

variable {e e' : Engine} {w : Writer} {changes later : Changes} {err : Error} {s s' : Store}
  {add : List (String × Bytes)} {m : Manifest} {sync : Bool}

/-- In a store that works only names and manifests can be refused. -/
theorem wrote_leading_of_writeOut_error (hworks : s.Works) (hnodup : (add.map Prod.fst).Nodup)
    (h : writeOut add m sync s = (.error err, s')) :
    Wrote (add.takeWhile fun a => s.medium.takes a.1) s s' := by
  have hleading := Store.wrote_leading hworks hnodup
  unfold writeOut at h
  split at h
  next e s1 hadd =>
    obtain ⟨-, rfl⟩ := Prod.mk.inj h
    rwa [hadd] at hleading
  next s1 hadd =>
    rw [hadd] at hleading
    split at h
    next =>
      obtain ⟨-, rfl⟩ := Prod.mk.inj h
      exact hleading
    next data hdata =>
      split at h
      next e s2 hmanifest =>
        obtain ⟨-, rfl⟩ := Prod.mk.inj h
        have hall := hleading.append (Store.wrote_write_error hmanifest)
        rwa [List.append_nil] at hall
      next s2 hmanifest =>
        have hfaults := (Store.wrote_write hmanifest).faults.trans hleading.faults
        rw [Store.sync_of_works (hworks.congr hfaults)] at h
        split at h
        next => cases (Prod.mk.inj h).1
        next => cases (Prod.mk.inj h).1

/-- The artifacts that a change set leaves in the store if it is turned down: none if its changes
cannot be applied, else those before the first that cannot be written. -/
def leftBehind (w : Writer) (changes : Changes) (e : Engine) : List (String × Bytes) :=
  match changes.apply (baseFiles (e.catalog.undeleted w.history) e.catalog) with
  | .error _ => []
  | .ok _ => changes.add.takeWhile fun a => (e.catalog.storeOf w.depot).medium.takes a.1

theorem stage_of_commit?_error (hw : e.writer = some w)
    (h : ∃ err1, (e.stage w changes).1 = .error err1) :
    (∃ err1 e1, e.commit? changes = (some (.error err1), e1)) ∧ e.committed w changes = [] := by
  obtain ⟨err1, herr⟩ := h
  have hstage : e.stage w changes = (.error err1, (e.stage w changes).2) := Prod.ext herr rfl
  refine ⟨⟨err1, (e.stage w changes).2, ?_⟩, ?_⟩
  · rw [commit?_of_writer hw, commitWith_of_error hstage]
  · unfold committed
    rw [hstage]

theorem queue_of_stage_error (hqueue : (e.catalog.tracker w.depot).queue = [])
    (h : e.stage w changes = (.error err, e')) : (e'.catalog.tracker w.depot).queue = [] := by
  rcases stage_error h with ⟨cause, -, -, rfl⟩ | ⟨files, s, -, -, rfl⟩
  · exact Catalog.queue_retryDepot_of_idle hqueue
  · exact Catalog.queue_retryDepot_of_idle hqueue

/-- With nothing queued nothing can be added under a name that is taken. -/
theorem stage_of_taken (hqueue : (e.catalog.tracker w.depot).queue = []) {q : String}
    (hmem : q ∈ changes.add.map Prod.fst)
    (htaken : (e.catalog.storeOf w.depot).medium.node? q ≠ none) :
    ∃ err1, (e.stage w changes).1 = .error err1 := by
  cases hstage : e.stage w changes with
  | mk result e1 =>
    cases result with
    | error err1 => exact ⟨err1, rfl⟩
    | ok p =>
      obtain ⟨-, files, s, -, -, hwritten, -⟩ := stage_ok hstage
      obtain ⟨data, -, hwrote⟩ := exists_wrote_of_writeOut hwritten
      rw [Catalog.storeOf_retryDepot_of_idle hqueue] at hwrote
      refine absurd (hwrote.free q ?_).1 htaken
      rw [List.map_append]
      exact List.mem_append_left _ hmem

/-- In a store that works a commit that is turned down leaves behind what it adds before the first
name that cannot be written. -/
theorem wrote_leftBehind (hdepot : e.catalog.HasDepot w.depot)
    (hworks : (e.catalog.storeOf w.depot).Works)
    (hqueue : (e.catalog.tracker w.depot).queue = [])
    (h : e.stage w changes = (.error err, e')) :
    Wrote (e.leftBehind w changes) (e.catalog.storeOf w.depot) (e'.catalog.storeOf w.depot) := by
  have hidle := Catalog.storeOf_retryDepot_of_idle hqueue
  unfold leftBehind
  rcases stage_error h with ⟨cause, hcause, -, rfl⟩ | ⟨files, s, hfiles, hwritten, rfl⟩
  · rw [hcause]
    show Wrote [] _ ((e.catalog.retryDepot w.depot).storeOf w.depot)
    rw [hidle]
    exact .nil rfl rfl rfl
  · rw [hfiles]
    show Wrote _ _ (((e.catalog.retryDepot w.depot).setStoreOf w.depot s).storeOf w.depot)
    rw [Catalog.storeOf_setStoreOf (hdepot.retryDepot w.depot)]
    rw [hidle] at hwritten
    exact wrote_leading_of_writeOut_error hworks (Changes.applicable_of_apply hfiles).addedOnce
      hwritten

/-- In a store that never fails and with nothing queued, a change set that is turned down leaves
behind what it adds before the first name that cannot be written, so that the store is as before
only if there is nothing before it. No change set can add again what has been left behind. -/
theorem rejected_leaves_written (hw : e.writer = some w) (hdepot : e.catalog.HasDepot w.depot)
    (hnever : (e.catalog.storeOf w.depot).faults = .never)
    (hqueue : (e.catalog.tracker w.depot).queue = [])
    (h : e.commit? changes = (some (.error err), e')) (hshown : e.committed w changes = [])
    (herr : err ≠ .counterOverflow) :
    Wrote (e.leftBehind w changes) (e.catalog.storeOf w.depot) (e'.catalog.storeOf w.depot) ∧
      ((e'.catalog.storeOf w.depot).medium = (e.catalog.storeOf w.depot).medium ↔
        e.leftBehind w changes = []) ∧
      ∀ w', e'.writer = some w' → ∀ a ∈ e.leftBehind w changes, ∀ later : Changes,
        a.1 ∈ later.add.map Prod.fst →
          (∃ err1 e1, e'.commit? later = (some (.error err1), e1)) ∧
            e'.committed w' later = [] := by
  have hstage := stage_of_committed_eq_nil hw h hshown herr
  have hwrote := wrote_leftBehind hdepot (Store.works_of_never hnever) hqueue hstage
  have huntouched := untouched_of_stage_error hw hstage
  have hthere : ∀ a ∈ e.leftBehind w changes,
      (e'.catalog.storeOf w.depot).medium.node? a.1 ≠ none := by
    intro a ha hnone
    cases (hwrote.there a ha).symm.trans hnone
  refine ⟨hwrote, ⟨fun hsame => ?_, fun hnil => ?_⟩, fun w' hw' a ha later hmem => ?_⟩
  · refine List.eq_nil_iff_forall_not_mem.mpr fun a ha => hthere a ha ?_
    rw [hsame]
    exact (hwrote.free a.1 (List.mem_map_of_mem ha)).1
  · rw [hnil] at hwrote
    exact hwrote.alike.place.eq_of_node fun q => hwrote.other q List.not_mem_nil
  · obtain ⟨w1, hw1, -, -, -, hsameDepot, -⟩ := huntouched.writer
    obtain rfl := Option.some.inj (hw'.symm.trans hw1)
    refine stage_of_commit?_error hw' (stage_of_taken ?_ hmem ?_)
    · rw [hsameDepot]
      exact queue_of_stage_error hqueue hstage
    · rw [hsameDepot]
      exact hthere a ha

/-- A change set of a file and of one under a name that no artifact can have. -/
def halfNamed : Changes := ⟨[("a", [1]), ("b/c", [2])], [], 0⟩

/-- The same change set with a name that an artifact can have. -/
def wellNamed : Changes := ⟨[("a", [1]), ("b", [2])], [], 0⟩

/-- The first file of the change set stays behind, and the corrected change set adds it again. -/
theorem rejected_leaves_written_halfNamed :
    opened.leftBehind ⟨0, [], ⟨1⟩, ⟨1⟩, 0, true⟩ halfNamed = [("a", [1])] ∧
      Wrote [("a", [1])] (opened.catalog.store 0) ((opened.commit? halfNamed).2.catalog.store 0) ∧
        ((opened.commit? halfNamed).2.catalog.store 0).medium ≠ (opened.catalog.store 0).medium ∧
          ∃ err e1, (opened.commit? halfNamed).2.commit? wellNamed = (some (.error err), e1) := by
  have hw : opened.writer = some ⟨0, [], ⟨1⟩, ⟨1⟩, 0, true⟩ := by decide +kernel
  have hresult : (opened.commit? halfNamed).1 =
      some (.error (.store (.invalidName "b/c"))) := by decide +kernel
  have hbehind : opened.leftBehind ⟨0, [], ⟨1⟩, ⟨1⟩, 0, true⟩ halfNamed = [("a", [1])] := by
    decide +kernel
  have hnever : (opened.catalog.storeOf 0).faults = .never := by with_unfolding_all rfl
  have hplace : (opened.commit? halfNamed).2.catalog.storeOf 0 =
      (opened.commit? halfNamed).2.catalog.store 0 := by with_unfolding_all rfl
  have hbefore : opened.catalog.storeOf 0 = opened.catalog.store 0 := by with_unfolding_all rfl
  obtain ⟨hwrote, hsame, hlater⟩ := rejected_leaves_written hw
    ⟨by decide +kernel, by decide +kernel⟩ hnever (by decide +kernel) (Prod.ext hresult rfl)
    (by decide +kernel) nofun
  rw [hbehind] at hwrote hsame hlater
  rw [hplace, hbefore] at hwrote hsame
  have hwriter : (opened.commit? halfNamed).2.writer = some ⟨0, [], ⟨1⟩, ⟨1⟩, 0, true⟩ := by
    decide +kernel
  refine ⟨hbehind, hwrote, fun heq => (List.cons_ne_nil _ _) (hsame.mp heq), ?_⟩
  exact (hlater _ hwriter ("a", [1]) (by decide) wellNamed (by decide +kernel)).1

/-- Over an empty store that never fails, a change set with a name that no artifact can have is
turned down and leaves a file behind, so that the corrected change set is turned down as well. -/
theorem halfNamed_stays_behind :
    (opened.catalog.store 0).faults = .never ∧ (opened.catalog.tracker 0).queue = [] ∧
      (opened.commit? halfNamed).1 = some (.error (.store (.invalidName "b/c"))) ∧
        opened.committed ⟨0, [], ⟨1⟩, ⟨1⟩, 0, true⟩ halfNamed = [] ∧
          (opened.catalog.store 0).names = [] ∧
            ((opened.commit? halfNamed).2.catalog.store 0).names = ["a"] ∧
              ((opened.commit? halfNamed).2.commit? wellNamed).1 =
                  some (.error (.store (.alreadyExists "a"))) ∧
                (opened.commit? wellNamed).1 = some (.ok 0) :=
  ⟨by with_unfolding_all rfl, by decide +kernel, by decide +kernel, by decide +kernel,
    by decide +kernel, by decide +kernel, by decide +kernel, by decide +kernel⟩

end Engine

end SnapshotRetention
