import SnapshotRetention.Proofs.Catalog.Twins
import SnapshotRetention.Proofs.Writer.Intact
import SnapshotRetention.Proofs.Writer.Reopening

/-!
# Writers that a failure blocks

A writer is unblocked (`Writer.Unblocked`) if no name of a manifest from its next generation on
stands for anything. It stays so whatever fails, in any commit and anywhere else
(`Unblocked.commit`), with one exception: a commit whose manifest has been written when its
synchronisation fails (`Engine.Unsynced`). Its manifest stays, but the numbers do not move on, so
that the name of the next manifest is taken by something that is neither listed nor waits for its
deletion. The writer is blocked (`Writer.Blocked`), and nothing that happens later clears the name
(`Blocked.act`).

Main statement: `blocked_only_by_unsynced`. Over a store that works again, sound changes are written
and shown to the policy, and stand if it lets them (`Engine.Proceeds`), as long as no commit was
unsynced; after one that was, no commit ever is.
-/

namespace SnapshotRetention

open Catalog (Prunes Disposed)
open Store (Wrote)

/-- Nothing is written under the names of the manifests that come after that of a commit. -/
theorem Engine.Stages.not_mem_of_later {w w1 : Writer} {changes : Changes} {c : Catalog}
    {m : Manifest} {data : Bytes} {s : Store} {g g' : Generation}
    (hs : Stages w changes c w1 m data s) (hg : w.nextGeneration.next? = some g)
    (hle : g.number ≤ g'.number) : w.nextGeneration.number ≤ g'.number ∧
      Manifest.nameOf g' ∉ (changes.add ++ [(m.name, data)]).map Prod.fst := by
  obtain ⟨n, hn, rfl⟩ := Option.map_eq_some_iff.mp hg
  have hlt : w.nextGeneration.number.toNat < g'.number.toNat := by
    have hsucc := toNat_of_succ? hn
    have hle : n ≤ g'.number := hle
    have hle := UInt64.le_iff_toNat_le.mp hle
    omega
  refine ⟨UInt64.le_of_lt (UInt64.lt_iff_toNat_lt.mpr hlt), fun hmem => ?_⟩
  have hname := hs.eq_name_of_reserved hmem (Manifest.isReserved_nameOf g')
  have heq : g' = m.generation := Manifest.nameOf_injective hname
  rw [heq, hs.numbers.2] at hlt
  exact Nat.lt_irrefl _ hlt

namespace Writer

variable {w w1 : Writer} {c d : Catalog} {m : Manifest} {e e1 : Engine} {changes : Changes}
  {data : Bytes} {s : Store} {err : Error} {v : Version} {g : Generation}

/-- A writer that finds no manifest in its way. -/
structure Unblocked (w : Writer) (c : Catalog) : Prop extends Intact w c where
  free : ∀ g, w.nextGeneration.number ≤ g.number →
    (c.store 0).medium.node? (Manifest.nameOf g) = none

/-- A writer whose next manifest has its name taken, by something that nothing ever deletes. -/
structure Blocked (w : Writer) (c : Catalog) : Prop extends Intact w c where
  taken : (c.store 0).medium.node? (Manifest.nameOf w.nextGeneration) ≠ none
  unlisted : Manifest.nameOf w.nextGeneration ∉ c.referenced
  unqueued : Manifest.nameOf w.nextGeneration ∉ (c.tracker 0).queue

/-! ## Nothing in the way -/

/-- Deletions put nothing in the way. -/
theorem Unblocked.disposed {waiting names kept : List String} (h : w.Unblocked c)
    (hd : Disposed waiting names kept c d) (hintact : w.Intact d) : w.Unblocked d :=
  ⟨hintact, fun g hg => hd.free (h.free g hg)⟩

theorem Unblocked.prunes (h : w.Unblocked c) (hp : c.Prunes d) : w.Unblocked d :=
  hp.induct h fun c n hn hc => by
    obtain ⟨names, kept, hd, -⟩ := hc.tallied.delete hn
    exact hc.disposed hd (hc.toIntact.delete hn)

/-- Deleted commits may leave the history. -/
theorem Unblocked.prune (h : w.Unblocked c) :
    Unblocked { w with history := c.undeleted w.history } c :=
  ⟨h.toIntact.prune, h.free⟩

/-- Nothing is put in the way when other accesses of the store fail. -/
theorem Unblocked.refuse (h : w.Unblocked c) (hmedium : s.medium = (c.store 0).medium) :
    w.Unblocked (c.setStoreOf 0 s) := by
  refine ⟨h.toIntact.refuse hmedium, fun g hg => ?_⟩
  rw [h.tallied.single.store_setStoreOf, hmedium]
  exact h.free g hg

theorem Unblocked.retried (h : w.Unblocked c) : w.Unblocked c.retried := by
  obtain ⟨kept, hd⟩ := h.tallied.retried
  exact h.disposed hd h.toIntact.retried

/-- A commit that is turned down puts nothing in the way, unless only its synchronisation failed. -/
theorem Unblocked.rejected (h : w.Unblocked e.catalog) (hsynced : ¬e.Unsynced w changes)
    (hstage : e.stage w changes = (.error err, e1)) :
    ∃ w', e1.writer = some w' ∧ w'.Unblocked e1.catalog := by
  have hsingle := h.tallied.single
  have hretried := h.retried
  obtain ⟨s, rfl, hwritten⟩ :=
    Engine.exists_wrote_of_stage_error hsingle h.continues.depot hstage
  obtain ⟨-, written, hwrote, hplain⟩ := hwritten.resolve_right fun hand => hsynced hand.1
  have hcommits : (e.catalog.retried.setStoreOf 0 s).commits = e.catalog.retried.commits := rfl
  refine ⟨_, rfl, ?_, fun g hg => ?_⟩
  · exact (hretried.toIntact.write hwrote).prune
  · -- what has been written has no reserved name
    have hnot : Manifest.nameOf g ∉ written.map Prod.fst := by
      intro hmem
      have hreserved := hplain _ hmem
      rw [Manifest.isReserved_nameOf] at hreserved
      cases hreserved
    show ((e.catalog.retried.setStoreOf 0 s).store 0).medium.node? _ = none
    rw [hsingle.retried.store_setStoreOf, hwrote.other _ hnot]
    exact hretried.free g hg

/-- A commit that is written takes the name of its own manifest and no later one. -/
theorem Unblocked.join (h : w.Unblocked c) (hs : Engine.Stages w changes c w1 m data s)
    (hv : w.nextVersion.next? = some v) (hg : w.nextGeneration.next? = some g) :
    Unblocked { w1 with
      history := w1.history ++ [(c.retried.setStoreOf 0 s).commits.length]
      nextVersion := v
      nextGeneration := g
      lastTimestamp := m.timestamp } ((c.retried.setStoreOf 0 s).adopt 0 m).2 := by
  refine ⟨h.toIntact.join hs hv, fun g' hle => ?_⟩
  obtain ⟨hlater, hnot⟩ := hs.not_mem_of_later hg hle
  rw [h.tallied.single.retried.store_written, hs.wrote.other _ hnot]
  exact h.retried.free g' hlater

/-- A commit whose numbers can be followed leaves nothing in the way, unless only its
synchronisation failed. -/
theorem Unblocked.commit (h : w.Unblocked e.catalog) (hv : w.nextVersion.next? = some v)
    (hg : w.nextGeneration.next? = some g) (hsynced : ¬e.Unsynced w changes) :
    ∃ w', (e.commitWith w changes).2.writer = some w' ∧
      w'.Unblocked (e.commitWith w changes).2.catalog :=
  Engine.commitWith_induct h.tallied.single h.continues.depot hv hg
    (fun _ _ hstage => h.rejected hsynced hstage) (fun _ _ _ _ hs => h.join hs hv hg)
    fun _ _ _ hprunes hunblocked => (hunblocked.prunes hprunes).prune

/-! ## Something in the way -/

/-- What is in the way stays there when commits are deleted. -/
theorem Blocked.disposed {waiting names kept : List String} (h : w.Blocked c)
    (hd : Disposed waiting names kept c d) (hintact : w.Intact d) : w.Blocked d := by
  obtain ⟨hnode, hlisted, hqueued⟩ := hd.untouched h.unlisted h.unqueued
  exact ⟨hintact, hnode ▸ h.taken, hlisted, hqueued⟩

theorem Blocked.prunes (h : w.Blocked c) (hp : c.Prunes d) : w.Blocked d :=
  hp.induct h fun c n hn hc => by
    obtain ⟨names, kept, hd, -⟩ := hc.tallied.delete hn
    exact hc.disposed hd (hc.toIntact.delete hn)

/-- Deleted commits may leave the history. -/
theorem Blocked.prune (h : w.Blocked c) :
    Blocked { w with history := c.undeleted w.history } c :=
  ⟨h.toIntact.prune, h.taken, h.unlisted, h.unqueued⟩

theorem Blocked.retried (h : w.Blocked c) : w.Blocked c.retried := by
  obtain ⟨kept, hd⟩ := h.tallied.retried
  exact h.disposed hd h.toIntact.retried

theorem Blocked.refuse (h : w.Blocked c) (hmedium : s.medium = (c.store 0).medium) :
    w.Blocked (c.setStoreOf 0 s) := by
  have hsingle := h.tallied.single
  refine ⟨h.toIntact.refuse hmedium, ?_, h.unlisted, ?_⟩
  · rw [hsingle.store_setStoreOf, hmedium]
    exact h.taken
  · rw [hsingle.queue_setStoreOf]
    exact h.unqueued

/-- Nor does it go when anything else is written. -/
theorem Blocked.write {entries : List (String × Bytes)} (h : w.Blocked c)
    (hw : Wrote entries (c.store 0) s) : w.Blocked (c.setStoreOf 0 s) := by
  have hsingle := h.tallied.single
  refine ⟨h.toIntact.write hw, ?_, h.unlisted, ?_⟩
  · rw [hsingle.store_setStoreOf, hw.other _ fun hmem => h.taken (hw.free _ hmem).1]
    exact h.taken
  · rw [hsingle.queue_setStoreOf]
    exact h.unqueued

/-- A blocked writer turns down every commit, and is blocked by the same name afterwards. -/
theorem Blocked.rejected (h : w.Blocked e.catalog) (changes : Changes) :
    ∃ err e1 w', e.stage w changes = (.error err, e1) ∧ e1.writer = some w' ∧
      w'.nextGeneration = w.nextGeneration ∧ w'.Blocked e1.catalog := by
  have hsingle := h.tallied.single
  have hretried := h.retried
  cases hstage : e.stage w changes with
  | mk result e1 =>
    cases result with
    | ok p =>
      obtain ⟨data, s, hs, -⟩ := Engine.stages_of_stage hsingle h.continues.depot hstage
      exact absurd hs.free hretried.taken
    | error err =>
      obtain ⟨s, rfl, hwritten⟩ :=
        Engine.exists_wrote_of_stage_error hsingle h.continues.depot hstage
      rcases hwritten with ⟨-, written, hwrote, -⟩ | ⟨-, -, w1, m, data, hs⟩
      · exact ⟨err, _, _, rfl, rfl, rfl, (hretried.write hwrote).prune⟩
      · exact absurd hs.free hretried.taken

/-- A commit that is turned down only because it was not synchronised blocks the writer. -/
theorem Unblocked.unsynced (h : w.Unblocked e.catalog) (hunsynced : e.Unsynced w changes) :
    (e.catalog.store 0).RefusesSync ∧ ∃ err e1 w', e.stage w changes = (.error err, e1) ∧
      e1.writer = some w' ∧ w'.nextGeneration = w.nextGeneration ∧ w'.Blocked e1.catalog := by
  have hsingle := h.tallied.single
  have hretried := h.retried
  obtain ⟨⟨err, herr⟩, -⟩ := id hunsynced
  have hstage : e.stage w changes = (.error err, (e.stage w changes).2) := Prod.ext herr rfl
  obtain ⟨s, he1, hwritten⟩ := Engine.exists_wrote_of_stage_error hsingle h.continues.depot hstage
  obtain ⟨-, hrefuses, w1, m, data, hs⟩ := hwritten.resolve_left fun hand => hand.1 hunsynced
  have hcatalog : (e.stage w changes).2.catalog = e.catalog.retried.setStoreOf 0 s := by
    rw [he1]
    rfl
  obtain ⟨kept, hd⟩ := h.tallied.retried
  refine ⟨hrefuses.congr hd.cleared.faults.symm, err, _,
    { w with history := e.catalog.retried.undeleted w.history }, hstage, by rw [he1], rfl, ?_⟩
  rw [hcatalog]
  have hname : Manifest.nameOf w.nextGeneration = m.name := by
    rw [← hs.numbers.2]
    rfl
  -- what is listed or waits is a file, but the name was free before the commit
  have hnew : ¬(Manifest.nameOf w.nextGeneration ∈ e.catalog.retried.referenced ∨
      Manifest.nameOf w.nextGeneration ∈ (e.catalog.retried.tracker 0).queue) := by
    intro hmem
    obtain ⟨⟨bytes, hbytes⟩, -⟩ := hretried.housed _ hmem
    cases hs.free.symm.trans hbytes
  refine ⟨(hretried.toIntact.write hs.wrote).prune, ?_, fun hmem => hnew (Or.inl hmem),
    fun hmem => hnew (Or.inr ?_)⟩
  · rw [hsingle.retried.store_setStoreOf, hname,
      hs.wrote.there (m.name, data) (List.mem_append_right _ (List.mem_singleton.mpr rfl))]
    exact nofun
  · rwa [hsingle.retried.queue_setStoreOf] at hmem

end Writer

namespace Engine

variable {e e0 e' : Engine} {s s' : Store} {ms : List Manifest} {sync guarded : Bool} {w : Writer}
  {c : Catalog} {g : Generation} {d : Decider} {changes : Changes} {id : Nat}
  {reclaimOnRelease : Bool}

/-! ## Opening -/

/-- The next generation comes after those of all manifests. -/
theorem generation_lt_after {depot : Nat} {history : List Nat}
    (hw : Writer.after depot history sync ms = some w)
    (hsorted : (ms.map Manifest.generation).Pairwise fun g g' => Generation.le g g' = true) :
    ∀ m ∈ ms, m.generation.number < w.nextGeneration.number := by
  unfold Writer.after at hw
  split at hw
  next hnone =>
    rw [List.getLast?_eq_none_iff.mp hnone]
    exact fun m hm => absurd hm List.not_mem_nil
  next last hlast =>
    split at hw
    next version generation _ hgeneration =>
      obtain rfl := Option.some.inj hw
      obtain ⟨n, hn, rfl⟩ := Option.map_eq_some_iff.mp hgeneration
      have hnext : last.generation.number < n := by
        refine UInt64.lt_iff_toNat_lt.mpr ?_
        rw [toNat_of_succ? hn]
        exact Nat.lt_succ_self _
      intro m hm
      obtain ⟨init, rfl⟩ := List.getLast?_eq_some_iff.mp hlast
      rw [List.map_append, List.pairwise_append] at hsorted
      rcases List.mem_append.mp hm with hm | hm
      · have hle := hsorted.2.2 _ (List.mem_map_of_mem hm) _ (List.mem_singleton.mpr rfl)
        exact UInt64.lt_of_le_of_lt (of_decide_eq_true hle) hnext
      · rw [List.mem_singleton.mp hm]
        exact hnext
    next => cases hw

/-- The names of the manifests to come are free, since every file with the name of a manifest has been
read as one. -/
theorem Swept.free (h : Swept s ms sync w c s') (hms : s.readCommits = .ok ms)
    (hfiles : ∀ g, s.medium.node? (Manifest.nameOf g) = none ∨
      ∃ data, s.medium.node? (Manifest.nameOf g) = some (.file data)) :
    ∀ g, w.nextGeneration.number ≤ g.number →
      ((c.setStoreOf 0 s').store 0).medium.node? (Manifest.nameOf g) = none := by
  intro g hg
  have hgenerations := Store.readCommits_generations hms
  rw [h.recounts.tallied.single.store_setStoreOf, h.cleared.node]
  have hnone : s.medium.node? (Manifest.nameOf g) = none := by
    refine (hfiles g).resolve_right fun hfile => ?_
    have hmem : g ∈ ms.map Manifest.generation := by
      rw [hgenerations]
      exact Store.mem_generationsOf.mpr ⟨_, (Store.mem_names_iff s _).mpr hfile,
        Manifest.generationOf?_nameOf g⟩
    obtain ⟨m, hm, rfl⟩ := List.mem_map.mp hmem
    have hlt := generation_lt_after h.after
      (hgenerations ▸ Store.pairwise_generationsOf s.names) m hm
    exact UInt64.lt_irrefl _ (UInt64.lt_of_lt_of_le hlt hg)
  rw [hnone, ite_self]

/-- A writer that has loaded its history finds nothing in its way. -/
theorem Swept.unblocked (h : Swept s ms sync w c s') (hms : s.readCommits = .ok ms)
    (hpresent : ∀ m ∈ ms, ∀ name ∈ m.files, s.exists? name = .ok true)
    (haccepts : ∀ g, s.medium.Accepts (Manifest.nameOf g))
    (hfiles : ∀ g, s.medium.node? (Manifest.nameOf g) = none ∨
      ∃ data, s.medium.node? (Manifest.nameOf g) = some (.file data)) :
    w.Unblocked (c.setStoreOf 0 s') :=
  ⟨h.intact hms hpresent haccepts, h.free hms hfiles⟩

/-! ## Runs -/

/-- A step that leaves a writer unblocked: no number is at its end, and no manifest is left behind
for lack of a synchronisation. -/
def Synced (e : Engine) : Act → Prop
  | .commit d changes => e.Unhindered (.commit d changes) ∧
    ∀ w, e.writer = some w → ¬e.Unsynced w changes
  | .use _ => True
  | .refuse _ => True

/-- There is a writer, and nothing is in its way. -/
def Unblocked (e : Engine) : Prop := ∃ w, e.writer = some w ∧ w.Unblocked e.catalog

/-- There is a writer, and the name of its next manifest is taken. -/
def Blocked (g : Generation) (e : Engine) : Prop :=
  ∃ w, e.writer = some w ∧ w.nextGeneration = g ∧ w.Blocked e.catalog

theorem unblocked_of_openWriter (hms : s.readCommits = .ok ms)
    (hpresent : ∀ m ∈ ms, ∀ name ∈ m.files, s.exists? name = .ok true)
    (haccepts : ∀ g, s.medium.Accepts (Manifest.nameOf g))
    (hfiles : ∀ g, s.medium.node? (Manifest.nameOf g) = none ∨
      ∃ data, s.medium.node? (Manifest.nameOf g) = some (.file data))
    (hopen : (fresh id reclaimOnRelease guarded d s).openWriter 0 sync = (.ok (), e)) :
    e.Unblocked := by
  obtain ⟨w, e1, hload, hpresented⟩ := load_of_openWriter hopen
  obtain ⟨c, s', hswept, rfl⟩ := swept_load rfl hms hload
  have hprunes := presentHistory_prunes w ((fresh id reclaimOnRelease guarded d
    s).dropWriter.setCatalog (c.setStoreOf 0 s'))
  rw [hpresented] at hprunes
  have hunblocked := (hswept.unblocked hms hpresent haccepts hfiles).prunes hprunes
  exact ⟨_, writer_of_presentHistory hpresented, hunblocked.prune⟩

theorem Unblocked.act (h : e.Unblocked) {a : Act} (ha : e.Synced a) : (e.act a).Unblocked := by
  obtain ⟨w, hw, hunblocked⟩ := h
  cases a with
  | commit d changes =>
    obtain ⟨hversion, hgeneration⟩ := ha.1 w hw
    obtain ⟨v, hv⟩ := Option.ne_none_iff_exists'.mp hversion
    obtain ⟨g, hg⟩ := Option.ne_none_iff_exists'.mp hgeneration
    obtain ⟨-, hact⟩ := act_commit_of_some d changes hw
    rw [hact]
    refine hunblocked.commit (e := { e with decider := d }) hv hg fun hunsynced => ha.2 w hw ?_
    exact (unsynced_withDecider hunblocked.tallied.single hunblocked.continues.depot d).mp hunsynced
  | use u => exact ⟨w, hw, hunblocked.prunes (Keeper.use_prunes u e.keeper)⟩
  | refuse faults => exact ⟨w, hw, hunblocked.refuse rfl⟩

theorem Follows.unblocked (h : Follows Synced e0 e) (h0 : e0.Unblocked) : e.Unblocked := by
  induction h with
  | refl => exact h0
  | act a _ _ ha ih => exact ih.act ha

/-- Nothing clears the name that is taken. -/
theorem Blocked.act (h : Blocked g e) (a : Act) : Blocked g (e.act a) := by
  obtain ⟨w, hw, hg, hblocked⟩ := h
  cases a with
  | commit d changes =>
    obtain ⟨-, hact⟩ := act_commit_of_some d changes hw
    obtain ⟨err, e1, w', hstage, hw', hg', hblocked'⟩ :=
      hblocked.rejected (e := { e with decider := d }) changes
    rw [hact, commitWith_of_error hstage]
    exact ⟨w', hw', hg'.trans hg, hblocked'⟩
  | use u => exact ⟨w, hw, hg, hblocked.prunes (Keeper.use_prunes u e.keeper)⟩
  | refuse faults => exact ⟨w, hw, hg, hblocked.refuse rfl⟩

theorem Leads.blocked (h : Leads e0 e) (h0 : Blocked g e0) : Blocked g e := by
  induction h with
  | refl => exact h0
  | act a _ _ ih => exact ih.act a

/-! ## Main statement -/

/-- The engine when the policy decides about a commit that has been written over a store. -/
def offering (w : Writer) (d : Decider) (m : Manifest) (s : Store) (e : Engine) : Engine :=
  ({ e with decider := d }.writtenTo w s).withCommit w m

/-- A commit that has been written is left to the policy, with its manifest in the store. -/
structure Lands (w : Writer) (d : Decider) (changes : Changes) (m : Manifest) (data : Bytes)
    (s : Store) (e : Engine) : Prop where
  /-- The number of the commit is returned, unless the policy fails. -/
  returned : ({ e with decider := d }.commit? changes).1 =
    some (((e.offering w d m s).decide (e.shows (.commit d changes))).1.map
      fun _ => e.catalog.commits.length)
  /-- When the policy is called the manifest is in the store. -/
  written : ((e.offering w d m s).catalog.store 0).medium.node? m.name = some (.file data)
  /-- Afterwards it is there unless the policy has deleted the commit. -/
  stays : (e.act (.commit d changes)).catalog.isDeleted e.catalog.commits.length = false →
    ((e.act (.commit d changes)).catalog.store 0).medium.node? m.name = some (.file data)

/-- A commit is written, with its manifest, shown to the policy after the commits before it, and
stands if the policy lets it. -/
structure Proceeds (w : Writer) (d : Decider) (changes : Changes) (e : Engine) : Prop where
  staged : ∃ w1 m data s, Stages w changes e.catalog w1 m data s ∧ e.Lands w d changes m data s
  shown : e.shows (.commit d changes) =
    e.catalog.undeleted w.history ++ [e.catalog.commits.length]

/-- Every commit fails and is kept from the policy, whatever the store does. If the store works and
the changes are sound, what is in the way is the manifest of a generation. -/
structure Wedged (g : Generation) (e : Engine) : Prop where
  fails : ∀ changes, ∃ err, (e.commit? changes).1 = some (.error err)
  hidden : ∀ d changes, e.shows (.commit d changes) = []
  cause : ∀ w changes, e.writer = some w → (e.catalog.store 0).Works →
    changes.Sound (baseFiles (e.catalog.undeleted w.history) e.catalog) (e.catalog.store 0) →
      (e.commit? changes).1 = some (.error (.store (.alreadyExists (Manifest.nameOf g))))

/-- What stands under the name of the manifest stays when a commit joins, unless the policy deletes
the commit. -/
theorem node_name_of_register {m : Manifest} (h : (e.catalog.adopt 0 m).2.Tallied)
    (hdepot : w.depot = 0)
    (hkept : (e.register w m).2.catalog.isDeleted e.catalog.commits.length = false) :
    ((e.register w m).2.catalog.store 0).medium.node? m.name =
      ((e.catalog.adopt 0 m).2.store 0).medium.node? m.name := by
  have hprunes := register_prunes (e := e) (m := m) hdepot
  have hsame := hprunes.sameCommits
  have hlt : e.catalog.commits.length < (e.register w m).2.catalog.commits.length := by
    rw [hsame.length, Catalog.length_adopt]
    exact Nat.lt_succ_self _
  have hself : ((e.register w m).2.catalog.commit e.catalog.commits.length).manifest = m := by
    rw [hsame.manifest, Catalog.commit_adopt_self]
  have hname := Catalog.mem_referenced_name hlt hkept
  rw [hself] at hname
  exact (h.node_of_prunes hprunes hname).2

/-- A commit that is written and whose numbers can be followed is shown to the policy after those
before it, and its number is returned unless the policy fails. -/
theorem decided_of_stage (hw : e.writer = some w) (hsingle : e.catalog.Single)
    (hdepot : w.depot = 0) {w1 : Writer} {m : Manifest} {e1 : Engine}
    (hstage : { e with decider := d }.stage w changes = (.ok (w1, m), e1))
    (hnext : e.Unhindered (.commit d changes)) :
    e.shows (.commit d changes) = e.catalog.undeleted w.history ++ [e.catalog.commits.length] ∧
      ({ e with decider := d }.commit? changes).1 =
        some (((e1.withCommit w1 m).decide (e.shows (.commit d changes))).1.map
          fun _ => e1.catalog.commits.length) := by
  obtain ⟨hversion, hgeneration⟩ := hnext w hw
  obtain ⟨v, hv⟩ := Option.ne_none_iff_exists'.mp hversion
  obtain ⟨g, hg⟩ := Option.ne_none_iff_exists'.mp hgeneration
  obtain ⟨data, s, hs, he1⟩ :=
    stages_of_stage (e := { e with decider := d }) hsingle hdepot hstage
  have hlength : e1.catalog.commits.length = e.catalog.commits.length := by
    rw [he1]
    exact congrArg List.length hsingle.commits_retried
  have hundeleted : e.catalog.retried.undeleted w.history = e.catalog.undeleted w.history :=
    Catalog.undeleted_congr hsingle.commits_retried _
  obtain ⟨result, hcommit, hshows⟩ := shows_commit d changes hw
  rw [hcommit]
  generalize e.shows (.commit d changes) = shown at hshows ⊢
  generalize e.act (.commit d changes) = e' at hshows
  cases hshows with
  | rejected hrejected => cases (Prod.mk.inj (hrejected.symm.trans hstage)).1
  | overflow hwritten hnone =>
    obtain ⟨hok, rfl⟩ := Prod.mk.inj (hwritten.symm.trans hstage)
    obtain ⟨rfl, rfl⟩ := Prod.mk.inj (Except.ok.inj hok)
    unfold advance at hnone
    simp only [hs.nextVersion, hs.nextGeneration, hv, hg] at hnone
    cases hnone
  | decided hwritten hsome =>
    obtain ⟨hok, rfl⟩ := Prod.mk.inj (hwritten.symm.trans hstage)
    obtain ⟨rfl, rfl⟩ := Prod.mk.inj (Except.ok.inj hok)
    obtain ⟨-, hhistory, -⟩ := advance_eq_some hsome
    refine ⟨?_, rfl⟩
    rw [hhistory, hlength, ← hundeleted, hs.writer]
    rfl

/-- A commit that is written is left to the policy with its manifest in the store. -/
theorem lands_of_stage (hw : e.writer = some w) (h : w.Unblocked e.catalog) {w1 : Writer}
    {m : Manifest} {e1 : Engine}
    (hstage : { e with decider := d }.stage w changes = (.ok (w1, m), e1))
    (hnext : e.Unhindered (.commit d changes)) :
    ∃ data s, Stages w changes e.catalog w1 m data s ∧ e.Lands w d changes m data s := by
  have hsingle := h.tallied.single
  have hdepot := h.continues.depot
  obtain ⟨data, s, hs, he1⟩ :=
    stages_of_stage (e := { e with decider := d }) hsingle hdepot hstage
  have hstages : Stages w changes e.catalog w1 m data s := hs
  have hdepot1 : w1.depot = 0 := hs.depot.trans hdepot
  have hwritten : e1 = { e with decider := d }.writtenTo w s := by
    rw [he1, hs.writer]
    rfl
  have hcatalog : e1.catalog = e.catalog.retried.setStoreOf 0 s := by
    rw [hwritten]
    rfl
  have hlength : e1.catalog.commits.length = e.catalog.commits.length := by
    rw [hcatalog]
    exact congrArg List.length hsingle.commits_retried
  have hoffering : e1.withCommit w1 m = e.offering w d m s := by
    unfold offering withCommit
    rw [hwritten, hs.depot]
  -- what has been written is there when the commit has joined
  have hnode : ((e1.catalog.adopt 0 m).2.store 0).medium.node? m.name = some (.file data) := by
    rw [hcatalog, hsingle.retried.store_written]
    exact hs.wrote.there (m.name, data) (List.mem_append_right _ (List.mem_singleton.mpr rfl))
  refine ⟨data, s, hstages, ⟨?_, ?_, fun hkept => ?_⟩⟩
  · rw [(decided_of_stage hw hsingle hdepot hstage hnext).2, hoffering, hlength]
  · rw [← hoffering]
    unfold withCommit
    rw [hdepot1]
    exact hnode
  · obtain ⟨v, hv⟩ := Option.ne_none_iff_exists'.mp (hnext w hw).1
    obtain ⟨g, hg⟩ := Option.ne_none_iff_exists'.mp (hnext w hw).2
    have htallied : (e1.catalog.adopt 0 m).2.Tallied := by
      rw [hcatalog]
      exact (h.join hstages hv hg).tallied
    rw [(act_commit_of_some d changes hw).2, commitWith_of_ok hstage] at hkept ⊢
    rw [← hlength] at hkept
    rw [node_name_of_register htallied hdepot1 hkept]
    exact hnode

/-- In a store that works, sound changes are written and shown to the policy if nothing is in the
way. -/
theorem proceeds_of_unblocked (hw : e.writer = some w) (h : w.Unblocked e.catalog)
    (hworks : (e.catalog.store 0).Works)
    (hsound : changes.Sound (baseFiles (e.catalog.undeleted w.history) e.catalog)
      (e.catalog.store 0)) (hnext : e.Unhindered (.commit d changes)) :
    e.Proceeds w d changes := by
  obtain ⟨⟨w1, m⟩, hok⟩ := h.toIntact.stage_of_free (e := { e with decider := d }) hworks hsound
    (h.free _ (UInt64.le_refl _))
  obtain ⟨e1, hstage⟩ : ∃ e1, { e with decider := d }.stage w changes = (.ok (w1, m), e1) :=
    ⟨_, Prod.ext hok rfl⟩
  obtain ⟨data, s, hs, hlands⟩ := lands_of_stage hw h hstage hnext
  exact ⟨⟨w1, m, data, s, hs, hlands⟩,
    (decided_of_stage hw h.tallied.single h.continues.depot hstage hnext).1⟩

/-- A writer whose next manifest has its name taken is at its end. -/
theorem Blocked.wedged (h : Blocked g e) : Wedged g e := by
  obtain ⟨w, hw, rfl, hblocked⟩ := h
  have hcommit : ∀ changes err e1, e.stage w changes = (.error err, e1) →
      e.commit? changes = (some (.error err), e1) := by
    intro changes err e1 hstage
    rw [commit?_of_writer hw, commitWith_of_error hstage]
  refine ⟨fun changes => ?_, fun d changes => ?_, fun w' changes hw' hworks hsound => ?_⟩
  · obtain ⟨err, e1, -, hstage, -⟩ := hblocked.rejected changes
    exact ⟨err, congrArg Prod.fst (hcommit changes err e1 hstage)⟩
  · obtain ⟨err, e1, -, hstage, -⟩ := hblocked.rejected (e := { e with decider := d }) changes
    rw [(act_commit_of_some d changes hw).1]
    unfold committed
    rw [hstage]
  · obtain rfl := Option.some.inj (hw.symm.trans hw')
    have htaken := hblocked.toIntact.stage_of_taken hworks hsound hblocked.taken hblocked.unlisted
      hblocked.unqueued
    exact congrArg Prod.fst (hcommit changes _ _ (Prod.ext htaken rfl))

/-- A commit that fails only because it was not synchronised leaves the name of the next manifest
taken. -/
theorem Unblocked.blocked (hw : e.writer = some w) (h : w.Unblocked e.catalog)
    (hunsynced : e.Unsynced w changes) (d : Decider) :
    (e.catalog.store 0).RefusesSync ∧ Blocked w.nextGeneration (e.act (.commit d changes)) := by
  have hunsynced' := (unsynced_withDecider h.tallied.single h.continues.depot d).mpr hunsynced
  obtain ⟨hrefuses, err, e1, w', hstage, hw', hg, hblocked⟩ :=
    h.unsynced (e := { e with decider := d }) hunsynced'
  rw [(act_commit_of_some d changes hw).2, commitWith_of_error hstage]
  exact ⟨hrefuses, w', hw', hg, hblocked⟩

/-- However accesses of the store fail, as soon as it works again sound changes are written and
shown to the policy, unless a commit failed after its manifest had been written, because it could
not be synchronised. After such a commit, none is ever written again. -/
theorem blocked_only_by_unsynced (hms : s.readCommits = .ok ms)
    (hpresent : ∀ m ∈ ms, ∀ name ∈ m.files, s.exists? name = .ok true)
    (haccepts : ∀ g, s.medium.Accepts (Manifest.nameOf g))
    (hfiles : ∀ g, s.medium.node? (Manifest.nameOf g) = none ∨
      ∃ data, s.medium.node? (Manifest.nameOf g) = some (.file data))
    (hopen : (fresh id reclaimOnRelease guarded d s).openWriter 0 sync = (.ok (), e0))
    (h : Follows Synced e0 e) (hw : e.writer = some w) :
    (∀ d changes, (e.catalog.store 0).Works →
        changes.Sound (baseFiles (e.catalog.undeleted w.history) e.catalog) (e.catalog.store 0) →
          e.Unhindered (.commit d changes) → e.Proceeds w d changes) ∧
      ∀ d changes, e.Unsynced w changes → (e.catalog.store 0).RefusesSync ∧
        ∀ e', Leads (e.act (.commit d changes)) e' → Wedged w.nextGeneration e' := by
  obtain ⟨w', hw', hunblocked⟩ :=
    h.unblocked (unblocked_of_openWriter hms hpresent haccepts hfiles hopen)
  obtain rfl := Option.some.inj (hw'.symm.trans hw)
  refine ⟨fun d changes hworks hsound hnext => ?_, fun d changes hunsynced => ?_⟩
  · exact proceeds_of_unblocked hw hunblocked hworks hsound hnext
  · obtain ⟨hrefuses, hblocked⟩ := Unblocked.blocked hw hunblocked hunsynced d
    exact ⟨hrefuses, fun e' hleads => (hleads.blocked hblocked).wedged⟩

/-- A commit has failed while nothing could be written, but now everything works. -/
def mended : Engine :=
  ((opened.act (.refuse (.switches true false))).act
    (.commit (.stock .keepOnlyLast) ⟨[("a", [1])], [], 0⟩)).act (.refuse .never)

/-- Nothing can be synchronised. -/
def unsyncable : Engine := opened.act (.refuse (.listed [(.sync, "*")]))

/-- A commit has failed since it could not be synchronised, but now everything works. -/
def remembering : Engine :=
  (unsyncable.act (.commit (.stock .keepOnlyLast) ⟨[("a", [1])], [], 0⟩)).act (.refuse .never)

theorem valid_b : Store.isValidName "b" = true := by decide +kernel

/-- A file may be added to a store that does not have it. -/
theorem sound_of_free {s : Store} (hfree : s.medium.node? "b" = none)
    (haccepts : s.medium.Accepts "b") : Changes.Sound ⟨[("b", [2])], [], 0⟩ [] s := by
  refine ⟨by decide, by decide, by decide, by decide +kernel, ?_, by decide +kernel, ?_, ?_⟩
  · intro q hq
    rw [List.mem_singleton.mp hq]
    exact haccepts
  · intro q hq
    rw [List.mem_singleton.mp hq]
    exact hfree
  · intro after hafter
    obtain rfl := Except.ok.inj (hafter.symm.trans (by decide +kernel :
      Changes.apply ⟨[("b", [2])], [], 0⟩ [] = .ok ["b"]))
    decide

/-- While nothing can be written no commit leaves anything behind, but one that is not synchronised
does. -/
theorem blocked_only_by_unsynced_opened :
    mended.Proceeds ⟨0, [], ⟨1⟩, ⟨1⟩, 0, true⟩ (.stock .keepOnlyLast) ⟨[("b", [2])], [], 0⟩ ∧
      ∀ e', Leads (unsyncable.act (.commit (.stock .keepOnlyLast) ⟨[("a", [1])], [], 0⟩)) e' →
        Wedged ⟨1⟩ e' := by
  have hms : Store.empty.readCommits = .ok [] := by decide +kernel
  have hfree : ∀ g, Store.empty.medium.node? (Manifest.nameOf g) = none := fun g => rfl
  have hopen : (fresh 0 true true (.stock .keepOnlyLast) .empty).openWriter 0 true =
      (.ok (), opened) := Prod.ext (by decide +kernel) rfl
  have hfirst : mended.writer = some ⟨0, [], ⟨1⟩, ⟨1⟩, 0, true⟩ := by decide +kernel
  have hfailed : (opened.act (.refuse (.switches true false))).Synced
      (.commit (.stock .keepOnlyLast) ⟨[("a", [1])], [], 0⟩) := by
    have hw : (opened.act (.refuse (.switches true false))).writer =
      some ⟨0, [], ⟨1⟩, ⟨1⟩, 0, true⟩ := by decide +kernel
    refine ⟨unhindered_of_writer hw (by decide +kernel), fun w hw' => ?_⟩
    obtain rfl := Option.some.inj (hw.symm.trans hw')
    rintro ⟨-, p, hp⟩
    cases hp.symm.trans (by decide +kernel : (stage ⟨0, [], ⟨1⟩, ⟨1⟩, 0, false⟩ _
      (opened.act (.refuse (.switches true false)))).1 =
        .error (.store (.io (.injected .write "a"))))
  have hmended : Follows Synced opened mended :=
    .act _ (.act _ (.act _ .refl trivial trivial) trivial hfailed) trivial trivial
  have hunsyncable : Follows Synced opened unsyncable := .act _ .refl trivial trivial
  have hunsynced : unsyncable.Unsynced ⟨0, [], ⟨1⟩, ⟨1⟩, 0, true⟩ ⟨[("a", [1])], [], 0⟩ := by
    refine ⟨⟨.store (.io (.scripted .sync "")), by decide +kernel⟩,
      (⟨0, [], ⟨1⟩, ⟨1⟩, 0, false⟩, ⟨⟨1⟩, ⟨1⟩, 0, ["a"]⟩), by decide +kernel⟩
  obtain ⟨hproceeds, -⟩ := blocked_only_by_unsynced hms (fun m hm => absurd hm List.not_mem_nil)
    Manifest.isValidName_nameOf (fun g => Or.inl (hfree g)) hopen hmended hfirst
  obtain ⟨-, hwedged⟩ := blocked_only_by_unsynced hms (fun m hm => absurd hm List.not_mem_nil)
    Manifest.isValidName_nameOf (fun g => Or.inl (hfree g)) hopen hunsyncable
    (w := ⟨0, [], ⟨1⟩, ⟨1⟩, 0, true⟩) (by decide +kernel)
  refine ⟨hproceeds _ _ (Store.works_of_never (by with_unfolding_all rfl)) ?_
    (unhindered_of_writer hfirst (by decide +kernel)), (hwedged _ _ hunsynced).2⟩
  exact sound_of_free (by decide +kernel) (by with_unfolding_all exact valid_b)

/-- The name of the first manifest is taken for good, although the store works and the changes are
sound. -/
theorem alreadyExists_of_unsynced :
    (unsyncable.commit? ⟨[("a", [1])], [], 0⟩).1 =
        some (.error (.store (.io (.scripted .sync "")))) ∧
      (remembering.catalog.store 0).Works ∧
        Changes.Sound ⟨[("b", [2])], [], 0⟩ (baseFiles [] remembering.catalog)
          (remembering.catalog.store 0) ∧
          (remembering.commit? ⟨[("b", [2])], [], 0⟩).1 =
            some (.error (.store (.alreadyExists "commit_1"))) := by
  refine ⟨by decide +kernel, Store.works_of_never (by with_unfolding_all rfl), ?_,
    by decide +kernel⟩
  exact sound_of_free (by decide +kernel) (by with_unfolding_all exact valid_b)

end Engine

end SnapshotRetention
