import SnapshotRetention.Proofs.Writer.History
import SnapshotRetention.Proofs.Writer.Running

/-!
# Opening a writer

A writer opens over a store whose manifests can be read and which has everything that they list. It
loads the history (`Engine.load`): each manifest becomes a commit, and only what no commit lists is
swept away, so that the writer fits a keeper that has seen no commit yet (`loaded_load`). Then the
history is shown to the policy, if there is any (`Loaded.present`).
-/

namespace SnapshotRetention

open Keeper

variable {s s' : Store} {ms : List Manifest} {w : Writer} {e : Engine} {sync : Bool}

/-! ## Sweeping -/

/-- The sweep leaves what is kept. -/
theorem Store.data?_deleteStrays {kept : String → Bool} {q : String} (hq : kept q = true)
    (names : List String) (s : Store) : (s.deleteStrays kept names).2.data? q = s.data? q := by
  induction names generalizing s with
  | nil => rfl
  | cons name rest ih =>
    unfold deleteStrays
    split
    next => exact ih s
    next hstray =>
      have hne : q ≠ name := by
        rintro rfl
        exact hstray hq
      have hdelete := data?_delete_of_ne hne s
      split
      next e s1 heq =>
        rw [heq] at hdelete
        exact hdelete
      next s1 heq =>
        rw [heq] at hdelete
        exact (ih s1).trans hdelete

theorem Store.data?_sweep {kept : String → Bool} {q : String} (hq : kept q = true) (s : Store) :
    (s.sweep kept).2.data? q = s.data? q := by
  unfold sweep
  split
  next => rfl
  next names _ => exact data?_deleteStrays hq names s

/-! ## Adopting the history -/

namespace Catalog

/-- The catalog of a store that has a tracker but no commit. -/
theorem backed_ofStore (s : Store) : ((Catalog.ofStore s).addDepot 0).Backed := by
  refine ⟨⟨⟨s, rfl⟩, ⟨Tracker.empty, rfl⟩⟩, ?_, ?_, ?_⟩
  · intro n hn
    exact absurd hn (Nat.not_lt_zero n)
  · intro name
    rfl
  · intro name hname
    exact absurd hname List.not_mem_nil

theorem Single.adopt {c : Catalog} (h : c.Single) (m : Manifest) : (c.adopt 0 m).2.Single := by
  rw [h.adopt_eq]
  exact ⟨h.stores, ⟨_, rfl⟩⟩

theorem Single.stores_adopt {c : Catalog} (h : c.Single) (m : Manifest) :
    (c.adopt 0 m).2.stores = c.stores := by rw [h.adopt_eq]

/-- What adopting a history leaves. -/
structure Adopts (ms : List Manifest) (c : Catalog) (ns : List Nat) (d : Catalog) : Prop where
  numbers : ns = List.range' c.commits.length ms.length
  commits : d.commits = c.commits ++ ms.map fun m => ⟨m, .artifacts 0, false⟩
  stores : d.stores = c.stores

theorem adopts_adoptAll {c : Catalog} (h : c.Single) (ms : List Manifest) :
    Adopts ms c (adoptAll 0 ms c).1 (adoptAll 0 ms c).2 := by
  induction ms generalizing c with
  | nil => exact ⟨rfl, (List.append_nil _).symm, rfl⟩
  | cons m ms ih =>
    have hall := ih (h.adopt m)
    refine ⟨?_, ?_, hall.stores.trans (h.stores_adopt m)⟩
    · show c.commits.length :: (adoptAll 0 ms (c.adopt 0 m).2).1 = _
      rw [hall.numbers, length_adopt]
      rfl
    · refine hall.commits.trans ?_
      show (c.commits ++ [_]) ++ _ = _
      rw [List.append_assoc]
      rfl

theorem Backed.adoptAll {c : Catalog} (h : c.Backed)
    (hpresent : ∀ m ∈ ms, ∀ name ∈ m.fileNames, ((c.store 0).data? name).isSome) :
    (adoptAll 0 ms c).2.Backed := by
  induction ms generalizing c with
  | nil => exact h
  | cons m ms ih =>
    have hstore : (c.adopt 0 m).2.store 0 = c.store 0 := by
      unfold store
      rw [h.single.stores_adopt m]
    exact ih (h.adopt (hpresent m List.mem_cons_self)).1 fun m' hm' =>
      hstore.symm ▸ hpresent m' (List.mem_cons_of_mem _ hm')

/-- The commits of adopted manifests have their versions, in their order, and are not deleted. -/
theorem commit_of_adopted {c : Catalog}
    (h : c.commits = ms.map fun m => ⟨m, .artifacts 0, false⟩) {n : Nat} (hn : n < ms.length) :
    c.commit n = ⟨ms[n], .artifacts 0, false⟩ := by
  unfold Catalog.commit
  rw [h]
  simp [hn]

theorem ascending_of_adopted {c : Catalog}
    (h : c.commits = ms.map fun m => ⟨m, .artifacts 0, false⟩)
    (hsorted : (ms.map Manifest.version).Pairwise (· < ·)) : c.Ascending := by
  intro i j hij hj
  have hj : j < ms.length := by simpa [h] using hj
  have hi : i < ms.length := Nat.lt_trans hij hj
  unfold version
  rw [commit_of_adopted h hi, commit_of_adopted h hj]
  exact List.pairwise_iff_getElem.mp (List.pairwise_map.mp hsorted) i j hi hj hij

end Catalog

/-! ## Loading -/

namespace Engine

/-- The part of opening a writer before the history is shown to the policy. -/
def load (store : Nat) (sync : Bool) (e : Engine) : Except Error Writer × Engine :=
  let e := e.dropWriter
  match (e.catalog.store store).readCommits with
  | .error err => (.error err, e)
  | .ok manifests =>
    let depot := e.catalog.depots.length
    let (history, c) := (e.catalog.addDepot store).adoptAll depot manifests
    let (swept, s) := (c.store store).sweep (c.tracker depot).isReferenced
    let e := e.setCatalog (c.setStore store s)
    match swept with
    | .error err => (.error (.store err), e)
    | .ok () =>
      match Writer.after depot history sync manifests with
      | none => (.error .counterOverflow, e)
      | some w => (.ok w, e)

/-- A writer opens by loading its history and showing it to the policy. -/
theorem openWriter_eq_load (store : Nat) (sync : Bool) (e : Engine) :
    e.openWriter store sync =
      match e.load store sync with
      | (.error err, e1) => (.error err, e1)
      | (.ok w, e1) => e1.presentHistory w := by
  unfold openWriter load
  dsimp only
  cases (e.dropWriter.catalog.store store).readCommits with
  | error err => rfl
  | ok manifests =>
    dsimp only
    generalize Catalog.adoptAll _ manifests (e.dropWriter.catalog.addDepot store) = adopted
    generalize (adopted.2.store store).sweep _ = swept
    cases swept.1 with
    | error err => rfl
    | ok _ =>
      dsimp only
      cases Writer.after e.dropWriter.catalog.depots.length adopted.1 sync manifests with
      | none => rfl
      | some w => rfl

/-- A writer opens if its history can be loaded and the policy accepts it. -/
theorem openWriter_of_load {store : Nat} {e1 : Engine} (h : e.load store sync = (.ok w, e1)) :
    e.openWriter store sync = e1.presentHistory w := by
  rw [openWriter_eq_load, h]

/-- A writer that has opened has loaded its history. -/
theorem load_of_openWriter {store : Nat} {e' : Engine}
    (h : e.openWriter store sync = (.ok (), e')) : ∃ w e1, e.load store sync = (.ok w, e1) ∧
      e1.presentHistory w = (.ok (), e') := by
  rw [openWriter_eq_load] at h
  split at h
  next => cases (Prod.mk.inj h).1
  next w e1 hload => exact ⟨w, e1, hload, h⟩

/-- A new engine over a store, with a guarded policy. -/
def onStore (id : Nat) (reclaimOnRelease : Bool) (d : Decider) (s : Store) : Engine :=
  ⟨.new id reclaimOnRelease (.ofStore s), d, true, none⟩

/-- An engine whose writer has loaded its history but has not been installed. -/
structure Loaded (w : Writer) (e : Engine) : Prop where
  guarded : e.guarded = true
  writer : e.writer = none
  fits : w.Fits e.keeper
  history : w.history = List.range e.catalog.commits.length
  undeleted : ∀ n, n < e.catalog.commits.length → e.catalog.isDeleted n = false
  unheld : ∀ v, e.keeper.holds.count v = 0
  unlisted : e.keeper.live = none

/-- The numbers of the writer come after those of all commits. -/
theorem version_lt_after {depot : Nat} {history : List Nat}
    (hw : Writer.after depot history sync ms = some w)
    (hsorted : (ms.map Manifest.version).Pairwise (· < ·)) :
    w.depot = depot ∧ w.history = history ∧ ∀ m ∈ ms, m.version < w.nextVersion := by
  unfold Writer.after at hw
  split at hw
  next hnone =>
    obtain rfl := Option.some.inj hw
    rw [List.getLast?_eq_none_iff.mp hnone]
    exact ⟨rfl, rfl, fun m hm => absurd hm List.not_mem_nil⟩
  next last hlast =>
    split at hw
    next version generation hversion _ =>
      obtain rfl := Option.some.inj hw
      refine ⟨rfl, rfl, ?_⟩
      intro m hm
      have hnext := Version.lt_of_next? hversion
      -- versions ascend, so that the last of them is the greatest
      obtain ⟨init, rfl⟩ := List.getLast?_eq_some_iff.mp hlast
      rw [List.map_append, List.pairwise_append] at hsorted
      rcases List.mem_append.mp hm with hm | hm
      · have hlt := hsorted.2.2 _ (List.mem_map_of_mem hm) _ (List.mem_singleton.mpr rfl)
        exact KeyOrder.lt_trans hlt hnext
      · rw [List.mem_singleton.mp hm]
        exact hnext
    next => cases hw

theorem loaded_load {id : Nat} {reclaimOnRelease : Bool} {d : Decider}
    (hms : s.readCommits = .ok ms)
    (hpresent : ∀ m ∈ ms, ∀ name ∈ m.files, (s.data? name).isSome)
    (h : (onStore id reclaimOnRelease d s).load 0 sync = (.ok w, e)) : Loaded w e := by
  obtain ⟨hsorted, hmanifests⟩ := Store.readCommits_ok hms
  have hall : ∀ m ∈ ms, ∀ name ∈ m.fileNames,
      ((((Catalog.ofStore s).addDepot 0).store 0).data? name).isSome := by
    intro m hm name hname
    rcases List.mem_append.mp hname with hfile | hself
    · exact hpresent m hm name hfile
    · rw [List.mem_singleton.mp hself]
      exact hmanifests m hm
  have hbacked := (Catalog.backed_ofStore s).adoptAll hall
  have hadopts := Catalog.adopts_adoptAll (Catalog.backed_ofStore s).single ms
  unfold load at h
  dsimp only at h
  rw [show ((onStore id reclaimOnRelease d s).dropWriter.catalog.store 0).readCommits = .ok ms from
    hms] at h
  dsimp only at h
  split at h
  next => cases (Prod.mk.inj h).1
  next hswept =>
    split at h
    next => cases (Prod.mk.inj h).1
    next w1 hw1 =>
      obtain ⟨hok, rfl⟩ := Prod.mk.inj h
      obtain rfl := Except.ok.inj hok
      have hw : Writer.after 0 (Catalog.adoptAll 0 ms ((Catalog.ofStore s).addDepot 0)).1 sync ms =
          some w1 := hw1
      generalize hc : (Catalog.adoptAll 0 ms ((Catalog.ofStore s).addDepot 0)).2 = c
        at hbacked hadopts
      have hcommits : c.commits = ms.map fun m => ⟨m, .artifacts 0, false⟩ := hadopts.commits
      have hlength : c.commits.length = ms.length := by simp [hcommits]
      obtain ⟨hdepot, hhistory, hnext⟩ := version_lt_after hw hsorted
      -- what a commit lists has a reference, which is what the sweep asks for
      have hkeeps : ∀ name ∈ c.referenced,
          ((c.store 0).sweep (c.tracker 0).isReferenced).2.data? name = (c.store 0).data? name :=
        fun name hname =>
          Store.data?_sweep (decide_eq_true (hbacked.refCount_pos hname)) _
      have hbacked := (hbacked.setStore hkeeps).1
      have hascending := Catalog.ascending_of_adopted hcommits hsorted
      have hrange : w1.history = List.range c.commits.length := by
        rw [hhistory, hadopts.numbers, hlength]
        exact List.range_eq_range'.symm
      have hundeleted : ∀ n, n < c.commits.length → c.isDeleted n = false := by
        intro n hn
        unfold Catalog.isDeleted
        rw [Catalog.commit_of_adopted hcommits (hlength ▸ hn)]
      have hversion : ∀ n, n < c.commits.length → c.version n < w1.nextVersion := by
        intro n hn
        unfold Catalog.version
        rw [Catalog.commit_of_adopted hcommits (hlength ▸ hn)]
        exact hnext _ (List.getElem_mem _)
      have hfits : w1.Fits (.new id reclaimOnRelease
          (c.setStore 0 ((c.store 0).sweep (c.tracker 0).isReferenced).2)) :=
        { safe := .new id reclaimOnRelease hbacked hascending.distinct
          depot := hdepot
          ascending := hascending
          next := hversion
          sorted := hrange ▸ List.pairwise_lt_range
          range := fun n hn => List.mem_range.mp (hrange ▸ hn)
          complete := fun n hn _ => hrange ▸ List.mem_range.mpr hn }
      subst hc
      exact ⟨rfl, rfl, hfits, hrange, hundeleted, fun v => rfl, rfl⟩

/-! ## The first cycle -/

/-- The loaded history is shown to the policy, if there is any. -/
theorem Loaded.present (h : Loaded w e) :
    Advances 0 e.catalog.commits.length w.history e (e.presentHistory w).2 := by
  have hrunning : Running 0 e :=
    ⟨h.guarded, h.fits.safe, Nat.zero_le _, fun w' hw' => by rw [h.writer] at hw'; cases hw'⟩
  unfold presentHistory
  split
  next hnil =>
    have hnone : e.catalog.commits.length = 0 := by
      rw [h.history] at hnil
      exact List.range_eq_nil.mp hnil
    rw [hnone, hnil]
    refine .silent ⟨h.guarded, h.fits.safe, Nat.zero_le _, ?_⟩ (.refl _) rfl rfl
      fun _ hexact => hexact
    intro w' hw'
    obtain rfl := Option.some.inj hw'
    exact Or.inl ⟨h.fits, hnone.symm⟩
  next hsome =>
    have hne : w.history ≠ [] := fun hnil => hsome hnil
    obtain ⟨n, hlast⟩ := Option.isSome_iff_exists.mp (List.getLast?_isSome.mpr hne)
    have hn := h.fits.range n (List.mem_of_getLast? hlast)
    have hoffers := h.fits.offers hlast (h.undeleted n hn) (h.unheld _)
    obtain ⟨requests, hdeletes, hdecide⟩ := decide_of_guarded h.guarded w.history
    have hcycle := h.fits.cycle hoffers requests
    have hlength : (e.keeper.cycle w.history requests).2.catalog.commits.length =
        e.catalog.commits.length := hcycle.length
    -- whether the policy fails decides about the writer only
    have hshown : ∀ e', e'.keeper = (e.keeper.cycle w.history requests).2 →
        e'.decider = e.decider → Running e.catalog.commits.length e' →
          Advances 0 e.catalog.commits.length w.history e e' := by
      intro e' hkeeper hdecider hrunning'
      have hcatalog : e'.catalog = (e.keeper.cycle w.history requests).2.catalog :=
        congrArg Keeper.catalog hkeeper
      refine ⟨hrunning', hcatalog ▸ hcycle.later, Nat.zero_le _, h.fits.range, ?_, ?_, ?_, ?_⟩
      · rw [hkeeper]
        exact hcycle.reclaimOnRelease
      · intro seen _
        rw [hkeeper]
        exact hcycle.listed seen
      · intro hon _
        rw [hkeeper]
        exact hcycle.exact (Or.inl hon) _
      · intro _ hall
        rw [hkeeper]
        rw [hdecider] at hall
        exact hcycle.exact (hall.imp_right hdeletes) _
    rw [hdecide]
    split
    next err e1 heq =>
      obtain ⟨-, rfl⟩ := Prod.mk.inj heq
      refine hshown _ rfl rfl ⟨h.guarded, hcycle.fits.safe, Nat.le_of_eq hlength.symm, ?_⟩
      intro w' hw'
      have hnone : e.writer = some w' := hw'
      rw [h.writer] at hnone
      cases hnone
    next e1 heq =>
      obtain ⟨-, rfl⟩ := Prod.mk.inj heq
      refine hshown _ rfl rfl ⟨h.guarded, hcycle.fits.safe, Nat.le_of_eq hlength.symm, ?_⟩
      intro w' hw'
      obtain rfl := Option.some.inj hw'
      exact Or.inl ⟨hcycle.fits.prune, hlength.symm⟩

end Engine

end SnapshotRetention
