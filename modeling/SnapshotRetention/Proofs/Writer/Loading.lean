import SnapshotRetention.Proofs.Writer.Staging

/-!
# What opening a writer leaves in the store

A writer that has loaded its history (`Engine.Swept`) has cleared every file that no commit lists,
so that each name is accounted for (`Swept.tidy`), whether what the commits list is in the store or
not. If it is, the catalog is housed (`Swept.housed`). Showing the history to the policy deletes
commits and does nothing else (`presentHistory_prunes`).
-/

namespace SnapshotRetention

open Catalog (Prunes Tidy Housed Tallied)
open Store (Node Cleared)

variable {s s' : Store} {ms : List Manifest} {w : Writer} {e e' : Engine} {sync : Bool}

/-! ## Adopting -/

namespace Catalog

variable {c : Catalog}

theorem tallied_ofStore (s : Store) : ((Catalog.ofStore s).addDepot 0).Tallied :=
  ⟨⟨⟨s, rfl⟩, ⟨Tracker.empty, rfl⟩⟩, fun n hn => absurd hn (Nat.not_lt_zero n), fun _ => rfl,
    List.nodup_nil, fun _ hq => absurd hq List.not_mem_nil⟩

theorem Tallied.adoptAll (h : c.Tallied) (hqueue : (c.tracker 0).queue = []) (ms : List Manifest) :
    (adoptAll 0 ms c).2.Tallied ∧ ((adoptAll 0 ms c).2.tracker 0).queue = [] := by
  induction ms generalizing c with
  | nil => exact ⟨h, hqueue⟩
  | cons m ms ih =>
    have hempty : ((c.adopt 0 m).2.tracker 0).queue = [] := by
      rw [h.single.adopt_eq]
      exact (Tracker.queue_incref m.fileNames (c.tracker 0)).trans hqueue
    exact ih (h.adopt fun q _ hwaits => by rw [hqueue] at hwaits; cases hwaits) hempty

/-- A file is swept if no commit lists it. -/
theorem Tallied.mem_stray (h : c.Tallied) {q : String} :
    q ∈ s.names.filter (fun q => !(c.tracker 0).isReferenced q) ↔
      (∃ data, s.medium.node? q = some (.file data)) ∧ q ∉ c.referenced := by
  rw [List.mem_filter, Store.mem_names_iff, ← h.refCount_eq_zero_iff]
  refine and_congr_right fun _ => ?_
  simp [Tracker.isReferenced]

/-- Adopting a history, with nothing queued. -/
structure Recounts (ms : List Manifest) (c : Catalog) (ns : List Nat) (d : Catalog) : Prop
    extends Adopts ms c ns d where
  tallied : d.Tallied
  queue : (d.tracker 0).queue = []

theorem recounts_adoptAll (h : c.Tallied) (hqueue : (c.tracker 0).queue = []) (ms : List Manifest) :
    Recounts ms c (adoptAll 0 ms c).1 (adoptAll 0 ms c).2 := by
  obtain ⟨htallied, hempty⟩ := h.adoptAll hqueue ms
  exact ⟨adopts_adoptAll h.single ms, htallied, hempty⟩

theorem Recounts.referenced_eq {ns : List Nat} {d : Catalog}
    (h : Recounts ms ((Catalog.ofStore s).addDepot 0) ns d) :
    d.referenced = ms.flatMap Manifest.fileNames := by
  unfold referenced
  rw [h.commits]
  show (([] : List Commit) ++ ms.map _).flatMap Commit.references = _
  rw [List.nil_append, List.flatMap_map]
  rfl

end Catalog

/-! ## Loading -/

namespace Engine

/-- What loading a history over a store leaves: the commits of the manifests, and a store from which
everything else has been cleared. -/
structure Swept (s : Store) (ms : List Manifest) (sync : Bool) (w : Writer) (c : Catalog)
    (s' : Store) : Prop where
  catalog : c = (Catalog.adoptAll 0 ms ((Catalog.ofStore s).addDepot 0)).2
  store : s' = (s.sweep (c.tracker 0).isReferenced).2
  recounts : Catalog.Recounts ms ((Catalog.ofStore s).addDepot 0) (List.range ms.length) c
  after : Writer.after 0 (List.range ms.length) sync ms = some w
  cleared : Cleared (s.names.filter fun q => !(c.tracker 0).isReferenced q) [] s s'

/-- Loading adopts the history and sweeps the store. -/
theorem load_eq (hcatalog : e.catalog = .ofStore s) (hms : s.readCommits = .ok ms) (sync : Bool) :
    ∃ c, c = (Catalog.adoptAll 0 ms ((Catalog.ofStore s).addDepot 0)).2 ∧
      Catalog.Recounts ms ((Catalog.ofStore s).addDepot 0) (List.range ms.length) c ∧
      e.load 0 sync =
        (match (s.sweep (c.tracker 0).isReferenced).1 with
          | .error err => .error (.store err)
          | .ok () =>
            match Writer.after 0 (List.range ms.length) sync ms with
            | none => .error .counterOverflow
            | some w => .ok w,
          e.dropWriter.setCatalog (c.setStoreOf 0 (s.sweep (c.tracker 0).isReferenced).2)) := by
  have hall := Catalog.recounts_adoptAll (Catalog.tallied_ofStore s) rfl ms
  have hnumbers := hall.numbers
  have hdropped : e.dropWriter.catalog = .ofStore s := hcatalog
  unfold load
  dsimp only
  rw [hdropped, show ((Catalog.ofStore s).store 0).readCommits = .ok ms from hms]
  dsimp only
  rw [show (Catalog.ofStore s).depots.length = 0 from rfl]
  generalize Catalog.adoptAll 0 ms ((Catalog.ofStore s).addDepot 0) = adopted at hall hnumbers ⊢
  obtain ⟨ns, c⟩ := adopted
  obtain rfl : ns = List.range ms.length := hnumbers.trans List.range_eq_range'.symm
  dsimp only at hall ⊢
  have hstore : c.store 0 = s := by
    unfold Catalog.store
    rw [hall.stores]
    rfl
  have hplace : ∀ s', c.setStore 0 s' = c.setStoreOf 0 s' := by
    obtain ⟨t, ht⟩ := hall.tallied.single.depots
    intro s'
    unfold Catalog.setStoreOf Catalog.depot
    rw [ht]
    rfl
  refine ⟨c, rfl, hall, ?_⟩
  rw [hstore, hplace]
  cases (s.sweep (c.tracker 0).isReferenced).1 with
  | error err => rfl
  | ok _ =>
    dsimp only
    cases Writer.after 0 (List.range ms.length) sync ms with
    | none => rfl
    | some w => rfl

theorem swept_load (hcatalog : e.catalog = .ofStore s) (hms : s.readCommits = .ok ms)
    (h : e.load 0 sync = (.ok w, e')) : ∃ c s', Swept s ms sync w c s' ∧
      e' = e.dropWriter.setCatalog (c.setStoreOf 0 s') := by
  obtain ⟨c, hc, hall, hload⟩ := load_eq hcatalog hms sync
  rw [hload] at h
  obtain ⟨hok, rfl⟩ := Prod.mk.inj h
  refine ⟨c, (s.sweep (c.tracker 0).isReferenced).2, ⟨hc, rfl, hall, ?_, ?_⟩, rfl⟩
  · split at hok
    next => cases hok
    next =>
      split at hok
      next => cases hok
      next w1 hw1 =>
        obtain rfl := Except.ok.inj hok
        exact hw1
  · split at hok
    next => cases hok
    next hswept => exact Store.cleared_sweep hswept

theorem readCommits_of_load (hcatalog : e.catalog = .ofStore s)
    (h : e.load 0 sync = (.ok w, e')) : ∃ ms, s.readCommits = .ok ms := by
  have hdropped : e.dropWriter.catalog = .ofStore s := hcatalog
  unfold load at h
  dsimp only at h
  rw [hdropped] at h
  split at h
  next => cases (Prod.mk.inj h).1
  next ms hms => exact ⟨ms, hms⟩

/-- In a store that never fails a history loads whose last numbers can be followed. -/
theorem exists_load (hcatalog : e.catalog = .ofStore s) (hms : s.readCommits = .ok ms)
    (hnever : s.faults = .never)
    (hstray : ∀ q ∈ s.names, q ∉ ms.flatMap Manifest.fileNames → ¬s.medium.Fixed q)
    (hafter : Writer.after 0 (List.range ms.length) sync ms = some w) :
    ∃ e', e.load 0 sync = (.ok w, e') := by
  obtain ⟨c, -, hall, hload⟩ := load_eq hcatalog hms sync
  have hsweep : (s.sweep (c.tracker 0).isReferenced).1 = .ok () :=
    Store.sweep_of_never hnever fun q hq hnot => by
      refine hstray q hq ?_
      rw [← hall.referenced_eq, ← hall.tallied.refCount_eq_zero_iff]
      simpa [Tracker.isReferenced] using hnot
  rw [hload, hsweep, hafter]
  exact ⟨_, rfl⟩

section
variable {c : Catalog} (h : Swept s ms sync w c s')
include h

/-- Each manifest has become a commit. -/
theorem Swept.commits :
    (c.setStoreOf 0 s').commits = ms.map fun m => ⟨m, .artifacts 0, false⟩ :=
  h.recounts.commits

theorem Swept.length : (c.setStoreOf 0 s').commits.length = ms.length := by
  rw [h.commits, List.length_map]

theorem Swept.commit_eq {n : Nat} (hn : n < ms.length) :
    (c.setStoreOf 0 s').commit n = ⟨ms[n], .artifacts 0, false⟩ :=
  Catalog.commit_of_adopted h.commits hn

/-- The writer goes on with what the manifests describe. -/
theorem Swept.continues (hms : s.readCommits = .ok ms) : w.Continues (c.setStoreOf 0 s') := by
  obtain ⟨hsorted, -⟩ := Store.readCommits_ok hms
  obtain ⟨hdepot, hhistory, hnext⟩ := version_lt_after h.after hsorted
  refine
    { depot := hdepot
      ascending := Catalog.ascending_of_adopted h.commits hsorted
      next := ?_
      sorted := hhistory ▸ List.pairwise_lt_range
      range := fun n hn => h.length ▸ List.mem_range.mp (hhistory ▸ hn)
      complete := fun n hn _ => hhistory ▸ List.mem_range.mpr (h.length ▸ hn) }
  intro n hn
  unfold Catalog.version
  rw [h.commit_eq (h.length ▸ hn)]
  exact hnext _ (List.getElem_mem _)

theorem Swept.mem_stray {q : String} :
    q ∈ s.names.filter (fun q => !(c.tracker 0).isReferenced q) ↔
      (∃ data, s.medium.node? q = some (.file data)) ∧ q ∉ c.referenced :=
  h.recounts.tallied.mem_stray

/-- What no commit lists stands as before, unless it was a file. -/
theorem Swept.tidy : ∃ base, (∀ q data, base q ≠ some (.file data)) ∧
    Tidy base (c.setStoreOf 0 s') := by
  have hsingle := h.recounts.tallied.single
  classical
  refine ⟨fun q => if (q ∈ c.referenced ∧ ¬s.medium.Fixed q) ∨
    ∃ data, s.medium.node? q = some (.file data) then none else s.medium.node? q, ?_,
    h.recounts.tallied.setStoreOf s', ?_, ?_, ?_⟩
  · intro q data hfile
    dsimp only at hfile
    split at hfile
    next => cases hfile
    next hnot => exact hnot (Or.inr ⟨data, hfile⟩)
  all_goals
    rw [hsingle.store_setStoreOf, hsingle.queue_setStoreOf, h.recounts.queue]
  · exact fun q hq => absurd hq List.not_mem_nil
  · intro q hlisted _
    rw [hsingle.referenced_setStoreOf] at hlisted
    rw [h.cleared.node]
    by_cases hfile : ∃ data, s.medium.node? q = some (.file data)
    · rw [if_pos ⟨h.mem_stray.mpr ⟨hfile, hlisted⟩, List.not_mem_nil⟩, if_pos (Or.inr hfile)]
    · rw [if_neg fun hand => hfile (h.mem_stray.mp hand.1).1,
        if_neg fun hor => hor.elim (fun hand => hlisted hand.1) hfile]
  · intro q hq
    rw [hsingle.referenced_setStoreOf] at hq
    have hlisted := hq.resolve_right List.not_mem_nil
    rw [h.cleared.alike.fixed_iff]
    by_cases hfixed : s.medium.Fixed q
    · exact Or.inl hfixed
    · exact Or.inr (if_pos (Or.inl ⟨hlisted, hfixed⟩))

theorem Swept.referenced_eq : c.referenced = ms.flatMap Manifest.fileNames :=
  h.recounts.referenced_eq

/-- What the manifests list is left alone. -/
theorem Swept.housed (hms : s.readCommits = .ok ms)
    (hpresent : ∀ m ∈ ms, ∀ name ∈ m.files, s.exists? name = .ok true) :
    Housed (c.setStoreOf 0 s') := by
  have hsingle := h.recounts.tallied.single
  intro q hq
  rw [hsingle.referenced_setStoreOf, hsingle.queue_setStoreOf, h.recounts.queue] at hq
  have hlisted := hq.resolve_right List.not_mem_nil
  rw [hsingle.store_setStoreOf, h.cleared.alike.fixed_iff,
    h.cleared.node_of_not_mem fun hmem => (h.mem_stray.mp hmem).2 hlisted]
  rw [h.referenced_eq] at hlisted
  obtain ⟨m, hm, hname⟩ := List.mem_flatMap.mp hlisted
  rcases List.mem_append.mp hname with hfile | hself
  · refine Store.Medium.node_of_exists ?_
    have hexists := hpresent m hm q hfile
    unfold Store.exists? at hexists
    split at hexists
    next => cases hexists
    next => exact hexists
  · rw [List.mem_singleton.mp hself]
    obtain ⟨data, hdata, hnode, hfixed⟩ := Store.readCommits_node hms m hm
    exact ⟨⟨data, hnode⟩, hfixed⟩

end

/-! ## The first cycle -/

/-- Showing the history to the policy only deletes commits. -/
theorem presentHistory_prunes (w : Writer) (e : Engine) :
    Prunes e.catalog (e.presentHistory w).2.catalog := by
  unfold presentHistory
  split
  next => exact .refl _
  next =>
    have hdecide := decide_prunes w.history e
    split
    next heq =>
      rw [heq] at hdecide
      exact hdecide
    next heq =>
      rw [heq] at hdecide
      exact hdecide

/-- A writer whose history the policy accepts goes on with what the policy leaves. -/
theorem writer_of_presentHistory (h : e.presentHistory w = (.ok (), e')) :
    e'.writer = some { w with history := e'.catalog.undeleted w.history } := by
  unfold presentHistory at h
  split at h
  next hnil =>
    obtain ⟨-, rfl⟩ := Prod.mk.inj h
    dsimp only
    rw [show Catalog.undeleted w.history _ = w.history by rw [hnil]; rfl]
  next =>
    split at h
    next => cases (Prod.mk.inj h).1
    next e1 _ =>
      obtain ⟨-, rfl⟩ := Prod.mk.inj h
      rfl

end Engine

end SnapshotRetention
