import SnapshotRetention.Proofs.Catalog.Shelves
import SnapshotRetention.Proofs.Store.Erodes
import SnapshotRetention.Proofs.Writer.History
import SnapshotRetention.Proofs.Writer.Remaining

/-!
# Opening a writer over any catalog

Whatever a catalog holds already, a writer that opens adds a depot whose tracker counts exactly what
the manifests list (`isReferenced_of_joins`). What it sweeps is therefore what none of them lists,
and the outcome can be told from the manifests and the sweep (`Engine.openWriter_eq_swept`).

A sweep depends on what it keeps of the artifacts alone (`Store.sweep_congr`), and these are what a
sweep that succeeds leaves (`Store.artifacts_sweep`).
-/

namespace SnapshotRetention

variable {s s' : Store} {ms : List Manifest} {c d : Catalog} {ns : List Nat} {depot : Nat}

/-! ## Adopted commits -/

namespace Catalog

theorem Joins.map_commit (h : Joins depot ms c ns d) :
    ns.map d.commit = ms.map fun m => ⟨m, .artifacts depot, false⟩ := by
  refine List.ext_getElem ?_ fun i hi hi' => ?_
  · rw [List.length_map, List.length_map, h.numbers, List.length_range']
  · have hi : i < ms.length := by simpa using hi'
    simp only [List.getElem_map, h.numbers, List.getElem_range', Nat.one_mul]
    unfold commit
    rw [h.commits, List.getD_eq_getElem?_getD, List.getElem?_append_right (Nat.le_add_right _ _)]
    simp [hi]

/-- A depot that is new counts exactly what its manifests list. -/
theorem isReferenced_of_joins {store : Nat}
    (h : Joins c.depots.length ms (c.addDepot store) ns d) (q : String) :
    (d.tracker c.depots.length).isReferenced q = (ms.flatMap Manifest.fileNames).contains q := by
  have hempty : ((c.addDepot store).tracker c.depots.length).refCount q = 0 := by
    unfold tracker
    rw [depot_addDepot, if_pos rfl]
    rfl
  unfold Tracker.isReferenced
  rw [h.counted, hempty, Nat.zero_add, List.contains_eq_mem]
  exact decide_eq_decide.mpr List.count_pos_iff

end Catalog

/-! ## Sweeping -/

namespace Store

/-- Neither listing the store nor reading from it is refused at this time. -/
structure Legible (s : Store) : Prop where
  list : s.fault? .list "" = none
  read : ∀ name, s.fault? .read name = none

theorem Legible.list_eq (h : s.Legible) : s.list = .ok s.names := by
  unfold Store.list
  rw [h.list]

/-- What is read of a store that refuses nothing of it depends on its medium alone. -/
theorem Legible.readCommits_eq (h : s.Legible) :
    s.readCommits = (ofMedium s.medium .never).readCommits := by
  refine (readCommits_congr ?_ fun name => ?_).symm
  · rw [h.list_eq, list_of_never rfl]
    rfl
  · rw [read_of_never rfl]
    unfold Store.read
    rw [h.read]
    rfl

theorem deleteStrays_congr {kept kept' : String → Bool} {names : List String}
    (h : ∀ q ∈ names, kept q = kept' q) (s : Store) :
    s.deleteStrays kept names = s.deleteStrays kept' names := by
  induction names generalizing s with
  | nil => rfl
  | cons name rest ih =>
    have hrest := ih fun q hq => h q (List.mem_cons_of_mem _ hq)
    unfold deleteStrays
    rw [h name List.mem_cons_self]
    simp only [hrest]

/-- A sweep depends on what it keeps of the artifacts alone. -/
theorem sweep_congr {kept kept' : String → Bool} (h : ∀ q ∈ s.names, kept q = kept' q) :
    s.sweep kept = s.sweep kept' := by
  unfold sweep
  split
  next => rfl
  next names hnames =>
    unfold list at hnames
    split at hnames
    next => cases hnames
    next =>
      obtain rfl := Except.ok.inj hnames
      exact deleteStrays_congr h s

/-- After a sweep that succeeds the artifacts are those that it keeps. -/
theorem artifacts_sweep {kept : String → Bool} (h : (s.sweep kept).1 = .ok ()) :
    (s.sweep kept).2.medium.artifacts = s.medium.artifacts.filter fun a => kept a.1 := by
  have hcleared := cleared_sweep h
  have hsorted := List.pairwise_map.mp (Medium.pairwise_names s.medium)
  refine Medium.artifacts_eq (hsorted.filter _) fun q data => ?_
  rw [List.mem_filter, Medium.mem_artifacts_iff, hcleared.node]
  constructor
  · rintro ⟨hnode, hkept⟩
    rw [if_neg fun hand => by simp [hkept] at hand]
    exact hnode
  · intro hnode
    split at hnode
    next => cases hnode
    next hnot =>
      refine ⟨hnode, ?_⟩
      have hthere : q ∈ s.names := (mem_names_iff s q).mpr ⟨data, hnode⟩
      by_contra hkept
      exact hnot ⟨List.mem_filter.mpr ⟨hthere, by simpa using hkept⟩, List.not_mem_nil⟩

/-- A sweep that fails has not touched the artifacts that it keeps either. -/
theorem mem_artifacts_of_sweep {kept : String → Bool} {result : Except StoreError Unit}
    {a : String × Bytes} (h : s.sweep kept = (result, s')) (ha : a ∈ s.medium.artifacts)
    (hkept : kept a.1 = true) : a ∈ s'.medium.artifacts := by
  have herodes : Erodes [a.1] s (s.sweep kept).2 :=
    erodes_sweep (fun q hq => List.mem_singleton.mp hq ▸ hkept) s
  rw [h] at herodes
  refine (Medium.mem_artifacts_iff s'.medium a.1 a.2).mpr ?_
  rw [herodes.kept a.1 (List.mem_singleton.mpr rfl)]
  exact (Medium.mem_artifacts_iff s.medium a.1 a.2).mp ha

end Store

/-! ## Opening -/

namespace Engine

variable {e : Engine} {store : Nat}

theorem openWriter_of_error {err : Error} (h : (e.catalog.store store).readCommits = .error err)
    (sync : Bool) : e.openWriter store sync = (.error err, e.dropWriter) := by
  unfold openWriter
  dsimp only
  rw [show (e.dropWriter.catalog.store store).readCommits = .error err from h]

/-- A writer that opens sweeps what none of the manifests lists. -/
theorem openWriter_eq_swept (h : (e.catalog.store store).readCommits = .ok ms) (sync : Bool) :
    ∃ ns c, Catalog.Joins e.catalog.depots.length ms (e.catalog.addDepot store) ns c ∧
      e.openWriter store sync =
        match (e.catalog.store store).sweep (ms.flatMap Manifest.fileNames).contains with
        | (.error cause, s) => (.error (.store cause), e.dropWriter.setCatalog (c.setStore store s))
        | (.ok (), s) =>
          match Writer.after e.catalog.depots.length ns sync ms with
          | none => (.error .counterOverflow, e.dropWriter.setCatalog (c.setStore store s))
          | some w => (e.dropWriter.setCatalog (c.setStore store s)).presentHistory w := by
  have hdepot : e.catalog.depots.length < (e.catalog.addDepot store).depots.length := by
    rw [Catalog.length_addDepot]
    exact Nat.lt_succ_self _
  have hjoins := Catalog.joins_adoptAll hdepot ms
  obtain ⟨ns, c, hall⟩ : ∃ ns c,
      Catalog.adoptAll e.catalog.depots.length ms (e.catalog.addDepot store) = (ns, c) :=
    ⟨_, _, rfl⟩
  rw [hall] at hjoins
  have hstore : c.store store = e.catalog.store store := Catalog.store_congr hjoins.stores store
  refine ⟨ns, c, hjoins, ?_⟩
  -- counting references keeps the same artifacts as looking them up in what the manifests list
  rw [Store.sweep_congr fun q _ => (Catalog.isReferenced_of_joins hjoins q).symm]
  unfold openWriter
  dsimp only
  rw [show e.dropWriter.catalog = e.catalog from rfl, h]
  dsimp only
  rw [hall]
  dsimp only
  rw [hstore]
  generalize (e.catalog.store store).sweep _ = swept
  obtain ⟨result, s⟩ := swept
  cases result with
  | error cause => rfl
  | ok _ => rfl

end Engine

end SnapshotRetention
