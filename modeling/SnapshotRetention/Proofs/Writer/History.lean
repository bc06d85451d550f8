import Mathlib.Data.List.Pairwise
import SnapshotRetention.Proofs.Manifest.Layout
import SnapshotRetention.Proofs.Store.Steps
import SnapshotRetention.Writer.History

/-!
# The history that a store describes

The manifests that a store is read as describing ascend in their versions
(`readManifests_ascending`), and each is in the store under its own name (`readManifests_present`),
as a file (`readCommits_node`).

Conversely a store in which some manifests have been written, and no other artifact has a name that
is reserved, is read as describing them (`Describes.readCommits`): the listing is sorted by name,
but the generations are read in their order (`generationsOf_names`). A store that has kept some of
its manifests is read as describing those (`readCommits_of_kept`).
-/

namespace SnapshotRetention.Store

variable {s : Store} {previous : Option Version} {gs : List Generation} {ms : List Manifest}

theorem readManifest_ok {g : Generation} {m : Manifest} (h : s.readManifest g = .ok m) :
    m.generation = g ∧ (s.data? m.name).isSome := by
  unfold readManifest at h
  split at h
  next => cases h
  next data hdata =>
    split at h
    next => cases h
    next m' _ =>
      split at h
      next => cases h
      next hg =>
        obtain rfl := Except.ok.inj h
        have hg : m'.generation = g := Decidable.not_not.mp hg
        refine ⟨hg, ?_⟩
        unfold Manifest.name
        rw [hg, data?_of_read hdata]
        rfl

theorem readManifests_cons {g : Generation} {rest : List Generation}
    (h : s.readManifests previous (g :: rest) = .ok ms) :
    ∃ m ms', ms = m :: ms' ∧ s.readManifest g = .ok m ∧ follows previous m.version = true ∧
      s.readManifests (some m.version) rest = .ok ms' := by
  unfold readManifests at h
  split at h
  next => cases h
  next m hm =>
    split at h
    next => cases h
    next hfollows =>
      split at h
      next => cases h
      next ms' hms =>
        refine ⟨m, ms', (Except.ok.inj h).symm, hm, ?_, hms⟩
        simpa using hfollows

/-- Each version comes after the ones before it. -/
theorem readManifests_ascending (h : s.readManifests previous gs = .ok ms) :
    (ms.map Manifest.version).Pairwise (· < ·) ∧
      ∀ m ∈ ms, follows previous m.version = true := by
  induction gs generalizing previous ms with
  | nil =>
    obtain rfl := Except.ok.inj h
    exact ⟨List.Pairwise.nil, fun m hm => absurd hm List.not_mem_nil⟩
  | cons g rest ih =>
    obtain ⟨m, ms', rfl, -, hfollows, hrest⟩ := readManifests_cons h
    obtain ⟨hpairs, hall⟩ := ih hrest
    have hlater : ∀ m' ∈ ms', m.version < m'.version :=
      fun m' hm' => of_decide_eq_true (hall m' hm')
    refine ⟨List.pairwise_cons.mpr ⟨?_, hpairs⟩, ?_⟩
    · intro v hv
      obtain ⟨m', hm', rfl⟩ := List.mem_map.mp hv
      exact hlater m' hm'
    · -- the version before comes before the first and so before all
      intro m' hm'
      rcases List.mem_cons.mp hm' with rfl | hm'
      · exact hfollows
      · cases previous with
        | none => rfl
        | some p =>
          have hp : p < m.version := of_decide_eq_true hfollows
          exact decide_eq_true (UInt64.lt_trans hp (hlater m' hm'))

theorem readManifests_present (h : s.readManifests previous gs = .ok ms) :
    ∀ m ∈ ms, (s.data? m.name).isSome := by
  induction gs generalizing previous ms with
  | nil =>
    obtain rfl := Except.ok.inj h
    exact fun m hm => absurd hm List.not_mem_nil
  | cons g rest ih =>
    obtain ⟨m, ms', rfl, hm, -, hrest⟩ := readManifests_cons h
    intro m' hm'
    rcases List.mem_cons.mp hm' with rfl | hm'
    · exact (readManifest_ok hm).2
    · exact ih hrest m' hm'

theorem readCommits_ok (h : s.readCommits = .ok ms) :
    (ms.map Manifest.version).Pairwise (· < ·) ∧ ∀ m ∈ ms, (s.data? m.name).isSome := by
  unfold readCommits at h
  split at h
  next => cases h
  next names _ => exact ⟨(readManifests_ascending h).1, readManifests_present h⟩

/-- What a store is read as describing depends on what is read alone. -/
theorem readCommits_congr {s' : Store} (hlist : s'.list = s.list)
    (hread : ∀ name, s'.read name = s.read name) : s'.readCommits = s.readCommits := by
  have hmanifest : ∀ g, s'.readManifest g = s.readManifest g := by
    intro g
    unfold readManifest
    rw [hread]
  have hmanifests : ∀ previous gs, s'.readManifests previous gs = s.readManifests previous gs := by
    intro previous gs
    induction gs generalizing previous with
    | nil => rfl
    | cons g rest ih =>
      unfold readManifests
      simp only [hmanifest, ih]
  unfold readCommits
  rw [hlist]
  simp only [hmanifests]

/-! ## Generations -/

theorem readManifests_generations (h : s.readManifests previous gs = .ok ms) :
    ms.map Manifest.generation = gs := by
  induction gs generalizing previous ms with
  | nil =>
    obtain rfl := Except.ok.inj h
    rfl
  | cons g rest ih =>
    obtain ⟨m, ms', rfl, hm, -, hrest⟩ := readManifests_cons h
    rw [List.map_cons, (readManifest_ok hm).1, ih hrest]

/-- Each name that is read as naming a generation names that of a manifest. -/
theorem readCommits_generations (h : s.readCommits = .ok ms) :
    ms.map Manifest.generation = generationsOf s.names := by
  unfold readCommits at h
  split at h
  next => cases h
  next names hnames =>
    unfold list at hnames
    split at hnames
    next => cases hnames
    next =>
      obtain rfl := Except.ok.inj hnames
      exact readManifests_generations h

theorem mem_generationsOf {names : List String} {g : Generation} :
    g ∈ generationsOf names ↔ ∃ q ∈ names, Manifest.generationOf? q = some g := by
  unfold generationsOf
  rw [(List.mergeSort_perm _ _).mem_iff, List.mem_filterMap]

theorem pairwise_generationsOf (names : List String) :
    (generationsOf names).Pairwise fun g g' => Generation.le g g' = true := by
  refine List.pairwise_mergeSort ?_ ?_ _
  · intro g g' g'' hle hle'
    exact decide_eq_true (UInt64.le_trans (of_decide_eq_true hle) (of_decide_eq_true hle'))
  · intro g g'
    rw [Bool.or_eq_true]
    exact (UInt64.le_total g.number g'.number).imp decide_eq_true decide_eq_true

/-! ## Manifests are files -/

theorem readManifests_mem (h : s.readManifests previous gs = .ok ms) :
    ∀ m ∈ ms, ∃ g ∈ gs, s.readManifest g = .ok m := by
  induction gs generalizing previous ms with
  | nil =>
    obtain rfl := Except.ok.inj h
    exact fun m hm => absurd hm List.not_mem_nil
  | cons g rest ih =>
    obtain ⟨m, ms', rfl, hm, -, hrest⟩ := readManifests_cons h
    intro m' hm'
    rcases List.mem_cons.mp hm' with rfl | hm'
    · exact ⟨g, List.mem_cons_self, hm⟩
    · obtain ⟨g', hg', hread⟩ := ih hrest m' hm'
      exact ⟨g', List.mem_cons_of_mem _ hg', hread⟩

theorem readManifest_node {g : Generation} {m : Manifest} (h : s.readManifest g = .ok m) :
    ∃ data, Manifest.decode data = .ok m ∧ s.medium.node? m.name = some (.file data) ∧
      ¬s.medium.Fixed m.name := by
  have hg := (readManifest_ok h).1
  unfold readManifest at h
  split at h
  next => cases h
  next data hdata =>
    split at h
    next => cases h
    next m' hdecode =>
      split at h
      next => cases h
      next =>
        obtain rfl := Except.ok.inj h
        have hread : s.medium.read m'.name = .ok data := by
          unfold read at hdata
          unfold Manifest.name
          rw [hg]
          split at hdata
          next => cases hdata
          next => exact hdata
        have hne : data ≠ [] := by
          rintro rfl
          cases hdecode
        obtain ⟨hnode, hfixed⟩ := Medium.node_of_read hread hne
        exact ⟨data, hdecode, hnode, hfixed⟩

theorem readCommits_node (h : s.readCommits = .ok ms) : ∀ m ∈ ms, ∃ data,
    Manifest.decode data = .ok m ∧ s.medium.node? m.name = some (.file data) ∧
      ¬s.medium.Fixed m.name := by
  unfold readCommits at h
  split at h
  next => cases h
  next names _ =>
    intro m hm
    obtain ⟨g, -, hread⟩ := readManifests_mem h m hm
    exact readManifest_node hread

/-! ## Names of manifests -/

/-- Whether a name is read as naming a generation. -/
def namesGeneration (q : String) : Bool := (Manifest.generationOf? q).isSome

theorem namesGeneration_nameOf (g : Generation) : namesGeneration (Manifest.nameOf g) = true := by
  unfold namesGeneration
  rw [Manifest.generationOf?_nameOf]
  rfl

/-- Of the names in the store, those that name a generation are the names of the manifests. -/
theorem names_perm (hthere : ∀ m ∈ ms, m.name ∈ s.names)
    (hnamed : ∀ q ∈ s.names, namesGeneration q = true → ∃ m ∈ ms, m.name = q)
    (hgenerations : (ms.map fun m => m.generation.number).Pairwise (· < ·)) :
    (s.names.filter namesGeneration).Perm (ms.map Manifest.name) := by
  have hnames : (ms.map Manifest.name).Nodup := by
    have hnumbers := hgenerations.imp fun hlt => Std.ne_of_lt hlt
    refine List.pairwise_map.mpr ((List.pairwise_map.mp hnumbers).imp ?_)
    intro m m' hne heq
    exact hne (congrArg Generation.number (Manifest.nameOf_injective heq))
  refine (List.perm_ext_iff_of_nodup ((Medium.nodup_names s.medium).filter _) hnames).mpr ?_
  intro q
  rw [List.mem_filter, List.mem_map]
  constructor
  · rintro ⟨hq, hnames⟩
    exact hnamed q hq hnames
  · rintro ⟨m, hm, rfl⟩
    exact ⟨hthere m hm, namesGeneration_nameOf _⟩

/-- Generations that ascend are in the order in which they are read. -/
theorem generationsOf_eq {names : List String}
    (hperm : (names.filterMap Manifest.generationOf?).Perm gs)
    (hascending : gs.Pairwise fun g g' => Generation.le g g' = true) :
    generationsOf names = gs := by
  refine List.Perm.eq_of_pairwise ?_ (pairwise_generationsOf names) hascending
    ((List.mergeSort_perm _ Generation.le).trans hperm)
  rintro ⟨n⟩ ⟨n'⟩ - - hle hle'
  exact congrArg Generation.mk
    (UInt64.le_antisymm (of_decide_eq_true hle) (of_decide_eq_true hle'))

/-- The listing is sorted by name, but the generations come in their order. -/
theorem generationsOf_names (hthere : ∀ m ∈ ms, m.name ∈ s.names)
    (hnamed : ∀ q ∈ s.names, namesGeneration q = true → ∃ m ∈ ms, m.name = q)
    (hgenerations : (ms.map fun m => m.generation.number).Pairwise (· < ·)) :
    generationsOf s.names = ms.map Manifest.generation := by
  have hfound : s.names.filterMap Manifest.generationOf? =
      (s.names.filter namesGeneration).filterMap Manifest.generationOf? := by
    rw [List.filterMap_filter]
    refine List.filterMap_congr fun q _ => ?_
    split
    next => rfl
    next hnot => exact Option.not_isSome_iff_eq_none.mp hnot
  have hnames : (ms.map Manifest.name).filterMap Manifest.generationOf? =
      ms.map Manifest.generation := by
    rw [List.filterMap_map, ← List.filterMap_eq_map]
    refine List.filterMap_congr fun m _ => ?_
    exact Manifest.generationOf?_nameOf m.generation
  have hperm := (names_perm hthere hnamed hgenerations).filterMap Manifest.generationOf?
  rw [← hfound, hnames] at hperm
  refine generationsOf_eq hperm (List.pairwise_map.mpr ((List.pairwise_map.mp hgenerations).imp ?_))
  intro m m' hlt
  exact decide_eq_true (UInt64.le_of_lt hlt)

theorem readManifests_of_readManifest (hread : ∀ m ∈ ms, s.readManifest m.generation = .ok m)
    (hfollows : ∀ m ∈ ms, follows previous m.version = true)
    (hversions : (ms.map Manifest.version).Pairwise (· < ·)) :
    s.readManifests previous (ms.map Manifest.generation) = .ok ms := by
  induction ms generalizing previous with
  | nil => rfl
  | cons m ms ih =>
    obtain ⟨hlater, hrest⟩ := List.pairwise_cons.mp hversions
    have hms : s.readManifests (some m.version) (ms.map Manifest.generation) = .ok ms :=
      ih (fun m' hm' => hread m' (List.mem_cons_of_mem _ hm'))
        (fun m' hm' => decide_eq_true (hlater m'.version (List.mem_map_of_mem hm'))) hrest
    rw [List.map_cons]
    unfold readManifests
    rw [hread m List.mem_cons_self]
    dsimp only
    rw [hfollows m List.mem_cons_self, hms]
    rfl

theorem readManifest_of_readCommits (h : s.readCommits = .ok ms) :
    ∀ m ∈ ms, s.readManifest m.generation = .ok m := by
  unfold readCommits at h
  split at h
  next => cases h
  next names _ =>
    intro m hm
    obtain ⟨g, -, hread⟩ := readManifests_mem h m hm
    rw [(readManifest_ok hread).1]
    exact hread

/-- No two manifests are of one generation, since their versions would not ascend. -/
theorem readCommits_ascending (h : s.readCommits = .ok ms) :
    (ms.map fun m => m.generation.number).Pairwise (· < ·) := by
  have hsorted := readCommits_generations h ▸ pairwise_generationsOf s.names
  have hversions := (readCommits_ok h).1
  have hread := readManifest_of_readCommits h
  refine List.pairwise_map.mpr ?_
  refine ((List.pairwise_map.mp hsorted).and (List.pairwise_map.mp hversions)).imp_of_mem ?_
  rintro m m' hm hm' ⟨hle, hlt⟩
  have hle : m.generation.number ≤ m'.generation.number := of_decide_eq_true hle
  refine UInt64.lt_of_le_of_ne hle fun heq => ?_
  have hgeneration : m.generation = m'.generation := congrArg Generation.mk heq
  have hsame := hread m hm
  rw [hgeneration, hread m' hm'] at hsame
  rw [Except.ok.inj hsame] at hlt
  exact UInt64.lt_irrefl _ hlt

/-- Each name that names a generation is the name of a manifest, without leading zeros. -/
theorem named_of_readCommits (h : s.readCommits = .ok ms) {q : String} (hq : q ∈ s.names)
    (hnames : namesGeneration q = true) : ∃ m ∈ ms, m.name = q := by
  obtain ⟨g, hg⟩ := Option.isSome_iff_exists.mp hnames
  have hgenerations := readCommits_generations h
  have hmem : g ∈ ms.map Manifest.generation := by
    rw [hgenerations]
    exact mem_generationsOf.mpr ⟨q, hq, hg⟩
  obtain ⟨m, hm, rfl⟩ := List.mem_map.mp hmem
  refine ⟨m, hm, ?_⟩
  obtain ⟨data, -, hnode, -⟩ := readCommits_node h m hm
  have hname : m.name ∈ s.names := (mem_names_iff s m.name).mpr ⟨data, hnode⟩
  -- two names of one generation would make it appear twice
  have hnodup : (s.names.filterMap Manifest.generationOf?).Nodup := by
    refine (List.mergeSort_perm _ Generation.le).nodup_iff.mp ?_
    show (generationsOf s.names).Nodup
    rw [← hgenerations]
    refine List.pairwise_map.mpr ((List.pairwise_map.mp (readCommits_ascending h)).imp ?_)
    exact fun hlt heq => Std.ne_of_lt hlt (congrArg Generation.number heq)
  have hpairs := List.pairwise_filterMap.mp hnodup
  have hsymm : Std.Symm fun q q' : String => ∀ g, Manifest.generationOf? q = some g →
      ∀ g', Manifest.generationOf? q' = some g' → g ≠ g' :=
    ⟨fun _ _ hne g hg g' hg' => (hne g' hg' g hg).symm⟩
  by_contra hne
  exact hpairs.forall hname hq hne _ (Manifest.generationOf?_nameOf m.generation) _ hg rfl

/-- A store that has kept some of the manifests is read as describing them. -/
theorem readCommits_of_kept {s' : Store} {ms' : List Manifest} (h : s.readCommits = .ok ms)
    (hsub : ms'.Sublist ms) (hlist : s'.list = .ok s'.names)
    (hread : ∀ m ∈ ms', s'.read m.name = s.read m.name)
    (hnamed : ∀ q ∈ s'.names, namesGeneration q = true → ∃ m ∈ ms', m.name = q) :
    s'.readCommits = .ok ms' := by
  have hmanifest : ∀ m ∈ ms', s'.readManifest m.generation = .ok m := by
    intro m hm
    rw [← readManifest_of_readCommits h m (hsub.subset hm)]
    unfold readManifest
    rw [show Manifest.nameOf m.generation = m.name from rfl, hread m hm]
  have hthere : ∀ m ∈ ms', m.name ∈ s'.names := by
    intro m hm
    obtain ⟨data, -, hnode, -⟩ := readManifest_node (hmanifest m hm)
    exact (mem_names_iff s' m.name).mpr ⟨data, hnode⟩
  unfold readCommits
  rw [hlist]
  dsimp only
  rw [generationsOf_names hthere hnamed ((readCommits_ascending h).sublist (hsub.map _))]
  exact readManifests_of_readManifest hmanifest (fun _ _ => rfl)
    ((readCommits_ok h).1.sublist (hsub.map _))

/-! ## Stores that describe a history -/

/-- A store with some manifests, oldest first, and no other artifact of a reserved name. -/
structure Describes (ms : List Manifest) (s : Store) : Prop where
  written : ∀ m ∈ ms, ∃ data, m.encode = .ok data ∧
    s.medium.node? m.name = some (.file data) ∧ ¬s.medium.Fixed m.name
  reserved : ∀ q ∈ s.names, Manifest.isReserved q = true → ∃ m ∈ ms, m.name = q
  generations : (ms.map fun m => m.generation.number).Pairwise (· < ·)
  versions : (ms.map Manifest.version).Pairwise (· < ·)

/-- A sweep in which nothing is refused comes to its end if nothing that it meets is fixed. -/
theorem sweep_of_never {keeps : String → Bool} (h : s.faults = .never)
    (hfree : ∀ q ∈ s.names, keeps q = false → ¬s.medium.Fixed q) :
    (s.sweep keeps).1 = .ok () := by
  obtain ⟨s', hswept⟩ := exists_deleteStrays h (Medium.nodup_names s.medium) fun q hq hnot =>
    ⟨(mem_names_iff s q).mp hq, hfree q hq hnot⟩
  unfold sweep
  rw [list_of_never h]
  exact congrArg Prod.fst hswept

theorem readManifest_of_node {m : Manifest} {data : Bytes} (hnever : s.faults = .never)
    (hdata : m.encode = .ok data) (hnode : s.medium.node? m.name = some (.file data))
    (hfixed : ¬s.medium.Fixed m.name) : s.readManifest m.generation = .ok m := by
  have hread : s.read (Manifest.nameOf m.generation) = .ok data :=
    (read_of_never hnever _).trans (Medium.read_of_node hnode hfixed)
  unfold readManifest
  rw [hread]
  dsimp only
  rw [Manifest.decode_of_encode hdata]
  dsimp only
  rw [if_neg (Decidable.not_not.mpr rfl)]

theorem Describes.mem_names {m : Manifest} (h : s.Describes ms) (hm : m ∈ ms) :
    m.name ∈ s.names := by
  obtain ⟨data, -, hnode, -⟩ := h.written m hm
  exact (mem_names_iff s m.name).mpr ⟨data, hnode⟩

theorem Describes.named (h : s.Describes ms) : ∀ q ∈ s.names, namesGeneration q = true →
    ∃ m ∈ ms, m.name = q := by
  intro q hq hnames
  obtain ⟨g, hg⟩ := Option.isSome_iff_exists.mp hnames
  exact h.reserved q hq (Manifest.isReserved_of_generationOf? hg)

/-- A store is read as describing the manifests that it describes. -/
theorem Describes.readCommits (h : s.Describes ms) (hnever : s.faults = .never) :
    s.readCommits = .ok ms := by
  unfold Store.readCommits
  rw [list_of_never hnever]
  dsimp only
  rw [generationsOf_names (fun m hm => h.mem_names hm) h.named h.generations]
  refine readManifests_of_readManifest ?_ (fun _ _ => rfl) h.versions
  intro m hm
  obtain ⟨data, hdata, hnode, hfixed⟩ := h.written m hm
  exact readManifest_of_node hnever hdata hnode hfixed

end SnapshotRetention.Store
