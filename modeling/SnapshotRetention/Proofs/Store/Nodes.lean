import SnapshotRetention.Proofs.Store

/-!
# What stands under a name

A medium puts at most one node under each name (`Medium.node?`), and the artifacts are the names of
files (`mem_names_iff`). A directory also has names under which no access changes anything, those
that it refuses and those of folders (`Medium.Fixed`); memory has none.

A write puts a file under a free name (`Medium.write_ok`) and a deletion clears its name
(`Medium.delete_ok`); it fails otherwise only because nothing is there (`Medium.delete_notFound`)
or because the name is fixed (`Medium.fixed_of_delete_error`). Neither changes anything else of the
medium (`Medium.Alike`), so that two media that come from one are the same if the same stands under
each name (`SamePlace.eq_of_node`), and have the same artifacts if they have the same files
(`artifacts_congr`).
-/

namespace SnapshotRetention.Store

variable {name q : String} {data : Bytes}

/-! ## Names -/

namespace Directory

variable {path : String}

/-- A directory takes the names that can be an artifact's and that it reaches. -/
theorem checkName_ok_iff (path name : String) :
    checkName path name = .ok () ↔ isValidName name = true ∧ reaches path name = true := by
  unfold checkName
  cases isValidName name with
  | false => simp
  | true =>
    cases reaches path name with
    | false => simp
    | true => simp

theorem checkName_of_invalid (h : isValidName name = false) :
    checkName path name = .error (.invalidName name) := by
  unfold checkName
  rw [h]
  rfl

theorem checkName_of_unreached (hvalid : isValidName name = true)
    (h : reaches path name = false) :
    checkName path name = .error (.io (.system .nameTooLong)) := by
  unfold checkName
  rw [hvalid, h]
  rfl

end Directory

namespace Medium

variable {m m' m'' : Medium}

/-- What stands under a name. -/
def node? (name : String) : Medium → Option Node
  | .memory table => (table.get? name).map Node.file
  | .directory _ dir => dir.nodes.get? name

@[simp] theorem node?_memory (table : Table String Bytes) (q : String) :
    (memory table).node? q = (table.get? q).map Node.file := rfl

@[simp] theorem node?_directory (path : String) (dir : Directory) (q : String) :
    (directory path dir).node? q = dir.nodes.get? q := rfl

/-- Whether no access changes what stands under a name: it is refused, or a folder's. -/
def Fixed (name : String) : Medium → Prop
  | .memory _ => False
  | .directory path dir =>
    Directory.checkName path name ≠ .ok () ∨ dir.nodes.get? name = some .folder

/-- The same kind of medium, in the same place. -/
def SamePlace : Medium → Medium → Prop
  | .memory _, .memory _ => True
  | .directory path dir, .directory path' dir' => path' = path ∧ dir'.unnamed = dir.unnamed
  | .memory _, .directory .. => False
  | .directory .., .memory _ => False

theorem SamePlace.refl (m : Medium) : SamePlace m m := by
  cases m with
  | memory => trivial
  | directory => exact ⟨rfl, rfl⟩

theorem SamePlace.trans (h : SamePlace m m') (h' : SamePlace m' m'') : SamePlace m m'' := by
  cases m with
  | memory table =>
    cases m' with
    | memory =>
      cases m'' with
      | memory => trivial
      | directory => exact h'.elim
    | directory => exact h.elim
  | directory path dir =>
    cases m' with
    | memory => exact h.elim
    | directory path' dir' =>
      cases m'' with
      | memory => exact h'.elim
      | directory path'' dir'' => exact ⟨h'.1.trans h.1, h'.2.trans h.2⟩

theorem SamePlace.symm (h : SamePlace m m') : SamePlace m' m := by
  cases m with
  | memory table =>
    cases m' with
    | memory => trivial
    | directory => exact h.elim
  | directory path dir =>
    cases m' with
    | memory => exact h.elim
    | directory path' dir' => exact ⟨h.1.symm, h.2.symm⟩

/-- Media in the same place are the same if the same stands under each name. -/
theorem SamePlace.eq_of_node (h : SamePlace m m') (hnode : ∀ q, m'.node? q = m.node? q) :
    m' = m := by
  cases m with
  | memory table =>
    cases m' with
    | memory table' =>
      refine congrArg Medium.memory (Table.ext_get? fun q => ?_)
      exact Option.map_injective (fun _ _ h => Node.file.inj h) (hnode q)
    | directory => exact h.elim
  | directory path dir =>
    cases m' with
    | memory => exact h.elim
    | directory path' dir' =>
      obtain ⟨nodes, unnamed⟩ := dir
      obtain ⟨nodes', unnamed'⟩ := dir'
      obtain ⟨rfl, rfl⟩ := h
      obtain rfl : nodes' = nodes := Table.ext_get? hnode
      rfl

/-- A medium that may differ from another one under names that are not fixed, but nowhere else. -/
structure Alike (m m' : Medium) : Prop where
  place : SamePlace m m'
  fixed_iff : ∀ q, m'.Fixed q ↔ m.Fixed q
  fixed : ∀ q, m.Fixed q → m'.node? q = m.node? q

theorem Alike.refl (m : Medium) : Alike m m := ⟨.refl m, fun _ => Iff.rfl, fun _ _ => rfl⟩

theorem Alike.trans (h : Alike m m') (h' : Alike m' m'') : Alike m m'' :=
  ⟨h.place.trans h'.place, fun q => (h'.fixed_iff q).trans (h.fixed_iff q),
    fun q hq => (h'.fixed q ((h.fixed_iff q).mpr hq)).trans (h.fixed q hq)⟩

/-- Whatever stands under other names than folders' may be exchanged. -/
theorem Alike.of_node (h : SamePlace m m')
    (hnode : ∀ q, m'.node? q = m.node? q ∨ ¬m.Fixed q ∧ m'.node? q ≠ some .folder) :
    Alike m m' := by
  refine ⟨h, ?_, fun q hq => (hnode q).resolve_right fun hne => hne.1 hq⟩
  intro q
  cases m with
  | memory table =>
    cases m' with
    | memory => exact Iff.rfl
    | directory => exact h.elim
  | directory path dir =>
    cases m' with
    | memory => exact h.elim
    | directory path' dir' =>
      obtain ⟨rfl, -⟩ := h
      refine or_congr_right ?_
      rcases hnode q with hsame | ⟨hnot, hfolder⟩
      · rw [node?_directory, node?_directory] at hsame
        rw [hsame]
      · exact ⟨fun hf => absurd hf hfolder, fun hf => absurd (Or.inr hf) hnot⟩

/-! ## Accesses -/

/-- A write puts a file under a free name. -/
theorem write_ok (h : m.write name data = .ok m') :
    m.node? name = none ∧ ¬m.Fixed name ∧ SamePlace m m' ∧
      ∀ q, m'.node? q = if q = name then some (.file data) else m.node? q := by
  cases m with
  | memory table =>
    simp only [write] at h
    split at h
    next => cases h
    next =>
      split at h
      next => cases h
      next hfree =>
        obtain rfl := Except.ok.inj h
        have hnone : table.get? name = none := Table.get?_eq_none_of_not_contains hfree
        refine ⟨?_, fun hf => hf.elim, trivial, ?_⟩
        · rw [node?_memory, hnone]
          rfl
        · intro q
          rw [node?_memory, node?_memory, Table.get?_insert]
          split
          next => rfl
          next => rfl
  | directory path dir =>
    simp only [write, Directory.write] at h
    cases hname : Directory.checkName path name with
    | error e => rw [hname] at h; cases h
    | ok _ =>
      rw [hname] at h
      dsimp only at h
      split at h
      next => cases h
      next hfree =>
        obtain rfl := Except.ok.inj h
        have hnone : dir.nodes.get? name = none := Table.get?_eq_none_of_not_contains hfree
        refine ⟨hnone, ?_, ⟨rfl, rfl⟩, fun q => Table.get?_insert ..⟩
        rintro (hrefused | hfolder)
        · exact hrefused hname
        · rw [hnone] at hfolder
          cases hfolder

/-- A deletion clears its name. -/
theorem delete_ok (h : m.delete name = .ok m') :
    ¬m.Fixed name ∧ SamePlace m m' ∧
      ∀ q, m'.node? q = if q = name then none else m.node? q := by
  cases m with
  | memory table =>
    simp only [delete] at h
    split at h
    next =>
      obtain rfl := Except.ok.inj h
      refine ⟨fun hf => hf.elim, trivial, ?_⟩
      intro q
      rw [node?_memory, node?_memory, Table.get?_erase]
      split
      next => rfl
      next => rfl
    next => cases h
  | directory path dir =>
    simp only [delete, Directory.delete] at h
    cases hfile : dir.file path name with
    | error e => rw [hfile] at h; cases h
    | ok data =>
      rw [hfile] at h
      obtain rfl := Except.ok.inj h
      refine ⟨?_, ⟨rfl, rfl⟩, fun q => Table.get?_erase ..⟩
      unfold Directory.file at hfile
      rintro (hrefused | hfolder)
      · cases hname : Directory.checkName path name with
        | error e => rw [hname] at hfile; cases hfile
        | ok _ => exact hrefused hname
      · rw [hfolder] at hfile
        split at hfile
        next => cases hfile
        next => cases hfile

/-- Nothing is found under a name that is free. -/
theorem delete_notFound {n : String} (h : m.delete name = .error (.notFound n)) :
    m.node? name = none ∧ ¬m.Fixed name := by
  cases m with
  | memory table =>
    simp only [delete] at h
    split at h
    next => cases h
    next hfree =>
      refine ⟨?_, fun hf => hf.elim⟩
      rw [node?_memory, Table.get?_eq_none_of_not_contains hfree]
      rfl
  | directory path dir =>
    simp only [delete, Directory.delete, Directory.file] at h
    cases hname : Directory.checkName path name with
    | error e =>
      -- a refused name is not one that nothing is found under
      rw [hname] at h
      obtain rfl := Except.error.inj h
      unfold Directory.checkName at hname
      split at hname
      next => cases hname
      next =>
        split at hname
        next => cases hname
        next => cases hname
    | ok _ =>
      rw [hname] at h
      dsimp only at h
      cases hnode : dir.nodes.get? name with
      | none =>
        refine ⟨hnode, ?_⟩
        rintro (hrefused | hfolder)
        · exact hrefused hname
        · cases hnode.symm.trans hfolder
      | some node =>
        rw [hnode] at h
        cases node with
        | folder => cases h
        | device => cases h
        | file data => cases h

/-- Where there is something, a deletion fails only if the name is fixed. -/
theorem fixed_of_delete_error {e : StoreError} (h : m.delete name = .error e)
    (hfound : ∀ n, e ≠ .notFound n) : m.Fixed name := by
  cases m with
  | memory table =>
    simp only [delete] at h
    split at h
    next => cases h
    next => exact absurd (Except.error.inj h).symm (hfound name)
  | directory path dir =>
    simp only [delete, Directory.delete, Directory.file] at h
    cases hname : Directory.checkName path name with
    | error e' => exact Or.inl fun hok => by cases hname.symm.trans hok
    | ok _ =>
      rw [hname] at h
      dsimp only at h
      cases hnode : dir.nodes.get? name with
      | none =>
        rw [hnode] at h
        exact absurd (Except.error.inj h).symm (hfound name)
      | some node =>
        rw [hnode] at h
        cases node with
        | folder => exact Or.inr hnode
        | device => cases h
        | file data => cases h

/-- What is read from a name that stands for something is what its file holds. -/
theorem node_of_read (h : m.read name = .ok data) (hdata : data ≠ []) :
    m.node? name = some (.file data) ∧ ¬m.Fixed name := by
  cases m with
  | memory table =>
    simp only [read] at h
    split at h
    next found hfound =>
      obtain rfl := Except.ok.inj h
      exact ⟨congrArg (Option.map Node.file) hfound, fun hf => hf.elim⟩
    next => cases h
  | directory path dir =>
    simp only [read, Directory.file] at h
    split at h
    next => cases h
    next hname =>
      split at h
      next => cases h
      next => cases h
      next => exact absurd (Except.ok.inj h).symm hdata
      next found hfound =>
        obtain rfl := Except.ok.inj h
        refine ⟨hfound, ?_⟩
        rintro (hrefused | hfolder)
        · exact hrefused hname
        · cases hfound.symm.trans hfolder

/-- A file can be read. -/
theorem read_of_node (h : m.node? name = some (.file data)) (hfixed : ¬m.Fixed name) :
    m.read name = .ok data := by
  cases m with
  | memory table =>
    obtain ⟨found, hfound, hfile⟩ := Option.map_eq_some_iff.mp h
    obtain rfl := Node.file.inj hfile
    simp only [read, hfound]
  | directory path dir =>
    have hname : Directory.checkName path name = .ok () :=
      Classical.byContradiction fun hrefused => hfixed (Or.inl hrefused)
    have hnode : dir.nodes.get? name = some (.file data) := h
    simp only [read, Directory.file, hname, hnode]

/-- Nothing is read under a free name, and nothing deleted. -/
theorem notFound_of_free (h : m.node? name = none) (hfixed : ¬m.Fixed name) :
    m.read name = .error (.notFound name) ∧ m.delete name = .error (.notFound name) := by
  cases m with
  | memory table =>
    have hget : table.get? name = none := Option.map_eq_none_iff.mp h
    have hcontains : table.contains name = false := by simp [Table.contains, hget]
    simp [read, delete, hget, hcontains]
  | directory path dir =>
    have hname : Directory.checkName path name = .ok () :=
      Classical.byContradiction fun hrefused => hfixed (Or.inl hrefused)
    have hget : dir.nodes.get? name = none := h
    have hfile : dir.file path name = .error (.notFound name) := by
      simp only [Directory.file, hname, hget]
    refine ⟨hfile, ?_⟩
    simp only [delete, Directory.delete, hfile]
    rfl

/-- The artifacts that exist are the files under names that are not refused. -/
theorem node_of_exists (h : m.exists? name = .ok true) :
    (∃ data, m.node? name = some (.file data)) ∧ ¬m.Fixed name := by
  cases m with
  | memory table =>
    obtain ⟨data, hdata⟩ := (Table.contains_iff_get? table name).mp (Except.ok.inj h)
    exact ⟨⟨data, congrArg (Option.map Node.file) hdata⟩, fun hf => hf.elim⟩
  | directory path dir =>
    simp only [exists?, Directory.exists?] at h
    split at h
    next => cases h
    next hvalid =>
      obtain ⟨hreaches, hfile⟩ := Bool.and_eq_true_iff.mp (Except.ok.inj h)
      obtain ⟨data, hdata⟩ := Option.isSome_iff_exists.mp hfile
      obtain ⟨node, hnode, hnodeData⟩ := Option.bind_eq_some_iff.mp hdata
      cases node with
      | folder => cases hnodeData
      | device => cases hnodeData
      | file bytes =>
        refine ⟨⟨bytes, hnode⟩, ?_⟩
        rintro (hrefused | hfolder)
        · refine hrefused ?_
          unfold Directory.checkName
          rw [if_neg hvalid, if_neg (by simp [hreaches])]
        · cases hnode.symm.trans hfolder

/-! ## Listings -/

/-- The artifacts with their data are the files. -/
theorem mem_artifacts_iff (m : Medium) (q : String) (data : Bytes) :
    (q, data) ∈ m.artifacts ↔ m.node? q = some (.file data) := by
  unfold artifacts node?
  cases m with
  | memory table =>
    refine (Table.mem_entries_iff table q data).trans ?_
    simp
  | directory path dir =>
    dsimp only
    unfold Directory.artifacts
    simp only [List.mem_filterMap, Option.map_eq_some_iff]
    constructor
    · rintro ⟨⟨q', node⟩, hmem, data', hdata, heq⟩
      obtain ⟨rfl, rfl⟩ := Prod.mk.inj heq
      cases node with
      | folder => cases hdata
      | device => cases hdata
      | file bytes =>
        obtain rfl := Option.some.inj hdata
        exact (Table.mem_entries_iff dir.nodes q' _).mp hmem
    · intro hnode
      exact ⟨(q, .file data), (Table.mem_entries_iff dir.nodes q _).mpr hnode, data, rfl, rfl⟩

/-- The artifacts are the files. -/
theorem mem_names_iff (m : Medium) (q : String) :
    q ∈ m.names ↔ ∃ data, m.node? q = some (.file data) := by
  unfold names
  rw [List.mem_map]
  constructor
  · rintro ⟨⟨q, data⟩, hmem, rfl⟩
    exact ⟨data, (mem_artifacts_iff m q data).mp hmem⟩
  · rintro ⟨data, hnode⟩
    exact ⟨(q, data), (mem_artifacts_iff m q data).mpr hnode, rfl⟩

/-- The artifacts are listed in the order of their names. -/
theorem pairwise_names (m : Medium) : m.names.Pairwise (· < ·) := by
  cases m with
  | memory table => exact Table.pairwise_keys table
  | directory path dir =>
    show (dir.artifacts.map Prod.fst).Pairwise (· < ·)
    have hsub : (dir.artifacts.map Prod.fst).Sublist dir.nodes.keys := by
      unfold Directory.artifacts Table.keys
      induction dir.nodes.entries with
      | nil => exact List.Sublist.refl _
      | cons e rest ih =>
        rw [List.filterMap_cons]
        split
        next => exact ih.cons _
        next b hb =>
          obtain ⟨data, -, rfl⟩ := Option.map_eq_some_iff.mp hb
          exact ih.cons_cons _
    exact (Table.pairwise_keys dir.nodes).sublist hsub

/-- No artifact is listed twice. -/
theorem nodup_names (m : Medium) : m.names.Nodup :=
  (pairwise_names m).imp fun h => KeyOrder.ne_of_lt h

/-- The artifacts are what the files are, in the order of their names. -/
theorem artifacts_eq {entries : List (String × Bytes)}
    (hsorted : entries.Pairwise fun a b => a.1 < b.1)
    (h : ∀ q data, (q, data) ∈ entries ↔ m.node? q = some (.file data)) :
    m.artifacts = entries := by
  have hartifacts : m.artifacts.Pairwise fun a b => a.1 < b.1 :=
    List.pairwise_map.mp (pairwise_names m)
  have hnodup : ∀ l : List (String × Bytes), (l.Pairwise fun a b => a.1 < b.1) → l.Nodup :=
    fun l hl => hl.imp fun hlt heq => KeyOrder.ne_of_lt hlt (congrArg Prod.fst heq)
  refine List.Perm.eq_of_pairwise ?_ hartifacts hsorted
    ((List.perm_ext_iff_of_nodup (hnodup _ hartifacts) (hnodup _ hsorted)).mpr ?_)
  · intro a b _ _ hlt hgt
    exact absurd (KeyOrder.lt_trans hlt hgt) (KeyOrder.lt_irrefl a.1)
  · rintro ⟨q, data⟩
    exact (mem_artifacts_iff m q data).trans (h q data).symm

/-- Media of the same files have the same artifacts, whatever else they have. -/
theorem artifacts_congr
    (h : ∀ q data, m'.node? q = some (.file data) ↔ m.node? q = some (.file data)) :
    m'.artifacts = m.artifacts :=
  artifacts_eq (List.pairwise_map.mp (pairwise_names m)) fun q data =>
    (mem_artifacts_iff m q data).trans (h q data).symm

end Medium

end SnapshotRetention.Store
