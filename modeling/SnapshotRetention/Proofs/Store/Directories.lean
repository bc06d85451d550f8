import SnapshotRetention.Proofs.Store.Works

/-!
# Stores in directories

A store in the directory at a path (`Store.InDirectory`) serves the names that the path takes: what
is no folder is not fixed under such a name. Under any other name nothing is read and nothing
deleted, whatever stands there (`Store.Refused`).
-/

namespace SnapshotRetention.Store

variable {s s' : Store} {path name : String} {data : Bytes} {names : List String} {err : StoreError}

/-- A store that never fails, in the directory at a path. -/
structure InDirectory (path : String) (s : Store) : Prop where
  directory : ∃ dir, s.medium = .directory path dir
  never : s.faults = .never

/-- Under a name nothing is read and nothing deleted, and the store stays as it is but for the
time. -/
structure Refused (s : Store) (name : String) (err : StoreError) : Prop where
  read : s.read name = .error err
  delete : s.delete name = (.error err, s.tick)

namespace InDirectory

theorem alike (h : InDirectory path s) (halike : Medium.Alike s.medium s'.medium)
    (hfaults : s'.faults = s.faults) : InDirectory path s' := by
  refine ⟨?_, hfaults.trans h.never⟩
  obtain ⟨dir, hdir⟩ := h.directory
  have hplace := halike.place
  rw [hdir] at hplace
  cases hmedium : s'.medium with
  | memory table =>
    rw [hmedium] at hplace
    exact hplace.elim
  | directory path' dir' =>
    rw [hmedium] at hplace
    exact ⟨dir', by rw [hplace.1]⟩

theorem accepts_iff (h : InDirectory path s) (name : String) :
    s.medium.Accepts name ↔ Directory.checkName path name = .ok () := by
  obtain ⟨dir, hdir⟩ := h.directory
  rw [hdir]
  exact Iff.rfl

/-- What is no folder is not fixed if its name is taken. -/
theorem not_fixed (h : InDirectory path s) (hname : Directory.checkName path name = .ok ())
    (hnode : s.medium.node? name ≠ some .folder) : ¬s.medium.Fixed name := by
  obtain ⟨dir, hdir⟩ := h.directory
  rw [hdir] at hnode ⊢
  rintro (hrefused | hfolder)
  · exact hrefused hname
  · exact hnode hfolder

theorem refused (h : InDirectory path s) (hname : Directory.checkName path name = .error err) :
    Refused s name err := by
  obtain ⟨dir, hdir⟩ := h.directory
  have hfile : dir.file path name = .error err := by
    unfold Directory.file
    rw [hname]
  refine ⟨?_, delete_of_never_error h.never ?_⟩
  · rw [read_of_never h.never, hdir]
    exact hfile
  · rw [hdir]
    simp only [Medium.delete, Directory.delete, hfile]
    rfl

/-- Under a name that can be an artifact's a file exists if the path reaches it. -/
theorem exists_eq (h : InDirectory path s) (hvalid : isValidName name = true) :
    s.exists? name = .ok (Directory.reaches path name &&
      ((s.medium.node? name).bind Node.data?).isSome) := by
  obtain ⟨dir, hdir⟩ := h.directory
  rw [exists_of_never h.never, hdir]
  simp only [Medium.exists?, Directory.exists?, hvalid]
  rfl

/-- Any other name is refused when it is asked for, too. -/
theorem exists_of_invalid (h : InDirectory path s) (hinvalid : isValidName name = false) :
    s.exists? name = .error (.invalidName name) := by
  obtain ⟨dir, hdir⟩ := h.directory
  rw [exists_of_never h.never, hdir]
  simp only [Medium.exists?, Directory.exists?, hinvalid]
  rfl

end InDirectory

end SnapshotRetention.Store
