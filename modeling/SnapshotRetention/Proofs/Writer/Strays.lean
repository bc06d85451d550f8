import SnapshotRetention.Proofs.ByteOrder
import SnapshotRetention.Proofs.Store.Directories

/-!
# What a directory lists

The artifacts of a directory are its regular files with text names, whatever else is in it, and they
are listed in the order of the bytes of their names. A file system takes more names than a store
does (`SystemAllows`): of the names that it lists, a directory refuses those with a backslash, which
no store writes, and cannot reach those that are too long behind its path (`Directory.uses`).

All other artifacts that are listed can be used (`Usable`). One that is refused can be neither read
nor deleted (`Refused`), and a writer that opens over such a directory stops its sweep there, with
what it has swept by then gone (`Store.directory_uses_what_it_lists`).
-/

namespace SnapshotRetention.Store

open Medium (SamePlace)

variable {s s' : Store} {path name q : String} {dir : Directory} {data : Bytes}
  {names strays : List String} {err : StoreError}

/-! ## Names of files -/

/-- What the file system takes as the name of a file. -/
def SystemAllows (name : String) : Prop :=
  name ≠ "" ∧ name ≠ "." ∧ name ≠ ".." ∧ (∀ c ∈ name.toList, c ≠ '/' ∧ c.toNat ≠ 0) ∧
    name.utf8ByteSize ≤ Path.maxNameBytes

instance (name : String) : Decidable (SystemAllows name) :=
  have : Decidable (∀ c ∈ name.toList, c ≠ '/' ∧ c.toNat ≠ 0) := List.decidableBAll _ _
  inferInstanceAs (Decidable (_ ∧ _))

namespace Directory

/-- Whether the directory at a path uses the name of a file. -/
def uses (path q : String) : Bool := !q.toList.contains '\\' && Path.fits (Path.join path q)

/-- Why it does not. -/
def objection (q : String) : StoreError :=
  if q.toList.contains '\\' then .invalidName q else .io (.system .nameTooLong)

/-- Of what the file system takes, no artifact's name are the names with a backslash. -/
theorem isValidName_of_allowed (h : SystemAllows q) :
    isValidName q = !q.toList.contains '\\' := by
  obtain ⟨hempty, hdot, hdots, hchars, -⟩ := h
  have hall : (q.toList.all fun c => c ≠ '/' && c ≠ '\\' && c.toNat ≠ 0) =
      !q.toList.contains '\\' := by
    rw [Bool.eq_iff_iff, List.all_eq_true, Bool.not_eq_true', ← Bool.not_eq_true,
      List.contains_iff_mem]
    constructor
    · intro hall hmem
      have hback := hall '\\' hmem
      simp at hback
    · intro hnot c hc
      obtain ⟨hslash, hnul⟩ := hchars c hc
      have hback : c ≠ '\\' := fun heq => hnot (heq ▸ hc)
      simp [hslash, hnul, hback]
  unfold isValidName
  rw [hall]
  simp [hempty, hdot, hdots]

theorem reaches_of_allowed (h : SystemAllows q) (path : String) :
    reaches path q = Path.fits (Path.join path q) := by
  unfold reaches
  rw [decide_eq_true h.2.2.2.2, Bool.true_and]

theorem checkName_of_allowed (h : SystemAllows q) (path : String) :
    checkName path q = if uses path q then .ok () else .error (objection q) := by
  unfold checkName uses objection
  rw [isValidName_of_allowed h, reaches_of_allowed h]
  cases q.toList.contains '\\' with
  | true => rfl
  | false =>
    cases Path.fits (Path.join path q) with
    | true => rfl
    | false => rfl

end Directory

/-! ## One artifact -/

/-- Nothing but some names has been cleared. -/
structure Emptied (names : List String) (s s' : Store) : Prop where
  place : SamePlace s.medium s'.medium
  node : ∀ r, s'.medium.node? r = if r ∈ names then none else s.medium.node? r

/-- An artifact exists, is read, and is deleted without anything else. -/
structure Usable (s : Store) (q : String) (data : Bytes) : Prop where
  found : s.exists? q = .ok true
  read : s.read q = .ok data
  delete : (s.delete q).1 = .ok () ∧ Emptied [q] s (s.delete q).2

theorem Cleared.emptied (h : Cleared names [] s s') : Emptied names s s' := by
  refine ⟨h.alike.place, fun r => (h.node r).trans ?_⟩
  simp only [List.not_mem_nil, not_false_eq_true, and_true]

/-- A file whose name is taken can be deleted, and nothing else goes. -/
theorem InDirectory.delete (h : InDirectory path s)
    (hnode : s.medium.node? q = some (.file data))
    (hname : Directory.checkName path q = .ok ()) :
    ∃ s', s.delete q = (.ok (), s') ∧ Cleared [q] [] s s' := by
  have hfixed := h.not_fixed hname (by rw [hnode]; exact nofun)
  obtain ⟨s', hdelete⟩ := delete_of_node h.never hnode hfixed
  exact ⟨s', hdelete, cleared_delete (Or.inl hdelete)⟩

theorem InDirectory.exists_of_allowed (h : InDirectory path s) (hallowed : SystemAllows q)
    (hnode : s.medium.node? q = some (.file data)) : s.exists? q =
      if q.toList.contains '\\' then .error (.invalidName q) else .ok (Directory.uses path q) := by
  have hvalid := Directory.isValidName_of_allowed hallowed
  unfold Directory.uses
  cases hback : q.toList.contains '\\' with
  | true =>
    rw [hback] at hvalid
    exact h.exists_of_invalid hvalid
  | false =>
    rw [hback] at hvalid
    rw [h.exists_eq hvalid, hnode, Directory.reaches_of_allowed hallowed]
    simp [Node.data?]

theorem InDirectory.usable (h : InDirectory path s) (hallowed : SystemAllows q)
    (hnode : s.medium.node? q = some (.file data)) (huses : Directory.uses path q = true) :
    Usable s q data := by
  have hname : Directory.checkName path q = .ok () := by
    rw [Directory.checkName_of_allowed hallowed, if_pos huses]
  have hback : q.toList.contains '\\' = false :=
    (Bool.not_eq_true' _).mp (Bool.and_eq_true_iff.mp huses).1
  obtain ⟨s', hdelete, hcleared⟩ := h.delete hnode hname
  refine ⟨?_, ?_, ?_⟩
  · rw [h.exists_of_allowed hallowed hnode, hback, huses]
    rfl
  · rw [read_of_never h.never]
    exact Medium.read_of_node hnode (h.not_fixed hname (by rw [hnode]; exact nofun))
  · rw [hdelete]
    exact ⟨rfl, hcleared.emptied⟩

/-! ## Sweeping -/

/-- A sweep deletes files in order as far as the directory uses their names. -/
theorem InDirectory.deleteStrays (h : InDirectory path s) (kept : String → Bool)
    (hnodup : names.Nodup)
    (hfiles : ∀ q ∈ names, SystemAllows q ∧ ∃ data, s.medium.node? q = some (.file data)) :
    ((s.deleteStrays kept names).1 =
        match (names.filter fun q => !kept q).find? fun q => !Directory.uses path q with
        | none => .ok ()
        | some q => .error (Directory.objection q)) ∧
      Cleared ((names.filter fun q => !kept q).takeWhile (Directory.uses path)) [] s
        (s.deleteStrays kept names).2 := by
  induction names generalizing s with
  | nil => exact ⟨rfl, .nil rfl rfl rfl⟩
  | cons name rest ih =>
    obtain ⟨hnot, hrest⟩ := List.nodup_cons.mp hnodup
    have hfilesRest := fun q hq => hfiles q (List.mem_cons_of_mem _ hq)
    unfold Store.deleteStrays
    split
    next hkept =>
      rw [List.filter_cons_of_neg (by simp [hkept])]
      exact ih h hrest hfilesRest
    next hstray =>
      obtain ⟨hallowed, data, hnode⟩ := hfiles name List.mem_cons_self
      have hcheck := Directory.checkName_of_allowed hallowed path
      rw [List.filter_cons_of_pos (by simp [hstray])]
      cases huses : Directory.uses path name with
      | false =>
        rw [huses] at hcheck
        rw [(h.refused hcheck).delete, List.find?_cons_of_pos (by simp [huses]),
          List.takeWhile_cons_of_neg (by simp [huses])]
        exact ⟨rfl, .nil rfl rfl rfl⟩
      | true =>
        rw [huses] at hcheck
        obtain ⟨s1, hdelete, hcleared⟩ := h.delete hnode hcheck
        rw [hdelete, List.find?_cons_of_neg (by simp [huses]),
          List.takeWhile_cons_of_pos huses]
        have hleft : ∀ q ∈ rest,
            SystemAllows q ∧ ∃ data, s1.medium.node? q = some (.file data) := by
          intro q hq
          rw [hcleared.node_of_not_mem fun hmem => hnot (List.mem_singleton.mp hmem ▸ hq)]
          exact hfilesRest q hq
        obtain ⟨hresult, hrestCleared⟩ := ih (h.alike hcleared.alike hcleared.faults) hrest hleft
        refine ⟨hresult, hcleared.append hrestCleared (List.nil_subset _) (List.nil_subset _) ?_⟩
        intro q hq hmem
        rw [List.mem_singleton.mp hq] at hmem
        exact hnot (List.mem_filter.mp ((List.takeWhile_prefix _).subset hmem)).1

/-! ## What is listed -/

/-- A directory with whatever names the file system takes lists its files in the order of the bytes
of their names, none twice. Those whose names it uses can be used; the others are found by no access
by name. A sweep deletes what it does not keep up to the first of these, whose error is its outcome.
-/
theorem directory_uses_what_it_lists (h : InDirectory path s)
    (hallowed : ∀ q, s.medium.node? q ≠ none → SystemAllows q) :
    s.list = .ok s.names ∧ (s.names.map Bytes.ofText).Pairwise (· < ·) ∧
    (∀ q, q ∈ s.names ↔ ∃ data, s.medium.node? q = some (.file data)) ∧
    (∀ q data, s.medium.node? q = some (.file data) →
      (Directory.uses path q = true → Usable s q data) ∧
      (Directory.uses path q = false → Refused s q (Directory.objection q) ∧
        s.exists? q =
          if q.toList.contains '\\' then .error (.invalidName q) else .ok false)) ∧
    ∀ (kept : String → Bool) (strays : List String), strays = s.names.filter (fun q => !kept q) →
      ((s.sweep kept).1 =
        match strays.find? fun q => !Directory.uses path q with
        | none => .ok ()
        | some q => .error (Directory.objection q)) ∧
      Emptied (strays.takeWhile (Directory.uses path)) s (s.sweep kept).2 := by
  have hlist := list_of_never h.never
  refine ⟨hlist, ?_, mem_names_iff s, fun q data hnode => ⟨?_, ?_⟩, ?_⟩
  · exact List.pairwise_map.mpr ((Medium.pairwise_names s.medium).imp Bytes.ofText_lt_ofText)
  · exact h.usable (hallowed q (by rw [hnode]; exact Option.some_ne_none _)) hnode
  · intro huses
    have hq : SystemAllows q := hallowed q (by rw [hnode]; exact Option.some_ne_none _)
    refine ⟨h.refused ?_, ?_⟩
    · rw [Directory.checkName_of_allowed hq, huses]
      rfl
    · rw [h.exists_of_allowed hq hnode, huses]
  · rintro kept strays rfl
    have hfiles : ∀ q ∈ s.names,
        SystemAllows q ∧ ∃ data, s.medium.node? q = some (.file data) := by
      intro q hq
      obtain ⟨data, hnode⟩ := (mem_names_iff s q).mp hq
      exact ⟨hallowed q (by rw [hnode]; exact Option.some_ne_none _), data, hnode⟩
    obtain ⟨hresult, hcleared⟩ := h.deleteStrays kept (Medium.nodup_names s.medium) hfiles
    have hsweep : s.sweep kept = s.deleteStrays kept s.names := by
      unfold sweep
      rw [hlist]
    rw [hsweep]
    exact ⟨hresult, hcleared.emptied⟩

/-- A directory with two files, one of them under a name with a backslash, a folder, and a file
whose name is not text. -/
def assorted : Store :=
  ofMedium (.directory "store" ⟨.ofList [("a", .file [1]), ("a\\b", .file [2]), ("sub", .folder)],
    [[255]]⟩) .never

theorem inDirectory_assorted : InDirectory "store" assorted := ⟨⟨_, rfl⟩, rfl⟩

/-- Of its two files one can be used; a sweep deletes it and stops at the other. -/
theorem directory_uses_what_it_lists_assorted :
    Usable assorted "a" [1] ∧ Refused assorted "a\\b" (.invalidName "a\\b") ∧
      ((assorted.sweep fun _ => false).1 = .error (.invalidName "a\\b")) ∧
      Emptied ["a"] assorted (assorted.sweep fun _ => false).2 := by
  have hkeys : ∀ q ∈ ["a", "a\\b", "sub"], SystemAllows q := by decide +kernel
  have hallowed : ∀ q, assorted.medium.node? q ≠ none → SystemAllows q := by
    intro q hq
    obtain ⟨node, hnode⟩ := Option.ne_none_iff_exists'.mp hq
    exact hkeys q (Table.mem_keys_of_get? hnode)
  obtain ⟨-, -, -, hnames, hsweep⟩ := directory_uses_what_it_lists inDirectory_assorted hallowed
  obtain ⟨hresult, hemptied⟩ := hsweep (fun _ => false) ["a", "a\\b"] (by decide +kernel)
  refine ⟨(hnames "a" [1] (by decide +kernel)).1 (by decide +kernel), ?_, ?_, ?_⟩
  · exact ((hnames "a\\b" [2] (by decide +kernel)).2 (by decide +kernel)).1
  · rw [hresult]
    decide +kernel
  · exact hemptied

/-- What is listed may exist for no access by name, and a writer may not open because of it. -/
theorem listed_but_refused :
    assorted.list = .ok ["a", "a\\b"] ∧
      assorted.exists? "a\\b" = .error (.invalidName "a\\b") ∧
      assorted.read "a\\b" = .error (.invalidName "a\\b") ∧
      (assorted.delete "a\\b").1 = .error (.invalidName "a\\b") ∧
      ((Engine.ofConfig 0 .standard true (.ofStore assorted)).openWriter 0 true).1 =
        .error (.store (.invalidName "a\\b")) := by
  decide +kernel

end SnapshotRetention.Store
