import SnapshotRetention.Proofs.Store.Steps

/-!
# Names that are cleared or kept

A store erodes (`Store.Erodes`) when some of what stands in it goes and nothing comes, as long as
certain names are kept. Deleting a name erodes it (`erodes_delete`), and so does a sweep, however far
it comes (`erodes_sweep`), or a tracker that deletes several names (`erodes_deleteAll`). What is read
under a name that is kept does not change (`Erodes.data?_eq`).
-/

namespace SnapshotRetention.Store

open Medium (Alike SamePlace)

variable {keep keep' names kept : List String} {s s' s'' : Store} {name q : String}

/-- Nothing has come, and of the names to be kept nothing has gone. -/
structure Erodes (keep : List String) (s s' : Store) : Prop where
  node : ∀ q, s'.medium.node? q = s.medium.node? q ∨ s'.medium.node? q = none
  kept : ∀ q ∈ keep, s'.medium.node? q = s.medium.node? q
  alike : Alike s.medium s'.medium

theorem Erodes.of_medium (h : s'.medium = s.medium) : Erodes keep s s' := by
  refine ⟨fun q => Or.inl ?_, fun q _ => ?_, ?_⟩
  all_goals rw [h]
  exact .refl _

theorem Erodes.refl (keep : List String) (s : Store) : Erodes keep s s := .of_medium rfl

theorem Erodes.trans (h : Erodes keep s s') (h' : Erodes keep s' s'') : Erodes keep s s'' := by
  refine ⟨fun q => ?_, fun q hq => (h'.kept q hq).trans (h.kept q hq), h.alike.trans h'.alike⟩
  rcases h'.node q with hsame | hnone
  · rw [hsame]
    exact h.node q
  · exact Or.inr hnone

/-- Less may be kept. -/
theorem Erodes.mono (h : Erodes keep s s') (hsub : ∀ q ∈ keep', q ∈ keep) : Erodes keep' s s' :=
  ⟨h.node, fun q hq => h.kept q (hsub q hq), h.alike⟩

theorem Cleared.erodes (h : Cleared names kept s s') (hkeep : ∀ q ∈ keep, q ∉ names) :
    Erodes keep s s' := by
  refine ⟨fun q => ?_, fun q hq => h.node_of_not_mem (hkeep q hq), h.alike⟩
  rw [h.node]
  split
  next => exact Or.inr rfl
  next => exact Or.inl rfl

/-- What is there was there before. -/
theorem Erodes.node_of_some (h : Erodes keep s s') {node : Node}
    (hq : s'.medium.node? q = some node) : s.medium.node? q = some node := by
  rcases h.node q with hsame | hnone
  · exact hsame.symm.trans hq
  · cases hnone.symm.trans hq

/-! ## What is read -/

/-- What is read under a name depends on what stands there. -/
theorem Medium.SamePlace.read_eq {m m' : Medium} (h : SamePlace m m')
    (hnode : m'.node? q = m.node? q) : m'.read q = m.read q := by
  cases m with
  | memory table =>
    cases m' with
    | memory table' =>
      have hget : table'.get? q = table.get? q :=
        Option.map_injective (fun _ _ h => Node.file.inj h) hnode
      simp only [Medium.read, hget]
    | directory => exact h.elim
  | directory path dir =>
    cases m' with
    | memory => exact h.elim
    | directory path' dir' =>
      obtain ⟨rfl, -⟩ := h
      have hget : dir'.nodes.get? q = dir.nodes.get? q := hnode
      simp only [Medium.read, Directory.file, hget]

/-- Nothing is read where nothing stands. -/
theorem data?_eq_none_of_node (h : s.medium.node? q = none) : s.data? q = none := by
  cases hdata : s.data? q with
  | none => rfl
  | some data =>
    unfold data? at hdata
    cases hm : s.medium with
    | memory table =>
      rw [hm] at h hdata
      have hget : table.get? q = none := Option.map_eq_none_iff.mp h
      simp only [Medium.read, hget] at hdata
      cases hdata
    | directory path dir =>
      rw [hm] at h hdata
      have hget : dir.nodes.get? q = none := h
      simp only [Medium.read, Directory.file, hget] at hdata
      split at hdata
      next => cases hdata
      next => cases hdata

theorem data?_eq_of_node (h : SamePlace s.medium s'.medium)
    (hnode : s'.medium.node? q = s.medium.node? q) : s'.data? q = s.data? q :=
  congrArg Except.toOption (h.read_eq hnode)

/-- What is read under a name that is kept does not change. -/
theorem Erodes.data?_eq (h : Erodes keep s s') (hq : q ∈ keep) : s'.data? q = s.data? q :=
  data?_eq_of_node h.alike.place (h.kept q hq)

/-- What is read was read before. -/
theorem Erodes.data?_of_some (h : Erodes keep s s') {data : Bytes} (hq : s'.data? q = some data) :
    s.data? q = some data := by
  rcases h.node q with hsame | hnone
  · exact (data?_eq_of_node h.alike.place hsame).symm.trans hq
  · cases (data?_eq_none_of_node hnone).symm.trans hq

/-! ## Deleting and sweeping -/

theorem erodes_delete (hkeep : name ∉ keep) (s : Store) : Erodes keep s (s.delete name).2 := by
  have hnames : ∀ q ∈ keep, q ∉ [name] := by
    rintro q hq hmem
    exact hkeep (List.mem_singleton.mp hmem ▸ hq)
  obtain ⟨result, s', h⟩ : ∃ result s', s.delete name = (result, s') := ⟨_, _, rfl⟩
  rw [h]
  cases result with
  | ok _ => exact (cleared_delete (Or.inl h)).erodes hnames
  | error e =>
    by_cases hfound : ∀ n, e ≠ .notFound n
    · exact (cleared_delete_error h hfound).erodes hnames
    · push Not at hfound
      obtain ⟨n, rfl⟩ := hfound
      exact (cleared_delete (Or.inr ⟨n, h⟩)).erodes hnames

theorem erodes_deleteStrays {keeps : String → Bool} (hkeep : ∀ q ∈ keep, keeps q = true)
    (names : List String) (s : Store) : Erodes keep s (s.deleteStrays keeps names).2 := by
  induction names generalizing s with
  | nil => exact .refl keep s
  | cons name rest ih =>
    unfold deleteStrays
    split
    next => exact ih s
    next hstray =>
      have hdelete := erodes_delete (fun hmem => hstray (hkeep name hmem)) s
      split
      next heq =>
        rw [heq] at hdelete
        exact hdelete
      next s1 heq =>
        rw [heq] at hdelete
        exact hdelete.trans (ih s1)

theorem erodes_sweep {keeps : String → Bool} (hkeep : ∀ q ∈ keep, keeps q = true) (s : Store) :
    Erodes keep s (s.sweep keeps).2 := by
  unfold sweep
  split
  next => exact .refl keep s
  next names _ => exact erodes_deleteStrays hkeep names s

theorem erodes_deleteAll (hkeep : ∀ q ∈ keep, q ∉ names) (t : Tracker) (s : Store) :
    Erodes keep s (Tracker.deleteAll names t s).2.2 := by
  induction names generalizing t s with
  | nil => exact .refl keep s
  | cons name names ih =>
    have hfirst : (Tracker.deleteOne name t s).2.2 = (s.delete name).2 := by
      unfold Tracker.deleteOne
      split
      next heq => rw [heq]
      next heq => rw [heq]
      next heq => rw [heq]
    have hdelete := erodes_delete (fun hmem => hkeep name hmem List.mem_cons_self) s
    rw [← hfirst] at hdelete
    exact hdelete.trans (ih (fun q hq hmem => hkeep q hq (List.mem_cons_of_mem _ hmem)) _ _)

end SnapshotRetention.Store
