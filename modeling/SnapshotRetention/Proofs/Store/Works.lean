import SnapshotRetention.Proofs.Store.Steps

/-!
# Writing to a store that works

A store works if its fault plan refuses no write and no synchronisation, at whatever time
(`Store.Works`); deletions may fail. Artifacts of different names that the medium accepts
(`Medium.Accepts`) and that stand for nothing yet are then written (`exists_writeAll`), and the
store is synchronised (`sync_of_works`). A name that stands for something is reported as taken
(`write_taken_of_works`).
-/

namespace SnapshotRetention.Store

open Medium (SamePlace)

variable {s s' : Store} {name q : String} {data : Bytes} {entries : List (String × Bytes)}

namespace Medium

variable {m m' : Medium}

/-- Whether an artifact may have a name, if nothing is in the way. -/
def Accepts (name : String) : Medium → Prop
  | .memory _ => isValidName name = true
  | .directory path _ => Directory.checkName path name = .ok ()

/-- Which names are accepted does not depend on what is there. -/
theorem SamePlace.accepts_iff (h : SamePlace m m') (q : String) : m'.Accepts q ↔ m.Accepts q := by
  cases m with
  | memory table =>
    cases m' with
    | memory => exact Iff.rfl
    | directory => exact h.elim
  | directory path dir =>
    cases m' with
    | memory => exact h.elim
    | directory path' dir' =>
      obtain ⟨rfl, -⟩ := h
      exact Iff.rfl

/-- A name that is accepted and stands for nothing can be written. -/
theorem exists_write (haccepts : m.Accepts name) (hfree : m.node? name = none) (data : Bytes) :
    ∃ m', m.write name data = .ok m' := by
  cases m with
  | memory table =>
    have hnone : table.get? name = none := Option.map_eq_none_iff.mp hfree
    have hvalid : isValidName name = true := haccepts
    have hcontains : table.contains name = false := by simp [Table.contains, hnone]
    simp only [write, hvalid, hcontains]
    exact ⟨_, rfl⟩
  | directory path dir =>
    have hnone : dir.nodes.get? name = none := hfree
    have hname : Directory.checkName path name = .ok () := haccepts
    have hcontains : dir.nodes.contains name = false := by simp [Table.contains, hnone]
    simp only [write, Directory.write, hname, hcontains]
    exact ⟨_, rfl⟩

theorem accepts_of_write (h : m.write name data = .ok m') : m.Accepts name := by
  cases m with
  | memory table =>
    simp only [write] at h
    split at h
    next => cases h
    next hvalid => simpa [Accepts] using hvalid
  | directory path dir =>
    simp only [write, Directory.write] at h
    cases hname : Directory.checkName path name with
    | error e => rw [hname] at h; cases h
    | ok _ => exact hname

/-- A name that is accepted and stands for something is reported as taken. -/
theorem write_of_taken (haccepts : m.Accepts name) (htaken : m.node? name ≠ none) (data : Bytes) :
    m.write name data = .error (.alreadyExists name) := by
  cases m with
  | memory table =>
    have hvalid : isValidName name = true := haccepts
    have hcontains : table.contains name = true := by
      obtain ⟨node, hnode⟩ := Option.ne_none_iff_exists'.mp htaken
      obtain ⟨found, hfound, -⟩ := Option.map_eq_some_iff.mp hnode
      exact (Table.contains_iff_get? table name).mpr ⟨found, hfound⟩
    simp only [write, hvalid, hcontains]
    rfl
  | directory path dir =>
    have hname : Directory.checkName path name = .ok () := haccepts
    have hcontains : dir.nodes.contains name = true :=
      (Table.contains_iff_get? dir.nodes name).mpr (Option.ne_none_iff_exists'.mp htaken)
    simp only [write, Directory.write, hname, hcontains]
    rfl

end Medium

/-- No write and no synchronisation is refused, whenever it comes. -/
def Works (s : Store) : Prop :=
  ∀ clock name, s.faults.fault? clock .write name = none ∧ s.faults.fault? clock .sync name = none

theorem works_of_never (h : s.faults = .never) : s.Works := by
  intro clock name
  rw [h]
  exact ⟨rfl, rfl⟩

theorem Works.congr (h : s.Works) (hfaults : s'.faults = s.faults) : s'.Works := by
  unfold Works
  rw [hfaults]
  exact h

theorem sync_of_works (h : s.Works) : s.sync = (.ok (), s.tick) := by
  unfold sync fault?
  rw [(h s.clock "").2]

theorem exists_write (h : s.Works) (haccepts : s.medium.Accepts name)
    (hfree : s.medium.node? name = none) (data : Bytes) :
    ∃ s', s.write name data = (.ok (), s') := by
  obtain ⟨medium, hmedium⟩ := Medium.exists_write haccepts hfree data
  unfold write fault?
  rw [(h s.clock name).1, hmedium]
  exact ⟨_, rfl⟩

/-- Different names that are accepted and stand for nothing can all be written. -/
theorem exists_writeAll (h : s.Works) (hnodup : (entries.map Prod.fst).Nodup)
    (haccepts : ∀ q ∈ entries.map Prod.fst, s.medium.Accepts q)
    (hfree : ∀ q ∈ entries.map Prod.fst, s.medium.node? q = none) :
    ∃ s', s.writeAll entries = (.ok (), s') := by
  induction entries generalizing s with
  | nil => exact ⟨s, rfl⟩
  | cons e rest ih =>
    obtain ⟨hnot, hrest⟩ := List.nodup_cons.mp hnodup
    obtain ⟨s1, hfirst⟩ := exists_write h (haccepts e.1 List.mem_cons_self)
      (hfree e.1 List.mem_cons_self) e.2
    have hwrote := wrote_write hfirst
    unfold writeAll
    rw [hfirst]
    refine ih (h.congr hwrote.faults) hrest ?_ ?_
    · intro q hq
      exact (hwrote.alike.place.accepts_iff q).mpr (haccepts q (List.mem_cons_of_mem _ hq))
    · intro q hq
      have hne : q ∉ [(e.1, e.2)].map Prod.fst := fun hmem => hnot (List.mem_singleton.mp hmem ▸ hq)
      exact (hwrote.other q hne).trans (hfree q (List.mem_cons_of_mem _ hq))

theorem accepts_of_write (h : s.write name data = (.ok (), s')) : s.medium.Accepts name := by
  unfold write at h
  split at h
  next => cases h
  next =>
    split at h
    next => cases h
    next medium hm => exact Medium.accepts_of_write hm

theorem accepts_of_writeAll (h : s.writeAll entries = (.ok (), s')) :
    ∀ q ∈ entries.map Prod.fst, s.medium.Accepts q := by
  induction entries generalizing s with
  | nil => exact fun q hq => absurd hq List.not_mem_nil
  | cons e rest ih =>
    unfold writeAll at h
    split at h
    next => cases h
    next s1 hfirst =>
      intro q hq
      rcases List.mem_cons.mp hq with rfl | hq
      · exact accepts_of_write hfirst
      · exact ((wrote_write hfirst).alike.place.accepts_iff q).mp (ih h q hq)

/-- A store that works says which name is taken. -/
theorem write_taken_of_works (h : s.Works) (haccepts : s.medium.Accepts name)
    (htaken : s.medium.node? name ≠ none) (data : Bytes) :
    (s.write name data).1 = .error (.alreadyExists name) := by
  unfold write fault?
  rw [(h s.clock name).1, Medium.write_of_taken haccepts htaken data]

end SnapshotRetention.Store
