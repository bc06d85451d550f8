import Mathlib.Data.List.Nodup
import SnapshotRetention.Proofs.Store.Nodes
import SnapshotRetention.Writer.Open

/-!
# Writing and clearing names

What a store does to the nodes under its names, whether its accesses are refused or not.
`Store.Wrote` is what writing artifacts leaves: each entry stands under a name that was free
(`wrote_writeAll`, `exists_wrote_of_error`). `Store.Cleared` is what deleting names leaves: they are
free, except for those that were kept because the fault plan refused, or because no access changes
them (`cleared_delete`, `cleared_deleteStrays`).
-/

namespace SnapshotRetention.Store

open Medium (Alike)

variable {s s' s'' : Store} {name q : String} {data : Bytes} {a b : List (String × Bytes)}
  {names kept names' kept' : List String}

/-! ## Stores that never fail -/

theorem FaultPlan.fault?_never (clock : Nat) (access : Access) (name : String) :
    FaultPlan.never.fault? clock access name = none := rfl

theorem read_of_never (h : s.faults = .never) (name : String) : s.read name = s.medium.read name := by
  unfold read fault?
  rw [h]
  rfl

theorem exists_of_never (h : s.faults = .never) (name : String) :
    s.exists? name = s.medium.exists? name := by
  unfold exists? fault?
  rw [h]
  rfl

theorem list_of_never (h : s.faults = .never) : s.list = .ok s.names := by
  unfold list fault?
  rw [h]
  rfl

theorem delete_of_never_error {e : StoreError} (h : s.faults = .never)
    (hmedium : s.medium.delete name = .error e) : s.delete name = (.error e, s.tick) := by
  unfold delete fault?
  rw [h, FaultPlan.fault?_never, hmedium]

theorem write_of_never_error {e : StoreError} (h : s.faults = .never)
    (hmedium : s.medium.write name data = .error e) :
    s.write name data = (.error e, s.tick) := by
  unfold write fault?
  rw [h, FaultPlan.fault?_never, hmedium]

/-! ## Writing -/

/-- What writing some artifacts leaves. -/
structure Wrote (entries : List (String × Bytes)) (s s' : Store) : Prop where
  free : ∀ q ∈ entries.map Prod.fst, s.medium.node? q = none ∧ ¬s.medium.Fixed q
  there : ∀ e ∈ entries, s'.medium.node? e.1 = some (.file e.2)
  other : ∀ q, q ∉ entries.map Prod.fst → s'.medium.node? q = s.medium.node? q
  alike : Alike s.medium s'.medium
  faults : s'.faults = s.faults
  failedDeletes : s'.failedDeletes = s.failedDeletes

/-- Time may pass. -/
theorem Wrote.nil (hmedium : s'.medium = s.medium) (hfaults : s'.faults = s.faults)
    (hfailed : s'.failedDeletes = s.failedDeletes) : Wrote [] s s' := by
  refine ⟨fun q hq => absurd hq List.not_mem_nil, fun e he => absurd he List.not_mem_nil, ?_, ?_,
    hfaults, hfailed⟩
  · intro q _
    rw [hmedium]
  · rw [hmedium]
    exact .refl _

theorem Wrote.append (h : Wrote a s s') (h' : Wrote b s' s'') : Wrote (a ++ b) s s'' := by
  -- a name that is free later on has not been written before
  have hnew : ∀ q ∈ b.map Prod.fst, q ∉ a.map Prod.fst := by
    intro q hq hmem
    obtain ⟨e, he, rfl⟩ := List.mem_map.mp hmem
    cases (h.there e he).symm.trans (h'.free e.1 hq).1
  refine ⟨?_, ?_, ?_, h.alike.trans h'.alike, h'.faults.trans h.faults,
    h'.failedDeletes.trans h.failedDeletes⟩
  · intro q hq
    rw [List.map_append] at hq
    rcases List.mem_append.mp hq with hq | hq
    · exact h.free q hq
    · obtain ⟨hnone, hfixed⟩ := h'.free q hq
      exact ⟨(h.other q (hnew q hq)).symm.trans hnone, fun hf => hfixed ((h.alike.fixed_iff q).mpr hf)⟩
  · intro e he
    rcases List.mem_append.mp he with he | he
    · rw [h'.other e.1 fun hmem => hnew e.1 hmem (List.mem_map_of_mem he)]
      exact h.there e he
    · exact h'.there e he
  · intro q hq
    rw [List.map_append, List.mem_append, not_or] at hq
    exact (h'.other q hq.2).trans (h.other q hq.1)

/-- A write puts its artifact under a free name. -/
theorem wrote_write (h : s.write name data = (.ok (), s')) : Wrote [(name, data)] s s' := by
  unfold write at h
  split at h
  next => cases h
  next =>
    split at h
    next => cases h
    next medium hm =>
      obtain ⟨-, rfl⟩ := Prod.mk.inj h
      obtain ⟨hfree, hfixed, hplace, hnode⟩ := Medium.write_ok hm
      refine ⟨?_, ?_, ?_, ?_, rfl, rfl⟩
      · intro q hq
        rw [List.mem_singleton.mp hq]
        exact ⟨hfree, hfixed⟩
      · intro e he
        rw [List.mem_singleton.mp he]
        exact (hnode name).trans (if_pos rfl)
      · intro q hq
        exact (hnode q).trans (if_neg fun heq => hq (List.mem_singleton.mpr heq))
      · refine .of_node hplace ?_
        intro q
        rw [hnode]
        by_cases hq : q = name
        · rw [if_pos hq]
          exact Or.inr ⟨hq ▸ hfixed, nofun⟩
        · rw [if_neg hq]
          exact Or.inl rfl

theorem wrote_write_error {e : StoreError} (h : s.write name data = (.error e, s')) :
    Wrote [] s s' := by
  refine .nil (write_error h) ?_ ?_
  all_goals
    unfold write at h
    split at h
    next =>
      obtain ⟨-, rfl⟩ := Prod.mk.inj h
      rfl
    next =>
      split at h
      next =>
        obtain ⟨-, rfl⟩ := Prod.mk.inj h
        rfl
      next => cases h

/-- All artifacts have been written if no write failed. -/
theorem wrote_writeAll (h : s.writeAll a = (.ok (), s')) : Wrote a s s' := by
  induction a generalizing s with
  | nil =>
    obtain ⟨-, rfl⟩ := Prod.mk.inj h
    exact .nil rfl rfl rfl
  | cons e rest ih =>
    unfold writeAll at h
    split at h
    next => cases h
    next s1 hw => exact (wrote_write hw).append (ih h)

/-- Those before the first write that failed have been written. -/
theorem exists_wrote_of_error {err : StoreError} (h : s.writeAll a = (.error err, s')) :
    ∃ written, written <+: a ∧ Wrote written s s' := by
  induction a generalizing s with
  | nil => cases h
  | cons e rest ih =>
    unfold writeAll at h
    split at h
    next err' s1 hw =>
      obtain ⟨-, rfl⟩ := Prod.mk.inj h
      exact ⟨[], List.nil_prefix, wrote_write_error hw⟩
    next s1 hw =>
      obtain ⟨written, hprefix, hwrote⟩ := ih h
      exact ⟨e :: written, (List.prefix_cons_inj e).mpr hprefix, (wrote_write hw).append hwrote⟩

theorem wrote_sync (s : Store) : Wrote [] s s.sync.2 := by
  unfold sync
  split
  next => exact .nil rfl rfl rfl
  next => exact .nil rfl rfl rfl

/-- At some time the fault plan refuses to synchronise. -/
def RefusesSync (s : Store) : Prop := ∃ clock fault, s.faults.fault? clock .sync "" = some fault

theorem RefusesSync.congr (h : s.RefusesSync) (hfaults : s'.faults = s.faults) :
    s'.RefusesSync := by
  unfold RefusesSync
  rw [hfaults]
  exact h

theorem refusesSync_of_error {err : StoreError} (h : s.sync = (.error err, s')) :
    s.RefusesSync := by
  unfold sync fault? at h
  split at h
  next fault hfault => exact ⟨s.clock, fault, hfault⟩
  next => cases h

theorem not_refusesSync_of_never (h : s.faults = .never) : ¬s.RefusesSync := by
  rintro ⟨clock, fault, hfault⟩
  rw [h] at hfault
  cases hfault

/-! ## Deleting -/

/-- What deleting some names leaves, if some of them were kept. -/
structure Cleared (names kept : List String) (s s' : Store) : Prop where
  node : ∀ q, s'.medium.node? q = if q ∈ names ∧ q ∉ kept then none else s.medium.node? q
  cleared : ∀ q ∈ names, q ∉ kept → ¬s.medium.Fixed q
  alike : Alike s.medium s'.medium
  faults : s'.faults = s.faults
  failedDeletes : s.failedDeletes ≤ s'.failedDeletes
  /-- If no deletion was refused, what was kept is what no access changes. -/
  fixed : s'.failedDeletes = s.failedDeletes → ∀ q ∈ kept, s.medium.Fixed q
  never : s.faults = .never → s'.failedDeletes = s.failedDeletes

theorem Cleared.nil (hmedium : s'.medium = s.medium) (hfaults : s'.faults = s.faults)
    (hfailed : s'.failedDeletes = s.failedDeletes) : Cleared [] [] s s' := by
  refine ⟨?_, fun q hq => absurd hq List.not_mem_nil, ?_, hfaults, Nat.le_of_eq hfailed.symm,
    fun _ q hq => absurd hq List.not_mem_nil, fun _ => hfailed⟩
  · intro q
    rw [if_neg fun hand => List.not_mem_nil hand.1, hmedium]
  · rw [hmedium]
    exact .refl _

theorem Cleared.node_of_not_mem (h : Cleared names kept s s') (hq : q ∉ names) :
    s'.medium.node? q = s.medium.node? q :=
  (h.node q).trans (if_neg fun hand => hq hand.1)

theorem Cleared.node_of_kept (h : Cleared names kept s s') (hq : q ∈ kept) :
    s'.medium.node? q = s.medium.node? q :=
  (h.node q).trans (if_neg fun hand => hand.2 hq)

/-- Other names may be deleted afterwards. -/
theorem Cleared.append (h : Cleared names kept s s') (h' : Cleared names' kept' s' s'')
    (hkept : kept ⊆ names) (hkept' : kept' ⊆ names') (hdisjoint : List.Disjoint names names') :
    Cleared (names ++ names') (kept ++ kept') s s'' := by
  refine ⟨?_, ?_, h.alike.trans h'.alike, h'.faults.trans h.faults,
    Nat.le_trans h.failedDeletes h'.failedDeletes, ?_, ?_⟩
  · intro q
    rw [h'.node, h.node]
    by_cases hq : q ∈ names
    · have hq' : q ∉ names' := hdisjoint hq
      have hk' : q ∉ kept' := fun hk => hq' (hkept' hk)
      simp [hq, hq', hk']
    · have hk : q ∉ kept := fun hk => hq (hkept hk)
      simp [hq, hk]
  · intro q hq hk
    rw [List.mem_append, not_or] at hk
    rcases List.mem_append.mp hq with hq | hq
    · exact h.cleared q hq hk.1
    · exact fun hf => h'.cleared q hq hk.2 ((h.alike.fixed_iff q).mpr hf)
  · intro heq q hq
    have hle := h.failedDeletes
    have hle' := h'.failedDeletes
    rcases List.mem_append.mp hq with hq | hq
    · exact h.fixed (by omega) q hq
    · exact (h.alike.fixed_iff q).mp (h'.fixed (by omega) q hq)
  · intro hnever
    exact (h'.never (h.faults.trans hnever)).trans (h.never hnever)

/-- A deletion that finds its artifact, or finds it gone, clears the name. -/
theorem cleared_delete (h : s.delete name = (.ok (), s') ∨
    ∃ n, s.delete name = (.error (.notFound n), s')) : Cleared [name] [] s s' := by
  unfold delete at h
  split at h
  next =>
    rcases h with h | ⟨n, h⟩
    · cases h
    · cases h
  next =>
    split at h
    next e hm =>
      rcases h with h | ⟨n, h⟩
      · cases h
      · obtain ⟨he, rfl⟩ := Prod.mk.inj h
        obtain rfl := Except.error.inj he
        obtain ⟨hnone, hfixed⟩ := Medium.delete_notFound hm
        refine ⟨?_, ?_, .refl _, rfl, Nat.le_refl _, fun _ q hq => absurd hq List.not_mem_nil,
          fun _ => rfl⟩
        · intro q
          show s.medium.node? q = _
          split
          next hq => rw [List.mem_singleton.mp hq.1, hnone]
          next => rfl
        · intro q hq _
          exact List.mem_singleton.mp hq ▸ hfixed
    next medium hm =>
      obtain ⟨hfixed, hplace, hnode⟩ := Medium.delete_ok hm
      have heq : s' = { s.tick with medium } := by
        rcases h with h | ⟨n, h⟩
        · exact (Prod.mk.inj h).2.symm
        · cases h
      rw [heq]
      refine ⟨?_, ?_, .of_node hplace ?_, rfl, Nat.le_refl _,
        fun _ q hq => absurd hq List.not_mem_nil, fun _ => rfl⟩
      · intro q
        refine (hnode q).trans ?_
        simp
      · intro q hq _
        exact List.mem_singleton.mp hq ▸ hfixed
      · intro q
        rw [hnode]
        by_cases hq : q = name
        · rw [if_pos hq]
          exact Or.inr ⟨hq ▸ hfixed, nofun⟩
        · rw [if_neg hq]
          exact Or.inl rfl

/-- A deletion that fails otherwise keeps the artifact. -/
theorem cleared_delete_error {e : StoreError} (h : s.delete name = (.error e, s'))
    (hfound : ∀ n, e ≠ .notFound n) : Cleared [name] [name] s s' := by
  have hkeeps : ∀ q, s.medium.node? q = if q ∈ [name] ∧ q ∉ [name] then none
      else s.medium.node? q := fun q => (if_neg fun hand => hand.2 hand.1).symm
  have hall : ∀ q ∈ [name], q ∉ [name] → ¬s.medium.Fixed q := fun q hq hnot => absurd hq hnot
  unfold delete at h
  split at h
  next fault hfault =>
    obtain ⟨-, rfl⟩ := Prod.mk.inj h
    refine ⟨hkeeps, hall, .refl _, rfl, Nat.le_succ _, ?_, ?_⟩
    · intro heq
      exact absurd heq (Nat.succ_ne_self _)
    · intro hnever
      unfold fault? at hfault
      rw [hnever] at hfault
      cases hfault
  next =>
    split at h
    next e' hm =>
      obtain ⟨he, rfl⟩ := Prod.mk.inj h
      obtain rfl := Except.error.inj he
      refine ⟨hkeeps, hall, .refl _, rfl, Nat.le_refl _, ?_, fun _ => rfl⟩
      intro _ q hq
      rw [List.mem_singleton.mp hq]
      exact Medium.fixed_of_delete_error hm hfound
    next => cases h

/-! ## Sweeping -/

/-- A sweep that succeeds clears all names that it does not keep. -/
theorem cleared_deleteStrays {keeps : String → Bool} (hnodup : names.Nodup)
    (h : s.deleteStrays keeps names = (.ok (), s')) :
    Cleared (names.filter fun q => !keeps q) [] s s' := by
  induction names generalizing s with
  | nil =>
    obtain ⟨-, rfl⟩ := Prod.mk.inj h
    exact .nil rfl rfl rfl
  | cons name rest ih =>
    obtain ⟨hnot, hrest⟩ := List.nodup_cons.mp hnodup
    unfold deleteStrays at h
    split at h
    next hkeeps =>
      rw [List.filter_cons_of_neg (by simp [hkeeps])]
      exact ih hrest h
    next hstray =>
      split at h
      next => cases h
      next s1 hdelete =>
        rw [List.filter_cons_of_pos (by simp [hstray])]
        refine (cleared_delete (Or.inl hdelete)).append (ih hrest h) (List.nil_subset _)
          (List.nil_subset _) ?_
        intro q hq hmem
        rw [List.mem_singleton.mp hq] at hmem
        exact hnot (List.mem_filter.mp hmem).1

/-- A file that is not fixed can be deleted from a store that never fails. -/
theorem delete_of_node (hnever : s.faults = .never) (hnode : s.medium.node? name = some (.file data))
    (hfixed : ¬s.medium.Fixed name) : ∃ s', s.delete name = (.ok (), s') := by
  unfold delete fault?
  rw [hnever, FaultPlan.fault?_never]
  dsimp only
  split
  next e he =>
    refine absurd (Medium.fixed_of_delete_error he ?_) hfixed
    rintro n rfl
    cases hnode.symm.trans (Medium.delete_notFound he).1
  next medium _ => exact ⟨_, rfl⟩

theorem cleared_sweep {keeps : String → Bool} (h : (s.sweep keeps).1 = .ok ()) :
    Cleared (s.names.filter fun q => !keeps q) [] s (s.sweep keeps).2 := by
  unfold sweep at h ⊢
  split at h
  next => cases h
  next names hnames =>
    unfold list at hnames
    split at hnames
    next => cases hnames
    next =>
      obtain rfl := Except.ok.inj hnames
      exact cleared_deleteStrays (Medium.nodup_names s.medium) (Prod.ext h rfl)

/-- In a store that never fails a sweep of files succeeds. -/
theorem exists_deleteStrays {keeps : String → Bool} (hnever : s.faults = .never)
    (hnodup : names.Nodup) (hfiles : ∀ q ∈ names, keeps q = false →
      (∃ data, s.medium.node? q = some (.file data)) ∧ ¬s.medium.Fixed q) :
    ∃ s', s.deleteStrays keeps names = (.ok (), s') := by
  induction names generalizing s with
  | nil => exact ⟨s, rfl⟩
  | cons name rest ih =>
    obtain ⟨hnot, hrest⟩ := List.nodup_cons.mp hnodup
    unfold deleteStrays
    split
    next =>
      exact ih hnever hrest fun q hq => hfiles q (List.mem_cons_of_mem _ hq)
    next hstray =>
      obtain ⟨⟨data, hdata⟩, hfixed⟩ := hfiles name List.mem_cons_self (by simpa using hstray)
      obtain ⟨s1, hdelete⟩ := delete_of_node hnever hdata hfixed
      have hcleared := cleared_delete (Or.inl hdelete)
      rw [hdelete]
      refine ih (hcleared.faults.trans hnever) hrest ?_
      intro q hq hkeeps
      obtain ⟨hfile, hnotFixed⟩ := hfiles q (List.mem_cons_of_mem _ hq) hkeeps
      have hne : q ∉ [name] := fun hmem => hnot (List.mem_singleton.mp hmem ▸ hq)
      rw [hcleared.node_of_not_mem hne]
      exact ⟨hfile, fun hf => hnotFixed ((hcleared.alike.fixed_iff q).mp hf)⟩

/-- What standing names say about the artifacts. -/
theorem mem_names_iff (s : Store) (q : String) :
    q ∈ s.names ↔ ∃ data, s.medium.node? q = some (.file data) :=
  Medium.mem_names_iff s.medium q

theorem data?_of_node (h : s.medium.node? q = some (.file data)) (hfixed : ¬s.medium.Fixed q) :
    s.data? q = some data := by
  unfold data?
  rw [Medium.read_of_node h hfixed]
  rfl

theorem isSome_of_exists (h : s.exists? q = .ok true) : (s.data? q).isSome := by
  unfold exists? at h
  split at h
  next => cases h
  next =>
    obtain ⟨⟨data, hdata⟩, hfixed⟩ := Medium.node_of_exists h
    rw [data?_of_node hdata hfixed]
    rfl

end SnapshotRetention.Store
