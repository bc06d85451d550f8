import SnapshotRetention.Proofs.Table
import SnapshotRetention.Writer.Changes

/-!
# The files that changes lead to

Every file of a commit that applies changes is one of the files before or one of those added
(`Changes.mem_of_apply`), and what is added is among them under a name that is not reserved
(`Changes.mem_of_added`, `Changes.isReserved_of_added`). Changes that remove different files that are
there and add different names that are new and not reserved can be applied (`Changes.exists_apply`).

Exactly, changes can be applied if they are applicable (`Changes.exists_apply_iff`), whatever the
order in which this is checked, and then the files are those before less those removed plus those
added (`Changes.mem_apply_iff`), in ascending order (`Changes.pairwise_of_apply`).
-/

namespace SnapshotRetention

namespace FileSet

variable {s s' : FileSet} {names : List String} {q : String}

theorem mem_names_iff (s : FileSet) (q : String) : q ∈ s.names ↔ s.contains q = true := by
  unfold names
  rw [Table.mem_keys_iff, Table.contains_iff_get?]

theorem contains_insert (s : FileSet) (name q : String) :
    Table.contains (s.insert name ()) q = true ↔ q = name ∨ s.contains q = true := by
  rw [Table.contains_iff_get?, Table.contains_iff_get?, Table.get?_insert]
  by_cases hq : q = name
  · simp [hq]
  · simp [hq]

theorem contains_of_contains_erase {name : String} (h : Table.contains (s.erase name) q = true) :
    s.contains q = true := by
  obtain ⟨u, hu⟩ := (Table.contains_iff_get? _ q).mp h
  rw [Table.get?_erase] at hu
  split at hu
  next => cases hu
  next => exact (Table.contains_iff_get? s q).mpr ⟨u, hu⟩

theorem mem_of_contains_ofNames (h : (ofNames names).contains q = true) : q ∈ names := by
  have hall : ∀ (names : List String) (s : FileSet),
      Table.contains ((names.map fun name => (name, ())).foldl (fun t e => t.insert e.1 e.2) s) q =
        true → s.contains q = true ∨ q ∈ names := by
    intro names
    induction names with
    | nil => exact fun s hs => Or.inl hs
    | cons name names ih =>
      intro s hs
      rcases ih (s.insert name ()) hs with hins | hmem
      · rcases (contains_insert s name q).mp hins with rfl | hold
        · exact Or.inr List.mem_cons_self
        · exact Or.inl hold
      · exact Or.inr (List.mem_cons_of_mem _ hmem)
  exact (hall names Table.empty h).resolve_left (by simp [Table.contains])

theorem contains_of_removeAll (h : removeAll names s = .ok s') (hq : s'.contains q = true) :
    s.contains q = true := by
  induction names generalizing s with
  | nil =>
    obtain rfl := Except.ok.inj h
    exact hq
  | cons name names ih =>
    unfold removeAll at h
    split at h
    next => exact contains_of_contains_erase (ih h)
    next => cases h

theorem contains_of_addAll (h : addAll names s = .ok s') (hq : s'.contains q = true) :
    s.contains q = true ∨ q ∈ names := by
  induction names generalizing s with
  | nil =>
    obtain rfl := Except.ok.inj h
    exact Or.inl hq
  | cons name names ih =>
    unfold addAll at h
    split at h
    next => cases h
    next =>
      split at h
      next => cases h
      next =>
        rcases ih h with hins | hmem
        · rcases (contains_insert s name q).mp hins with rfl | hold
          · exact Or.inr List.mem_cons_self
          · exact Or.inl hold
        · exact Or.inr (List.mem_cons_of_mem _ hmem)

theorem contains_addAll_of_contains (h : addAll names s = .ok s') (hq : s.contains q = true) :
    s'.contains q = true := by
  induction names generalizing s with
  | nil =>
    obtain rfl := Except.ok.inj h
    exact hq
  | cons name names ih =>
    unfold addAll at h
    split at h
    next => cases h
    next =>
      split at h
      next => cases h
      next => exact ih h ((contains_insert s name q).mpr (Or.inr hq))

/-- What is added is there afterwards, under a name that is not reserved. -/
theorem contains_addAll_of_mem (h : addAll names s = .ok s') (hq : q ∈ names) :
    s'.contains q = true ∧ Manifest.isReserved q = false := by
  induction names generalizing s with
  | nil => exact absurd hq List.not_mem_nil
  | cons name names ih =>
    unfold addAll at h
    split at h
    next => cases h
    next hreserved =>
      split at h
      next => cases h
      next =>
        rcases List.mem_cons.mp hq with rfl | hq
        · refine ⟨contains_addAll_of_contains h ((contains_insert s q q).mpr (Or.inl rfl)), ?_⟩
          exact Bool.eq_false_iff.mpr hreserved
        · exact ih h hq

/-! ## Sets to which changes can be applied -/

theorem contains_ofNames_of_mem (hq : q ∈ names) : (ofNames names).contains q = true := by
  have hall : ∀ (names : List String) (s : FileSet), s.contains q = true ∨ q ∈ names →
      Table.contains ((names.map fun name => (name, ())).foldl (fun t e => t.insert e.1 e.2) s) q =
        true := by
    intro names
    induction names with
    | nil => exact fun s hs => hs.resolve_right List.not_mem_nil
    | cons name names ih =>
      intro s hs
      refine ih (s.insert name ()) ?_
      rw [contains_insert]
      rcases hs with hold | hmem
      · exact Or.inl (Or.inr hold)
      · exact (List.mem_cons.mp hmem).imp Or.inl id
  exact hall names Table.empty (Or.inr hq)

/-- Different names that are there can be left out. -/
theorem exists_removeAll (hnodup : names.Nodup) (hthere : ∀ q ∈ names, s.contains q = true) :
    ∃ s', removeAll names s = .ok s' := by
  induction names generalizing s with
  | nil => exact ⟨s, rfl⟩
  | cons name names ih =>
    obtain ⟨hnot, hrest⟩ := List.nodup_cons.mp hnodup
    unfold removeAll
    rw [if_pos (hthere name List.mem_cons_self)]
    refine ih hrest fun q hq => ?_
    obtain ⟨u, hu⟩ := (Table.contains_iff_get? s q).mp (hthere q (List.mem_cons_of_mem _ hq))
    have hne : q ≠ name := fun heq => hnot (heq ▸ hq)
    refine (Table.contains_iff_get? _ q).mpr ⟨u, ?_⟩
    rw [Table.get?_erase, if_neg hne, hu]

/-- Different names that are neither reserved nor there can be added. -/
theorem exists_addAll (hnodup : names.Nodup) (hplain : ∀ q ∈ names, Manifest.isReserved q = false)
    (hnew : ∀ q ∈ names, ¬s.contains q = true) : ∃ s', addAll names s = .ok s' := by
  induction names generalizing s with
  | nil => exact ⟨s, rfl⟩
  | cons name names ih =>
    obtain ⟨hnot, hrest⟩ := List.nodup_cons.mp hnodup
    unfold addAll
    rw [if_neg (Bool.eq_false_iff.mp (hplain name List.mem_cons_self)),
      if_neg (hnew name List.mem_cons_self)]
    refine ih hrest (fun q hq => hplain q (List.mem_cons_of_mem _ hq)) fun q hq hcontains => ?_
    rcases (contains_insert s name q).mp hcontains with rfl | hold
    · exact hnot hq
    · exact hnew q (List.mem_cons_of_mem _ hq) hold

end FileSet

/-- Changes that can be applied are added to what is left after the removals. -/
theorem Changes.exists_of_apply {changes : Changes} {files after : List String}
    (h : changes.apply files = .ok after) :
    ∃ kept all, FileSet.removeAll changes.remove (FileSet.ofNames files) = .ok kept ∧
      FileSet.addAll (changes.add.map Prod.fst) kept = .ok all ∧ after = all.names := by
  unfold apply at h
  split at h
  next => cases h
  next kept hkept =>
    cases hadd : FileSet.addAll (changes.add.map Prod.fst) kept with
    | error e => rw [hadd] at h; cases h
    | ok all =>
      rw [hadd] at h
      exact ⟨kept, all, hkept, hadd, (Except.ok.inj h).symm⟩

/-- A file after changes was there before or is added. -/
theorem Changes.mem_of_apply {changes : Changes} {files after : List String}
    (h : changes.apply files = .ok after) {name : String} (hname : name ∈ after) :
    name ∈ files ∨ name ∈ changes.add.map Prod.fst := by
  obtain ⟨kept, all, hkept, hadd, rfl⟩ := exists_of_apply h
  rw [FileSet.mem_names_iff] at hname
  rcases FileSet.contains_of_addAll hadd hname with hold | hnew
  · exact Or.inl (FileSet.mem_of_contains_ofNames (FileSet.contains_of_removeAll hkept hold))
  · exact Or.inr hnew

/-- What is added is a file afterwards. -/
theorem Changes.mem_of_added {changes : Changes} {files after : List String}
    (h : changes.apply files = .ok after) {name : String}
    (hname : name ∈ changes.add.map Prod.fst) : name ∈ after := by
  obtain ⟨kept, all, -, hadd, rfl⟩ := exists_of_apply h
  rw [FileSet.mem_names_iff]
  exact (FileSet.contains_addAll_of_mem hadd hname).1

theorem Changes.isReserved_of_added {changes : Changes} {files after : List String}
    (h : changes.apply files = .ok after) {name : String}
    (hname : name ∈ changes.add.map Prod.fst) : Manifest.isReserved name = false := by
  obtain ⟨kept, all, -, hadd, -⟩ := exists_of_apply h
  exact (FileSet.contains_addAll_of_mem hadd hname).2

/-- Changes can be applied that remove different files that are there and add different names that
are neither reserved nor there. -/
theorem Changes.exists_apply {changes : Changes} {files : List String}
    (hremove : changes.remove.Nodup) (hthere : ∀ q ∈ changes.remove, q ∈ files)
    (hadd : (changes.add.map Prod.fst).Nodup)
    (hplain : ∀ q ∈ changes.add.map Prod.fst, Manifest.isReserved q = false)
    (hnew : ∀ q ∈ changes.add.map Prod.fst, q ∉ files) :
    ∃ after, changes.apply files = .ok after := by
  obtain ⟨kept, hkept⟩ := FileSet.exists_removeAll (s := FileSet.ofNames files) hremove
    fun q hq => FileSet.contains_ofNames_of_mem (hthere q hq)
  obtain ⟨all, hall⟩ := FileSet.exists_addAll (s := kept) hadd hplain fun q hq hcontains =>
    hnew q hq (FileSet.mem_of_contains_ofNames (FileSet.contains_of_removeAll hkept hcontains))
  unfold apply
  rw [hkept]
  dsimp only
  rw [hall]
  exact ⟨all.names, rfl⟩

/-! ## Which changes can be applied -/

namespace FileSet

variable {s s' : FileSet} {names : List String} {q : String}

theorem contains_ofNames_iff (names : List String) (q : String) :
    (ofNames names).contains q = true ↔ q ∈ names :=
  ⟨mem_of_contains_ofNames, contains_ofNames_of_mem⟩

theorem contains_erase_iff (s : FileSet) (name q : String) :
    Table.contains (s.erase name) q = true ↔ q ≠ name ∧ s.contains q = true := by
  rw [Table.contains_iff_get?, Table.contains_iff_get?, Table.get?_erase]
  by_cases hq : q = name
  · simp [hq]
  · simp [hq]

/-- What can be left out is there, each name once. -/
theorem nodup_of_removeAll (h : removeAll names s = .ok s') :
    names.Nodup ∧ ∀ q ∈ names, s.contains q = true := by
  induction names generalizing s with
  | nil => exact ⟨List.nodup_nil, fun q hq => absurd hq List.not_mem_nil⟩
  | cons name names ih =>
    unfold removeAll at h
    split at h
    next hthere =>
      obtain ⟨hnodup, hrest⟩ := ih h
      refine ⟨List.nodup_cons.mpr ⟨fun hmem => ?_, hnodup⟩, fun q hq => ?_⟩
      · exact ((contains_erase_iff s name name).mp (hrest name hmem)).1 rfl
      · rcases List.mem_cons.mp hq with rfl | hq
        · exact hthere
        · exact ((contains_erase_iff s name q).mp (hrest q hq)).2
    next => cases h

theorem contains_removeAll_iff (h : removeAll names s = .ok s') (q : String) :
    s'.contains q = true ↔ s.contains q = true ∧ q ∉ names := by
  induction names generalizing s with
  | nil =>
    obtain rfl := Except.ok.inj h
    simp
  | cons name names ih =>
    unfold removeAll at h
    split at h
    next =>
      rw [ih h, contains_erase_iff, List.mem_cons, not_or]
      exact ⟨fun hand => ⟨hand.1.2, hand.1.1, hand.2⟩, fun hand => ⟨⟨hand.2.1, hand.1⟩, hand.2.2⟩⟩
    next => cases h

/-- What can be added is new, each name once. -/
theorem nodup_of_addAll (h : addAll names s = .ok s') :
    names.Nodup ∧ ∀ q ∈ names, ¬s.contains q = true := by
  induction names generalizing s with
  | nil => exact ⟨List.nodup_nil, fun q hq => absurd hq List.not_mem_nil⟩
  | cons name names ih =>
    unfold addAll at h
    split at h
    next => cases h
    next =>
      split at h
      next => cases h
      next hnew =>
        obtain ⟨hnodup, hrest⟩ := ih h
        refine ⟨List.nodup_cons.mpr ⟨fun hmem => ?_, hnodup⟩, fun q hq => ?_⟩
        · exact hrest name hmem ((contains_insert s name name).mpr (Or.inl rfl))
        · rcases List.mem_cons.mp hq with rfl | hq
          · exact hnew
          · exact fun hold => hrest q hq ((contains_insert s name q).mpr (Or.inr hold))

end FileSet

namespace Changes

variable {changes : Changes} {files after : List String} {q : String}

/-- Changes that can be applied to the files of a commit. -/
structure Applicable (changes : Changes) (files : List String) : Prop where
  removedOnce : changes.remove.Nodup
  removed : ∀ q ∈ changes.remove, q ∈ files
  addedOnce : (changes.add.map Prod.fst).Nodup
  plain : ∀ q ∈ changes.add.map Prod.fst, Manifest.isReserved q = false
  /-- What is added is none of the files that are left. -/
  new : ∀ q ∈ changes.add.map Prod.fst, q ∈ files → q ∈ changes.remove

theorem applicable_of_apply (h : changes.apply files = .ok after) : changes.Applicable files := by
  obtain ⟨kept, all, hkept, hadd, -⟩ := exists_of_apply h
  obtain ⟨hremoved, hthere⟩ := FileSet.nodup_of_removeAll hkept
  obtain ⟨hadded, hnew⟩ := FileSet.nodup_of_addAll hadd
  refine ⟨hremoved, fun q hq => FileSet.mem_of_contains_ofNames (hthere q hq), hadded,
    fun q hq => (FileSet.contains_addAll_of_mem hadd hq).2, fun q hq hfile => ?_⟩
  refine Decidable.by_contra fun hstays => hnew q hq ?_
  exact (FileSet.contains_removeAll_iff hkept q).mpr
    ⟨FileSet.contains_ofNames_of_mem hfile, hstays⟩

theorem exists_apply_iff (changes : Changes) (files : List String) :
    (∃ after, changes.apply files = .ok after) ↔ changes.Applicable files := by
  refine ⟨fun ⟨after, h⟩ => applicable_of_apply h, fun h => ?_⟩
  obtain ⟨kept, hkept⟩ := FileSet.exists_removeAll (s := FileSet.ofNames files) h.removedOnce
    fun q hq => FileSet.contains_ofNames_of_mem (h.removed q hq)
  obtain ⟨all, hall⟩ := FileSet.exists_addAll (s := kept) h.addedOnce h.plain fun q hq hcontains => by
    obtain ⟨hfile, hstays⟩ := (FileSet.contains_removeAll_iff hkept q).mp hcontains
    exact hstays (h.new q hq (FileSet.mem_of_contains_ofNames hfile))
  unfold apply
  rw [hkept]
  dsimp only
  rw [hall]
  exact ⟨all.names, rfl⟩

theorem mem_apply_iff (h : changes.apply files = .ok after) (q : String) :
    q ∈ after ↔ (q ∈ files ∧ q ∉ changes.remove) ∨ q ∈ changes.add.map Prod.fst := by
  obtain ⟨kept, all, hkept, hadd, rfl⟩ := exists_of_apply h
  rw [FileSet.mem_names_iff, ← FileSet.contains_ofNames_iff files q,
    ← FileSet.contains_removeAll_iff hkept]
  constructor
  · exact FileSet.contains_of_addAll hadd
  · rintro (hold | hnew)
    · exact FileSet.contains_addAll_of_contains hadd hold
    · exact (FileSet.contains_addAll_of_mem hadd hnew).1

theorem pairwise_of_apply (h : changes.apply files = .ok after) : after.Pairwise (· < ·) := by
  obtain ⟨kept, all, -, -, rfl⟩ := exists_of_apply h
  exact all.pairwise_keys

end Changes

end SnapshotRetention
