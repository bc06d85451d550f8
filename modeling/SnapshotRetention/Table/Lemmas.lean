import SnapshotRetention.Table.Basic

/-!
# Look-ups in tables

`insert` and `erase` change one look-up each (`Table.get?_insert`, `Table.get?_erase`), the keys
of a table ascend (`Table.pairwise_keys`) and are those with a value (`Table.mem_keys_iff`), and
two tables with the same look-ups are the same table (`Table.ext_get?`).
-/

namespace SnapshotRetention.Table

variable {κ α : Type}

/-! ## Entry lists -/

theorem lookup_eq_none [DecidableEq κ] {k : κ} {l : List (κ × α)} (h : ∀ e ∈ l, e.1 ≠ k) :
    lookup k l = none := by
  induction l with
  | nil => rfl
  | cons x rest ih =>
    obtain ⟨k', v'⟩ := x
    simp only [lookup]
    rw [if_neg (h (k', v') List.mem_cons_self)]
    exact ih fun e he => h e (List.mem_cons_of_mem _ he)

theorem lookup_insertInto [LT κ] [DecidableLT κ] [DecidableEq κ] [KeyOrder κ]
    (k : κ) (v : α) (l : List (κ × α)) (q : κ) :
    lookup q (insertInto k v l) = if q = k then some v else lookup q l := by
  induction l with
  | nil =>
    simp only [insertInto, lookup]
    by_cases h : q = k
    · rw [if_pos h, if_pos h.symm]
    · rw [if_neg h, if_neg (Ne.symm h)]
  | cons x rest ih =>
    obtain ⟨k', v'⟩ := x
    simp only [insertInto]
    split
    · simp only [lookup]
      by_cases h : q = k
      · rw [if_pos h, if_pos h.symm]
      · rw [if_neg h, if_neg (Ne.symm h)]
    · next hge =>
      split
      · next hlt =>
        simp only [lookup, ih]
        by_cases h : q = k
        · subst h
          simp [KeyOrder.ne_of_lt hlt]
        · simp [h]
      · next hle =>
        have hk : k' = k := by
          rcases KeyOrder.lt_trichotomy k k' with h | h | h
          · exact absurd h hge
          · exact h.symm
          · exact absurd h hle
        subst hk
        simp only [lookup]
        by_cases h : q = k'
        · rw [if_pos h, if_pos h.symm]
        · simp [h, Ne.symm h]

theorem lookup_filter_ne [DecidableEq κ] (k : κ) (l : List (κ × α)) (q : κ) :
    lookup q (l.filter fun e => decide (e.1 ≠ k)) = if q = k then none else lookup q l := by
  induction l with
  | nil => simp [lookup]
  | cons x rest ih =>
    obtain ⟨k', v'⟩ := x
    by_cases hk : k' = k
    · subst hk
      rw [List.filter_cons_of_neg (by simp), ih]
      by_cases hq : q = k'
      · rw [if_pos hq, if_pos hq]
      · rw [if_neg hq, if_neg hq, lookup, if_neg (Ne.symm hq)]
    · rw [List.filter_cons_of_pos (by simp [hk])]
      simp only [lookup, ih]
      by_cases hq : q = k
      · subst hq
        simp [hk]
      · simp [hq]

theorem mem_of_lookup [DecidableEq κ] {k : κ} {v : α} {l : List (κ × α)}
    (h : lookup k l = some v) : (k, v) ∈ l := by
  induction l with
  | nil => simp [lookup] at h
  | cons x rest ih =>
    obtain ⟨k', v'⟩ := x
    simp only [lookup] at h
    split at h
    · next hk =>
      cases h
      exact hk ▸ List.mem_cons_self
    · exact List.mem_cons_of_mem _ (ih h)

theorem lookup_of_mem [LT κ] [DecidableEq κ] [KeyOrder κ]
    {k : κ} {v : α} {l : List (κ × α)} (hl : l.Pairwise fun a b => a.1 < b.1)
    (h : (k, v) ∈ l) : lookup k l = some v := by
  induction l with
  | nil => simp at h
  | cons x rest ih =>
    obtain ⟨k', v'⟩ := x
    obtain ⟨hhead, hrest⟩ := List.pairwise_cons.mp hl
    simp only [lookup]
    rcases List.mem_cons.mp h with h | h
    · cases h
      rw [if_pos rfl]
    · rw [if_neg (KeyOrder.ne_of_lt (hhead _ h)), ih hrest h]

/-! ## Tables -/

section Lemmas

variable [LT κ] [DecidableEq κ]

omit [DecidableEq κ] in
/-- Every listing of keys ascends. -/
theorem pairwise_keys (t : Table κ α) : t.keys.Pairwise (· < ·) :=
  List.pairwise_map.mpr t.ascending

@[simp] theorem get?_empty (q : κ) : (empty : Table κ α).get? q = none := rfl

@[simp] theorem get?_erase (t : Table κ α) (k q : κ) :
    (t.erase k).get? q = if q = k then none else t.get? q :=
  lookup_filter_ne k t.entries q

theorem contains_iff_get? (t : Table κ α) (k : κ) :
    t.contains k = true ↔ ∃ v, t.get? k = some v := Option.isSome_iff_exists

theorem mem_keys_of_get? {t : Table κ α} {k : κ} {v : α} (h : t.get? k = some v) :
    k ∈ t.keys := List.mem_map.mpr ⟨_, mem_of_lookup h, rfl⟩

variable [KeyOrder κ]

theorem mem_keys_iff (t : Table κ α) (k : κ) : k ∈ t.keys ↔ ∃ v, t.get? k = some v := by
  constructor
  · intro h
    obtain ⟨⟨k', v⟩, hmem, rfl⟩ := List.mem_map.mp h
    exact ⟨v, lookup_of_mem t.ascending hmem⟩
  · rintro ⟨v, h⟩
    exact mem_keys_of_get? h

@[simp] theorem get?_insert [DecidableLT κ] (t : Table κ α) (k : κ) (v : α) (q : κ) :
    (t.insert k v).get? q = if q = k then some v else t.get? q :=
  lookup_insertInto k v t.entries q

/-- Tables with the same look-ups are the same table. -/
theorem ext_get? {a b : Table κ α} (h : ∀ q, a.get? q = b.get? q) : a = b := by
  suffices ∀ (l m : List (κ × α)), l.Pairwise (fun a b => a.1 < b.1) →
      m.Pairwise (fun a b => a.1 < b.1) → (∀ q, lookup q l = lookup q m) → l = m by
    obtain ⟨l, hl⟩ := a
    obtain ⟨m, hm⟩ := b
    have := this l m hl hm h
    subst this
    rfl
  intro l
  induction l with
  | nil =>
    intro m _ _ h
    cases m with
    | nil => rfl
    | cons y m =>
      have := h y.1
      simp [lookup] at this
  | cons x l ih =>
    intro m hl hm h
    cases m with
    | nil =>
      have := h x.1
      simp [lookup] at this
    | cons y m =>
      obtain ⟨hx, hl'⟩ := List.pairwise_cons.mp hl
      obtain ⟨hy, hm'⟩ := List.pairwise_cons.mp hm
      have absent : ∀ (z : κ × α) (r : List (κ × α)), (∀ e ∈ r, z.1 < e.1) →
          lookup z.1 r = none :=
        fun z r hz => lookup_eq_none fun e he => Ne.symm (KeyOrder.ne_of_lt (hz e he))
      rcases KeyOrder.lt_trichotomy x.1 y.1 with hlt | heq | hgt
      · have hq := h x.1
        simp only [lookup, if_true] at hq
        rw [if_neg (Ne.symm (KeyOrder.ne_of_lt hlt)),
          absent x m fun e he => KeyOrder.lt_trans hlt (hy e he)] at hq
        simp at hq
      · have hv := h x.1
        simp only [lookup, if_true] at hv
        rw [if_pos heq.symm] at hv
        have hxy : x = y := Prod.ext heq (Option.some.inj hv)
        subst hxy
        rw [ih m hl' hm' fun q => ?_]
        by_cases hq : x.1 = q
        · subst hq
          rw [absent x l hx, absent x m hy]
        · have := h q
          simp only [lookup] at this
          rwa [if_neg hq, if_neg hq] at this
      · have hq := h y.1
        simp only [lookup, if_true] at hq
        rw [if_neg (Ne.symm (KeyOrder.ne_of_lt hgt)),
          absent y l fun e he => KeyOrder.lt_trans hgt (hx e he)] at hq
        simp at hq

end Lemmas

end SnapshotRetention.Table
