import SnapshotRetention.Table.Lemmas

/-!
# Tables as collections of entries

Look-ups say what a table maps each key to; counting entries needs the entry list itself. `insert`
puts one entry in front of what `erase` leaves (`Table.insert_perm`), up to the order of the
entries.
-/

namespace SnapshotRetention.Table

variable {κ α : Type} [LT κ] [DecidableEq κ]

theorem insertInto_perm [DecidableLT κ] [KeyOrder κ] (k : κ) (v : α) :
    ∀ {l : List (κ × α)}, l.Pairwise (fun a b => a.1 < b.1) →
      (insertInto k v l).Perm ((k, v) :: l.filter fun e => decide (e.1 ≠ k)) := by
  intro l
  induction l with
  | nil => intro _; simp [insertInto]
  | cons x rest ih =>
    obtain ⟨k', v'⟩ := x
    intro h
    obtain ⟨hhead, hrest⟩ := List.pairwise_cons.mp h
    have absent : ∀ {q : κ}, (∀ e ∈ rest, q < e.1) →
        (rest.filter fun e => decide (e.1 ≠ q)) = rest := by
      intro q hq
      refine List.filter_eq_self.mpr ?_
      intro e he
      simp [Ne.symm (KeyOrder.ne_of_lt (hq e he))]
    simp only [insertInto]
    split
    next hlt =>
      rw [List.filter_cons_of_pos (by simp [Ne.symm (KeyOrder.ne_of_lt hlt)]),
        absent fun e he => KeyOrder.lt_trans hlt (hhead e he)]
    next hge =>
      split
      next hlt =>
        rw [List.filter_cons_of_pos (by simp [KeyOrder.ne_of_lt hlt])]
        exact ((ih hrest).cons _).trans (List.Perm.swap ..)
      next hle =>
        have hk : k' = k := by
          rcases KeyOrder.lt_trichotomy k k' with h | h | h
          · exact absurd h hge
          · exact h.symm
          · exact absurd h hle
        subst hk
        rw [List.filter_cons_of_neg (by simp), absent hhead]

/-- Setting a value leaves every entry for another key alone. -/
theorem insert_perm [DecidableLT κ] [KeyOrder κ] (t : Table κ α) (k : κ) (v : α) :
    (t.insert k v).entries.Perm ((k, v) :: (t.erase k).entries) :=
  insertInto_perm k v t.ascending

theorem get?_eq_none_of_not_contains {t : Table κ α} {k : κ} (h : ¬t.contains k = true) :
    t.get? k = none :=
  Option.not_isSome_iff_eq_none.mp h

theorem erase_eq_self [KeyOrder κ] {t : Table κ α} {k : κ} (h : t.get? k = none) :
    t.erase k = t := by
  refine ext_get? ?_
  intro q
  rw [get?_erase]
  by_cases hq : q = k
  · rw [if_pos hq, hq, h]
  · rw [if_neg hq]

theorem insert_get? [DecidableLT κ] [KeyOrder κ] {t : Table κ α} {k : κ} {v : α}
    (h : t.get? k = some v) : t.insert k v = t := by
  refine ext_get? ?_
  intro q
  rw [get?_insert]
  by_cases hq : q = k
  · rw [if_pos hq, hq, h]
  · rw [if_neg hq]

theorem mem_entries_iff [KeyOrder κ] (t : Table κ α) (k : κ) (v : α) :
    (k, v) ∈ t.entries ↔ t.get? k = some v :=
  ⟨lookup_of_mem t.ascending, mem_of_lookup⟩

end SnapshotRetention.Table
