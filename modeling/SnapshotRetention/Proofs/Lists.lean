/-!
# Lists

What one element of a list contributes to a concatenation can be exchanged without regard to the
others (`flatMap_set_perm`), and elements that contribute nothing may be left out
(`flatMap_filter`). What is filtered can be told by its positions (`map_filter_range`), and what is
left of a list without duplicates by its elements (`eq_filter_of_sublist`). What comes first depends
on the elements only (`takeWhile_congr`). Lists of one length that have the same at each position are
the same (`eq_of_getD`).
-/

namespace SnapshotRetention

/-- Exchanging one element of a list exchanges what it contributes. -/
theorem flatMap_set_perm {α β : Type} (f : α → List β) :
    ∀ {l : List α} {i : Nat} {a : α}, l[i]? = some a →
      ∃ rest, (l.flatMap f).Perm (f a ++ rest) ∧
        ∀ b, ((l.set i b).flatMap f).Perm (f b ++ rest) := by
  intro l
  induction l with
  | nil => intro i a h; simp at h
  | cons x l ih =>
    intro i a h
    cases i with
    | zero =>
      obtain rfl : x = a := by simpa using h
      exact ⟨l.flatMap f, by simp, fun b => by simp⟩
    | succ i =>
      obtain ⟨rest, hl, hset⟩ := ih (by simpa using h)
      refine ⟨f x ++ rest, ?_, ?_⟩
      · rw [List.flatMap_cons]
        exact (hl.append_left _).trans (List.perm_append_comm_assoc ..)
      · intro b
        rw [List.set_cons_succ, List.flatMap_cons]
        exact ((hset b).append_left _).trans (List.perm_append_comm_assoc ..)

/-- What the elements that are left contribute, or all elements if the others contribute nothing. -/
theorem flatMap_filter {α β : Type} (p : α → Bool) (f : α → List β) (l : List α) :
    (l.filter p).flatMap f = l.flatMap fun a => if p a then f a else [] := by
  induction l with
  | nil => rfl
  | cons a l ih =>
    rw [List.flatMap_cons, ← ih]
    cases hp : p a with
    | false => simp [hp]
    | true => simp [hp]

/-- Predicates that agree on a list agree on how long they hold. -/
theorem takeWhile_congr {α : Type} {p q : α → Bool} {l : List α} (h : ∀ a ∈ l, p a = q a) :
    l.takeWhile p = l.takeWhile q := by
  induction l with
  | nil => rfl
  | cons a l ih =>
    rw [List.takeWhile_cons, List.takeWhile_cons, h a List.mem_cons_self,
      ih fun b hb => h b (List.mem_cons_of_mem _ hb)]

/-- Lists of one length are the same if they have the same element at each position. -/
theorem eq_of_getD {α : Type} {l l' : List α} (d : α) (hlength : l'.length = l.length)
    (h : ∀ i, l'.getD i d = l.getD i d) : l' = l := by
  refine List.ext_getElem hlength fun i hi hi' => ?_
  have hget := h i
  simp only [List.getD_eq_getElem?_getD, List.getElem?_eq_getElem hi, List.getElem?_eq_getElem hi',
    Option.getD_some] at hget
  exact hget

theorem map_getD_range {α : Type} (l : List α) (d : α) :
    (List.range l.length).map (fun i => l.getD i d) = l :=
  List.ext_getElem (by simp) fun i hi hi' => by simp [List.getElem?_eq_getElem hi']

/-- The elements at the positions where a predicate holds are those that it holds of. -/
theorem map_filter_range {α : Type} (l : List α) (d : α) (P : α → Bool) :
    ((List.range l.length).filter fun i => P (l.getD i d)).map (fun i => l.getD i d) =
      l.filter P := by
  conv => rhs; rw [← map_getD_range l d, List.filter_map]
  rfl

/-- What is left of a list without duplicates are those elements that are left. -/
theorem eq_filter_of_sublist {α : Type} [BEq α] [LawfulBEq α] {l s : List α} (h : s.Sublist l)
    (hl : l.Nodup) : s = l.filter s.contains := by
  have hsub := h.filter s.contains
  rw [List.filter_eq_self.mpr fun a ha => List.contains_iff_mem.mpr ha] at hsub
  have hperm : s.Perm (l.filter s.contains) := by
    refine (List.perm_ext_iff_of_nodup (hl.sublist h) (hl.filter _)).mpr fun a => ?_
    rw [List.mem_filter, List.contains_iff_mem]
    exact ⟨fun ha => ⟨h.subset ha, ha⟩, And.right⟩
  exact hsub.eq_of_length hperm.length_eq

end SnapshotRetention
