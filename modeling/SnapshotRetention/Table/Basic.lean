/-!
# Tables: finite maps in key order

A table holds at most one value for each key and lists its keys in ascending order. The order is
part of the type: `insert` keeps it (`Table.pairwise_insertInto`), and `erase` and `filter` only
leave entries out. Keys are of a type whose order is total (`KeyOrder`).
-/

namespace SnapshotRetention

variable {κ α : Type}

/-- The order of keys: of two different keys one is before the other, and that is all. -/
class KeyOrder (κ : Type) [LT κ] : Prop where
  lt_irrefl : ∀ a : κ, ¬a < a
  lt_trans : ∀ {a b c : κ}, a < b → b < c → a < c
  lt_trichotomy : ∀ a b : κ, a < b ∨ a = b ∨ b < a

theorem KeyOrder.ne_of_lt [LT κ] [KeyOrder κ] {a b : κ} (h : a < b) : a ≠ b :=
  fun heq => KeyOrder.lt_irrefl b (heq ▸ h)

instance : KeyOrder String where
  lt_irrefl := String.lt_irrefl
  lt_trans := Std.lt_trans
  lt_trichotomy := Std.lt_trichotomy

/-- A finite map whose entries stand in ascending key order. -/
structure Table (κ α : Type) [LT κ] where
  /-- The entries, one for each key. -/
  entries : List (κ × α)
  /-- The keys ascend. -/
  ascending : entries.Pairwise fun a b => a.1 < b.1

namespace Table

/-! ## Entry lists -/

/-- The value of the first entry for a key. -/
def lookup [DecidableEq κ] (k : κ) : List (κ × α) → Option α
  | [] => none
  | (k', v) :: rest => if k' = k then some v else lookup k rest

/-- An ascending entry list with the value at one key set. -/
def insertInto [LT κ] [DecidableLT κ] (k : κ) (v : α) : List (κ × α) → List (κ × α)
  | [] => [(k, v)]
  | (k', v') :: rest =>
    if k < k' then (k, v) :: (k', v') :: rest
    else if k' < k then (k', v') :: insertInto k v rest
    else (k', v) :: rest

theorem mem_insertInto [LT κ] [DecidableLT κ] {k : κ} {v : α} {l : List (κ × α)} {e : κ × α}
    (h : e ∈ insertInto k v l) : e.1 = k ∨ e.1 ∈ l.map Prod.fst := by
  induction l with
  | nil =>
    simp only [insertInto, List.mem_singleton] at h
    exact Or.inl (by rw [h])
  | cons x rest ih =>
    obtain ⟨k', v'⟩ := x
    simp only [insertInto] at h
    split at h
    · rcases List.mem_cons.mp h with rfl | h
      · exact Or.inl rfl
      · exact Or.inr (List.mem_map.mpr ⟨e, h, rfl⟩)
    · split at h
      · rcases List.mem_cons.mp h with rfl | h
        · exact Or.inr (by simp)
        · rcases ih h with h | h
          · exact Or.inl h
          · exact Or.inr (by simp only [List.map_cons, List.mem_cons]; exact Or.inr h)
      · rcases List.mem_cons.mp h with rfl | h
        · exact Or.inr (by simp)
        · exact Or.inr (List.mem_map.mpr ⟨e, List.mem_cons_of_mem _ h, rfl⟩)

theorem pairwise_insertInto [LT κ] [DecidableLT κ] [KeyOrder κ]
    (k : κ) (v : α) {l : List (κ × α)} (h : l.Pairwise fun a b => a.1 < b.1) :
    (insertInto k v l).Pairwise fun a b => a.1 < b.1 := by
  induction l with
  | nil => simp [insertInto]
  | cons x rest ih =>
    obtain ⟨k', v'⟩ := x
    obtain ⟨hhead, hrest⟩ := List.pairwise_cons.mp h
    simp only [insertInto]
    split
    · next hlt =>
      refine List.pairwise_cons.mpr ⟨fun e he => ?_, h⟩
      rcases List.mem_cons.mp he with rfl | he
      · exact hlt
      · exact KeyOrder.lt_trans hlt (hhead e he)
    · split
      · next hlt =>
        refine List.pairwise_cons.mpr ⟨fun e he => ?_, ih hrest⟩
        rcases mem_insertInto he with hk | hk
        · exact hk ▸ hlt
        · obtain ⟨e', he', heq⟩ := List.mem_map.mp hk
          exact heq ▸ hhead e' he'
      · exact List.pairwise_cons.mpr ⟨hhead, hrest⟩

/-! ## Operations -/

section Operations

variable [LT κ]

/-- The table without entries. -/
def empty : Table κ α := ⟨[], List.Pairwise.nil⟩

instance : Inhabited (Table κ α) := ⟨empty⟩

/-- The value at a key. -/
def get? [DecidableEq κ] (t : Table κ α) (k : κ) : Option α := lookup k t.entries

/-- Whether a key has a value. -/
def contains [DecidableEq κ] (t : Table κ α) (k : κ) : Bool := (t.get? k).isSome

/-- The keys, ascending. -/
def keys (t : Table κ α) : List κ := t.entries.map Prod.fst

/-- The number of keys. -/
def size (t : Table κ α) : Nat := t.entries.length

/-- The table with the value at one key set. -/
def insert [DecidableLT κ] [KeyOrder κ] (t : Table κ α) (k : κ) (v : α) : Table κ α :=
  ⟨insertInto k v t.entries, pairwise_insertInto k v t.ascending⟩

/-- The table without one key. -/
def erase [DecidableEq κ] (t : Table κ α) (k : κ) : Table κ α :=
  ⟨t.entries.filter fun e => decide (e.1 ≠ k), t.ascending.filter _⟩

/-- The entries that satisfy a test. -/
def filter (p : κ → α → Bool) (t : Table κ α) : Table κ α :=
  ⟨t.entries.filter fun e => p e.1 e.2, t.ascending.filter _⟩

/-- The table of an entry list, of whose entries for one key the last counts. -/
def ofList [DecidableLT κ] [KeyOrder κ] (l : List (κ × α)) : Table κ α :=
  l.foldl (fun t e => t.insert e.1 e.2) empty

end Operations

end Table

end SnapshotRetention
