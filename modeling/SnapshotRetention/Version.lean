/-!
# Versions and generations

A commit has a version, which orders the commits of a store, and a generation, which names its
manifest. Both are 64-bit counters: the number after the largest does not exist, and
`Version.next?` and `Generation.next?` say so instead of wrapping.
-/

namespace SnapshotRetention

/-- The number after `n`, if it still fits in 64 bits. -/
def succ? (n : UInt64) : Option UInt64 :=
  if n.toNat + 1 < UInt64.size then some (n + 1) else none

theorem toNat_of_succ? {n m : UInt64} (h : succ? n = some m) : m.toNat = n.toNat + 1 := by
  unfold succ? at h
  split at h
  · next hlt =>
    cases h
    rw [UInt64.toNat_add, show (1 : UInt64).toNat = 1 from rfl, Nat.mod_eq_of_lt hlt]
  · cases h

theorem succ?_eq_none_iff (n : UInt64) : succ? n = none ↔ n.toNat = UInt64.size - 1 := by
  have := n.toNat_lt
  unfold succ? UInt64.size
  split <;> simp <;> omega

/-! ## Versions -/

/-- The position of a commit in the history of its store. -/
structure Version where
  /-- The counter. -/
  number : UInt64
  deriving DecidableEq, Inhabited

namespace Version

instance : LT Version := ⟨fun a b => a.number < b.number⟩
instance : LE Version := ⟨fun a b => a.number ≤ b.number⟩
instance (a b : Version) : Decidable (a < b) := inferInstanceAs (Decidable (a.number < b.number))
instance (a b : Version) : Decidable (a ≤ b) := inferInstanceAs (Decidable (a.number ≤ b.number))

theorem ext_number {a b : Version} (h : a.number = b.number) : a = b := by
  cases a; cases b; cases h; rfl

/-- The version of the commit after this one. -/
def next? (v : Version) : Option Version := (succ? v.number).map Version.mk

/-- The version as messages name it. -/
def text (v : Version) : String := "v:" ++ toString v.number

theorem lt_of_next? {v w : Version} (h : v.next? = some w) : v < w := by
  obtain ⟨n, hn, rfl⟩ := Option.map_eq_some_iff.mp h
  have hsucc := toNat_of_succ? hn
  have hlt : v.number.toNat < n.toNat := by omega
  exact UInt64.lt_iff_toNat_lt.mpr hlt

end Version

/-! ## Generations -/

/-- The number of a manifest. -/
structure Generation where
  /-- The counter. -/
  number : UInt64
  deriving DecidableEq, Inhabited

namespace Generation

/-- The generation of the manifest after this one. -/
def next? (g : Generation) : Option Generation := (succ? g.number).map Generation.mk

/-- The generation as messages name it. -/
def text (g : Generation) : String := "gen:" ++ toString g.number

/-- Whether one generation is not after another. -/
def le (g h : Generation) : Bool := decide (g.number ≤ h.number)

end Generation

end SnapshotRetention
