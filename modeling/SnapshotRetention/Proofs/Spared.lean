import Mathlib.Data.List.Nodup
import Mathlib.Data.List.Perm.Subperm
import SnapshotRetention.Proofs.Keeper.Requests

/-!
# What a stock policy spares

A stock policy that is shown a history asks for some of its commits (`Primary.asked`). The history
may miss commits, for they go at different times: what is held goes later. That makes no difference
as long as the history has the newest commit and all that the policy spares
(`Primary.mem_asked_iff`), since a policy looks at the place of a commit from the end, or at the
timestamps of the commit and of the newest: of all commits made so far it asks for those that are
outdated (`Primary.Outdated`). What is outdated once is so ever after (`Outdated.succ`), because the
place from the end only grows and time does not go back.
-/

namespace SnapshotRetention

/-! ## Places in an ascending list -/

section
variable {ns : List Nat} {a count i : Nat}

/-- From its place on, an ascending list of numbers below a bound has room for no more than the
numbers from its element on. -/
theorem length_sub_le_of_ascending (hsorted : ns.Pairwise (· < ·)) (hrange : ∀ n ∈ ns, n < count)
    (hi : i < ns.length) : ns.length - i ≤ count - ns[i] := by
  have hsub : ns.drop i ⊆ List.range' ns[i] (count - ns[i]) := by
    intro n hn
    obtain ⟨j, hj, rfl⟩ := List.mem_iff_getElem.mp hn
    rw [List.length_drop] at hj
    have hle : ns[i] ≤ ns[i + j] := by
      rcases Nat.eq_zero_or_pos j with rfl | hpos
      · exact Nat.le_refl _
      · exact Nat.le_of_lt (List.pairwise_iff_getElem.mp hsorted i (i + j) _ _ (by omega))
    have hlt := hrange ns[i + j] (List.getElem_mem _)
    rw [List.getElem_drop, List.mem_range'_1]
    omega
  have hnodup : (ns.drop i).Nodup := (hsorted.imp Nat.ne_of_lt).sublist (List.drop_sublist i ns)
  have hle := (hnodup.subperm hsub).length_le
  rwa [List.length_drop, List.length_range'] at hle

/-- All numbers between an element and the bound that an ascending list has come after it. -/
theorem sub_le_of_ascending (hsorted : ns.Pairwise (· < ·))
    (hall : ∀ n, a ≤ n → n < count → n ∈ ns) (hi : i < ns.length) (hlt : ns[i] < a) :
    count - a ≤ ns.length - (i + 1) := by
  have hsub : List.range' a (count - a) ⊆ ns.drop (i + 1) := by
    intro n hn
    rw [List.mem_range'_1] at hn
    obtain ⟨j, hj, rfl⟩ := List.mem_iff_getElem.mp (hall n hn.1 (by omega))
    have hij : i < j := by
      rcases Nat.lt_trichotomy i j with hij | rfl | hji
      · exact hij
      · omega
      · have := List.pairwise_iff_getElem.mp hsorted j i hj hi hji
        omega
    rw [List.mem_drop_iff_getElem]
    exact ⟨j - (i + 1), by omega, by congr 1; omega⟩
  have hnodup : (List.range' a (count - a)).Nodup := List.nodup_range' 1
  have hle := (hnodup.subperm hsub).length_le
  rwa [List.length_range', List.length_drop] at hle

/-- The greatest number of an ascending list comes last. -/
theorem getLast?_of_ascending {newest : Nat} (hsorted : ns.Pairwise (· < ·)) (hmem : newest ∈ ns)
    (hmax : ∀ n ∈ ns, n ≤ newest) : ns.getLast? = some newest := by
  obtain ⟨last, hlast⟩ := Option.isSome_iff_exists.mp
    (List.getLast?_isSome.mpr (List.ne_nil_of_mem hmem))
  obtain ⟨before, rfl⟩ := List.getLast?_eq_some_iff.mp hlast
  have hle := hmax last (List.mem_of_getLast? hlast)
  rcases List.mem_append.mp hmem with hbefore | hself
  · have hlt := (List.pairwise_append.mp hsorted).2.2 newest hbefore last
      (List.mem_singleton.mpr rfl)
    omega
  · rw [hlast, List.mem_singleton.mp hself]

end

namespace Primary

variable {p : Primary} {f : Nat → Shown} {ns : List Nat} {count keep n : Nat} {age : Age}

/-- The commits that a policy asks for when it is shown some commits. -/
def asked (p : Primary) (f : Nat → Shown) (ns : List Nat) : List Nat :=
  (p.requests (ns.map f)).filterMap fun r => r.position?.bind fun i => ns[i]?

/-- The stock policies only ask for deletions. -/
theorem eq_delete_of_mem {history : List Shown} {r : Request} (hr : r ∈ p.requests history) :
    ∃ i, r = .delete i := by
  have hmap : ∀ (positions : List Nat), ∀ r ∈ positions.map Request.delete,
      ∃ i, r = Request.delete i := by
    intro positions r hr
    obtain ⟨i, -, rfl⟩ := List.mem_map.mp hr
    exact ⟨i, rfl⟩
  cases p with
  | keepAll => exact absurd hr List.not_mem_nil
  | keepOnlyLast => exact hmap _ r hr
  | keepLast keep => exact hmap _ r hr
  | expireAfter age => exact hmap _ r hr

/-- What is asked for stands at a position that is asked for. -/
theorem mem_asked : n ∈ p.asked f ns ↔
    ∃ i, Request.delete i ∈ p.requests (ns.map f) ∧ ns[i]? = some n := by
  unfold asked
  rw [List.mem_filterMap]
  constructor
  · rintro ⟨r, hr, hn⟩
    obtain ⟨i, rfl⟩ := eq_delete_of_mem hr
    exact ⟨i, hr, hn⟩
  · rintro ⟨i, hi, hn⟩
    exact ⟨_, hi, hn⟩

/-! ## Positions from the end -/

theorem mem_allButLast {i : Nat} : Request.delete i ∈ allButLast keep count ↔ i < count - keep := by
  unfold allButLast
  rw [List.mem_map]
  constructor
  · rintro ⟨j, hj, heq⟩
    obtain rfl := Request.delete.inj heq
    exact List.mem_range.mp hj
  · exact fun hi => ⟨i, List.mem_range.mpr hi, rfl⟩

/-- Of an ascending list that has the last `keep` numbers below a bound, the others are those that
are not among its last `keep`. -/
theorem exists_before_iff (hsorted : ns.Pairwise (· < ·)) (hrange : ∀ n ∈ ns, n < count)
    (hall : ∀ n, count - keep ≤ n → n < count → n ∈ ns) (hn : n ∈ ns) :
    (∃ i, Request.delete i ∈ allButLast keep ns.length ∧ ns[i]? = some n) ↔ n < count - keep := by
  simp only [mem_allButLast]
  constructor
  · rintro ⟨i, hi, hget⟩
    obtain ⟨hlt, rfl⟩ := List.getElem?_eq_some_iff.mp hget
    have hroom := length_sub_le_of_ascending hsorted hrange hlt
    omega
  · intro hlt
    obtain ⟨i, hi, rfl⟩ := List.mem_iff_getElem.mp hn
    have hafter := sub_le_of_ascending hsorted hall hi hlt
    exact ⟨i, by omega, List.getElem?_eq_getElem hi⟩

/-! ## Ages -/

/-- The time before which commits have expired when a newest one is shown. -/
def cutoff (age : Age) (newest : Shown) : Nat := newest.timestamp.toNat - ageLimit age

/-- The commits that have expired are those with an earlier timestamp, apart from the newest. -/
theorem mem_expired {history : List Shown} {newest : Shown} (hlast : history.getLast? = some newest)
    {i : Nat} : Request.delete i ∈ (expired age history).map Request.delete ↔
      i < history.length - 1 ∧
        ∃ shown, history[i]? = some shown ∧ shown.timestamp.toNat < cutoff age newest := by
  have hposition : Request.delete i ∈ (expired age history).map Request.delete ↔
      i ∈ expired age history := by
    rw [List.mem_map]
    constructor
    · rintro ⟨j, hj, heq⟩
      obtain rfl := Request.delete.inj heq
      exact hj
    · exact fun hi => ⟨i, hi, rfl⟩
  rw [hposition]
  unfold expired
  rw [hlast]
  dsimp only
  rw [List.mem_filter, List.mem_range]
  refine and_congr_right fun _ => ?_
  unfold cutoff
  cases history[i]? with
  | none => simp
  | some shown => simp

/-! ## Histories that miss commits -/

/-- Whether a policy has done with a commit, by the commits made so far. -/
def Outdated (p : Primary) (f : Nat → Shown) (count n : Nat) : Prop :=
  match p with
  | .keepAll => False
  | .keepOnlyLast => n < count - 1
  | .keepLast keep => n < count - keptCount keep
  | .expireAfter age =>
    n < count - 1 ∧ (f n).timestamp.toNat < cutoff age (f (count - 1))

instance (p : Primary) (f : Nat → Shown) (count n : Nat) : Decidable (p.Outdated f count n) :=
  match p with
  | .keepAll => inferInstanceAs (Decidable False)
  | .keepOnlyLast => inferInstanceAs (Decidable (_ < _))
  | .keepLast _ => inferInstanceAs (Decidable (_ < _))
  | .expireAfter _ => inferInstanceAs (Decidable (_ ∧ _))

/-- What a policy spares of the first `count` commits. -/
def spared (p : Primary) (f : Nat → Shown) (count : Nat) : List Nat :=
  (List.range count).filter fun n => !decide (p.Outdated f count n)

theorem mem_spared : n ∈ p.spared f count ↔ n < count ∧ ¬p.Outdated f count n := by
  unfold spared
  rw [List.mem_filter, List.mem_range]
  simp

theorem pairwise_spared (p : Primary) (f : Nat → Shown) (count : Nat) :
    (p.spared f count).Pairwise (· < ·) :=
  List.pairwise_lt_range.filter _

/-- The newest commit is never outdated. -/
theorem not_outdated_newest (p : Primary) (f : Nat → Shown) (n : Nat) :
    ¬p.Outdated f (n + 1) n := by
  cases p with
  | keepAll => exact fun h => h
  | keepOnlyLast => exact Nat.lt_irrefl n
  | keepLast keep =>
    show ¬n < n + 1 - max keep 1
    omega
  | expireAfter age => exact fun h => Nat.lt_irrefl n h.1

/-- Later commits do not matter. -/
theorem Outdated.congr {f' : Nat → Shown} (h : p.Outdated f count n) (hn : n < count)
    (hsame : ∀ m, m < count → f' m = f m) : p.Outdated f' count n := by
  cases p with
  | keepAll => exact h
  | keepOnlyLast => exact h
  | keepLast keep => exact h
  | expireAfter age =>
    refine ⟨h.1, ?_⟩
    rw [hsame n hn, hsame (count - 1) (by omega)]
    exact h.2

/-- What is outdated stays so, as long as time does not go back. -/
theorem Outdated.succ (h : p.Outdated f count n)
    (htime : ∀ m, count = m + 1 → (f m).timestamp ≤ (f count).timestamp) :
    p.Outdated f (count + 1) n := by
  cases p with
  | keepAll => exact h
  | keepOnlyLast =>
    have h : n < count - 1 := h
    show n < count + 1 - 1
    omega
  | keepLast keep =>
    have h : n < count - keptCount keep := h
    show n < count + 1 - keptCount keep
    omega
  | expireAfter age =>
    obtain ⟨hbefore, hold⟩ := h
    have hlater := UInt64.le_iff_toNat_le.mp (htime (count - 1) (by omega))
    refine ⟨by omega, Nat.lt_of_lt_of_le hold ?_⟩
    show cutoff age (f (count - 1)) ≤ cutoff age (f (count + 1 - 1))
    unfold cutoff
    rw [Nat.add_sub_cancel]
    omega

/-- A policy that is shown the newest commit and all that it spares asks for what is outdated. -/
theorem mem_asked_iff (hsorted : ns.Pairwise (· < ·)) (hlast : ns.getLast? = some (count - 1))
    (hrange : ∀ n ∈ ns, n < count) (hspared : ∀ n ∈ p.spared f count, n ∈ ns) (hn : n ∈ ns) :
    n ∈ p.asked f ns ↔ p.Outdated f count n := by
  have hbefore := fun keep (hall : ∀ n, count - keep ≤ n → n < count → n ∈ ns) =>
    exists_before_iff hsorted hrange hall hn
  have hkept : ∀ m, m < count → ¬p.Outdated f count m → m ∈ ns :=
    fun m hm hnot => hspared m (mem_spared.mpr ⟨hm, hnot⟩)
  have hnewest : ∀ m, count - 1 ≤ m → m < count → m ∈ ns := by
    intro m hle hlt
    obtain rfl : m = count - 1 := by omega
    exact List.mem_of_getLast? hlast
  rw [mem_asked]
  cases p with
  | keepAll => exact ⟨fun ⟨i, hi, _⟩ => absurd hi List.not_mem_nil, fun h => h.elim⟩
  | keepOnlyLast =>
    show (∃ i, Request.delete i ∈ allButLast 1 (ns.map f).length ∧ _) ↔ _
    rw [List.length_map]
    exact hbefore 1 hnewest
  | keepLast keep =>
    show (∃ i, Request.delete i ∈ allButLast (keptCount keep) (ns.map f).length ∧ _) ↔ _
    rw [List.length_map]
    exact hbefore _ fun m hle hlt => hkept m hlt (Nat.not_lt.mpr hle)
  | expireAfter age =>
    have hmap : (ns.map f).getLast? = some (f (count - 1)) := by
      rw [List.getLast?_map, hlast]
      rfl
    have hplace := hbefore 1 hnewest
    simp only [mem_allButLast] at hplace
    show (∃ i, Request.delete i ∈ (expired age (ns.map f)).map Request.delete ∧ _) ↔ _
    simp only [mem_expired hmap, List.length_map, List.getElem?_map]
    constructor
    · rintro ⟨i, ⟨hlt, shown, hshown, hold⟩, hget⟩
      rw [hget] at hshown
      obtain rfl := Option.some.inj hshown
      exact ⟨hplace.mp ⟨i, hlt, hget⟩, hold⟩
    · rintro ⟨hlt, hold⟩
      obtain ⟨i, hi, hget⟩ := hplace.mpr hlt
      exact ⟨i, ⟨hi, f n, by rw [hget]; rfl, hold⟩, hget⟩

end Primary

end SnapshotRetention
