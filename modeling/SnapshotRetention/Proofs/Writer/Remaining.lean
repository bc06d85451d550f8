import Mathlib.Data.List.Sort
import SnapshotRetention.Proofs.Lists
import SnapshotRetention.Proofs.Spared
import SnapshotRetention.Writer.Open

/-!
# What opening a writer leaves of a history

A stock policy that is shown the manifests of a store leaves those at the positions that it does not
ask for (`Primary.remaining`). It leaves the same of a history from which some of the others have
gone already (`Primary.remaining_filter`), whichever they are: what it leaves of a history is settled
by the newest manifest and by those that it leaves.

The policy is only shown the history if the numbers of the newest manifest can be followed
(`Writer.canFollow`); otherwise all of it is left (`Primary.recovered`).
-/

namespace SnapshotRetention

/-- What a primary policy sees of the commit of a manifest. -/
def Manifest.shown (m : Manifest) : Shown := ⟨m.version, m.timestamp⟩

namespace Primary

variable {p : Primary} {g : Nat → Manifest} {ns : List Nat} {count i : Nat} {ms : List Manifest}
  {m : Manifest} {P : Manifest → Bool}

/-- The manifests that a policy does not ask for when it is shown their history. -/
def remaining (p : Primary) (ms : List Manifest) : List Manifest :=
  ((List.range ms.length).filter fun i =>
    !(p.requests (ms.map Manifest.shown)).contains (.delete i)).map fun i => ms.getD i default

theorem mem_remaining_iff : m ∈ p.remaining ms ↔
    ∃ i, ms[i]? = some m ∧ Request.delete i ∉ p.requests (ms.map Manifest.shown) := by
  unfold remaining
  simp only [List.mem_map, List.mem_filter, List.mem_range, List.getD_eq_getElem?_getD,
    Bool.not_eq_true', ← Bool.not_eq_true, List.contains_iff_mem]
  constructor
  · rintro ⟨i, ⟨hi, hnot⟩, rfl⟩
    refine ⟨i, ?_, hnot⟩
    rw [List.getElem?_eq_getElem hi]
    rfl
  · rintro ⟨i, hm, hnot⟩
    obtain ⟨hi, -⟩ := List.getElem?_eq_some_iff.mp hm
    refine ⟨i, ⟨hi, hnot⟩, ?_⟩
    rw [hm]
    rfl

theorem mem_of_mem_remaining (h : m ∈ p.remaining ms) : m ∈ ms := by
  obtain ⟨i, hm, -⟩ := mem_remaining_iff.mp h
  exact List.mem_of_getElem? hm

/-- A position is asked for if the number that stands there is outdated, whatever is missing. -/
theorem mem_requests_iff (hsorted : ns.Pairwise (· < ·)) (hlast : ns.getLast? = some (count - 1))
    (hrange : ∀ n ∈ ns, n < count) (hspared : ∀ n ∈ p.spared (fun n => (g n).shown) count, n ∈ ns)
    (hi : i < ns.length) :
    Request.delete i ∈ p.requests ((ns.map g).map Manifest.shown) ↔
      p.Outdated (fun n => (g n).shown) count ns[i] := by
  rw [← mem_asked_iff hsorted hlast hrange hspared (List.getElem_mem hi), mem_asked, List.map_map]
  refine ⟨fun hmem => ⟨i, hmem, List.getElem?_eq_getElem hi⟩, ?_⟩
  rintro ⟨j, hj, hget⟩
  obtain ⟨hlt, heq⟩ := List.getElem?_eq_some_iff.mp hget
  have hnodup : ns.Nodup := hsorted.imp Nat.ne_of_lt
  obtain rfl : j = i := hnodup.getElem_inj_iff.mp heq
  exact hj

/-- What is left of some of the first `count` manifests is what the policy spares of all of them, if
that is among them. -/
theorem remaining_map (hsorted : ns.Pairwise (· < ·)) (hrange : ∀ n ∈ ns, n < count)
    (hspared : ∀ n ∈ p.spared (fun n => (g n).shown) count, n ∈ ns) :
    p.remaining (ns.map g) = (p.spared (fun n => (g n).shown) count).map g := by
  obtain rfl | ⟨newest, rfl⟩ : count = 0 ∨ ∃ newest, count = newest + 1 := by
    cases count with
    | zero => exact Or.inl rfl
    | succ newest => exact Or.inr ⟨newest, rfl⟩
  · obtain rfl : ns = [] :=
      List.eq_nil_iff_forall_not_mem.mpr fun n hn => Nat.not_lt_zero n (hrange n hn)
    rfl
  have hnewest : newest ∈ ns := hspared newest
    (mem_spared.mpr ⟨Nat.lt_succ_self newest, not_outdated_newest p _ newest⟩)
  have hlast : ns.getLast? = some (newest + 1 - 1) :=
    getLast?_of_ascending hsorted hnewest fun n hn => Nat.le_of_lt_succ (hrange n hn)
  have hpositions : p.remaining (ns.map g) =
      (((List.range ns.length).filter fun i =>
        !decide (p.Outdated (fun n => (g n).shown) (newest + 1) (ns.getD i 0))).map
          fun i => ns.getD i 0).map g := by
    have hfilter : ((List.range ns.length).filter fun i =>
        !(p.requests ((ns.map g).map Manifest.shown)).contains (.delete i)) =
        (List.range ns.length).filter fun i =>
          !decide (p.Outdated (fun n => (g n).shown) (newest + 1) (ns.getD i 0)) := by
      refine List.filter_congr fun i hi => ?_
      have hi : i < ns.length := List.mem_range.mp hi
      have hget : ns.getD i 0 = ns[i] := by
        rw [List.getD_eq_getElem?_getD, List.getElem?_eq_getElem hi]
        rfl
      rw [hget, Bool.not_inj_iff, Bool.eq_iff_iff, decide_eq_true_iff, List.contains_iff_mem]
      exact mem_requests_iff hsorted hlast hrange hspared hi
    unfold remaining
    rw [List.length_map, hfilter, List.map_map]
    refine List.map_congr_left fun i hi => ?_
    have hi : i < ns.length := List.mem_range.mp (List.mem_filter.mp hi).1
    simp [List.getElem?_eq_getElem hi]
  rw [hpositions, map_filter_range ns 0 fun n =>
    !decide (p.Outdated (fun n => (g n).shown) (newest + 1) n)]
  refine congrArg (List.map g) ((hsorted.filter _).eq_of_mem_iff (pairwise_spared _ _ _) fun n => ?_)
  rw [List.mem_filter, mem_spared]
  constructor
  · rintro ⟨hn, hnot⟩
    exact ⟨hrange n hn, by simpa using hnot⟩
  · rintro ⟨hn, hnot⟩
    exact ⟨hspared n (mem_spared.mpr ⟨hn, hnot⟩), by simpa using hnot⟩

theorem remaining_eq (p : Primary) (ms : List Manifest) : p.remaining ms =
    (p.spared (fun n => (ms.getD n default).shown) ms.length).map fun n => ms.getD n default := by
  conv => lhs; rw [← map_getD_range ms default]
  exact remaining_map List.pairwise_lt_range (fun n hn => List.mem_range.mp hn)
    fun n hn => List.mem_range.mpr (mem_spared.mp hn).1

/-- The newest manifest is not asked for. -/
theorem not_mem_requests_newest (p : Primary) {n : Nat} (h : ms.length = n + 1) :
    Request.delete n ∉ p.requests (ms.map Manifest.shown) := by
  have hlast : (List.range ms.length).getLast? = some (ms.length - 1) := by
    rw [h, List.getLast?_range]
    simp
  have hiff := mem_requests_iff (p := p) (g := fun n => ms.getD n default) (i := n)
    List.pairwise_lt_range hlast (fun n hn => List.mem_range.mp hn)
    (fun n hn => List.mem_range.mpr (mem_spared.mp hn).1) (by simp [h])
  rw [map_getD_range, List.getElem_range, h] at hiff
  exact fun hmem => not_outdated_newest p _ n (hiff.mp hmem)

/-- What is left of a history stays the same when others go. -/
theorem remaining_filter (h : ∀ m ∈ p.remaining ms, P m = true) :
    p.remaining (ms.filter P) = p.remaining ms := by
  rw [remaining_eq p ms] at h ⊢
  rw [← map_filter_range ms default P]
  refine remaining_map (List.pairwise_lt_range.filter _)
    (fun n hn => List.mem_range.mp (List.mem_filter.mp hn).1) fun n hn => ?_
  exact List.mem_filter.mpr
    ⟨List.mem_range.mpr (mem_spared.mp hn).1, h _ (List.mem_map_of_mem hn)⟩

/-- The newest manifest is left. -/
theorem newest_mem_remaining (h : ms.getLast? = some m) : m ∈ p.remaining ms := by
  obtain ⟨before, rfl⟩ := List.getLast?_eq_some_iff.mp h
  rw [remaining_eq, List.length_append, List.length_singleton]
  refine List.mem_map.mpr ⟨before.length, mem_spared.mpr
    ⟨Nat.lt_succ_self _, not_outdated_newest p _ before.length⟩, ?_⟩
  simp

end Primary

/-! ## Numbers that can be followed -/

namespace Writer

/-- Whether there are numbers that follow those of the newest of some manifests. -/
def canFollow (ms : List Manifest) : Bool := (after 0 [] false ms).isSome

/-- Whether a writer can go on does not depend on where it counts. -/
theorem isSome_after (depot : Nat) (history : List Nat) (sync : Bool) (ms : List Manifest) :
    (after depot history sync ms).isSome = canFollow ms := by
  unfold canFollow after
  cases ms.getLast? with
  | none => rfl
  | some last =>
    dsimp only
    cases last.version.next? with
    | none => rfl
    | some version =>
      cases last.generation.next? with
      | none => rfl
      | some generation => rfl

theorem canFollow_congr {ms ms' : List Manifest} (h : ms'.getLast? = ms.getLast?) :
    canFollow ms' = canFollow ms := by
  unfold canFollow after
  rw [h]

end Writer

namespace Primary

variable {p : Primary} {ms : List Manifest} {m : Manifest} {P : Manifest → Bool}

/-- What opening a writer leaves of a history. -/
def recovered (p : Primary) (ms : List Manifest) : List Manifest :=
  if Writer.canFollow ms then p.remaining ms else ms

theorem mem_of_mem_recovered (h : m ∈ p.recovered ms) : m ∈ ms := by
  unfold recovered at h
  split at h
  next => exact mem_of_mem_remaining h
  next => exact h

/-- The files that a writer leaves when it opens over a history. -/
def keeps (p : Primary) (ms : List Manifest) : List String :=
  (p.recovered ms).flatMap Manifest.fileNames

theorem mem_of_mem_keeps {q : String} (h : q ∈ p.keeps ms) : q ∈ ms.flatMap Manifest.fileNames := by
  obtain ⟨m, hm, hq⟩ := List.mem_flatMap.mp h
  exact List.mem_flatMap.mpr ⟨m, mem_of_mem_recovered hm, hq⟩

/-- What is left is listed at a position that is not asked for. -/
theorem exists_of_mem_keeps {q : String} (hcan : Writer.canFollow ms = true) (h : q ∈ p.keeps ms) :
    ∃ i, ∃ hi : i < ms.length, Request.delete i ∉ p.requests (ms.map Manifest.shown) ∧
      q ∈ ms[i].fileNames := by
  obtain ⟨m, hm, hq⟩ := List.mem_flatMap.mp h
  unfold recovered at hm
  rw [if_pos hcan] at hm
  obtain ⟨i, hi, hnot⟩ := mem_remaining_iff.mp hm
  obtain ⟨hlt, rfl⟩ := List.getElem?_eq_some_iff.mp hi
  exact ⟨i, hlt, hnot, hq⟩

theorem newest_mem_recovered (h : ms.getLast? = some m) : m ∈ p.recovered ms := by
  unfold recovered
  split
  next => exact newest_mem_remaining h
  next => exact List.mem_of_getLast? h

/-- The newest manifest stays the newest when others go. -/
theorem getLast?_filter (h : ∀ m ∈ p.recovered ms, P m = true) :
    (ms.filter P).getLast? = ms.getLast? := by
  cases hlast : ms.getLast? with
  | none =>
    rw [List.getLast?_eq_none_iff.mp hlast]
    rfl
  | some m =>
    have hm := h m (newest_mem_recovered hlast)
    obtain ⟨before, rfl⟩ := List.getLast?_eq_some_iff.mp hlast
    rw [List.filter_append, List.filter_cons_of_pos hm]
    simp

/-- What a writer leaves when it opens stays the same when others have gone. -/
theorem recovered_filter (h : ∀ m ∈ p.recovered ms, P m = true) :
    p.recovered (ms.filter P) = p.recovered ms := by
  have hfollow := Writer.canFollow_congr (getLast?_filter h)
  unfold recovered at h ⊢
  rw [hfollow]
  split at h
  next hcan =>
    rw [if_pos hcan, if_pos hcan]
    exact remaining_filter h
  next hcan =>
    rw [if_neg hcan, if_neg hcan]
    exact List.filter_eq_self.mpr h

end Primary

end SnapshotRetention
