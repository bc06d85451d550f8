import SnapshotRetention.Proofs.Writer.Bare
import SnapshotRetention.Proofs.Writer.StockCycle

/-!
# A keeper that holds nothing

A keeper is in nobody's way as long as no snapshot is out: for a policy that only asks for deletions
and spares the newest commit, a cycle does to the catalog what the bare policy does, and fails if it
does (`cycle_of_unheld`). If it does not fail, what is left is published.
-/

namespace SnapshotRetention.Keeper

open Engine (Asks carryOutAllBare)

variable {k : Keeper} {commits : List Nat} {newest n : Nat} {rs : List Request}
  {shown : List Guard}

/-- Guards of versions that are not held delete their commits. -/
theorem carryOutAll_of_not_held (hrs : ∀ r ∈ rs, ∃ i, r = .delete i)
    (hfree : ∀ i g, Request.delete i ∈ rs → shown[i]? = some g → k.holds.count (k.version g) = 0) :
    (k.carryOutAll shown rs).1 = (carryOutAllBare (shown.map Guard.commit) rs k.catalog).1 ∧
      (k.carryOutAll shown rs).2.catalog =
        (carryOutAllBare (shown.map Guard.commit) rs k.catalog).2 := by
  induction rs generalizing k with
  | nil => exact ⟨rfl, rfl⟩
  | cons r rest ih =>
    obtain ⟨i, rfl⟩ := hrs r List.mem_cons_self
    have hrest : ∀ r ∈ rest, ∃ i, r = .delete i := fun r hr => hrs r (List.mem_cons_of_mem _ hr)
    cases hi : shown[i]? with
    | none =>
      have hnone : (shown.map Guard.commit)[i]? = none := by rw [List.getElem?_map, hi]; rfl
      rw [Engine.carryOutAllBare_cons_of_none hnone, carryOutAll, carryOut, hi]
      exact ih hrest fun j g hj hg => hfree j g (List.mem_cons_of_mem _ hj) hg
    | some g =>
      have hsome : (shown.map Guard.commit)[i]? = some g.commit := by
        rw [List.getElem?_map, hi]
        rfl
      have hnot := hfree i g List.mem_cons_self hi
      have hcount := deleteGuard_count g k
      have hversion := (deleteGuard_frame g k).version
      have hdelete : k.deleteGuard g = ((k.catalog.delete g.commit).1, (k.deleteGuard g).2) ∧
          (k.deleteGuard g).2.catalog = (k.catalog.delete g.commit).2 := by
        rw [deleteGuard_of_not_held hnot]
        exact ⟨rfl, rfl⟩
      rw [Engine.carryOutAllBare_cons_of_some hsome, carryOutAll, carryOut, hi]
      dsimp only
      obtain ⟨heq, hcatalog⟩ := hdelete
      rw [heq]
      generalize (k.deleteGuard g).2 = k1 at hcount hversion hcatalog ⊢
      generalize k.catalog.delete g.commit = deleted at hcatalog ⊢
      obtain ⟨result, c1⟩ := deleted
      obtain rfl : k1.catalog = c1 := hcatalog
      cases result with
      | error err => exact ⟨rfl, rfl⟩
      | ok _ =>
        refine ih hrest fun j g' hj hg' => ?_
        rw [hversion, hcount]
        exact hfree j g' (List.mem_cons_of_mem _ hj) hg'

theorem asks_of_mem_asked (hrs : ∀ r ∈ rs, ∃ i, r = .delete i)
    (h : n ∈ k.asked commits newest rs) : Asks commits rs n := by
  obtain ⟨r, hr, hn⟩ := List.mem_filterMap.mp h
  obtain ⟨i, rfl⟩ := hrs r (mem_carriedOut hr)
  exact ⟨i, mem_carriedOut hr, hn⟩

/-- What a cycle does that meets no holds. -/
structure Transparent (k : Keeper) (commits : List Nat) (rs : List Request) : Prop where
  result : (k.cycle commits rs).1 = (carryOutAllBare commits rs k.catalog).1
  catalog : (k.cycle commits rs).2.catalog = (carryOutAllBare commits rs k.catalog).2
  count : ∀ v, (k.cycle commits rs).2.holds.count v = 0
  listing : (k.cycle commits rs).1 = .ok () →
    (k.cycle commits rs).2.listing = some ((k.cycle commits rs).2.catalog.undeleted commits)

theorem Presents.newest_kept (h : Presents k commits newest rs)
    (hspared : newest ∉ k.asked commits newest rs) : newest ∈ k.kept commits newest rs := by
  refine List.mem_filter.mpr ⟨h.newest_mem, ?_⟩
  rw [h.undeleted, Bool.not_false, Bool.and_true, Bool.not_eq_true', ← Bool.not_eq_true,
    List.contains_iff_mem]
  exact hspared

/-- The pin of a cycle holds the newest commit alone, which nobody asks for. -/
theorem Presents.asked_not_held (h : Presents k commits newest rs)
    (hnone : ∀ v, k.holds.count v = 0) (hnewest : ¬Asks commits rs newest) {i : Nat} {g : Guard}
    (hi : Request.delete i ∈ rs) (hg : (k.guardAll commits).1[i]? = some g) :
    (k.presented commits newest).holds.count ((k.presented commits newest).version g) = 0 := by
  have hcommit : commits[i]? = some g.commit := by
    rw [← map_commit_guardAll commits k, List.getElem?_map, hg]
    rfl
  have hother : (k.presented commits newest).version g ≠ k.catalog.version newest := by
    intro heq
    have hsame := h.version_inj (List.mem_of_getElem? hcommit) h.newest_mem heq
    exact hnewest ⟨i, hi, hsame ▸ hcommit⟩
  rw [presented_count, hnone, if_neg hother]

theorem cycle_of_unheld (h : Presents k commits newest rs) (hk : Sound [] k)
    (hnone : ∀ v, k.holds.count v = 0) (hrs : ∀ r ∈ rs, ∃ i, r = .delete i)
    (hnewest : ¬Asks commits rs newest)
    (hbacked : ∀ n ∈ commits, n < k.catalog.commits.length ∧
      ∃ depot, (k.catalog.commit n).backing = .artifacts depot) : Transparent k commits rs := by
  have hspec := h.cycle_spec hk
  have hspared : newest ∉ k.asked commits newest rs :=
    fun hmem => hnewest (asks_of_mem_asked hrs hmem)
  have hreclaims : ¬k.Reclaims commits newest rs := fun hr => hspared hr.1
  have hne : k.kept commits newest rs ≠ [] := List.ne_nil_of_mem (h.newest_kept hspared)
  have hgone : k.gone commits newest rs = k.asked commits newest rs := by
    refine List.filter_eq_self.mpr fun n hn => decide_eq_true ⟨hnone _, ?_⟩
    rintro rfl
    exact hspared hn
  obtain ⟨hresult, hcatalog⟩ :=
    carryOutAll_of_not_held hrs fun i g hi hg => h.asked_not_held hnone hnewest hi hg
  rw [map_commit_guardAll] at hresult hcatalog
  have hdeleted : (k.cycle commits rs).2.catalog =
      k.catalog.deleteEach (k.asked commits newest rs) := by
    rw [hspec.catalog, if_neg hreclaims, hgone]
    rfl
  refine ⟨?_, ?_, fun v => (hspec.count v).trans (hnone v), fun hok => ?_⟩
  · rw [hspec.result, if_neg hreclaims, if_neg hne]
    refine Eq.trans ?_ hresult
    show report (k.decided commits newest rs) (.ok ()) (.ok ()) = k.decided commits newest rs
    cases k.decided commits newest rs with
    | error err => rfl
    | ok _ => rfl
  · rw [hdeleted, ← hgone, ← h.decided_catalog]
    exact hcatalog
  · obtain ⟨guards, hlive, hguards⟩ := hspec.live
    unfold listing
    rw [hlive]
    show some (guards.map Guard.commit) = _
    rw [hguards]
    unfold published
    rw [if_neg hne, hdeleted]
    unfold kept Catalog.undeleted
    refine congrArg some (List.filter_congr fun n hn => ?_)
    by_cases hasked : n ∈ k.asked commits newest rs
    · rw [List.contains_iff_mem.mpr hasked, Catalog.isDeleted_deleteEach_of_mem hasked fun m hm =>
        hbacked m (mem_of_mem_asked hm)]
      rfl
    · rw [Catalog.isDeleted_deleteEach_of_not_mem hasked, ← Bool.not_or]
      simp [hasked]

end SnapshotRetention.Keeper
