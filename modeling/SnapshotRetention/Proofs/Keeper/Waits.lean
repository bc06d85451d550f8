import SnapshotRetention.Proofs.Keeper.Run

/-!
# Deletions that wait

`Keeper.Waits spared doomed` says how a keeper's holds and its commits belong together: nothing held
is deleted, what is held and not spared waits for its deletion, and a doomed commit is deleted, or
waits, or is held no more. Between cycles the spared versions are the live ones and no commit is
doomed; while a primary policy decides, the newest version is spared as well and the commits that
the policy has asked for are doomed.

A release keeps this whatever is spared or doomed (`Waits.release`), and so does asking a guard,
which dooms its commit (`Waits.deleteGuard`).
-/

namespace SnapshotRetention

/-- No two commits have the same version. -/
def Catalog.Distinct (c : Catalog) : Prop :=
  ∀ n m, n < c.commits.length → m < c.commits.length → c.version n = c.version m → n = m

theorem Catalog.SameCommits.distinct {c d : Catalog} (h : c.SameCommits d) (hc : c.Distinct) :
    d.Distinct := by
  intro n m hn hm heq
  rw [h.version, h.version] at heq
  exact hc n m (h.length ▸ hn) (h.length ▸ hm) heq

namespace Keeper

variable {k k' : Keeper} {spared : Version → Prop} {doomed : Nat → Prop} {v : Version} {n : Nat}

/-! ## Slots do not matter -/

/-- Two keepers that differ in their slots and their statistics only. -/
structure SameHolds (k k' : Keeper) : Prop where
  catalog : k'.catalog = k.catalog
  live : k'.live = k.live
  holds : k'.holds = k.holds
  serials : k'.serials = k.serials
  marked : k'.marked = k.marked
  reclaimOnRelease : k'.reclaimOnRelease = k.reclaimOnRelease

theorem SameHolds.refl (k : Keeper) : SameHolds k k := ⟨rfl, rfl, rfl, rfl, rfl, rfl⟩

theorem SameHolds.trans {k'' : Keeper} (h : SameHolds k k') (h' : SameHolds k' k'') :
    SameHolds k k'' :=
  ⟨h'.catalog.trans h.catalog, h'.live.trans h.live, h'.holds.trans h.holds,
    h'.serials.trans h.serials, h'.marked.trans h.marked,
    h'.reclaimOnRelease.trans h.reclaimOnRelease⟩

/-! ## Giving up a hold -/

/-- What giving up one hold does to the holds and the commits. -/
inductive Released (v : Version) (k k' : Keeper) : Prop where
  | unheld (hnone : k.holds.count v = 0) (hsame : SameHolds k k')
  | fewer (hheld : 0 < k.holds.count v)
      (hlast : k.holds.count v = 1 → k.reclaimOnRelease = true → k.holds.pending? v = none)
      (hsame : SameHolds { k with holds := (k.holds.release v).2 } k')
  | reclaimed (n : Nat) (hone : k.holds.count v = 1) (hpending : k.holds.pending? v = some n)
      (hsame : SameHolds
        { k with holds := (k.holds.release v).2, catalog := (k.catalog.delete n).2 } k')

theorem released_release (h : k.holds.Positive) (v : Version) : Released v k (k.release v).2 := by
  rcases Nat.eq_zero_or_pos (k.holds.count v) with hnone | hheld
  · have hunknown : k.holds.release v = (.unknown, k.holds) := by
      unfold HoldTable.release
      rw [h.get?_eq_none hnone]
    have hrelease : k.release v = (false, (k.unhold v).2.countRedundant) := by
      unfold release unhold
      rw [hunknown]
      rfl
    refine .unheld hnone ?_
    rw [hrelease]
    unfold unhold
    rw [hunknown]
    exact ⟨rfl, rfl, rfl, rfl, rfl, rfl⟩
  · by_cases hplain : k.holds.count v ≠ 1 ∨ k.holds.pending? v = none
    · refine .fewer hheld ?_ ?_
      · intro hone _
        exact hplain.resolve_left fun hne => hne hone
      · rw [release_plain hheld hplain]
        exact ⟨rfl, rfl, rfl, rfl, rfl, rfl⟩
    · have hone : k.holds.count v = 1 := Decidable.byContradiction fun hne => hplain (Or.inl hne)
      have hsome : k.holds.pending? v ≠ none := fun hnone => hplain (Or.inr hnone)
      obtain ⟨n, hn⟩ := Option.ne_none_iff_exists'.mp hsome
      by_cases hr : k.reclaimOnRelease = true
      · refine .reclaimed n hone hn ?_
        obtain ⟨stats, -, hon⟩ := reclaim_on (k := (k.unhold v).2.countRelease) hr n
        rw [release_pending hone hn, hon]
        exact ⟨rfl, rfl, rfl, rfl, rfl, rfl⟩
      · refine .fewer hheld (fun _ hon => absurd hon hr) ?_
        have hoff : (k.unhold v).2.countRelease.reclaimOnRelease = false := Bool.eq_false_iff.mpr hr
        rw [release_pending hone hn, reclaim_off hoff]
        exact ⟨rfl, rfl, rfl, rfl, rfl, rfl⟩

/-! ## The invariant -/

/-- Nothing held is deleted, and deletions wait for the holds of versions that are not spared or
whose commits are doomed. -/
structure Waits (spared : Version → Prop) (doomed : Nat → Prop) (k : Keeper) : Prop where
  positive : k.holds.Positive
  safe : ∀ n, n < k.catalog.commits.length → 0 < k.holds.count (k.catalog.version n) →
    k.catalog.isDeleted n = false
  pending : ∀ v n, k.holds.pending? v = some n →
    n < k.catalog.commits.length ∧ k.catalog.version n = v ∧ (spared v → doomed n)
  waiting : ∀ v, 0 < k.holds.count v → ¬spared v → ∃ n, k.holds.pending? v = some n
  /-- A doomed commit is deleted, or held no more, or waits. -/
  settled : ∀ n, n < k.catalog.commits.length → doomed n → k.catalog.isDeleted n = true ∨
    k.holds.count (k.catalog.version n) = 0 ∨ k.holds.pending? (k.catalog.version n) = some n

theorem Waits.congr {spared' : Version → Prop} {doomed' : Nat → Prop} (h : Waits spared doomed k)
    (hspared : ∀ v, spared' v ↔ spared v) (hdoomed : ∀ n, doomed' n ↔ doomed n) :
    Waits spared' doomed' k := by
  obtain rfl : spared' = spared := funext fun v => propext (hspared v)
  obtain rfl : doomed' = doomed := funext fun n => propext (hdoomed n)
  exact h

theorem SameHolds.waits (hs : SameHolds k k') (h : Waits spared doomed k) :
    Waits spared doomed k' := by
  refine ⟨?_, ?_, ?_, ?_, ?_⟩
  · rw [hs.holds]
    exact h.positive
  · rw [hs.catalog, hs.holds]
    exact h.safe
  · rw [hs.catalog, hs.holds]
    exact h.pending
  · rw [hs.holds]
    exact h.waiting
  · rw [hs.catalog, hs.holds]
    exact h.settled

theorem Waits.fewer (h : Waits spared doomed k) (hheld : 0 < k.holds.count v) :
    Waits spared doomed { k with holds := (k.holds.release v).2 } := by
  have hcount := HoldTable.count_release hheld
  have hpending := HoldTable.pending?_release hheld
  -- a pending deletion goes with the last hold only
  have hkeeps : ∀ q, 0 < (k.holds.release v).2.count q →
      0 < k.holds.count q ∧ (k.holds.release v).2.pending? q = k.holds.pending? q := by
    intro q hq
    have hq' := hcount q
    have hmore : ¬(q = v ∧ k.holds.count v = 1) := by
      rintro ⟨rfl, hone⟩
      rw [if_pos rfl] at hq'
      omega
    refine ⟨by omega, ?_⟩
    rw [hpending, if_neg hmore]
  refine
    { positive := h.positive.release v
      safe := fun n hn hheld' => h.safe n hn (hkeeps _ hheld').1
      pending := fun q n hp => h.pending q n ?_
      waiting := ?_
      settled := ?_ }
  · have hp : (k.holds.release v).2.pending? q = some n := hp
    rw [hpending] at hp
    split at hp
    next => cases hp
    next => exact hp
  · intro q hq hnot
    obtain ⟨hq', heq⟩ := hkeeps q hq
    show ∃ n, (k.holds.release v).2.pending? q = some n
    rw [heq]
    exact h.waiting q hq' hnot
  · intro n hn hdoomed
    rcases Nat.eq_zero_or_pos ((k.holds.release v).2.count (k.catalog.version n)) with hnone | hpos
    · exact Or.inr (Or.inl hnone)
    · obtain ⟨hq', heq⟩ := hkeeps _ hpos
      refine (h.settled n hn hdoomed).imp_right fun hor => Or.inr ?_
      exact heq.trans (hor.resolve_left (Nat.ne_of_gt hq'))

/-- A commit that nothing holds may be deleted. -/
theorem Waits.delete (h : Waits spared doomed k)
    (hnone : k.holds.count (k.catalog.version n) = 0) :
    Waits spared doomed { k with catalog := (k.catalog.delete n).2 } := by
  have hframe := Catalog.sameCommits_delete n k.catalog
  refine
    { positive := h.positive
      safe := ?_
      pending := ?_
      waiting := h.waiting
      settled := ?_ }
  · intro m hm hheld
    have hheld : 0 < k.holds.count (k.catalog.version m) := hframe.version m ▸ hheld
    have hne : m ≠ n := by
      rintro rfl
      omega
    show (k.catalog.delete n).2.isDeleted m = false
    rw [Catalog.isDeleted_delete_of_ne hne]
    exact h.safe m (hframe.length ▸ hm) hheld
  · intro q m hp
    obtain ⟨hm, hv, hspared⟩ := h.pending q m hp
    exact ⟨hframe.length.symm ▸ hm, (hframe.version m).trans hv, hspared⟩
  · intro m hm hdoomed
    show (k.catalog.delete n).2.isDeleted m = true ∨
      k.holds.count ((k.catalog.delete n).2.version m) = 0 ∨
        k.holds.pending? ((k.catalog.delete n).2.version m) = some m
    rw [hframe.version]
    exact (h.settled m (hframe.length ▸ hm) hdoomed).imp_left
      (Catalog.isDeleted_delete_of_isDeleted n)

/-- The last hold of a version with a pending deletion leaves a commit that nothing holds. -/
theorem Waits.count_reclaimed (h : Waits spared doomed k) (hone : k.holds.count v = 1)
    (hn : k.holds.pending? v = some n) : (k.holds.release v).2.count (k.catalog.version n) = 0 := by
  have hcount := HoldTable.count_release (t := k.holds) (v := v) (by omega) v
  rw [if_pos rfl, hone] at hcount
  rw [(h.pending v n hn).2.1]
  omega

theorem Waits.release (h : Waits spared doomed k) (v : Version) :
    Waits spared doomed (k.release v).2 := by
  cases released_release h.positive v with
  | unheld hnone hsame => exact hsame.waits h
  | fewer hheld _ hsame => exact hsame.waits (h.fewer hheld)
  | reclaimed n hone hn hsame =>
    exact hsame.waits ((h.fewer (by omega)).delete (h.count_reclaimed hone hn))

/-! ## Asking guards -/

/-- Asking a guard dooms its commit. -/
theorem Waits.deleteGuard (h : Waits spared doomed k) (hdistinct : k.catalog.Distinct) {g : Guard}
    (hg : g.commit < k.catalog.commits.length)
    (hbacking : (k.catalog.commit g.commit).backing = .artifacts 0) :
    Waits spared (fun n => n = g.commit ∨ doomed n) (k.deleteGuard g).2 := by
  rcases Nat.eq_zero_or_pos (k.holds.count (k.version g)) with hnone | hheld
  · -- the commit goes at once
    rw [deleteGuard_of_not_held hnone]
    have hdeleted := h.delete hnone
    refine
      { positive := hdeleted.positive
        safe := hdeleted.safe
        pending := ?_
        waiting := hdeleted.waiting
        settled := ?_ }
    · intro v n hp
      obtain ⟨hn, hv, hspared⟩ := hdeleted.pending v n hp
      exact ⟨hn, hv, fun hs => Or.inr (hspared hs)⟩
    · intro n hn hdoomed
      rcases hdoomed with rfl | hdoomed
      · exact Or.inl (Catalog.isDeleted_delete_self hg hbacking)
      · exact hdeleted.settled n hn hdoomed
  · -- the commit waits, in the place of what waited for the version before
    rw [deleteGuard_of_held hheld]
    have hcount : ∀ q, ((k.mark g).defer g).holds.count q = k.holds.count q :=
      HoldTable.count_setPending _ _ _
    have hpending : ∀ q, ((k.mark g).defer g).holds.pending? q =
        if q = k.version g then some g.commit else k.holds.pending? q :=
      HoldTable.pending?_setPending h.positive hheld g.commit
    refine
      { positive := h.positive.setPending _ _
        safe := fun n hn hn' => h.safe n hn (hcount _ ▸ hn')
        pending := ?_
        waiting := ?_
        settled := ?_ }
    · intro v n hp
      rw [hpending] at hp
      split at hp
      next hv =>
        obtain rfl := Option.some.inj hp
        exact ⟨hg, hv.symm, fun _ => Or.inl rfl⟩
      next =>
        obtain ⟨hn, hv, hspared⟩ := h.pending v n hp
        exact ⟨hn, hv, fun hs => Or.inr (hspared hs)⟩
    · intro v hv hnot
      rw [hpending]
      split
      next => exact ⟨g.commit, rfl⟩
      next => exact h.waiting v (hcount v ▸ hv) hnot
    · intro n hn hdoomed
      have hversion : ((k.mark g).defer g).catalog.version n = k.catalog.version n := rfl
      rw [hversion, hpending, hcount]
      by_cases hv : k.catalog.version n = k.version g
      · rw [if_pos hv, hdistinct n g.commit hn hg hv]
        exact Or.inr (Or.inr rfl)
      · rw [if_neg hv]
        have hdoomed := hdoomed.resolve_left fun heq => hv (heq ▸ rfl)
        exact h.settled n hn hdoomed

end Keeper

end SnapshotRetention
