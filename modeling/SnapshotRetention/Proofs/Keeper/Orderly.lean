import SnapshotRetention.Proofs.Keeper.Prunes
import SnapshotRetention.Proofs.Keeper.RetainedCycle

/-!
# Pending deletions and their commits

A deletion is pending on a version for one commit of it (`Keeper.Orderly`), and while a cycle runs,
only guards that are asked make deletions pending. Everything else that happens to a keeper asks for
nothing (`Keeper.Loses`): commits may go, and pending deletions are taken off the table or carried
out.

So the deletion of the newest commit, on which none is pending when a cycle begins, is pending only
if its guard has been asked (`Orderly.carryOut`), and then the newest is no survivor
(`Guards.ne_of_survivor`).
-/

namespace SnapshotRetention.Keeper

open Catalog (Prunes)

variable {k k' : Keeper} {commits : List Nat} {newest n : Nat} {shown : List Guard} {v : Version}

/-! ## Steps that ask for nothing -/

/-- Commits may be deleted and pending deletions may go from the table, but nothing is asked for. -/
structure Loses (k k' : Keeper) : Prop where
  prunes : Prunes k.catalog k'.catalog
  positive : k.holds.Positive → k'.holds.Positive
  pending : ∀ v n, k'.holds.pending? v = some n → k.holds.pending? v = some n
  marked : k'.marked = k.marked
  reclaimOnRelease : k'.reclaimOnRelease = k.reclaimOnRelease

theorem Loses.trans {k'' : Keeper} (h : Loses k k') (h' : Loses k' k'') : Loses k k'' :=
  ⟨h.prunes.trans h'.prunes, fun hpositive => h'.positive (h.positive hpositive),
    fun v n hp => h.pending v n (h'.pending v n hp), h'.marked.trans h.marked,
    h'.reclaimOnRelease.trans h.reclaimOnRelease⟩

theorem Loses.pending_none (h : Loses k k') (hnone : k.holds.pending? v = none) :
    k'.holds.pending? v = none := by
  refine Option.eq_none_iff_forall_ne_some.mpr fun n hn => ?_
  cases (h.pending v n hn).symm.trans hnone

theorem Loses.doomed (h : Loses k k') (hn : Doomed shown k n) : Doomed shown k' n := by
  unfold Doomed
  rw [h.marked]
  exact hn

theorem Loses.of_same (hcatalog : k'.catalog = k.catalog) (hholds : k'.holds = k.holds)
    (hmarked : k'.marked = k.marked) (hsetting : k'.reclaimOnRelease = k.reclaimOnRelease) :
    Loses k k' := by
  refine ⟨?_, ?_, ?_, hmarked, hsetting⟩
  · rw [hcatalog]
    exact .refl _
  · rw [hholds]
    exact fun h => h
  · rw [hholds]
    exact fun v n hp => hp

theorem Loses.of_sameHolds (h : SameHolds k k') : Loses k k' :=
  .of_same h.catalog h.holds h.marked h.reclaimOnRelease

theorem loses_unhold (v : Version) (k : Keeper) : Loses k (k.unhold v).2 :=
  ⟨.refl _, fun h => h.release v, fun _ _ hp => HoldTable.pending?_of_release hp, rfl, rfl⟩

theorem loses_acquire (v : Version) (k : Keeper) : Loses k (k.acquire v) :=
  ⟨.refl _, fun h => h.acquire v, fun q _ hp => (HoldTable.pending?_acquire k.holds v q) ▸ hp, rfl,
    rfl⟩

theorem loses_deleteCommit (n : Nat) (k : Keeper) : Loses k (k.deleteCommit n).2 :=
  ⟨.delete n k.catalog, fun h => h, fun _ _ hp => hp, rfl, rfl⟩

/-- What the second step of a release does. -/
theorem settle_cases (u : Unhold) (k : Keeper) :
    (∃ n, u = .freed (some n) ∧ k.reclaimOnRelease = true ∧
        SameHolds (k.deleteCommit n).2 (k.settle u).2) ∨
      (∀ n, u = .freed (some n) → k.reclaimOnRelease = false) ∧ SameHolds k (k.settle u).2 := by
  have hcounted : ∀ {k : Keeper}, SameHolds k k.countRelease := ⟨rfl, rfl, rfl, rfl, rfl, rfl⟩
  unfold settle
  split
  next => exact Or.inr ⟨(fun n h => nomatch h), ⟨rfl, rfl, rfl, rfl, rfl, rfl⟩⟩
  next => exact Or.inr ⟨(fun n h => nomatch h), hcounted⟩
  next => exact Or.inr ⟨(fun n h => nomatch h), hcounted⟩
  next n =>
    cases hsetting : k.reclaimOnRelease with
    | true =>
      obtain ⟨stats, -, heq⟩ := reclaim_on (k := k.countRelease) hsetting n
      refine Or.inl ⟨n, rfl, rfl, ?_⟩
      dsimp only
      rw [heq]
      exact ⟨rfl, rfl, rfl, rfl, rfl, rfl⟩
    | false =>
      refine Or.inr ⟨fun _ _ => rfl, ?_⟩
      dsimp only
      rw [reclaim_off (k := k.countRelease) hsetting]
      exact hcounted

theorem loses_settle (u : Unhold) (k : Keeper) : Loses k (k.settle u).2 := by
  rcases settle_cases u k with ⟨n, -, -, hsame⟩ | ⟨-, hsame⟩
  · exact (loses_deleteCommit n k).trans (.of_sameHolds hsame)
  · exact .of_sameHolds hsame

theorem loses_release (v : Version) (k : Keeper) : Loses k (k.release v).2 :=
  (loses_unhold v k).trans (loses_settle _ _)

theorem loses_reclaimNewest (u : Unhold) (k : Keeper) : Loses k (k.reclaimNewest u).2 := by
  unfold reclaimNewest
  split
  next n => exact loses_deleteCommit n k
  all_goals exact .of_same rfl rfl rfl rfl

theorem loses_clearPending (g : Guard) (k : Keeper) : Loses k (k.clearPending [g]) := by
  refine ⟨.refl _, fun h => h.clearPending _, fun v n hp => ?_, rfl, rfl⟩
  have hp : (k.holds.clearPending (k.version g)).pending? v = some n := hp
  rw [HoldTable.pending?_clearPending] at hp
  split at hp
  next => cases hp
  next => exact hp

/-! ## Pending deletions and their commits -/

/-- Commits of different versions that have artifacts, some of which are offered, and pending
deletions of commits of their versions. -/
structure Orderly (commits : List Nat) (k : Keeper) : Prop where
  distinct : k.catalog.Distinct
  artifacts : ∀ n, n < k.catalog.commits.length → (k.catalog.commit n).backing = .artifacts 0
  range : ∀ n ∈ commits, n < k.catalog.commits.length
  positive : k.holds.Positive
  aimed : ∀ v n, k.holds.pending? v = some n →
    n < k.catalog.commits.length ∧ k.catalog.version n = v

theorem Orderly.loses (h : Orderly commits k) (hl : Loses k k') : Orderly commits k' := by
  have hsame := hl.prunes.sameCommits
  refine ⟨hsame.distinct h.distinct, hl.prunes.artifacts h.artifacts, ?_, hl.positive h.positive,
    ?_⟩
  · rw [hsame.length]
    exact h.range
  · intro v n hp
    rw [hsame.length, hsame.version]
    exact h.aimed v n (hl.pending v n hp)

/-- A guard may be asked. -/
theorem Orderly.deleteGuard (h : Orderly commits k) {g : Guard}
    (hg : g.commit < k.catalog.commits.length) : Orderly commits (k.deleteGuard g).2 := by
  have hprunes := deleteGuard_prunes g k
  have hsame := hprunes.sameCommits
  refine ⟨hsame.distinct h.distinct, hprunes.artifacts h.artifacts, ?_,
    deleteGuard_positive h.positive g, ?_⟩
  · rw [hsame.length]
    exact h.range
  · intro v n hp
    rw [hsame.length, hsame.version]
    rw [deleteGuard_pending h.positive] at hp
    split at hp
    next hv =>
      obtain rfl := Option.some.inj hp
      exact ⟨hg, hv.1.symm⟩
    next => exact h.aimed v n hp

/-- Guards of commits that exist, no two of them of one commit. -/
structure Guards (shown : List Guard) (k : Keeper) : Prop where
  range : ∀ g ∈ shown, g.commit < k.catalog.commits.length
  single : ∀ g ∈ shown, ∀ g' ∈ shown, g.commit = g'.commit → g.serial = g'.serial

theorem Guards.prunes (h : Guards shown k) (hp : Prunes k.catalog k'.catalog) : Guards shown k' :=
  ⟨fun g hg => hp.sameCommits.length ▸ h.range g hg, h.single⟩

theorem guards_guardAll (h : Orderly commits k) (hnodup : commits.Nodup) :
    Guards (k.guardAll commits).1 k := by
  refine ⟨fun g hg => ?_, fun g hg g' hg' heq => serial_eq_of_commit_eq hnodup hg hg' heq⟩
  obtain ⟨i, hi, -⟩ := mem_guardAll hg
  exact h.range g.commit (List.mem_of_getElem? hi)

/-- The deletion of the newest is pending only if its guard has been asked. -/
def AskedIfPending (shown : List Guard) (newest : Nat) (k : Keeper) : Prop :=
  k.holds.pending? (k.catalog.version newest) ≠ none → Doomed shown k newest

theorem AskedIfPending.loses (h : AskedIfPending shown newest k) (hl : Loses k k') :
    AskedIfPending shown newest k' := by
  intro hp
  rw [hl.prunes.sameCommits.version] at hp
  exact hl.doomed (h fun hnone => hp (hl.pending_none hnone))

/-- No request makes the deletion of the newest pending without asking its guard. -/
theorem Orderly.carryOut (h : Orderly commits k) (hnewest : newest ∈ commits)
    (hshown : Guards shown k) (hasked : AskedIfPending shown newest k) (r : Request) :
    Orderly commits (k.carryOut shown r).2 ∧
      AskedIfPending shown newest (k.carryOut shown r).2 := by
  have hloses : Loses k (k.carryOut shown r).2 → Orderly commits (k.carryOut shown r).2 ∧
      AskedIfPending shown newest (k.carryOut shown r).2 := fun hl => ⟨h.loses hl, hasked.loses hl⟩
  cases carriedOut_carryOut shown r k with
  | nothing hsame => exact hloses (.of_sameHolds hsame)
  | released v _ hsame => exact hloses ((loses_release v k).trans (.of_sameHolds hsame))
  | asked g hg heq =>
    rw [heq]
    refine ⟨h.deleteGuard (hshown.range g hg), fun hp => ?_⟩
    rw [(deleteGuard_prunes g k).sameCommits.version, deleteGuard_pending h.positive] at hp
    unfold Doomed
    rw [deleteGuard_marked]
    split at hp
    next hv =>
      -- versions are distinct, so the guard of this version is one of the newest
      obtain rfl := h.distinct g.commit newest (hshown.range g hg) (h.range newest hnewest)
        hv.1.symm
      exact ⟨g, hg, List.mem_cons_self, rfl⟩
    next =>
      obtain ⟨g', hg', hmarked, hcommit⟩ := hasked hp
      exact ⟨g', hg', List.mem_cons_of_mem _ hmarked, hcommit⟩

/-- Among the survivors is no guard of a commit that was asked for. -/
theorem Guards.ne_of_survivor (h : Guards shown k) (hdoomed : Doomed shown k n) {g : Guard}
    (hg : g ∈ k.survivors shown) : g.commit ≠ n := by
  obtain ⟨g', hg', hmarked, hcommit⟩ := hdoomed
  obtain ⟨hshown, hunmarked, -⟩ := mem_survivors.mp hg
  intro hn
  exact hunmarked (h.single g hshown g' hg' (hn.trans hcommit.symm) ▸ hmarked)

end SnapshotRetention.Keeper
