import SnapshotRetention.Proofs.Keeper.Superseded
import SnapshotRetention.Proofs.Writer.Run

/-!
# Snapshots of commits that are still there

Guards and handles are commits themselves, so a consumer may ask one of them to delete its commit.
As long as only versions that are not in the published list are deleted so (`Engine.Pruned`), no
snapshot is given out of a commit that has gone, and every unreleased handle refers to an undeleted
commit (`Engine.snapshots_undeleted`).

A guard of a live version is not so careful. It deletes the commit, which nothing holds, and leaves
it in the published list, from which the next snapshot takes it (`Engine.current_of_deleted`).
-/

namespace SnapshotRetention.Engine

open Keeper

variable {e : Engine} {s : Store} {seen last : List Nat} {bound : Nat} {g : Guard}

/-- A consumer asks a guard to delete its commit. -/
def deleteGuard (g : Guard) (e : Engine) : Engine :=
  { e with keeper := (e.keeper.deleteGuard g).2 }

/-- The states of all runs in which consumers may also delete what is not published any more, by
any guard of a commit that the policy has been shown. -/
inductive Pruned (s : Store) : Engine → List Nat → Prop where
  | run {e : Engine} {seen last : List Nat} : Run s e seen last → Pruned s e seen
  | act {e : Engine} {seen : List Nat} (a : Act) : Pruned s e seen → e.Permits a →
    Pruned s (e.act a) (e.shows a ++ seen)
  | delete {e : Engine} {seen : List Nat} (g : Guard) : Pruned s e seen → e.keeper.Knows g →
    g.commit ∈ seen → ¬e.keeper.IsLive (e.keeper.version g) → Pruned s (e.deleteGuard g) seen

/-- A running engine does not notice that a superseded commit is deleted. -/
theorem Running.deleteGuard (h : Running bound e) (hg : e.keeper.Knows g) (hshown : g.commit < bound)
    (hnot : ¬e.keeper.IsLive (e.keeper.version g)) : Running bound (e.deleteGuard g) := by
  obtain ⟨hsafe, hlater⟩ := h.safe.deleteGuard hg hnot
  have hcommits := (deleteGuard_frame g e.keeper).commits
  refine ⟨h.guarded, hsafe, hcommits.length.symm ▸ h.range, ?_⟩
  intro w hw
  rcases h.writer w hw with ⟨hfits, hbound⟩ | hstuck
  · exact Or.inl ⟨hfits.later hlater hcommits.length hsafe, hbound.trans hcommits.length.symm⟩
  · refine Or.inr ⟨hsafe, hstuck.depot, hcommits.length.symm ▸ hstuck.range, ?_,
      hstuck.aside.deleteGuard (Nat.ne_of_gt hshown)⟩
    exact (congrArg Manifest.generation (hcommits.manifest bound)).trans hstuck.generation

theorem Pruned.running (h : Pruned s e seen) :
    ∃ bound, Running bound e ∧ ∀ n ∈ seen, n < bound := by
  induction h with
  | run hrun =>
    obtain ⟨bound, hrunning, hseen, -, -⟩ := hrun.running
    exact ⟨bound, hrunning, hseen⟩
  | act a _ ha ih =>
    obtain ⟨bound, hrunning, hseen⟩ := ih
    obtain ⟨bound', hstep⟩ := hrunning.act ha
    refine ⟨bound', hstep.running, fun n hn => ?_⟩
    rcases List.mem_append.mp hn with hn | hn
    · exact hstep.below n hn
    · exact Nat.lt_of_lt_of_le (hseen n hn) hstep.grows
  | delete g _ hg hshown hnot ih =>
    obtain ⟨bound, hrunning, hseen⟩ := ih
    exact ⟨bound, hrunning.deleteGuard hg (hseen g.commit hshown) hnot, hseen⟩

/-- No snapshot is given out of a commit that has gone, unless a live commit is deleted: then one
is. -/
theorem snapshots_undeleted (h : Pruned s e seen) : e.keeper.OffersUndeleted ∧
    ∀ g, e.keeper.Knows g → e.keeper.IsLive (e.keeper.version g) →
      e.keeper.holds.count (e.keeper.version g) = 0 →
        ∃ slot k x, (e.deleteGuard g).keeper.snapshotCommit g = (.ok slot, k) ∧
          k.handle? slot = some x ∧ x.released = false ∧
            k.catalog.isDeleted x.guard.commit = true := by
  obtain ⟨bound, hrunning, -⟩ := h.running
  exact ⟨hrunning.safe.offersUndeleted, fun g => hrunning.safe.deleteGuard_live⟩

/-- The first commit, replaced by the second while a snapshot holds it, is deleted by its guard,
which has to wait, and goes with the snapshot. -/
theorem snapshots_undeleted_superseded :
    let e := (replaced.deleteGuard ⟨0, 0, 0⟩).act (.use (.release 0))
    e.catalog.isDeleted 0 = true ∧ e.keeper.OffersUndeleted ∧
      (e.keeper.snapshotCommit ⟨0, 0, 0⟩).1 = .error (.commitReleased ⟨1⟩) := by
  intro e
  have hknows : replaced.keeper.Knows ⟨0, 0, 0⟩ := ⟨by decide +kernel, by decide +kernel⟩
  have hversion : replaced.keeper.version ⟨0, 0, 0⟩ = ⟨1⟩ := by decide +kernel
  have hnot : ¬replaced.keeper.IsLive (replaced.keeper.version ⟨0, 0, 0⟩) := by
    rw [isLive_iff_liveGuard?, hversion]
    rintro ⟨g, hg⟩
    have hnone : replaced.keeper.liveGuard? ⟨1⟩ = none := by decide +kernel
    exact absurd (hnone.symm.trans hg) nofun
  have hdeleted := Pruned.delete ⟨0, 0, 0⟩ (.run run_replaced) hknows (by decide) hnot
  obtain ⟨hoffers, -⟩ := snapshots_undeleted (hdeleted.act (.use (.release 0)) trivial)
  exact ⟨by decide +kernel, hoffers, by decide +kernel⟩

/-- The policy keeps every commit, and the only commit is deleted by its guard in the published
list. A snapshot of the current commit is then a snapshot of that commit, whose artifacts are
gone. -/
theorem current_of_deleted :
    let e := (((onStore 0 true (.stock .keepAll) .empty).openWriter 0 true).2.act
      (.commit (.stock .keepAll) ⟨[("a", [1])], [], 0⟩)).deleteGuard ⟨0, 0, 0⟩
    e.keeper.live = some ⟨1, [⟨0, 0, 0⟩]⟩ ∧ e.catalog.isDeleted 0 = true ∧
      e.keeper.snapshotCurrent.1 = .ok 0 ∧
      e.keeper.snapshotCurrent.2.handle? 0 = some ⟨⟨0, 0, 0⟩, false⟩ ∧
      (e.catalog.store 0).names = [] := by
  decide +kernel

end SnapshotRetention.Engine
