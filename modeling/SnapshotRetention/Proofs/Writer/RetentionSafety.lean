import SnapshotRetention.Proofs.Keeper.ExactHolds
import SnapshotRetention.Proofs.Writer.Run

/-!
# Retention safety

What a consumer holds stays readable. In every state of a run, each commit that an unreleased handle
holds and each commit in the published list is not deleted, and all its artifacts are in the store
with the data that they had in any earlier state that has the commit (`Engine.retention_safe`):
whatever the primary policies do, whichever accesses fail, and however commits and consumers take
turns.

The keeper retains what is live or held (`Keeper.Retained.safe`), an undeleted commit is a reference
to each of its artifacts (`Catalog.Backed`), and no step takes an artifact of a commit that stays
undeleted (`Catalog.Later`).
-/

namespace SnapshotRetention.Engine

open Keeper

variable {e e' : Engine} {s : Store} {seen last : List Nat} {g : Guard}

/-- A commit that is not deleted, with all its artifacts as they were in an earlier state. -/
structure Intact (n : Nat) (e e' : Engine) : Prop where
  undeleted : e'.catalog.isDeleted n = false
  present : ∀ name ∈ (e'.catalog.commit n).manifest.fileNames,
    ((e'.catalog.store 0).data? name).isSome
  /-- Nothing has changed since the commit was there. -/
  unchanged : n < e.catalog.commits.length → ∀ name ∈ (e'.catalog.commit n).manifest.fileNames,
    (e'.catalog.store 0).data? name = (e.catalog.store 0).data? name

/-- A handle that is not released is a hold of the version of its commit. -/
theorem held_of_unreleased {k : Keeper} (hk : Sound [] k) {x : Handle} (hx : x ∈ k.unreleased) :
    0 < k.holds.count (k.version x.guard) := by
  rw [hk.count]
  unfold unreleasedOf
  exact List.countP_pos_iff.mpr ⟨x, hx, by simp⟩

/-- Whatever is held or live is intact. -/
theorem retention_safe (h : Run s e seen last) (hl : Leads e e')
    (hg : (∃ x ∈ e'.keeper.unreleased, x.guard = g) ∨
      ∃ live, e'.keeper.live = some live ∧ g ∈ live.guards) : Intact g.commit e e' := by
  obtain ⟨bound, hrunning, -⟩ := h.running
  obtain ⟨⟨bound', hrunning'⟩, hlater⟩ := hl.later hrunning
  have hsafe := hrunning'.safe
  have hknown : e'.keeper.Knows g := by
    rcases hg with ⟨x, hx, rfl⟩ | ⟨live, hlive, hmem⟩
    · exact hsafe.sound.issued.given x (mem_unreleased.mp hx).1
    · exact hsafe.sound.issued.live live hlive g hmem
  -- the keeper has a reason to keep the commit, so it has not gone
  have hreason : e'.keeper.IsLive (e'.catalog.version g.commit) ∨
      0 < e'.keeper.holds.count (e'.catalog.version g.commit) := by
    rcases hg with ⟨x, hx, rfl⟩ | ⟨live, hlive, hmem⟩
    · exact Or.inr (held_of_unreleased hsafe.sound hx)
    · exact Or.inl ⟨live, hlive, g, hmem, rfl⟩
  have hkept := hsafe.retained.safe hknown.commit hreason
  refine ⟨hkept, ?_, ?_⟩
  · intro name hname
    exact hsafe.backed.present name (Catalog.mem_referenced hknown.commit hkept hname)
  · intro hn name hname
    rw [hlater.describes.manifest g.commit hn] at hname
    exact hlater.data g.commit hn hkept name hname

/-- The snapshot of the first commit, after the second has replaced it. -/
theorem retention_safe_replaced : (∃ x ∈ replaced.keeper.unreleased, x.guard = ⟨0, 0, 0⟩) ∧
    replaced.keeper.holds.hasPending ⟨1⟩ = true ∧ Intact 0 snapshotted replaced := by
  have hheld : ∃ x ∈ replaced.keeper.unreleased, x.guard = ⟨0, 0, 0⟩ := by decide +kernel
  have hpending : replaced.keeper.holds.hasPending ⟨1⟩ = true := by decide +kernel
  exact ⟨hheld, hpending, retention_safe run_snapshotted leads_replaced (Or.inl hheld)⟩

end SnapshotRetention.Engine
