import SnapshotRetention.Proofs.Writer.Run

/-!
# Exact retention

Nothing is kept without a reason, and nothing is lost. Of the commits that were ever shown to the
policy those are undeleted that the published list names or a snapshot holds; a deletion waits for
exactly the versions that are held and not live; and a snapshot of a published commit can be taken
as long as the commit is there (`Engine.exact_retention`).

This is so in every state of a run if deletions are carried out on release, whatever the primary
policies do. Otherwise a release may leave a commit that nothing keeps until the next cycle comes
by, so it is so after every step that shows the history to a policy. A policy of one's own always
has its deletions carried out on release; the stock policies, which may have that switched off, only
ask for deletions (`Decider.deletes_stock`).
-/

namespace SnapshotRetention

namespace Keeper

variable {k : Keeper} {g : Guard} {v : Version}

/-! ## Snapshots of a commit of one's choice -/

theorem IsLive.liveGuard? (h : k.IsLive v) : ∃ g, k.liveGuard? v = some g := by
  obtain ⟨live, hlive, g, hg, hv⟩ := h
  unfold Keeper.liveGuard?
  rw [hlive]
  exact Option.isSome_iff_exists.mp (List.find?_isSome.mpr ⟨g, hg, beq_iff_eq.mpr hv⟩)

/-- What is live or held can be held once more. -/
theorem snapshotCommit_of_kept (hlive : k.live ≠ none)
    (hkept : k.IsLive (k.version g) ∨ 0 < k.holds.count (k.version g)) :
    ∃ g', k.version g' = k.version g ∧
      k.snapshotCommit g = (.ok k.handles.length, (k.hold g').2) := by
  unfold snapshotCommit
  split
  next hnone => exact absurd hnone hlive
  next =>
    split
    next current hcurrent =>
      obtain ⟨-, -, -, hv⟩ := mem_of_liveGuard? hcurrent
      exact ⟨current, hv, rfl⟩
    next hnone =>
      have hheld : 0 < k.holds.count (k.version g) := by
        refine hkept.resolve_left ?_
        intro hl
        obtain ⟨current, hcurrent⟩ := hl.liveGuard?
        cases hnone.symm.trans hcurrent
      rw [if_pos ((HoldTable.isHeld_iff _ _).mpr hheld)]
      exact ⟨g, rfl, rfl⟩

/-- What is neither live nor held is refused, and nothing changes. -/
theorem snapshotCommit_of_gone (hlive : k.live ≠ none)
    (hgone : ¬(k.IsLive (k.version g) ∨ 0 < k.holds.count (k.version g))) :
    k.snapshotCommit g = (.error (.commitReleased (k.version g)), k) := by
  unfold snapshotCommit
  split
  next hnone => exact absurd hnone hlive
  next =>
    split
    next current hcurrent =>
      obtain ⟨live, hsome, hmem, hv⟩ := mem_of_liveGuard? hcurrent
      exact absurd (Or.inl ⟨live, hsome, current, hmem, hv⟩) hgone
    next =>
      split
      next hheld => exact absurd (Or.inr ((HoldTable.isHeld_iff _ _).mp hheld)) hgone
      next => rfl

end Keeper

namespace Engine

open Keeper

variable {e : Engine} {s : Store} {seen last : List Nat}

/-- What is undeleted, what waits and what can be held are the same as what is live or held. -/
structure Accounted (seen : List Nat) (e : Engine) : Prop where
  undeleted : ∀ n ∈ seen, e.catalog.isDeleted n = false ↔
    e.keeper.IsLive (e.catalog.version n) ∨ 0 < e.keeper.holds.count (e.catalog.version n)
  pending : ∀ v, e.keeper.holds.hasPending v = true ↔
    0 < e.keeper.holds.count v ∧ ¬e.keeper.IsLive v
  /-- The published list names nothing else. -/
  published : ∀ live, e.keeper.live = some live → ∀ g ∈ live.guards, g.commit ∈ seen
  holdable : ∀ g : Guard, g.commit ∈ seen → e.catalog.isDeleted g.commit = false →
    ∃ g', e.keeper.version g' = e.keeper.version g ∧
      e.keeper.snapshotCommit g = (.ok e.keeper.handles.length, (e.keeper.hold g').2)
  refused : ∀ g : Guard, g.commit ∈ seen → e.catalog.isDeleted g.commit = true →
    e.keeper.snapshotCommit g = (.error (.commitReleased (e.keeper.version g)), e.keeper)

/-- In every state of a run with deletions on release, and after every step that shows the history
to a policy that only deletes, what has been shown is kept exactly if it is live or held. -/
theorem exact_retention (h : Run s e seen last)
    (hc : e.keeper.reclaimOnRelease = true ∨ last ≠ [] ∧ e.decider.Deletes) :
    Accounted seen e := by
  obtain ⟨bound, hrunning, hseen, hlisted, hexact⟩ := h.running
  have hretained := hrunning.safe.retained
  have hundeleted : ∀ n ∈ seen, e.catalog.isDeleted n = false ↔
      e.keeper.IsLive (e.catalog.version n) ∨
        0 < e.keeper.holds.count (e.catalog.version n) := by
    intro n hn
    have hlt := Nat.lt_of_lt_of_le (hseen n hn) hrunning.range
    exact ⟨hexact hc n (hseen n hn) hlt, hretained.safe hlt⟩
  have hlive : ∀ g : Guard, g.commit ∈ seen → e.keeper.live ≠ none :=
    fun g hg => hlisted.published (List.ne_nil_of_mem hg)
  refine ⟨hundeleted, hretained.hasPending_iff, hlisted.shown, ?_,
    ?_⟩
  · intro g hg hkept
    exact snapshotCommit_of_kept (hlive g hg) ((hundeleted g.commit hg).mp hkept)
  · intro g hg hdeleted
    refine snapshotCommit_of_gone (hlive g hg) ?_
    intro hkept
    rw [(hundeleted g.commit hg).mpr hkept] at hdeleted
    cases hdeleted

/-- The first commit is held after the second has replaced it, so it is not deleted yet. -/
theorem exact_retention_replaced : replaced.keeper.reclaimOnRelease = true ∧
    replaced.catalog.isDeleted 0 = false ∧ Accounted [0, 1, 0] replaced := by
  have hon : replaced.keeper.reclaimOnRelease = true := by decide +kernel
  have hkept : replaced.catalog.isDeleted 0 = false := by decide +kernel
  exact ⟨hon, hkept, exact_retention run_replaced (Or.inl hon)⟩

end Engine

end SnapshotRetention
