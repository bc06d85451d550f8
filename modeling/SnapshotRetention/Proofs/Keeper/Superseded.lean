import SnapshotRetention.Proofs.Keeper.ExactHolds
import SnapshotRetention.Proofs.Keeper.Safe

/-!
# Guards of superseded versions

A consumer may ask a guard to delete its commit. If the version of the guard is not in the published
list, that does what a release does: the commit goes at once, or waits for the last hold of its
version, and the keeper stays safe (`Safe.deleteGuard`). A guard of a live version is another
matter: the list goes on naming the commit that was deleted.

What a safe keeper gives out refers to undeleted commits, and a commit that has gone is refused
(`Safe.offersUndeleted`).
-/

namespace SnapshotRetention.Keeper

variable {k : Keeper} {n slot : Nat} {g : Guard} {spared : Version → Prop} {doomed : Nat → Prop}

/-! ## Asking for a deletion -/

/-- A commit that was asked for is not doomed any more if its version is not spared either. -/
theorem Waits.undoom (h : Waits spared doomed k)
    (hnot : ∀ n, doomed n → ¬spared (k.catalog.version n)) : Waits spared (fun _ => False) k := by
  refine ⟨h.positive, h.safe, ?_, h.waiting, fun n _ hdoomed => hdoomed.elim⟩
  intro v n hp
  obtain ⟨hn, hv, hdoomed⟩ := h.pending v n hp
  exact ⟨hn, hv, fun hs => hnot n (hdoomed hs) (hv.symm ▸ hs)⟩

/-- What asking a guard does: its commit goes at once unless it is held. -/
theorem deleteGuard_catalog (g : Guard) (k : Keeper) : (k.deleteGuard g).2.catalog =
    if 0 < k.holds.count (k.version g) then k.catalog else (k.catalog.delete g.commit).2 := by
  split
  next hheld =>
    rw [deleteGuard_of_held hheld]
    rfl
  next hnone =>
    rw [deleteGuard_of_not_held (Nat.eq_zero_of_not_pos hnone)]
    rfl

theorem isLive_deleteGuard (g : Guard) (k : Keeper) (v : Version) :
    (k.deleteGuard g).2.IsLive v ↔ k.IsLive v := by
  have hframe := deleteGuard_frame g k
  unfold IsLive
  simp only [hframe.live, hframe.version]

theorem Retained.deleteGuard (h : Retained k) (hg : g.commit < k.catalog.commits.length)
    (hnot : ¬k.IsLive (k.version g)) : Retained (k.deleteGuard g).2 := by
  have hframe := deleteGuard_frame g k
  have hwaits := h.waits.deleteGuard h.distinct hg (h.artifacts g.commit hg)
  have hundoomed := hwaits.undoom (by
    rintro n (rfl | hfalse) hspared
    · rw [hframe.commits.version] at hspared
      exact hnot hspared
    · exact hfalse)
  refine
    { waits := hundoomed.congr (isLive_deleteGuard g k) fun _ => Iff.rfl
      distinct := hframe.commits.distinct h.distinct
      artifacts := ?_
      live := ?_ }
  · intro n hn
    rw [hframe.commits.length] at hn
    rw [deleteGuard_catalog]
    split
    next => exact h.artifacts n hn
    next => exact (Catalog.backing_delete (h.artifacts g.commit hg) n).trans (h.artifacts n hn)
  · intro n hn hlive
    rw [hframe.commits.length] at hn
    rw [isLive_deleteGuard, hframe.commits.version] at hlive
    have hkept := h.live n hn hlive
    rw [deleteGuard_catalog]
    split
    next => exact hkept
    next =>
      have hne : n ≠ g.commit := by
        rintro rfl
        exact hnot hlive
      rw [Catalog.isDeleted_delete_of_ne hne]
      exact hkept

/-- A guard of a version that is not live may be asked to delete its commit. -/
theorem Safe.deleteGuard (h : Safe k) (hg : k.Knows g) (hnot : ¬k.IsLive (k.version g)) :
    Safe (k.deleteGuard g).2 ∧ k.catalog.Later (k.deleteGuard g).2.catalog := by
  obtain ⟨hbacked, hlater⟩ := h.backed.prunes (deleteGuard_prunes g k)
  exact ⟨⟨hbacked, h.sound.deleteGuard hg, h.retained.deleteGuard hg.commit hnot⟩, hlater⟩

/-- A commit that was set aside stays so if a guard of another commit is asked. -/
theorem Aside.deleteGuard (h : Aside n k) (hne : n ≠ g.commit) :
    Aside n (k.deleteGuard g).2 := by
  have hframe := deleteGuard_frame g k
  refine ⟨?_, ?_, ?_⟩
  · rw [deleteGuard_catalog]
    split
    next => exact h.kept
    next =>
      rw [Catalog.isDeleted_delete_of_ne hne]
      exact h.kept
  · rw [deleteGuard_count, hframe.commits.version]
    exact h.unheld
  · rw [isLive_deleteGuard, hframe.commits.version]
    exact h.notLive

/-! ## Taking snapshots -/

/-- A handle that holds a commit which is still there. -/
structure Refers (x : Handle) (k : Keeper) : Prop where
  unreleased : x.released = false
  undeleted : k.catalog.isDeleted x.guard.commit = false

/-- Nothing that a keeper has given out or gives out refers to a commit that has gone. -/
structure OffersUndeleted (k : Keeper) : Prop where
  held : ∀ x ∈ k.unreleased, k.catalog.isDeleted x.guard.commit = false
  snapshot : ∀ slot k', k.snapshot = (.ok slot, k') →
    ∃ b, k'.bundle? slot = some b ∧ ∀ x ∈ b.handles, Refers x k'
  current : ∀ slot k', k.snapshotCurrent = (.ok slot, k') →
    ∃ x, k'.handle? slot = some x ∧ Refers x k'
  commit : ∀ g slot k', k.Knows g → k.snapshotCommit g = (.ok slot, k') →
    ∃ x, k'.handle? slot = some x ∧ Refers x k' ∧ k'.version x.guard = k.version g
  /-- A commit that has gone is refused. -/
  gone : ∀ g, k.Knows g → k.live ≠ none → k.catalog.isDeleted g.commit = true →
    k.snapshotCommit g = (.error (.commitReleased (k.version g)), k)

/-- A snapshot of a guarded commit is a handle in a new slot. -/
theorem handle?_hold (g : Guard) (k : Keeper) :
    (k.hold g).2.handle? (k.hold g).1 = some ⟨g, false⟩ := by
  unfold hold addHandle handle?
  simp

/-- A bundle is put into a new slot. -/
theorem bundle?_addBundle (b : Bundle) (k : Keeper) :
    (k.addBundle b).2.bundle? (k.addBundle b).1 = some b := by
  unfold addBundle bundle?
  simp

/-- The guard that a snapshot of a version is taken of. -/
theorem snapshotCommit_of_live {g current : Guard}
    (h : k.liveGuard? (k.version g) = some current) :
    k.snapshotCommit g = (.ok (k.hold current).1, (k.hold current).2) := by
  obtain ⟨live, hlive, -⟩ := Option.bind_eq_some_iff.mp h
  unfold snapshotCommit
  simp only [hlive, h]

theorem snapshotCommit_of_not_live {g : Guard} (hlive : k.live ≠ none)
    (h : k.liveGuard? (k.version g) = none) :
    k.snapshotCommit g = if 0 < k.holds.count (k.version g) then
      (.ok (k.hold g).1, (k.hold g).2) else (.error (.commitReleased (k.version g)), k) := by
  obtain ⟨live, hlive⟩ := Option.ne_none_iff_exists'.mp hlive
  unfold snapshotCommit
  simp only [hlive, h, HoldTable.isHeld_iff]

theorem isLive_iff_liveGuard? {v : Version} : k.IsLive v ↔ ∃ g, k.liveGuard? v = some g := by
  constructor
  · rintro ⟨live, hlive, g, hg, hv⟩
    unfold liveGuard?
    rw [hlive, Option.bind_some, ← Option.isSome_iff_exists, List.find?_isSome]
    exact ⟨g, hg, by simp [hv]⟩
  · rintro ⟨g, hg⟩
    obtain ⟨live, hlive, hmem, hv⟩ := mem_of_liveGuard? hg
    exact ⟨live, hlive, g, hmem, hv⟩

section
variable (h : Safe k)
include h

theorem Safe.undeleted_of_held (hg : k.Knows g) (hheld : 0 < k.holds.count (k.version g)) :
    k.catalog.isDeleted g.commit = false :=
  h.retained.waits.safe g.commit hg.commit hheld

theorem Safe.undeleted_of_listed {live : LiveList} (hlive : k.live = some live)
    (hg : g ∈ live.guards) : k.catalog.isDeleted g.commit = false :=
  h.retained.live g.commit (h.sound.issued.live live hlive g hg).commit ⟨live, hlive, g, hg, rfl⟩

theorem Safe.undeleted_of_unreleased {x : Handle} (hx : x ∈ k.unreleased) :
    k.catalog.isDeleted x.guard.commit = false := by
  refine h.undeleted_of_held (h.sound.issued.given x (mem_unreleased.mp hx).1) ?_
  rw [h.sound.count]
  exact List.countP_pos_iff.mpr ⟨x, hx, by simp⟩

theorem Safe.refers_snapshot {k' : Keeper} (htaken : k.snapshot = (.ok slot, k')) :
    ∃ b, k'.bundle? slot = some b ∧ ∀ x ∈ b.handles, Refers x k' := by
  unfold Keeper.snapshot at htaken
  split at htaken
  next => cases (Prod.mk.inj htaken).1
  next live hlive =>
    obtain ⟨hok, rfl⟩ := Prod.mk.inj htaken
    obtain rfl := Except.ok.inj hok
    refine ⟨⟨live.generation, live.guards.map fun g => ⟨g, false⟩⟩, bundle?_addBundle _ _, ?_⟩
    intro x hx
    obtain ⟨g, hg, rfl⟩ := List.mem_map.mp hx
    have hcatalog := acquireAll_catalog live.guards k
    refine ⟨rfl, ?_⟩
    show (live.guards.foldl (fun k g => k.acquire (k.version g)) k).catalog.isDeleted
      g.commit = false
    rw [hcatalog]
    exact h.undeleted_of_listed hlive hg

theorem Safe.refers_snapshotCurrent {k' : Keeper} (htaken : k.snapshotCurrent = (.ok slot, k')) :
    ∃ x, k'.handle? slot = some x ∧ Refers x k' := by
  unfold Keeper.snapshotCurrent at htaken
  split at htaken
  next => cases (Prod.mk.inj htaken).1
  next g hg =>
    obtain ⟨hok, rfl⟩ := Prod.mk.inj htaken
    obtain rfl := Except.ok.inj hok
    obtain ⟨live, hlive, hlast⟩ := Option.bind_eq_some_iff.mp hg
    exact ⟨⟨g, false⟩, handle?_hold g k, rfl,
      h.undeleted_of_listed hlive (List.mem_of_getLast? hlast)⟩

theorem Safe.refers_snapshotCommit {k' : Keeper} (hg : k.Knows g)
    (htaken : k.snapshotCommit g = (.ok slot, k')) :
    ∃ x, k'.handle? slot = some x ∧ Refers x k' ∧ k'.version x.guard = k.version g := by
  cases hcurrent : k.liveGuard? (k.version g) with
  | some current =>
    rw [snapshotCommit_of_live hcurrent] at htaken
    obtain ⟨hok, rfl⟩ := Prod.mk.inj htaken
    obtain rfl := Except.ok.inj hok
    obtain ⟨live, hlive, hmem, hv⟩ := mem_of_liveGuard? hcurrent
    exact ⟨⟨current, false⟩, handle?_hold current k, ⟨rfl, h.undeleted_of_listed hlive hmem⟩, hv⟩
  | none =>
    have hpublished : k.live ≠ none := by
      intro hnone
      unfold Keeper.snapshotCommit at htaken
      rw [hnone] at htaken
      cases (Prod.mk.inj htaken).1
    rw [snapshotCommit_of_not_live hpublished hcurrent] at htaken
    split at htaken
    next hheld =>
      obtain ⟨hok, rfl⟩ := Prod.mk.inj htaken
      obtain rfl := Except.ok.inj hok
      exact ⟨⟨g, false⟩, handle?_hold g k, ⟨rfl, h.undeleted_of_held hg hheld⟩, rfl⟩
    next => cases (Prod.mk.inj htaken).1

theorem Safe.snapshotCommit_of_gone (hg : k.Knows g) (hpublished : k.live ≠ none)
    (hgone : k.catalog.isDeleted g.commit = true) :
    k.snapshotCommit g = (.error (.commitReleased (k.version g)), k) := by
  have hnone : k.liveGuard? (k.version g) = none := by
    refine Option.eq_none_iff_forall_ne_some.mpr ?_
    intro current hcurrent
    have hkept :=
      h.retained.live g.commit hg.commit (isLive_iff_liveGuard?.mpr ⟨current, hcurrent⟩)
    exact absurd (hgone.symm.trans hkept) nofun
  rw [snapshotCommit_of_not_live hpublished hnone, if_neg]
  intro hheld
  exact absurd (hgone.symm.trans (h.undeleted_of_held hg hheld)) nofun

theorem Safe.offersUndeleted : OffersUndeleted k :=
  { held := fun _ hx => h.undeleted_of_unreleased hx
    snapshot := fun _ _ htaken => h.refers_snapshot htaken
    current := fun _ _ htaken => h.refers_snapshotCurrent htaken
    commit := fun _ _ _ hg htaken => h.refers_snapshotCommit hg htaken
    gone := fun _ hg hpublished hgone => h.snapshotCommit_of_gone hg hpublished hgone }

end

/-- A live commit that is deleted though nothing holds it is still given out. -/
theorem Safe.deleteGuard_live (h : Safe k) (hg : k.Knows g) (hlive : k.IsLive (k.version g))
    (hnone : k.holds.count (k.version g) = 0) :
    ∃ slot k' x, (k.deleteGuard g).2.snapshotCommit g = (.ok slot, k') ∧
      k'.handle? slot = some x ∧ x.released = false ∧
      k'.catalog.isDeleted x.guard.commit = true := by
  have hframe := deleteGuard_frame g k
  have hafter := (isLive_deleteGuard g k _).mpr hlive
  rw [← hframe.version] at hafter
  obtain ⟨current, hcurrent⟩ := isLive_iff_liveGuard?.mp hafter
  obtain ⟨live, hl, hmem, hv⟩ := mem_of_liveGuard? hcurrent
  rw [hframe.live] at hl
  rw [hframe.version, hframe.version] at hv
  -- versions tell commits apart, so the list names the very commit that was deleted
  have hsame : current.commit = g.commit :=
    h.retained.distinct _ _ (h.sound.issued.live live hl current hmem).commit hg.commit hv
  refine ⟨_, _, _, snapshotCommit_of_live hcurrent, handle?_hold current _, rfl, ?_⟩
  show (k.deleteGuard g).2.catalog.isDeleted current.commit = true
  rw [deleteGuard_catalog, if_neg (by omega), hsame]
  exact Catalog.isDeleted_delete_self hg.commit (h.retained.artifacts g.commit hg.commit)

end SnapshotRetention.Keeper
