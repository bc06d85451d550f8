import SnapshotRetention.Proofs.Catalog.Shelves
import SnapshotRetention.Proofs.Keeper.ExactHolds
import SnapshotRetention.Proofs.Keeper.Moves

/-!
# A keeper over several depots

The commits that concern a keeper (`Keeper.Concerns`) are those that it has published or given out
and those whose deletion waits. As long as they come from depots that do not share a store
(`Keeper.Within`), a commit that stays held loses nothing, whatever the others come to
(`Within.keeps`). New commits, cycles, snapshots and what is done with the handles keep a keeper
within its depots.

A handle that is not released goes on referring to an undeleted commit (`Moves.keepsHeld`), and so
does the published list (`Lasting`), unless somebody asks a guard of a published version to delete
its commit.
-/

namespace SnapshotRetention.Keeper

open Store (Erodes)

variable {k k' : Keeper} {D : Nat → Prop} {asked : Nat → Prop} {n i : Nat} {g : Guard} {c : Catalog}
  {commits : List Nat} {newest : Nat} {requests : List Request}

/-! ## Taking snapshots -/

/-- What taking snapshots of published commits does. -/
structure Takes (k k' : Keeper) : Prop where
  catalog : k'.catalog = k.catalog
  reclaimOnRelease : k'.reclaimOnRelease = k.reclaimOnRelease
  listed : k'.listed = k.listed
  pending : ∀ v, k'.holds.pending? v = k.holds.pending? v
  given : ∀ x ∈ k'.given, x ∈ k.given ∨ x.guard ∈ k.listed

theorem Takes.refl (k : Keeper) : Takes k k := ⟨rfl, rfl, rfl, fun _ => rfl, fun _ hx => Or.inl hx⟩

theorem mem_listed {live : LiveList} (hlive : k.live = some live) (hg : g ∈ live.guards) :
    g ∈ k.listed := by
  unfold listed
  rw [hlive]
  exact hg

theorem takes_snapshot (k : Keeper) : Takes k k.snapshot.2 := by
  unfold snapshot
  split
  next => exact .refl k
  next live hlive =>
    have hframe := acquireAll_frame live.guards k
    have hpending : ∀ (guards : List Guard) (k : Keeper) (v : Version),
        (guards.foldl (fun k g => k.acquire (k.version g)) k).holds.pending? v =
          k.holds.pending? v := by
      intro guards
      induction guards with
      | nil => exact fun _ _ => rfl
      | cons g guards ih => exact fun k v => (ih _ v).trans (HoldTable.pending?_acquire _ _ v)
    refine ⟨acquireAll_catalog live.guards k, hframe.reclaimOnRelease, hframe.listed,
      hpending live.guards k, fun x hx => ?_⟩
    rcases List.mem_append.mp ((addBundle_perm _ _).mem_iff.mp hx) with hx | hx
    · obtain ⟨g, hg, rfl⟩ := List.mem_map.mp hx
      exact Or.inr (mem_listed hlive hg)
    · rw [hframe.given] at hx
      exact Or.inl hx

theorem takes_snapshotCurrent (k : Keeper) : Takes k k.snapshotCurrent.2 := by
  unfold snapshotCurrent
  split
  next => exact .refl k
  next g hg =>
    obtain ⟨live, hlive, hlast⟩ := Option.bind_eq_some_iff.mp hg
    refine ⟨rfl, rfl, rfl, HoldTable.pending?_acquire _ _, fun x hx => ?_⟩
    rcases List.mem_cons.mp ((addHandle_perm _ _).mem_iff.mp hx) with rfl | hx
    · exact Or.inr (mem_listed hlive (List.mem_of_getLast? hlast))
    · exact Or.inl hx

/-! ## What concerns a keeper -/

/-- A commit that was published or given out, or whose deletion waits. -/
def Concerns (n : Nat) (k : Keeper) : Prop :=
  (∃ g ∈ k.listed, g.commit = n) ∨ (∃ x ∈ k.given, x.guard.commit = n) ∨
    ∃ v, k.holds.pending? v = some n

/-- What concerns the keeper comes from some depots, which do not share a store. -/
structure Within (D : Nat → Prop) (k : Keeper) : Prop where
  sound : Sound [] k
  due : k.Due
  shelved : k.catalog.Shelved
  depots : ∀ i, D i → i < k.catalog.depots.length
  apart : ∀ i j, D i → D j → k.catalog.Apart i j
  concerns : ∀ n, k.Concerns n → ∃ i, D i ∧ (k.catalog.commit n).backing = .artifacts i

theorem Moves.concerns (h : Moves asked k k') (hn : k'.Concerns n) : k.Concerns n ∨ asked n := by
  rcases hn with ⟨g, hg, rfl⟩ | ⟨x, hx, rfl⟩ | ⟨v, hp⟩
  · exact (h.listed g hg).imp_left fun hg => Or.inl ⟨g, hg, rfl⟩
  · obtain ⟨y, hy, hguard, -⟩ := h.given x hx
    exact Or.inl (Or.inr (Or.inl ⟨y, hy, congrArg Guard.commit hguard⟩))
  · exact (h.pending v n hp).imp (fun hp => Or.inr (Or.inr ⟨v, hp⟩)) And.left

theorem Takes.concerns (h : Takes k k') (hn : k'.Concerns n) : k.Concerns n := by
  rcases hn with ⟨g, hg, rfl⟩ | ⟨x, hx, rfl⟩ | ⟨v, hp⟩
  · exact Or.inl ⟨g, h.listed ▸ hg, rfl⟩
  · exact (h.given x hx).elim (fun hx => Or.inr (Or.inl ⟨x, hx, rfl⟩))
      fun hg => Or.inl ⟨x.guard, hg, rfl⟩
  · exact Or.inr (Or.inr ⟨v, h.pending v ▸ hp⟩)

theorem Issued.listed (h : Issued k) (hg : g ∈ k.listed) : k.Knows g := by
  unfold Keeper.listed at hg
  cases hlive : k.live with
  | none =>
    rw [hlive] at hg
    exact absurd hg List.not_mem_nil
  | some live =>
    rw [hlive] at hg
    exact h.live live hlive g hg

section
variable (h : Within D k)
include h

theorem Within.lt_of_concerns (hn : k.Concerns n) : n < k.catalog.commits.length := by
  rcases hn with ⟨g, hg, rfl⟩ | ⟨x, hx, rfl⟩ | ⟨v, hp⟩
  · exact (h.sound.issued.listed hg).commit
  · exact (h.sound.issued.given x hx).commit
  · exact (h.due v n hp).1

/-- What is asked for must come from the depots as well. -/
theorem Within.moves (hm : Moves asked k k') (hsound : Sound [] k') (hasked : ∀ n, asked n →
    n < k.catalog.commits.length ∧ ∃ i, D i ∧ (k.catalog.commit n).backing = .artifacts i) :
    Within D k' := by
  have hdue := hm.due h.due fun n hn => (hasked n hn).1
  obtain ⟨ns, hns, -⟩ := hm.deleted
  have hdepots := Catalog.sameDepots_deleteEach ns k.catalog
  rw [← hns] at hdepots
  refine
    { sound := hsound
      due := hdue
      shelved := hns ▸ h.shelved.deleteEach ns
      depots := fun i hi => Nat.lt_of_lt_of_le (h.depots i hi) hdepots.length
      apart := fun i j hi hj => hdepots.apart (h.depots i hi) (h.depots j hj) (h.apart i j hi hj)
      concerns := fun n hn => ?_ }
  rw [hns, h.shelved.backing_deleteEach]
  exact (hm.concerns hn).elim (h.concerns n) fun ha => (hasked n ha).2

/-- A commit of a version that stays held keeps its artifacts. -/
theorem Within.keeps (hm : Moves asked k k') (hasked : ∀ n, asked n →
      n < k.catalog.commits.length ∧ ∃ i, D i ∧ (k.catalog.commit n).backing = .artifacts i)
    (hn : n < k.catalog.commits.length) (hkept : k.catalog.isDeleted n = false) (hi : D i)
    (hb : (k.catalog.commit n).backing = .artifacts i)
    (hheld : 0 < k'.holds.count (k.catalog.version n)) :
    k'.catalog.isDeleted n = false ∧ Erodes (k.catalog.commit n).manifest.fileNames
      (k.catalog.storeOf i) (k'.catalog.storeOf i) := by
  obtain ⟨ns, hns, hwhy⟩ := hm.deleted
  have hnot : n ∉ ns := fun hmem => absurd (hwhy n hmem).1 (Nat.ne_of_gt hheld)
  refine ⟨(hm.isDeleted_of_held hheld).trans hkept, ?_⟩
  rw [hns]
  refine h.shelved.erodes_deleteEach hn hkept hb hnot fun m hmem => ?_
  obtain ⟨j, hj, hbacking⟩ : ∃ j, D j ∧ (k.catalog.commit m).backing = .artifacts j :=
    (hwhy m hmem).2.elim (fun ha => (hasked m ha).2)
      fun hp => h.concerns m (Or.inr (Or.inr ⟨_, hp⟩))
  exact ⟨j, hbacking, h.depots j hj, h.apart j i hj hi⟩

theorem Within.takes (ht : Takes k k') (hsound : Sound [] k') : Within D k' := by
  have hcatalog := ht.catalog
  refine
    { sound := hsound
      due := fun v n hp => ?_
      shelved := hcatalog ▸ h.shelved
      depots := hcatalog ▸ h.depots
      apart := hcatalog ▸ h.apart
      concerns := fun n hn => hcatalog ▸ h.concerns n (ht.concerns hn) }
  rw [hcatalog]
  exact h.due v n (ht.pending v ▸ hp)

/-- Commits and depots may be added, and what is in the stores does not matter. -/
theorem Within.world (hc : k.catalog.Extends c) (hdepots : Catalog.SameDepots k.catalog c)
    (hshelved : c.Shelved) (hbacking : ∀ n, n < k.catalog.commits.length →
      (c.commit n).backing = (k.catalog.commit n).backing) :
    Within D { k with catalog := c } := by
  refine
    { sound := h.sound.world hc
      due := fun v n hp => ?_
      shelved := hshelved
      depots := fun i hi => Nat.lt_of_lt_of_le (h.depots i hi) hdepots.length
      apart := fun i j hi hj => hdepots.apart (h.depots i hi) (h.depots j hj) (h.apart i j hi hj)
      concerns := fun n hn => ?_ }
  · obtain ⟨hn, hv⟩ := h.due v n hp
    exact ⟨Nat.lt_of_lt_of_le hn hc.length, (hc.version hn).trans hv⟩
  · have hn : k.Concerns n := hn
    rw [hbacking n (h.lt_of_concerns hn)]
    exact h.concerns n hn

/-- Commits of one of the depots are presented to a policy that only deletes. -/
theorem Within.cycle (hp : Presents k commits newest requests)
    (hcommits : ∀ n ∈ commits, n < k.catalog.commits.length ∧
      ∃ i, D i ∧ (k.catalog.commit n).backing = .artifacts i) :
    Within D (k.cycle commits requests).2 := by
  have hrange : ∀ n ∈ commits, n < k.catalog.commits.length := fun n hn => (hcommits n hn).1
  exact h.moves (hp.moves h.sound hrange) (h.sound.cycle hrange requests) hcommits

end

/-! ## Undeleted commits -/

/-- Every unreleased handle refers to an undeleted commit. -/
def KeepsHeld (k : Keeper) : Prop := ∀ x ∈ k.unreleased, k.catalog.isDeleted x.guard.commit = false

/-- Nothing that is published has gone or is about to go. -/
structure Lasting (k : Keeper) : Prop where
  undeleted : ∀ g ∈ k.listed, k.catalog.isDeleted g.commit = false
  settled : ∀ g ∈ k.listed, k.holds.pending? (k.version g) = none

/-- A version that an unreleased handle refers to is held. -/
theorem Sound.count_pos_of_unreleased (h : Sound [] k) {x : Handle} (hx : x ∈ k.unreleased) :
    0 < k.holds.count (k.version x.guard) := by
  rw [h.count]
  exact List.countP_pos_iff.mpr ⟨x, hx, by simp⟩

/-- An unreleased handle was there before. -/
theorem Moves.unreleased (h : Moves asked k k') {x : Handle} (hx : x ∈ k'.unreleased) :
    ∃ y ∈ k.unreleased, y.guard = x.guard := by
  obtain ⟨hmem, hr⟩ := mem_unreleased.mp hx
  obtain ⟨y, hy, hguard, hr'⟩ := h.given x hmem
  exact ⟨y, mem_unreleased.mpr ⟨hy, hr' hr⟩, hguard⟩

/-- Whatever is asked for, an unreleased handle goes on referring to an undeleted commit. -/
theorem Moves.keepsHeld (h : Moves asked k k') (hsound : Sound [] k') (hk : k.KeepsHeld) :
    k'.KeepsHeld := by
  intro x hx
  obtain ⟨y, hy, hguard⟩ := h.unreleased hx
  have hheld := hsound.count_pos_of_unreleased hx
  unfold version at hheld
  rw [h.sameCommits.version] at hheld
  rw [h.isDeleted_of_held hheld, ← hguard]
  exact hk y hy

theorem Takes.keepsHeld (h : Takes k k') (hlasting : k.Lasting) (hk : k.KeepsHeld) :
    k'.KeepsHeld := by
  intro x hx
  obtain ⟨hmem, hr⟩ := mem_unreleased.mp hx
  rw [h.catalog]
  exact (h.given x hmem).elim (fun hx => hk x (mem_unreleased.mpr ⟨hx, hr⟩))
    (hlasting.undeleted x.guard)

theorem Takes.lasting (h : Takes k k') (hk : k.Lasting) : k'.Lasting := by
  refine ⟨fun g hg => ?_, fun g hg => ?_⟩
  · rw [h.listed] at hg
    rw [h.catalog]
    exact hk.undeleted g hg
  · rw [h.listed] at hg
    unfold version
    rw [h.catalog, h.pending]
    exact hk.settled g hg

/-- What is asked for must not be of a published version. -/
theorem Lasting.moves (hk : k.Lasting) (h : Moves asked k k') (hlisted : k'.listed = k.listed)
    (hnot : ∀ n, asked n → ∀ g ∈ k.listed, k.version g ≠ k.catalog.version n) : k'.Lasting := by
  obtain ⟨ns, hns, hwhy⟩ := h.deleted
  refine ⟨fun g hg => ?_, fun g hg => ?_⟩
  · rw [hlisted] at hg
    rw [hns]
    refine (Catalog.isDeleted_deleteEach_of_not_mem (fun hmem => ?_) _).trans (hk.undeleted g hg)
    rcases (hwhy _ hmem).2 with ha | hp
    · exact hnot _ ha g hg rfl
    · cases (hk.settled g hg).symm.trans hp
  · rw [hlisted] at hg
    unfold version
    rw [h.sameCommits.version]
    refine Option.eq_none_iff_forall_ne_some.mpr fun n hp => ?_
    rcases h.pending _ n hp with hp | ⟨ha, hv⟩
    · cases (hk.settled g hg).symm.trans hp
    · exact hnot n ha g hg hv.symm

theorem Lasting.world (hk : k.Lasting) (hissued : Issued k) (hc : k.catalog.Extends c)
    (hdeleted : ∀ n, n < k.catalog.commits.length → c.isDeleted n = k.catalog.isDeleted n) :
    Lasting { k with catalog := c } := by
  refine ⟨fun g hg => ?_, fun g hg => ?_⟩
  · exact (hdeleted _ (hissued.listed hg).commit).trans (hk.undeleted g hg)
  · show k.holds.pending? (c.version g.commit) = none
    rw [hc.version (hissued.listed hg).commit]
    exact hk.settled g hg

theorem KeepsHeld.world (hk : k.KeepsHeld) (hissued : Issued k)
    (hdeleted : ∀ n, n < k.catalog.commits.length → c.isDeleted n = k.catalog.isDeleted n) :
    KeepsHeld { k with catalog := c } := fun x hx =>
  (hdeleted _ (hissued.given x (mem_unreleased.mp hx).1).commit).trans (hk x hx)

/-- What a cycle publishes is not deleted. -/
theorem Presents.lasting (h : Presents k commits newest requests) (hk : Sound [] k) :
    (k.cycle commits requests).2.Lasting := by
  have hspec := h.cycle_spec hk
  obtain ⟨ns, hns, hwhy⟩ := hspec.deleted
  have hpublished : ∀ g ∈ (k.cycle commits requests).2.listed,
      g.commit ∈ k.published commits newest requests := by
    intro g hg
    rw [← hspec.map_commit_listed]
    exact List.mem_map_of_mem hg
  refine ⟨fun g hg => ?_, fun g hg => ?_⟩
  · have hmem := hpublished g hg
    rw [hns, Catalog.isDeleted_deleteEach_of_not_mem fun hn => (hwhy _ hn).2.1 hmem]
    unfold published at hmem
    split at hmem
    next =>
      rw [List.mem_singleton.mp hmem]
      exact h.undeleted
    next => exact (mem_of_mem_kept hmem).2.2
  · unfold version
    rw [hns, (Catalog.sameCommits_deleteEach ns k.catalog).version]
    exact hspec.pending_published _ (hpublished g hg)

end SnapshotRetention.Keeper
