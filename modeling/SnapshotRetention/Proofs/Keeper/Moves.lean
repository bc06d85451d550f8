import SnapshotRetention.Proofs.Keeper.CycleSpec
import SnapshotRetention.Proofs.Keeper.Prunes

/-!
# What a step can reach

The commits that a keeper may come to delete are those that somebody asks it to delete and those
whose deletion waits, each under the version of the commit (`Keeper.Due`), and none goes before its
last hold (`Keeper.Moves`). That is all that giving back a handle does (`moves_use`), whether the
handles are loose or in bundles, all that asking a guard does (`moves_deleteGuard`) and all that a
cycle does with a policy that only deletes (`Presents.moves`).
-/

namespace SnapshotRetention

/-- Whether a consumer gives back or rearranges handles, and takes none. -/
def Use.Returns : Use → Prop
  | .snapshot | .current | .commit _ => False
  | .release _ | .drop _ | .releaseBundle _ | .releaseInBundle _ _ | .dropBundle _
  | .openBundle _ => True

namespace Keeper

variable {k k' k'' : Keeper} {asked : Nat → Prop} {slot n : Nat} {x : Handle} {b : Bundle}
  {commits : List Nat} {newest : Nat} {requests : List Request}

theorem allowsUse_of_returns {u : Use} (hu : u.Returns) (k : Keeper) : k.AllowsUse u := by
  cases u with
  | commit g => exact hu.elim
  | _ => trivial

/-- The guards that the published list names. -/
def listed (k : Keeper) : List Guard := (k.live.map LiveList.guards).getD []

/-- Each deletion that waits is that of a commit of the version. -/
def Due (k : Keeper) : Prop := ∀ v n, k.holds.pending? v = some n →
  n < k.catalog.commits.length ∧ k.catalog.version n = v

/-- What is done with a keeper that is asked to delete some commits, and gives out nothing. -/
structure Moves (asked : Nat → Prop) (k k' : Keeper) : Prop where
  reclaimOnRelease : k'.reclaimOnRelease = k.reclaimOnRelease
  /-- A commit that goes was asked for or waited, and nothing holds its version any more. -/
  deleted : ∃ ns, k'.catalog = k.catalog.deleteEach ns ∧ ∀ n ∈ ns,
    k'.holds.count (k.catalog.version n) = 0 ∧
      (asked n ∨ k.holds.pending? (k.catalog.version n) = some n)
  pending : ∀ v n, k'.holds.pending? v = some n →
    k.holds.pending? v = some n ∨ asked n ∧ k.catalog.version n = v
  count : ∀ v, k'.holds.count v ≤ k.holds.count v
  given : ∀ x ∈ k'.given, ∃ y ∈ k.given,
    y.guard = x.guard ∧ (x.released = false → y.released = false)
  listed : ∀ g ∈ k'.listed, g ∈ k.listed ∨ asked g.commit

theorem SameHolds.listed (h : SameHolds k k') : k'.listed = k.listed := by
  unfold Keeper.listed
  rw [h.live]

theorem Frame.listed (h : Frame k k') : k'.listed = k.listed := by
  unfold Keeper.listed
  rw [h.live]

theorem SameHolds.moves (h : SameHolds k k') (hgiven : ∀ x ∈ k'.given, ∃ y ∈ k.given,
    y.guard = x.guard ∧ (x.released = false → y.released = false)) : Moves asked k k' :=
  { reclaimOnRelease := h.reclaimOnRelease
    deleted := ⟨[], h.catalog, fun _ hn => absurd hn List.not_mem_nil⟩
    pending := fun _ _ hp => Or.inl (h.holds ▸ hp)
    count := fun _ => h.holds ▸ Nat.le_refl _
    given := hgiven
    listed := fun _ hg => Or.inl (h.listed ▸ hg) }

theorem Moves.refl (k : Keeper) : Moves asked k k :=
  SameHolds.moves (.refl k) fun x hx => ⟨x, hx, rfl, fun hr => hr⟩

theorem Moves.sameCommits (h : Moves asked k k') : k.catalog.SameCommits k'.catalog := by
  obtain ⟨ns, hns, -⟩ := h.deleted
  rw [hns]
  exact Catalog.sameCommits_deleteEach ns k.catalog

theorem Moves.trans (h : Moves asked k k') (h' : Moves asked k' k'') : Moves asked k k'' := by
  have hversion := h.sameCommits.version
  obtain ⟨ns, hns, hfirst⟩ := h.deleted
  obtain ⟨ms, hms, hsecond⟩ := h'.deleted
  refine
    { reclaimOnRelease := h'.reclaimOnRelease.trans h.reclaimOnRelease
      deleted := ⟨ns ++ ms, ?_, ?_⟩
      pending := ?_
      count := fun v => Nat.le_trans (h'.count v) (h.count v)
      given := ?_
      listed := fun g hg => (h'.listed g hg).elim (h.listed g) Or.inr }
  · rw [hms, hns]
    exact List.foldl_append.symm
  · intro n hn
    rcases List.mem_append.mp hn with hn | hn
    · obtain ⟨hnone, hwhy⟩ := hfirst n hn
      exact ⟨Nat.eq_zero_of_le_zero (hnone ▸ h'.count _), hwhy⟩
    · obtain ⟨hnone, hwhy⟩ := hsecond n hn
      rw [hversion] at hnone hwhy
      exact ⟨hnone, hwhy.elim Or.inl fun hp => (h.pending _ n hp).elim Or.inr fun ha => Or.inl ha.1⟩
  · intro v n hp
    refine (h'.pending v n hp).elim (h.pending v n) ?_
    rintro ⟨hasked, rfl⟩
    exact Or.inr ⟨hasked, (hversion n).symm⟩
  · intro x hx
    obtain ⟨y, hy, hguard, hr⟩ := h'.given x hx
    obtain ⟨z, hz, hguard', hr'⟩ := h.given y hy
    exact ⟨z, hz, hguard'.trans hguard, fun hx => hr' (hr hx)⟩

theorem Moves.due (h : Moves asked k k') (hk : k.Due)
    (hasked : ∀ n, asked n → n < k.catalog.commits.length) : k'.Due := by
  intro v n hp
  rw [h.sameCommits.length, h.sameCommits.version]
  exact (h.pending v n hp).elim (hk v n) fun ha => ⟨hasked n ha.1, ha.2⟩

/-- A commit of a version that is still held is left alone. -/
theorem Moves.isDeleted_of_held (h : Moves asked k k')
    (hheld : 0 < k'.holds.count (k.catalog.version n)) :
    k'.catalog.isDeleted n = k.catalog.isDeleted n := by
  obtain ⟨ns, hns, hwhy⟩ := h.deleted
  rw [hns]
  refine Catalog.isDeleted_deleteEach_of_not_mem (fun hn => ?_) _
  exact absurd (hwhy n hn).1 (Nat.ne_of_gt hheld)

/-! ## Giving back -/

/-- With the last hold goes at most the commit whose deletion waited for it. -/
theorem moves_release (hk : k.Due) (hpos : k.holds.Positive) (v : Version) :
    Moves asked k (k.release v).2 := by
  have hsame : ∀ {k1 k2 : Keeper}, SameHolds k1 k2 → k2.given = k1.given → Moves asked k1 k2 :=
    fun hs hgiven => hs.moves fun x hx => ⟨x, hgiven ▸ hx, rfl, fun hr => hr⟩
  have hgiven := (release_frame v k).given
  have hcount : 0 < k.holds.count v → ∀ q, (k.holds.release v).2.count q ≤ k.holds.count q := by
    intro hheld q
    have := HoldTable.count_release hheld q
    omega
  cases released_release hpos v with
  | unheld _ hs => exact hsame hs hgiven
  | fewer hheld _ hs =>
    have hfewer : Moves asked k { k with holds := (k.holds.release v).2 } :=
      { reclaimOnRelease := rfl
        deleted := ⟨[], rfl, fun _ hn => absurd hn List.not_mem_nil⟩
        pending := fun _ _ hp => Or.inl (HoldTable.pending?_of_release hp)
        count := hcount hheld
        given := fun x hx => ⟨x, hx, rfl, fun hr => hr⟩
        listed := fun _ hg => Or.inl hg }
    exact hfewer.trans (hsame hs hgiven)
  | reclaimed n hone hpending hs =>
    obtain ⟨-, hversion⟩ := hk v n hpending
    have hheld : 0 < k.holds.count v := by omega
    have hfewer : Moves asked k
        { k with holds := (k.holds.release v).2, catalog := (k.catalog.delete n).2 } :=
      { reclaimOnRelease := rfl
        deleted := by
          refine ⟨[n], rfl, fun m hm => ?_⟩
          obtain rfl := List.mem_singleton.mp hm
          have hlast := HoldTable.count_release hheld v
          rw [if_pos rfl] at hlast
          rw [hversion]
          refine ⟨?_, Or.inr hpending⟩
          show (k.holds.release v).2.count v = 0
          omega
        pending := fun _ _ hp => Or.inl (HoldTable.pending?_of_release hp)
        count := hcount hheld
        given := fun x hx => ⟨x, hx, rfl, fun hr => hr⟩
        listed := fun _ hg => Or.inl hg }
    exact hfewer.trans (hsame hs hgiven)

theorem release_positive (hpos : k.holds.Positive) (v : Version) :
    (k.release v).2.holds.Positive := by
  cases released_release hpos v with
  | unheld _ hs => exact hs.holds ▸ hpos
  | fewer _ _ hs => exact hs.holds ▸ hpos.release v
  | reclaimed _ _ _ hs => exact hs.holds ▸ hpos.release v

theorem moves_releaseValue (hk : k.Due) (hpos : k.holds.Positive) (x : Handle) :
    Moves asked k (k.releaseValue x).2.2 ∧ (k.releaseValue x).2.2.holds.Positive := by
  unfold releaseValue
  split
  next => exact ⟨.refl k, hpos⟩
  next => exact ⟨moves_release hk hpos _, release_positive hpos _⟩

theorem moves_releaseValues (hk : k.Due) (hpos : k.holds.Positive) (hs : List Handle) :
    Moves (fun _ => False) k (k.releaseValues hs).2.2 := by
  induction hs generalizing k with
  | nil => exact .refl k
  | cons x hs ih =>
    obtain ⟨hfirst, hpos'⟩ := moves_releaseValue hk hpos x
    exact hfirst.trans (ih (hfirst.due hk fun _ hfalse => hfalse.elim) hpos')

/-- A handle may be put back released, or not at all. -/
theorem Moves.setHandle (h : Moves asked k k') (hf : Frame k k') (hx : k.handle? slot = some x)
    {y : Option Handle} (hy : ∀ z, y = some z → z = releasedHandle x) :
    Moves asked k (k'.setHandle slot y) := by
  have hx' : k'.handle? slot = some x := by
    unfold handle?
    rw [hf.handles]
    exact hx
  obtain ⟨rest, hbefore, hafter⟩ := setHandle_perm hx'
  refine h.trans (SameHolds.moves ⟨rfl, rfl, rfl, rfl, rfl, rfl⟩ fun z hz => ?_)
  rcases List.mem_append.mp ((hafter y).mem_iff.mp hz) with hz | hz
  · obtain rfl := hy z (Option.mem_toList.mp hz)
    exact ⟨x, hbefore.mem_iff.mpr List.mem_cons_self, rfl, fun hr => nomatch hr⟩
  · exact ⟨z, hbefore.mem_iff.mpr (List.mem_cons_of_mem _ hz), rfl, fun hr => hr⟩

/-- A bundle may be put back with some of its handles released, or not at all. -/
theorem Moves.setBundle (h : Moves asked k k') (hf : Frame k k') (hb : k.bundle? slot = some b)
    {y : Option Bundle} (hy : ∀ z ∈ Bundle.contents y, ∃ x ∈ b.handles, x.guard = z.guard ∧
      (z.released = false → x.released = false)) : Moves asked k (k'.setBundle slot y) := by
  have hb' : k'.bundle? slot = some b := by
    unfold bundle?
    rw [hf.bundles]
    exact hb
  obtain ⟨rest, hbefore, hafter⟩ := setBundle_perm hb'
  refine h.trans (SameHolds.moves ⟨rfl, rfl, rfl, rfl, rfl, rfl⟩ fun z hz => ?_)
  rcases List.mem_append.mp ((hafter y).mem_iff.mp hz) with hz | hz
  · obtain ⟨x, hx, hguard, hr⟩ := hy z hz
    exact ⟨x, hbefore.mem_iff.mpr (List.mem_append_left _ hx), hguard, hr⟩
  · exact ⟨z, hbefore.mem_iff.mpr (List.mem_append_right _ hz), rfl, fun hr => hr⟩

/-- What is done with handles that were given out reaches nothing but what waits. -/
theorem moves_use (hk : k.Due) (hpos : k.holds.Positive) {u : Use} (hu : u.Returns) :
    Moves (fun _ => False) k (k.use u) := by
  have hvalue : ∀ x, Moves (fun _ => False) k (k.releaseValue x).2.2 :=
    fun x => (moves_releaseValue hk hpos x).1
  cases u with
  | snapshot => exact hu.elim
  | current => exact hu.elim
  | commit g => exact hu.elim
  | release slot =>
    show Moves _ k (k.releaseHandle slot).2
    unfold releaseHandle
    split
    next => exact .refl k
    next x hx =>
      refine (hvalue x).setHandle (releaseValue_frame x k) hx fun z hz => ?_
      exact (Option.some.inj hz).symm.trans (releaseValue_handle x k)
  | drop slot =>
    show Moves _ k (k.dropHandle slot).2
    unfold dropHandle
    split
    next => exact .refl k
    next x hx => exact (hvalue x).setHandle (releaseValue_frame x k) hx nofun
  | releaseBundle slot =>
    show Moves _ k (k.releaseBundle slot).2
    unfold releaseBundle
    split
    next => exact .refl k
    next b hb =>
      refine (moves_releaseValues hk hpos b.handles).setBundle (releaseValues_frame b.handles k) hb
        fun z hz => ?_
      rw [show Bundle.contents (some _) = (k.releaseValues b.handles).2.1 from rfl,
        releaseValues_handles] at hz
      obtain ⟨x, hx, rfl⟩ := List.mem_map.mp hz
      exact ⟨x, hx, rfl, nofun⟩
  | releaseInBundle slot index =>
    show Moves _ k (k.releaseInBundle slot index).2
    unfold releaseInBundle
    split
    next => exact .refl k
    next b hb =>
      split
      next => exact .refl k
      next x hx =>
        refine (hvalue x).setBundle (releaseValue_frame x k) hb fun z hz => ?_
        rcases List.mem_or_eq_of_mem_set hz with hz | rfl
        · exact ⟨z, hz, rfl, fun hr => hr⟩
        · rw [releaseValue_handle]
          exact ⟨x, List.mem_of_getElem? hx, rfl, nofun⟩
  | dropBundle slot =>
    show Moves _ k (k.dropBundle slot).2
    unfold dropBundle
    split
    next => exact .refl k
    next b hb =>
      exact (moves_releaseValues hk hpos b.handles).setBundle (releaseValues_frame b.handles k) hb
        fun z hz => absurd hz List.not_mem_nil
  | openBundle slot =>
    have hperm := openBundle_perm slot k
    have hsame : SameHolds k (k.openBundle slot).2 := by
      unfold Keeper.openBundle
      split
      next => exact .refl k
      next => exact ⟨rfl, rfl, rfl, rfl, rfl, rfl⟩
    exact hsame.moves fun x hx => ⟨x, hperm.mem_iff.mp hx, rfl, fun hr => hr⟩

/-! ## Asking -/

theorem moves_deleteGuard (hpos : k.holds.Positive) (g : Guard) :
    Moves (· = g.commit) k (k.deleteGuard g).2 := by
  have hframe := deleteGuard_frame g k
  refine
    { reclaimOnRelease := hframe.reclaimOnRelease
      deleted := ?_
      pending := ?_
      count := fun v => Nat.le_of_eq (deleteGuard_count g k v)
      given := fun x hx => ⟨x, hframe.given ▸ hx, rfl, fun hr => hr⟩
      listed := fun _ hg => Or.inl (hframe.listed ▸ hg) }
  · rcases Nat.eq_zero_or_pos (k.holds.count (k.version g)) with hnone | hheld
    · refine ⟨[g.commit], ?_, fun n hn => ?_⟩
      · rw [deleteGuard_of_not_held hnone]
        rfl
      · obtain rfl := List.mem_singleton.mp hn
        exact ⟨(deleteGuard_count g k _).trans hnone, Or.inl rfl⟩
    · refine ⟨[], ?_, fun _ hn => absurd hn List.not_mem_nil⟩
      rw [deleteGuard_of_held hheld]
      rfl
  · intro v n hp
    rw [deleteGuard_pending hpos] at hp
    split at hp
    next hv => exact Or.inr ⟨(Option.some.inj hp).symm, Option.some.inj hp ▸ hv.1.symm⟩
    next => exact Or.inl hp

/-! ## Cycles -/

theorem CycleSpec.map_commit_listed {result : Except Error Unit}
    (h : CycleSpec k commits newest requests result k') :
    k'.listed.map Guard.commit = k.published commits newest requests := by
  obtain ⟨guards, hlive, hmap⟩ := h.live
  unfold Keeper.listed
  rw [hlive]
  exact hmap

theorem CycleSpec.given {result : Except Error Unit}
    (h : CycleSpec k commits newest requests result k') : k'.given = k.given := by
  unfold Keeper.given
  rw [h.handles, h.bundles]

/-- A commit that goes was asked for and nothing held it. -/
theorem CycleSpec.deleted {result : Except Error Unit}
    (h : CycleSpec k commits newest requests result k') :
    ∃ ns, k'.catalog = k.catalog.deleteEach ns ∧ ∀ n ∈ ns, n ∈ k.asked commits newest requests ∧
      n ∉ k.published commits newest requests ∧ k.holds.count (k.catalog.version n) = 0 := by
  refine ⟨_ ++ _, h.catalog.trans List.foldl_append.symm, fun n hn => ?_⟩
  have hkept : ∀ {m}, m ∈ k.asked commits newest requests → m ∉ k.kept commits newest requests :=
    fun hm hk => (mem_of_mem_kept hk).2.1 hm
  unfold published
  rcases List.mem_append.mp hn with hn | hn
  · obtain ⟨hasked, hp⟩ := List.mem_filter.mp hn
    obtain ⟨hnone, hne⟩ := of_decide_eq_true hp
    refine ⟨hasked, ?_, hnone⟩
    split
    next => exact fun hmem => hne (List.mem_singleton.mp hmem)
    next => exact hkept hasked
  · split at hn
    next hreclaims =>
      obtain rfl := List.mem_singleton.mp hn
      rw [if_neg hreclaims.2.2]
      exact ⟨hreclaims.1, hkept hreclaims.1, hreclaims.2.1⟩
    next => exact absurd hn List.not_mem_nil

/-- A cycle asks for the deletion of presented commits only, and publishes only such. -/
theorem Presents.moves (h : Presents k commits newest requests) (hk : Sound [] k)
    (hrange : ∀ n ∈ commits, n < k.catalog.commits.length) :
    Moves (· ∈ commits) k (k.cycle commits requests).2 := by
  have hspec := h.cycle_spec hk
  have hpos := (hk.cycle hrange requests).counted.positive
  refine
    { reclaimOnRelease := hspec.reclaimOnRelease
      deleted := ?_
      pending := ?_
      count := fun v => Nat.le_of_eq (hspec.count v)
      given := fun x hx => ⟨x, hspec.given ▸ hx, rfl, fun hr => hr⟩
      listed := fun g hg => Or.inr ?_ }
  · obtain ⟨ns, hns, hwhy⟩ := hspec.deleted
    refine ⟨ns, hns, fun n hn => ?_⟩
    obtain ⟨hasked, -, hnone⟩ := hwhy n hn
    exact ⟨(hspec.count _).trans hnone, Or.inl (mem_of_mem_asked hasked)⟩
  · intro v n hp
    -- the version is that of a published commit, of one that was asked for, or of neither
    by_cases hpublished : ∃ m ∈ k.published commits newest requests, k.catalog.version m = v
    · obtain ⟨m, hm, rfl⟩ := hpublished
      cases (hspec.pending_published m hm).symm.trans hp
    by_cases hasked : ∃ m ∈ k.asked commits newest requests, k.catalog.version m = v
    · obtain ⟨m, hm, rfl⟩ := hasked
      have hheld := hpos.count_pos_of_pending? hp
      rw [hspec.count] at hheld
      have hwaits := hspec.pending_asked m hm (fun hm => hpublished ⟨m, hm, rfl⟩) hheld
      obtain rfl := Option.some.inj (hwaits.symm.trans hp)
      exact Or.inr ⟨mem_of_mem_asked hm, rfl⟩
    · rw [hspec.pending_other v (fun m hm hv => hasked ⟨m, hm, hv⟩)
        (fun m hm hv => hpublished ⟨m, hm, hv⟩)] at hp
      exact Or.inl hp
  · have hmem : g.commit ∈ (k.cycle commits requests).2.listed.map Guard.commit :=
      List.mem_map_of_mem hg
    rw [hspec.map_commit_listed] at hmem
    exact h.mem_of_mem_published hmem

end Keeper

end SnapshotRetention
