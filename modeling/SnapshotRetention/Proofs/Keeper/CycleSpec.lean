import SnapshotRetention.Proofs.Keeper.Requests

/-!
# What a cycle does

For a primary policy that only deletes, the outcome of a cycle can be told from what was presented
and what the policy asked for (`Keeper.asked`): which commits are kept (`Keeper.kept`), which are
published (`Keeper.published`), which go while the policy decides (`Keeper.gone`) and whether the
newest goes after them (`Keeper.Reclaims`).

Main statement: `cycle_spec` — a cycle over commits of distinct versions, the newest of them not
deleted, does exactly that (`CycleSpec`). The proof follows the cycle: the keeper that the policy
finds (`presented`), after the policy has decided (`decidedKeeper`) and without the pin
(`unpinned`).
-/

namespace SnapshotRetention.Keeper

variable {k : Keeper} {commits : List Nat} {newest : Nat} {requests : List Request} {v : Version}

/-! ## The outcome in terms of what was asked -/

/-- The requests that a cycle carries out. -/
def carried (commits : List Nat) (newest : Nat) (requests : List Request) (k : Keeper) :
    List Request :=
  (k.presented commits newest).carriedOut (k.guardAll commits).1 requests

/-- The commits that the primary policy asks to delete in a cycle, in the order of its requests. -/
def asked (commits : List Nat) (newest : Nat) (requests : List Request) (k : Keeper) : List Nat :=
  (k.carried commits newest requests).filterMap fun r => r.position?.bind fun i => commits[i]?

/-- The presented commits that are neither asked for nor deleted already. -/
def kept (commits : List Nat) (newest : Nat) (requests : List Request) (k : Keeper) : List Nat :=
  commits.filter fun n => !(k.asked commits newest requests).contains n && !k.catalog.isDeleted n

/-- The commits that a cycle publishes: those that are kept, or the newest if there are none. -/
def published (commits : List Nat) (newest : Nat) (requests : List Request) (k : Keeper) :
    List Nat :=
  if k.kept commits newest requests = [] then [newest] else k.kept commits newest requests

/-- The commits that go while the primary policy decides: the unheld ones it asks for, except the
newest, which is pinned. -/
def gone (commits : List Nat) (newest : Nat) (requests : List Request) (k : Keeper) : List Nat :=
  (k.asked commits newest requests).filter fun n =>
    k.holds.count (k.catalog.version n) = 0 ∧ n ≠ newest

/-- Whether the newest goes once it is unpinned: it was asked for, nothing else holds it, and
others are kept. -/
def Reclaims (commits : List Nat) (newest : Nat) (requests : List Request) (k : Keeper) : Prop :=
  newest ∈ k.asked commits newest requests ∧ k.holds.count (k.catalog.version newest) = 0 ∧
    k.kept commits newest requests ≠ []

instance (commits : List Nat) (newest : Nat) (requests : List Request) (k : Keeper) :
    Decidable (k.Reclaims commits newest requests) :=
  inferInstanceAs (Decidable (_ ∧ _ ∧ _))

/-- What the primary policy says about a cycle. -/
def decided (commits : List Nat) (newest : Nat) (requests : List Request) (k : Keeper) :
    Except Error Unit :=
  ((k.presented commits newest).carryOutAll (k.guardAll commits).1 requests).1

/-- The keeper after the primary policy has decided. -/
def decidedKeeper (commits : List Nat) (newest : Nat) (requests : List Request) (k : Keeper) :
    Keeper :=
  ((k.presented commits newest).carryOutAll (k.guardAll commits).1 requests).2

/-- The keeper after the pin of the newest is gone. -/
def unpinned (commits : List Nat) (newest : Nat) (requests : List Request) (k : Keeper) : Keeper :=
  ((k.decidedKeeper commits newest requests).unhold (k.catalog.version newest)).2

/-- The guards that the primary policy asks in a cycle. -/
def askedGuards (commits : List Nat) (newest : Nat) (requests : List Request) (k : Keeper) :
    List Guard :=
  targets (k.guardAll commits).1 (k.carried commits newest requests)

/-- What a cycle assumes: the versions of the commits differ, the newest is not deleted, and the
primary policy only deletes. -/
structure Presents (k : Keeper) (commits : List Nat) (newest : Nat) (requests : List Request) :
    Prop where
  last : commits.getLast? = some newest
  distinct : (commits.map k.catalog.version).Nodup
  undeleted : k.catalog.isDeleted newest = false
  deletes : ∀ r ∈ requests, r.Deletes

/-- What a cycle over presented commits does to a keeper. -/
structure CycleSpec (k : Keeper) (commits : List Nat) (newest : Nat) (requests : List Request)
    (result : Except Error Unit) (k' : Keeper) : Prop where
  handles : k'.handles = k.handles
  bundles : k'.bundles = k.bundles
  reclaimOnRelease : k'.reclaimOnRelease = k.reclaimOnRelease
  /-- The next list is published. -/
  live : ∃ guards, k'.live = some ⟨k.nextGeneration, guards⟩ ∧
    guards.map Guard.commit = k.published commits newest requests
  count : ∀ v, k'.holds.count v = k.holds.count v
  /-- The unheld commits asked for are deleted, the newest last and only if others are kept. -/
  catalog : k'.catalog = (k.catalog.deleteEach (k.gone commits newest requests)).deleteEach
    (if k.Reclaims commits newest requests then [newest] else [])
  pending_published : ∀ n ∈ k.published commits newest requests,
    k'.holds.pending? (k.catalog.version n) = none
  /-- What was asked for and is held waits for its holds, unless it is published. -/
  pending_asked : ∀ n ∈ k.asked commits newest requests,
    n ∉ k.published commits newest requests → 0 < k.holds.count (k.catalog.version n) →
      k'.holds.pending? (k.catalog.version n) = some n
  pending_other : ∀ v, (∀ n ∈ k.asked commits newest requests, k.catalog.version n ≠ v) →
    (∀ n ∈ k.published commits newest requests, k.catalog.version n ≠ v) →
      k'.holds.pending? v = k.holds.pending? v
  result : result = report (k.decided commits newest requests)
    (if k.Reclaims commits newest requests then
      ((k.catalog.deleteEach (k.gone commits newest requests)).delete newest).1 else .ok ())
    (if k.kept commits newest requests = [] then .error (.noLiveCommits k.nextGeneration)
      else .ok ())

/-! ## The guards that are asked -/

theorem map_commit_askedGuards (commits : List Nat) (newest : Nat) (requests : List Request)
    (k : Keeper) :
    (k.askedGuards commits newest requests).map Guard.commit = k.asked commits newest requests := by
  unfold askedGuards asked targets
  rw [List.map_filterMap]
  congr 1
  funext r
  cases r.position? with
  | none => rfl
  | some i =>
    show ((k.guardAll commits).1[i]?).map Guard.commit = commits[i]?
    rw [← List.getElem?_map, map_commit_guardAll]

theorem mem_of_mem_askedGuards {g : Guard} (h : g ∈ k.askedGuards commits newest requests) :
    g ∈ (k.guardAll commits).1 := by
  obtain ⟨r, -, hr⟩ := List.mem_filterMap.mp h
  obtain ⟨i, -, hi⟩ := Option.bind_eq_some_iff.mp hr
  exact List.mem_of_getElem? hi

theorem mem_of_mem_asked {n : Nat} (h : n ∈ k.asked commits newest requests) : n ∈ commits := by
  obtain ⟨r, -, hr⟩ := List.mem_filterMap.mp h
  obtain ⟨i, -, hi⟩ := Option.bind_eq_some_iff.mp hr
  exact List.mem_of_getElem? hi

theorem mem_of_mem_kept {n : Nat} (h : n ∈ k.kept commits newest requests) :
    n ∈ commits ∧ n ∉ k.asked commits newest requests ∧ k.catalog.isDeleted n = false := by
  obtain ⟨hn, hp⟩ := List.mem_filter.mp h
  simpa [hn] using hp

section
variable (h : Presents k commits newest requests)
include h

theorem Presents.newest_mem : newest ∈ commits := List.mem_of_getLast? h.last

theorem Presents.nodup : commits.Nodup := List.Nodup.of_map _ h.distinct

theorem Presents.version_inj {n m : Nat} (hn : n ∈ commits) (hm : m ∈ commits)
    (heq : k.catalog.version n = k.catalog.version m) : n = m :=
  List.inj_on_of_nodup_map h.distinct hn hm heq

theorem Presents.mem_of_mem_published {n : Nat} (hn : n ∈ k.published commits newest requests) :
    n ∈ commits := by
  unfold published at hn
  split at hn
  next => exact List.mem_singleton.mp hn ▸ h.newest_mem
  next => exact (mem_of_mem_kept hn).1

/-! ## After the primary policy -/

theorem Presents.decidedKeeper_eq : k.decidedKeeper commits newest requests =
    (k.presented commits newest).deleteGuards (k.askedGuards commits newest requests) :=
  carryOutAll_deletes h.deletes _

omit h in
theorem presented_count (commits : List Nat) (newest : Nat) (k : Keeper) (v : Version) :
    (k.presented commits newest).holds.count v =
      k.holds.count v + if v = k.catalog.version newest then 1 else 0 :=
  HoldTable.count_acquire _ _ _

omit h in
theorem presented_pending (commits : List Nat) (newest : Nat) (k : Keeper) (v : Version) :
    (k.presented commits newest).holds.pending? v = k.holds.pending? v :=
  HoldTable.pending?_acquire _ _ _

/-- What goes while the policy decides are the unheld commits it asks for, in order. -/
theorem Presents.decided_catalog : (k.decidedKeeper commits newest requests).catalog =
    k.catalog.deleteEach (k.gone commits newest requests) := by
  rw [h.decidedKeeper_eq, deleteGuards_catalog]
  have hmap : ∀ gs : List Guard, (gs.filter fun g =>
      (k.presented commits newest).holds.count ((k.presented commits newest).version g) = 0).map
        Guard.commit =
      (gs.map Guard.commit).filter fun n =>
        (k.presented commits newest).holds.count (k.catalog.version n) = 0 := by
    intro gs
    rw [List.filter_map]
    rfl
  rw [hmap, map_commit_askedGuards]
  unfold gone
  refine congrArg (fun ns => k.catalog.deleteEach ns) (List.filter_congr ?_)
  intro n hn
  -- the policy finds the newest held by the pin, so it is the one commit that does not go yet
  have hpin : k.catalog.version n = k.catalog.version newest ↔ n = newest :=
    ⟨h.version_inj (mem_of_mem_asked hn) h.newest_mem, fun heq => heq ▸ rfl⟩
  rw [presented_count, decide_eq_decide]
  by_cases heq : n = newest
  · rw [if_pos (hpin.mpr heq)]
    omega
  · rw [if_neg fun hv => heq (hpin.mp hv)]
    omega

theorem Presents.decided_count (v : Version) :
    (k.decidedKeeper commits newest requests).holds.count v =
      k.holds.count v + if v = k.catalog.version newest then 1 else 0 := by
  rw [h.decidedKeeper_eq, deleteGuards_count, presented_count]

theorem Presents.decided_frame :
    Frame (k.presented commits newest) (k.decidedKeeper commits newest requests) := by
  rw [h.decidedKeeper_eq]
  exact deleteGuards_frame _ _

theorem Presents.decided_positive (hk : k.holds.Positive) :
    (k.decidedKeeper commits newest requests).holds.Positive := by
  rw [h.decidedKeeper_eq]
  exact deleteGuards_positive (hk.acquire _) _

/-- What was asked for and is held, if only by the pin, is pending. -/
theorem Presents.decided_pending (hk : k.holds.Positive) {n : Nat}
    (hn : n ∈ k.asked commits newest requests)
    (hheld : 0 < (k.decidedKeeper commits newest requests).holds.count (k.catalog.version n)) :
    (k.decidedKeeper commits newest requests).holds.pending? (k.catalog.version n) = some n := by
  rw [h.decidedKeeper_eq] at hheld ⊢
  rw [deleteGuards_count] at hheld
  refine deleteGuards_pending (hk.acquire _) hheld ?_ ?_
  · -- no other commit of the version was asked for, so none takes the place of this one
    intro g hg hv
    have hcommit : g.commit ∈ commits := by
      obtain ⟨i, hi, -⟩ := mem_guardAll (mem_of_mem_askedGuards hg)
      exact List.mem_of_getElem? hi
    exact h.version_inj hcommit (mem_of_mem_asked hn) hv
  · rw [← map_commit_askedGuards] at hn
    obtain ⟨g, hg, rfl⟩ := List.mem_map.mp hn
    exact ⟨g, hg, rfl⟩

theorem Presents.decided_pending_of_ne (hk : k.holds.Positive)
    (hv : ∀ n ∈ k.asked commits newest requests, k.catalog.version n ≠ v) :
    (k.decidedKeeper commits newest requests).holds.pending? v = k.holds.pending? v := by
  rw [h.decidedKeeper_eq, deleteGuards_pending_of_ne (hk.acquire _), presented_pending]
  intro g hg
  refine hv g.commit ?_
  rw [← map_commit_askedGuards]
  exact List.mem_map_of_mem hg

/-- Among the presented guards, those are marked that were asked. -/
theorem Presents.decided_marked (hk : Issued k) {g : Guard} (hg : g ∈ (k.guardAll commits).1) :
    g.serial ∈ (k.decidedKeeper commits newest requests).marked ↔
      g.commit ∈ k.asked commits newest requests := by
  rw [h.decidedKeeper_eq, deleteGuards_marked, ← map_commit_askedGuards]
  constructor
  · rintro (hold | ⟨g', hg', hs⟩)
    · -- a guard made in this cycle has a number of its own
      have hlt := hk.marked g.serial hold
      obtain ⟨i, -, hs⟩ := mem_guardAll hg
      omega
    · rw [← commit_eq_of_serial_eq (mem_of_mem_askedGuards hg') hg hs]
      exact List.mem_map_of_mem hg'
  · intro hmem
    obtain ⟨g', hg', hc⟩ := List.mem_map.mp hmem
    exact Or.inr ⟨g', hg', serial_eq_of_commit_eq h.nodup (mem_of_mem_askedGuards hg') hg hc⟩

/-! ## After the pin is gone -/

/-- Taking the pin off frees the newest exactly if nothing else holds it. -/
theorem Presents.unhold_freed (hk : k.holds.Positive)
    (hnone : k.holds.count (k.catalog.version newest) = 0) :
    ((k.decidedKeeper commits newest requests).unhold (k.catalog.version newest)).1 =
      .freed (if newest ∈ k.asked commits newest requests then some newest else none) := by
  have hcount := h.decided_count (k.catalog.version newest)
  rw [hnone, if_pos rfl] at hcount
  have hpending : (k.decidedKeeper commits newest requests).holds.pending?
      (k.catalog.version newest) =
        if newest ∈ k.asked commits newest requests then some newest else none := by
    split
    next hasked => exact h.decided_pending hk hasked (by omega)
    next hasked =>
      rw [h.decided_pending_of_ne hk, hk.pending?_eq_none hnone]
      intro n hn hv
      exact hasked (h.version_inj (mem_of_mem_asked hn) h.newest_mem hv ▸ hn)
  unfold unhold
  rw [HoldTable.release_last hcount, hpending]

theorem Presents.unhold_held (hheld : 0 < k.holds.count (k.catalog.version newest)) :
    ∃ n, ((k.decidedKeeper commits newest requests).unhold (k.catalog.version newest)).1 =
      .held n := by
  have hcount := h.decided_count (k.catalog.version newest)
  rw [if_pos rfl] at hcount
  obtain ⟨n, hn⟩ := Nat.exists_eq_add_one.mpr hheld
  rw [hn] at hcount
  unfold unhold
  rw [HoldTable.release_more hcount]
  exact ⟨n + 1, rfl⟩

theorem Presents.unpinned_count (v : Version) :
    (k.unpinned commits newest requests).holds.count v = k.holds.count v := by
  have hcount := h.decided_count v
  have hpinned := h.decided_count (k.catalog.version newest)
  rw [if_pos rfl] at hpinned
  have hrelease := HoldTable.count_release (t := (k.decidedKeeper commits newest requests).holds)
    (v := k.catalog.version newest) (by omega) v
  show ((k.decidedKeeper commits newest requests).holds.release _).2.count v = _
  omega

/-- With the pin goes the pending deletion of the newest, unless something else holds it. -/
theorem Presents.unpinned_pending (v : Version) :
    (k.unpinned commits newest requests).holds.pending? v =
      if v = k.catalog.version newest ∧ k.holds.count v = 0 then none
      else (k.decidedKeeper commits newest requests).holds.pending? v := by
  have hpinned := h.decided_count (k.catalog.version newest)
  rw [if_pos rfl] at hpinned
  have hrelease := HoldTable.pending?_release (t := (k.decidedKeeper commits newest requests).holds)
    (v := k.catalog.version newest) (by omega) v
  refine hrelease.trans ?_
  by_cases hv : v = k.catalog.version newest
  · subst hv
    by_cases hnone : k.holds.count (k.catalog.version newest) = 0
    · rw [if_pos ⟨rfl, by omega⟩, if_pos ⟨rfl, hnone⟩]
    · rw [if_neg (by omega), if_neg (by omega)]
  · rw [if_neg fun hand => hv hand.1, if_neg fun hand => hv hand.1]

theorem Presents.unpinned_positive (hk : k.holds.Positive) :
    (k.unpinned commits newest requests).holds.Positive :=
  (h.decided_positive hk).release _

/-! ## The survivors -/

theorem Presents.unpinned_frame :
    Frame (k.presented commits newest) (k.unpinned commits newest requests) :=
  h.decided_frame.trans (unhold_frame _ _)

theorem Presents.unpinned_version (n : Nat) :
    (k.unpinned commits newest requests).catalog.version n = k.catalog.version n :=
  h.unpinned_frame.commits.version n

theorem Presents.unpinned_isDeleted_of_not_asked {n : Nat}
    (hn : n ∉ k.asked commits newest requests) :
    (k.unpinned commits newest requests).catalog.isDeleted n = k.catalog.isDeleted n := by
  show (k.decidedKeeper commits newest requests).catalog.isDeleted n = _
  rw [h.decided_catalog]
  exact Catalog.isDeleted_deleteEach_of_not_mem (fun hgone => hn (List.mem_filter.mp hgone).1) _

/-- Whatever the policy asked for, the newest still exists while it is pinned. -/
theorem Presents.unpinned_isDeleted_newest :
    (k.unpinned commits newest requests).catalog.isDeleted newest = false := by
  show (k.decidedKeeper commits newest requests).catalog.isDeleted newest = false
  -- `gone` leaves the newest out, which the pin holds
  rw [h.decided_catalog, Catalog.isDeleted_deleteEach_of_not_mem, h.undeleted]
  intro hgone
  have hne := (List.mem_filter.mp hgone).2
  simp at hne

theorem Presents.isDeleted_unpinned (hk : Issued k) {g : Guard}
    (hg : g ∈ (k.guardAll commits).1) :
    (k.unpinned commits newest requests).isDeleted g =
      ((k.asked commits newest requests).contains g.commit || k.catalog.isDeleted g.commit) := by
  have hmarked := h.decided_marked hk hg
  unfold isDeleted isMarked
  by_cases hasked : g.commit ∈ k.asked commits newest requests
  · have hmem : g.serial ∈ (k.unpinned commits newest requests).marked := hmarked.mpr hasked
    rw [List.contains_iff_mem.mpr hmem, List.contains_iff_mem.mpr hasked]
    rfl
  · have hmem : g.serial ∉ (k.unpinned commits newest requests).marked :=
      fun hs => hasked (hmarked.mp hs)
    rw [h.unpinned_isDeleted_of_not_asked hasked]
    simp [hmem, hasked]

/-- The survivors guard the commits that are kept. -/
theorem Presents.map_commit_survivors (hk : Issued k) :
    ((k.unpinned commits newest requests).survivors (k.guardAll commits).1).map Guard.commit =
      k.kept commits newest requests := by
  have hkept : k.kept commits newest requests =
      ((k.guardAll commits).1.map Guard.commit).filter fun n =>
        !(k.asked commits newest requests).contains n && !k.catalog.isDeleted n := by
    rw [map_commit_guardAll]
    rfl
  rw [hkept, List.filter_map]
  unfold survivors
  refine congrArg _ (List.filter_congr ?_)
  intro g hg
  rw [h.isDeleted_unpinned hk hg, Bool.not_or]
  rfl

/-! ## The end of a cycle -/

theorem Presents.sweep_unhold (hk : k.holds.Positive) :
    ((k.decidedKeeper commits newest requests).unhold (k.catalog.version newest)).2.sweep =
      k.unpinned commits newest requests :=
  sweep_eq_self (h.unpinned_positive hk)

theorem Presents.cycle_of_survivors (hk : k.holds.Positive)
    (hs : (k.unpinned commits newest requests).survivors (k.guardAll commits).1 ≠ []) :
    k.cycle commits requests = (k.unpinned commits newest requests).concludeWith
      ((k.unpinned commits newest requests).survivors (k.guardAll commits).1)
      ((k.decidedKeeper commits newest requests).unhold (k.catalog.version newest)).1
      (k.decided commits newest requests) := by
  have hversion : (k.decidedKeeper commits newest requests).catalog.version newest =
      k.catalog.version newest := h.decided_frame.commits.version newest
  rw [cycle_of_newest h.last]
  show (k.decidedKeeper commits newest requests).conclude (k.guardAll commits).1 newest
    (k.decided commits newest requests) = _
  unfold conclude
  dsimp only
  rw [hversion, h.sweep_unhold hk]
  split
  next hnone => exact absurd hnone hs
  next => rfl

theorem Presents.cycle_of_no_survivors (hk : k.holds.Positive)
    (hs : (k.unpinned commits newest requests).survivors (k.guardAll commits).1 = []) :
    k.cycle commits requests = (k.unpinned commits newest requests).concludeWithout newest
      (k.decided commits newest requests) := by
  have hversion : (k.decidedKeeper commits newest requests).catalog.version newest =
      k.catalog.version newest := h.decided_frame.commits.version newest
  rw [cycle_of_newest h.last]
  show (k.decidedKeeper commits newest requests).conclude (k.guardAll commits).1 newest
    (k.decided commits newest requests) = _
  unfold conclude
  dsimp only
  rw [hversion, h.sweep_unhold hk]
  split
  next => rfl
  next hsome => exact absurd hs hsome

/-- The newest is deleted at the end if it goes, and nothing happens otherwise. -/
theorem Presents.reclaimNewest_eq (hk : k.holds.Positive)
    (hkept : k.kept commits newest requests ≠ []) :
    (k.unpinned commits newest requests).reclaimNewest
        ((k.decidedKeeper commits newest requests).unhold (k.catalog.version newest)).1 =
      if k.Reclaims commits newest requests then
        (k.unpinned commits newest requests).deleteCommit newest
      else (.ok (), k.unpinned commits newest requests) := by
  by_cases hnone : k.holds.count (k.catalog.version newest) = 0
  · rw [h.unhold_freed hk hnone]
    by_cases hasked : newest ∈ k.asked commits newest requests
    · have hreclaims : k.Reclaims commits newest requests := ⟨hasked, hnone, hkept⟩
      rw [if_pos hasked, if_pos hreclaims]
      rfl
    · have hreclaims : ¬k.Reclaims commits newest requests := fun hr => hasked hr.1
      rw [if_neg hasked, if_neg hreclaims]
      rfl
  · obtain ⟨n, hn⟩ := h.unhold_held (Nat.pos_of_ne_zero hnone)
    have hreclaims : ¬k.Reclaims commits newest requests := fun hr => hnone hr.2.1
    rw [hn, if_neg hreclaims]
    rfl

/-! ## The whole cycle -/

omit h in
theorem nextGeneration_congr {k' : Keeper} (hlive : k'.live = k.live) :
    k'.nextGeneration = k.nextGeneration := by
  unfold nextGeneration
  rw [hlive]

theorem Presents.unpinned_pending_asked (hk : k.holds.Positive) {n : Nat}
    (hn : n ∈ k.asked commits newest requests) (hheld : 0 < k.holds.count (k.catalog.version n)) :
    (k.unpinned commits newest requests).holds.pending? (k.catalog.version n) = some n := by
  have hno : ¬(k.catalog.version n = k.catalog.version newest ∧
      k.holds.count (k.catalog.version n) = 0) := by
    omega
  rw [h.unpinned_pending, if_neg hno]
  refine h.decided_pending hk hn ?_
  rw [h.decided_count]
  omega

theorem Presents.unpinned_pending_other (hk : k.holds.Positive)
    (hv : ∀ n ∈ k.asked commits newest requests, k.catalog.version n ≠ v) :
    (k.unpinned commits newest requests).holds.pending? v = k.holds.pending? v := by
  rw [h.unpinned_pending, h.decided_pending_of_ne hk hv]
  split
  next hnone => exact (hk.pending?_eq_none hnone.2).symm
  next => rfl

/-- Publishing guards of the right commits at the end of a cycle completes it. -/
theorem Presents.spec_of_publish (hk : k.holds.Positive) {u : Keeper} {guards : List Guard}
    {result : Except Error Unit}
    (hcommits : (k.unpinned commits newest requests).catalog.SameCommits u.catalog)
    (hsettings : u.reclaimOnRelease = k.reclaimOnRelease ∧ u.live = k.live)
    (hslots : u.handles = k.handles ∧ u.bundles = k.bundles)
    (hholds : u.holds = (k.unpinned commits newest requests).holds)
    (hcatalog : u.catalog = (k.catalog.deleteEach (k.gone commits newest requests)).deleteEach
      (if k.Reclaims commits newest requests then [newest] else []))
    (hguards : guards.map Guard.commit = k.published commits newest requests)
    (hresult : result = report (k.decided commits newest requests)
      (if k.Reclaims commits newest requests then
        ((k.catalog.deleteEach (k.gone commits newest requests)).delete newest).1 else .ok ())
      (if k.kept commits newest requests = [] then .error (.noLiveCommits k.nextGeneration)
        else .ok ())) :
    CycleSpec k commits newest requests result (u.publish u.nextGeneration guards) := by
  have hversion : ∀ n, u.catalog.version n = k.catalog.version n :=
    fun n => (hcommits.version n).trans (h.unpinned_version n)
  have hf := clearPending_frame guards u
  have hpending : ∀ v, (u.publish u.nextGeneration guards).holds.pending? v =
      if v ∈ (k.published commits newest requests).map k.catalog.version then none
      else (k.unpinned commits newest requests).holds.pending? v := by
    intro v
    have hversions : guards.map u.version =
        (k.published commits newest requests).map k.catalog.version := by
      rw [← hguards, List.map_map]
      exact List.map_congr_left fun g _ => hversion g.commit
    rw [publish_pending, hversions, hholds]
  refine
    { handles := hf.handles.trans hslots.1
      bundles := hf.bundles.trans hslots.2
      reclaimOnRelease := hf.reclaimOnRelease.trans hsettings.1
      live := ⟨guards, ?_, hguards⟩
      count := ?_
      catalog := (clearPending_catalog guards u).trans hcatalog
      pending_published := ?_
      pending_asked := ?_
      pending_other := ?_
      result := hresult }
  · have hgeneration : u.nextGeneration = k.nextGeneration :=
      nextGeneration_congr hsettings.2
    rw [← hgeneration]
    rfl
  · intro v
    rw [publish_count, hholds, h.unpinned_count]
  · intro n hn
    rw [hpending, if_pos (List.mem_map_of_mem hn)]
  · intro n hn hnot hheld
    -- a published commit of this version would be this commit
    have hno : k.catalog.version n ∉
        (k.published commits newest requests).map k.catalog.version := by
      intro hmem
      obtain ⟨m, hm, hv⟩ := List.mem_map.mp hmem
      exact hnot (h.version_inj (h.mem_of_mem_published hm) (mem_of_mem_asked hn) hv ▸ hm)
    rw [hpending, if_neg hno]
    exact h.unpinned_pending_asked hk hn hheld
  · intro v hasked hpublished
    have hno : v ∉ (k.published commits newest requests).map k.catalog.version := by
      intro hmem
      obtain ⟨m, hm, hv⟩ := List.mem_map.mp hmem
      exact hpublished m hm hv
    rw [hpending, if_neg hno]
    exact h.unpinned_pending_other hk hasked

theorem Presents.spec_of_kept (hk : Sound [] k) (hkept : k.kept commits newest requests ≠ []) :
    CycleSpec k commits newest requests (k.cycle commits requests).1
      (k.cycle commits requests).2 := by
  have hpos := hk.counted.positive
  have hsurvivors := h.map_commit_survivors hk.issued
  have hf : Frame (k.presented commits newest) (k.unpinned commits newest requests) :=
    h.unpinned_frame
  have hsome : (k.unpinned commits newest requests).survivors (k.guardAll commits).1 ≠ [] :=
    fun hnone => hkept (by rw [← hsurvivors, hnone]; rfl)
  have hpublished : k.published commits newest requests = k.kept commits newest requests :=
    if_neg hkept
  have hcatalog : (k.unpinned commits newest requests).catalog =
      k.catalog.deleteEach (k.gone commits newest requests) := h.decided_catalog
  rw [h.cycle_of_survivors hpos hsome]
  unfold concludeWith
  dsimp only
  rw [h.reclaimNewest_eq hpos hkept]
  -- the two ends differ in the one deletion
  by_cases hreclaims : k.Reclaims commits newest requests
  · rw [if_pos hreclaims]
    refine h.spec_of_publish hpos (deleteCommit_frame newest _).commits
      ⟨hf.reclaimOnRelease, hf.live⟩ ⟨hf.handles, hf.bundles⟩ rfl ?_ (hpublished ▸ hsurvivors) ?_
    · rw [if_pos hreclaims, deleteCommit_catalog, hcatalog]
      rfl
    · rw [if_pos hreclaims, if_neg hkept, ← hcatalog]
      rfl
  · rw [if_neg hreclaims]
    refine h.spec_of_publish hpos (.refl _)
      ⟨hf.reclaimOnRelease, hf.live⟩ ⟨hf.handles, hf.bundles⟩ rfl ?_ (hpublished ▸ hsurvivors) ?_
    · rw [if_neg hreclaims, hcatalog]
      rfl
    · rw [if_neg hreclaims, if_neg hkept]

theorem Presents.spec_of_none_kept (hk : Sound [] k)
    (hkept : k.kept commits newest requests = []) :
    CycleSpec k commits newest requests (k.cycle commits requests).1
      (k.cycle commits requests).2 := by
  have hpos := hk.counted.positive
  have hsurvivors := h.map_commit_survivors hk.issued
  have hf : Frame (k.presented commits newest) (k.unpinned commits newest requests) :=
    h.unpinned_frame
  rw [hkept, List.map_eq_nil_iff] at hsurvivors
  have hreclaims : ¬k.Reclaims commits newest requests := fun hr => hr.2.2 hkept
  rw [h.cycle_of_no_survivors hpos hsurvivors]
  unfold concludeWithout
  rw [if_neg (by rw [h.unpinned_isDeleted_newest]; decide)]
  dsimp only
  refine h.spec_of_publish hpos (.refl _) ⟨hf.reclaimOnRelease, hf.live⟩
    ⟨hf.handles, hf.bundles⟩ rfl ?_ ?_ ?_
  · rw [if_neg hreclaims]
    exact h.decided_catalog
  · unfold published
    rw [if_pos hkept]
    rfl
  · have hgeneration : (k.unpinned commits newest requests).nextGeneration = k.nextGeneration :=
      nextGeneration_congr hf.live
    rw [if_neg hreclaims, if_pos hkept, hgeneration]

theorem Presents.cycle_spec (hk : Sound [] k) :
    CycleSpec k commits newest requests (k.cycle commits requests).1
      (k.cycle commits requests).2 := by
  by_cases hkept : k.kept commits newest requests = []
  · exact h.spec_of_none_kept hk hkept
  · exact h.spec_of_kept hk hkept

end

end SnapshotRetention.Keeper
