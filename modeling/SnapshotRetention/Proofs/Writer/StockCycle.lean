import SnapshotRetention.Proofs.Catalog.Deletion
import SnapshotRetention.Proofs.Keeper.CycleSpec
import SnapshotRetention.Proofs.Writer.Running

/-!
# Cycles of a stock policy

A cycle in which a stock policy succeeds publishes exactly the commits that the policy spares of all
commits made so far (`Catalog.spared`), however many commits that were deleted are missing from the
history that it is shown, and however many are still there because they were held when the policy
asked for them (`Ready.cycle`).
-/

namespace SnapshotRetention

namespace Catalog

variable {c d : Catalog} {p : Primary} {n : Nat} {m : Manifest}

/-- What a stock policy spares of all commits. -/
def spared (p : Primary) (c : Catalog) : List Nat :=
  p.spared (fun n => (c.commit n).shown) c.commits.length

/-- What a policy spares depends on the descriptions of the commits. -/
theorem SameCommits.spared (h : c.SameCommits d) (p : Primary) : d.spared p = c.spared p := by
  have hshown : (fun n => (d.commit n).shown) = fun n => (c.commit n).shown := by
    funext n
    unfold Commit.shown
    rw [h.manifest]
  unfold Catalog.spared
  rw [h.length, hshown]

theorem lt_of_mem_spared (h : n ∈ c.spared p) : n < c.commits.length := (Primary.mem_spared.mp h).1

/-- The newest commit is spared. -/
theorem newest_mem_spared (p : Primary) (h : c.commits.length = n + 1) : n ∈ c.spared p := by
  unfold spared
  rw [h]
  exact Primary.mem_spared.mpr ⟨Nat.lt_succ_self n, Primary.not_outdated_newest p _ n⟩

/-- Of the commits there were before, those that are spared now were spared before. -/
theorem mem_spared_of_adopt
    (htime : ∀ n, c.commits.length = n + 1 → (c.commit n).manifest.timestamp ≤ m.timestamp)
    (hn : n < c.commits.length) (h : n ∈ (c.adopt 0 m).2.spared p) : n ∈ c.spared p := by
  have hnot := (Primary.mem_spared.mp h).2
  rw [length_adopt] at hnot
  refine Primary.mem_spared.mpr ⟨hn, fun houtdated => hnot ?_⟩
  have hold : ∀ n, n < c.commits.length → ((c.adopt 0 m).2.commit n).shown = (c.commit n).shown :=
    fun n hn => congrArg Commit.shown (commit_adopt_of_lt hn)
  have hbefore : p.Outdated (fun n => ((c.adopt 0 m).2.commit n).shown) c.commits.length n :=
    houtdated.congr hn hold
  refine hbefore.succ fun n hlength => ?_
  show ((c.adopt 0 m).2.commit n).shown.timestamp ≤
    ((c.adopt 0 m).2.commit c.commits.length).shown.timestamp
  rw [hold n (by omega), commit_adopt_self]
  exact htime n hlength

end Catalog

namespace Keeper

variable {k k' : Keeper} {commits : List Nat} {newest n : Nat} {requests : List Request}
  {shown : List Guard} {p : Primary} {w : Writer}

/-- The numbers of the published commits, oldest first, if a list is published. -/
def listing (k : Keeper) : Option (List Nat) :=
  k.live.map fun live => live.guards.map Guard.commit

/-- The published versions, told from the published commits. -/
theorem published_versions (k : Keeper) :
    (k.live.map fun live => live.guards.map k.version) =
      k.listing.map fun ns => ns.map k.catalog.version := by
  unfold listing
  cases k.live with
  | none => rfl
  | some live =>
    show some _ = some (List.map _ (List.map _ _))
    rw [List.map_map]
    rfl

/-- Requests of which none fails are all carried out. -/
theorem carriedOut_of_ok (h : (k.carryOutAll shown requests).1 = .ok ()) :
    k.carriedOut shown requests = requests := by
  induction requests generalizing k with
  | nil => rfl
  | cons r rest ih =>
    unfold carryOutAll at h
    unfold carriedOut
    generalize k.carryOut shown r = carried at h ⊢
    obtain ⟨result, k1⟩ := carried
    cases result with
    | error err => cases h
    | ok _ =>
      dsimp only
      rw [ih h]

/-- A stock policy that succeeds has asked for what is outdated, so that what it spares is left. -/
theorem Presents.asked_of_ok (h : Presents k commits newest (p.requests (k.catalog.shown commits)))
    (hk : Sound [] k) (hok : (k.cycle commits (p.requests (k.catalog.shown commits))).1 = .ok ()) :
    k.asked commits newest (p.requests (k.catalog.shown commits)) =
      p.asked (fun n => (k.catalog.commit n).shown) commits := by
  have hresult := (h.cycle_spec hk).result
  rw [hok] at hresult
  have hdecided : k.decided commits newest (p.requests (k.catalog.shown commits)) = .ok () :=
    (Tracker.firstFailure_eq_ok.mp hresult.symm).1
  unfold asked carried
  rw [carriedOut_of_ok hdecided]
  rfl

/-- A keeper and a writer before a cycle: all that a stock policy spares is there, and nothing holds
the newest commit yet. -/
structure Ready (p : Primary) (w : Writer) (newest : Nat) (k : Keeper) : Prop where
  sound : Sound [] k
  retained : Retained k
  continues : w.Continues k.catalog
  length : k.catalog.commits.length = newest + 1
  unheld : k.holds.count (k.catalog.version newest) = 0
  undeleted : ∀ n ∈ k.catalog.spared p, k.catalog.isDeleted n = false

/-- What a cycle leaves that a stock policy has gone through with. -/
structure StockCycle (p : Primary) (k k' : Keeper) : Prop where
  sound : Sound [] k'
  retained : Retained k'
  exact : ∀ bound, Exact bound k'
  /-- What the policy spares is published. -/
  listing : k'.listing = some (k.catalog.spared p)
  given : k'.given = k.given
  reclaimOnRelease : k'.reclaimOnRelease = k.reclaimOnRelease
  prunes : k.catalog.Prunes k'.catalog

section
variable (h : Ready p w newest k)
include h

theorem Ready.newest_undeleted : k.catalog.isDeleted newest = false :=
  h.undeleted newest (Catalog.newest_mem_spared p h.length)

theorem Ready.offers : Offers k w.history newest := by
  have hmem : newest ∈ w.history :=
    h.continues.complete newest (by rw [h.length]; exact Nat.lt_succ_self _) h.newest_undeleted
  refine ⟨?_, h.continues.sorted.imp Nat.ne_of_lt, h.continues.range, h.continues.complete,
    h.newest_undeleted, h.unheld⟩
  refine getLast?_of_ascending h.continues.sorted hmem fun n hn => ?_
  have hlt := h.continues.range n hn
  rw [h.length] at hlt
  exact Nat.le_of_lt_succ hlt

/-- Of the commits that the policy does not ask for, those that are undeleted are spared. -/
theorem Ready.kept_eq : w.history.filter (fun n =>
      !(p.asked (fun n => (k.catalog.commit n).shown) w.history).contains n &&
        !k.catalog.isDeleted n) = k.catalog.spared p := by
  have hlast := h.offers.last
  have hasked := fun n (hn : n ∈ w.history) =>
    Primary.mem_asked_iff (f := fun n => (k.catalog.commit n).shown) (p := p) h.continues.sorted
      (show w.history.getLast? = some (k.catalog.commits.length - 1) by rw [h.length, hlast]; rfl)
      h.continues.range
      (fun n hn => h.continues.complete n (Catalog.lt_of_mem_spared hn) (h.undeleted n hn)) hn
  refine (h.continues.sorted.filter _).eq_of_mem_iff (Primary.pairwise_spared _ _ _) fun n => ?_
  unfold Catalog.spared
  rw [List.mem_filter, Primary.mem_spared]
  constructor
  · rintro ⟨hn, hleft⟩
    rw [Bool.and_eq_true, Bool.not_eq_true', Bool.not_eq_true'] at hleft
    refine ⟨h.continues.range n hn, fun houtdated => ?_⟩
    have hcontains := List.contains_iff_mem.mpr ((hasked n hn).mpr houtdated)
    rw [hleft.1] at hcontains
    cases hcontains
  · rintro ⟨hn, hnot⟩
    have hkept := h.undeleted n (Primary.mem_spared.mpr ⟨hn, hnot⟩)
    have hmem := h.continues.complete n hn hkept
    refine ⟨hmem, ?_⟩
    rw [hkept, Bool.not_false, Bool.and_true, Bool.not_eq_true', ← Bool.not_eq_true,
      List.contains_iff_mem, hasked n hmem]
    exact hnot

theorem Ready.cycle
    (hcycle : k.cycle w.history (p.requests (k.catalog.shown w.history)) = (.ok (), k')) :
    StockCycle p k k' := by
  have ho := h.offers
  have hok := congrArg Prod.fst hcycle
  rw [← show (k.cycle w.history (p.requests (k.catalog.shown w.history))).2 = k' from
    congrArg Prod.snd hcycle]
  have hdeletes := Decider.deletes_stock p (k.catalog.shown w.history)
  have hp : Presents k w.history newest (p.requests (k.catalog.shown w.history)) :=
    ⟨ho.last, h.continues.ascending.nodup_versions h.continues.sorted h.continues.range,
      h.newest_undeleted, hdeletes⟩
  have hspec := hp.cycle_spec h.sound
  have hkept : k.kept w.history newest (p.requests (k.catalog.shown w.history)) =
      k.catalog.spared p := by
    unfold kept
    rw [hp.asked_of_ok h.sound hok]
    exact h.kept_eq
  have hne : k.catalog.spared p ≠ [] :=
    List.ne_nil_of_mem (Catalog.newest_mem_spared p h.length)
  refine
    { sound := h.sound.cycle ho.range _
      retained := ho.retained h.sound h.retained _
      exact := ho.exact h.sound h.retained (Or.inr hdeletes)
      listing := ?_
      given := ?_
      reclaimOnRelease := hspec.reclaimOnRelease
      prunes := cycle_prunes _ _ k }
  · obtain ⟨guards, hlive, hmap⟩ := hspec.live
    unfold published at hmap
    rw [hkept, if_neg hne] at hmap
    unfold listing
    rw [hlive, ← hmap]
    rfl
  · unfold given
    rw [hspec.handles, hspec.bundles]

end

end Keeper

end SnapshotRetention
