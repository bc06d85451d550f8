import SnapshotRetention.Proofs.Keeper.Given

/-!
# Keeping count of holds

`Counted pins held table stats` says that a hold table and the statistics agree with what is held:
the count of each version is the number of times it is held by a handle or pinned by a cycle, the
snapshots taken and not released are those held, no release was redundant, the sweep never found
anything, and a pending deletion is carried out at most once for each time it was deferred. The
list `held` is what the handles hold, in any order, so that a handle can be between two slots.

Every step keeps this: taking a snapshot adds a version to `held`, releasing one takes it off,
pinning and unpinning do the same to `pins`, and all other steps leave both lists alone.
-/

namespace SnapshotRetention.Keeper

variable {k : Keeper} {pins held : List Version} {v : Version}

/-- A hold table and statistics agree with what is held and what is pinned. -/
structure Counted (pins held : List Version) (table : HoldTable) (stats : Stats) : Prop where
  positive : table.Positive
  count : ∀ v, table.count v = held.count v + pins.count v
  balance : stats.snapshotsAcquired = stats.releases + held.length
  redundant : stats.redundantReleases = 0
  swept : stats.sweptEntries = 0
  deferred : stats.deferredReclaimed + stats.reclaimFailures + table.pendingCount ≤
    stats.deletionsDeferred

theorem Counted.perm {held' : List Version} {table : HoldTable} {stats : Stats}
    (h : Counted pins held table stats) (hp : held.Perm held') :
    Counted pins held' table stats := by
  refine ⟨h.positive, ?_, ?_, h.redundant, h.swept, h.deferred⟩
  · intro v
    rw [h.count v, hp.count_eq]
  · rw [h.balance, hp.length_eq]

theorem Counted.empty : Counted [] [] Table.empty .zero :=
  ⟨HoldTable.positive_empty, fun _ => rfl, rfl, rfl, rfl, Nat.le_refl 0⟩

/-! ## Taking and pinning -/

theorem count_cons_version (v : Version) (vs : List Version) (q : Version) :
    (v :: vs).count q = vs.count q + if q = v then 1 else 0 := by
  rw [List.count_cons]
  by_cases hq : q = v
  · subst hq
    simp
  · simp [hq, Ne.symm hq]

theorem Counted.acquire (h : Counted pins held k.holds k.stats) (v : Version) :
    Counted pins (v :: held) (k.acquire v).holds (k.acquire v).stats := by
  refine ⟨h.positive.acquire v, ?_, ?_, h.redundant, h.swept, ?_⟩
  · intro q
    show (k.holds.acquire v).count q = _
    rw [HoldTable.count_acquire, h.count, count_cons_version]
    omega
  · show k.stats.snapshotsAcquired + 1 = k.stats.releases + (held.length + 1)
    rw [h.balance]
    omega
  · show _ + HoldTable.pendingCount (k.holds.acquire v) ≤ _
    rw [HoldTable.pendingCount_acquire]
    exact h.deferred

theorem Counted.pin (h : Counted pins held k.holds k.stats) (v : Version) :
    Counted (v :: pins) held (k.pin v).holds (k.pin v).stats := by
  refine ⟨h.positive.acquire v, ?_, h.balance, h.redundant, h.swept, ?_⟩
  · intro q
    show (k.holds.acquire v).count q = _
    rw [HoldTable.count_acquire, h.count, count_cons_version]
    omega
  · show _ + HoldTable.pendingCount (k.holds.acquire v) ≤ _
    rw [HoldTable.pendingCount_acquire]
    exact h.deferred

theorem Counted.held_pos {table : HoldTable} {stats : Stats}
    (h : Counted pins (v :: held) table stats) : 0 < table.count v := by
  rw [h.count, List.count_cons_self]
  omega

theorem Counted.pinned_pos {table : HoldTable} {stats : Stats}
    (h : Counted (v :: pins) held table stats) : 0 < table.count v := by
  rw [h.count, List.count_cons_self]
  omega

/-! ## Releasing and unpinning -/

/-- What a release has to do to the statistics when it takes one hold off the table. -/
theorem Counted.giveUp {table : HoldTable} {stats stats' : Stats}
    (h : Counted pins (v :: held) table stats)
    (hacquired : stats'.snapshotsAcquired = stats.snapshotsAcquired)
    (hreleases : stats'.releases = stats.releases + 1)
    (hredundant : stats'.redundantReleases = stats.redundantReleases)
    (hswept : stats'.sweptEntries = stats.sweptEntries)
    (hdeferred : stats'.deferredReclaimed + stats'.reclaimFailures +
      HoldTable.pendingCount (table.release v).2 ≤ stats'.deletionsDeferred) :
    Counted pins held (table.release v).2 stats' := by
  refine ⟨h.positive.release v, ?_, ?_, ?_, ?_, hdeferred⟩
  · intro q
    have hrel := HoldTable.count_release h.held_pos q
    rw [h.count, count_cons_version] at hrel
    omega
  · have := h.balance
    rw [List.length_cons] at this
    omega
  · rw [hredundant, h.redundant]
  · rw [hswept, h.swept]

/-- A release takes effect and gives up exactly one hold. -/
theorem Counted.release (h : Counted pins (v :: held) k.holds k.stats) :
    (k.release v).1 = true ∧ Counted pins held (k.release v).2.holds (k.release v).2.stats := by
  have hpending := HoldTable.pendingCount_release h.held_pos
  have hdeferred := h.deferred
  have hplain : Counted pins held (k.unhold v).2.countRelease.holds
      (k.unhold v).2.countRelease.stats := by
    refine h.giveUp rfl rfl rfl rfl ?_
    simp only [countRelease, unhold]
    omega
  by_cases hlast : k.holds.count v = 1 ∧ (k.holds.pending? v).isSome
  · obtain ⟨n, hn⟩ := Option.isSome_iff_exists.mp hlast.2
    rw [if_pos hlast] at hpending
    rw [release_pending hlast.1 hn]
    refine ⟨rfl, ?_⟩
    cases hr : (k.unhold v).2.countRelease.reclaimOnRelease with
    | false =>
      rw [reclaim_off hr]
      exact hplain
    | true =>
      obtain ⟨stats, hstats, hon⟩ := reclaim_on hr n
      rw [hon]
      -- the deletion that leaves the table is the one that is counted now
      rcases hstats with rfl | rfl
      all_goals
        refine h.giveUp rfl rfl rfl rfl ?_
        simp only [countRelease, unhold]
        omega
  · have hnone : k.holds.count v ≠ 1 ∨ k.holds.pending? v = none := by
      rcases Decidable.not_and_iff_or_not.mp hlast with hne | hnone
      · exact Or.inl hne
      · exact Or.inr (Option.not_isSome_iff_eq_none.mp hnone)
    rw [release_plain h.held_pos hnone]
    exact ⟨rfl, hplain⟩

theorem Counted.unpin (h : Counted (v :: pins) held k.holds k.stats) :
    Counted pins held (k.unhold v).2.holds (k.unhold v).2.stats := by
  have hpos := h.pinned_pos
  refine ⟨h.positive.release v, ?_, h.balance, h.redundant, h.swept, ?_⟩
  · intro q
    have hrel := HoldTable.count_release hpos q
    rw [h.count, count_cons_version] at hrel
    show (k.holds.release v).2.count q = _
    omega
  · have hpending := HoldTable.pendingCount_release hpos
    have hdeferred := h.deferred
    show _ + HoldTable.pendingCount (k.holds.release v).2 ≤ _
    simp only [unhold]
    omega

/-! ## The other steps -/

theorem Counted.deleteGuard (h : Counted pins held k.holds k.stats) (g : Guard) :
    Counted pins held (k.deleteGuard g).2.holds (k.deleteGuard g).2.stats := by
  unfold Keeper.deleteGuard
  split
  next =>
    refine ⟨h.positive.setPending _ _, ?_, h.balance, h.redundant, h.swept, ?_⟩
    · intro q
      exact (HoldTable.count_setPending _ _ _ q).trans (h.count q)
    · have hpending := HoldTable.pendingCount_setPending k.holds (k.version g) g.commit
      have hdeferred := h.deferred
      show _ + HoldTable.pendingCount (k.holds.setPending (k.version g) g.commit) ≤ _
      simp only [defer, mark]
      omega
  next => exact h

/-- With entries for held versions only there is nothing to sweep. -/
theorem sweep_eq_self (h : k.holds.Positive) : k.sweep = k := by
  unfold sweep
  rw [HoldTable.sweep_eq_self h, HoldTable.strayCount_eq_zero h]
  rfl

/-- Clearing pending deletions changes the hold table and nothing else. -/
theorem clearPending_eq (guards : List Guard) (k : Keeper) :
    k.clearPending guards = { k with holds := (k.clearPending guards).holds } := by
  induction guards generalizing k with
  | nil => rfl
  | cons g guards ih => exact ih _

theorem clearPending_frame (guards : List Guard) (k : Keeper) :
    Frame k (k.clearPending guards) := by
  rw [clearPending_eq]
  exact ⟨rfl, rfl, rfl, rfl, rfl, rfl, .refl _⟩

theorem clearPending_stats (guards : List Guard) (k : Keeper) :
    (k.clearPending guards).stats = k.stats := by
  rw [clearPending_eq]

theorem clearPending_catalog (guards : List Guard) (k : Keeper) :
    (k.clearPending guards).catalog = k.catalog := by
  rw [clearPending_eq]

theorem clearPending_marked (guards : List Guard) (k : Keeper) :
    (k.clearPending guards).marked = k.marked := by
  rw [clearPending_eq]

theorem publish_count (generation : Nat) (guards : List Guard) (k : Keeper) (v : Version) :
    (k.publish generation guards).holds.count v = k.holds.count v := by
  show (k.clearPending guards).holds.count v = k.holds.count v
  induction guards generalizing k with
  | nil => rfl
  | cons g guards ih => exact (ih _).trans (HoldTable.count_clearPending _ _ _)

theorem publish_pending (generation : Nat) (guards : List Guard) (k : Keeper) (v : Version) :
    (k.publish generation guards).holds.pending? v =
      if v ∈ guards.map k.version then none else k.holds.pending? v := by
  show (k.clearPending guards).holds.pending? v = _
  induction guards generalizing k with
  | nil => rfl
  | cons g guards ih =>
    have hrest := ih { k with holds := k.holds.clearPending (k.version g) }
    refine hrest.trans ?_
    show (if v ∈ guards.map k.version then none
      else (k.holds.clearPending (k.version g)).pending? v) = _
    rw [HoldTable.pending?_clearPending, List.map_cons]
    by_cases hlater : v ∈ guards.map k.version
    · rw [if_pos hlater, if_pos (List.mem_cons_of_mem _ hlater)]
    · rw [if_neg hlater]
      by_cases hv : v = k.version g
      · rw [if_pos hv, if_pos (hv ▸ List.mem_cons_self)]
      · rw [if_neg hv, if_neg fun hmem => (List.mem_cons.mp hmem).elim hv hlater]

theorem Counted.clearPending (h : Counted pins held k.holds k.stats) (guards : List Guard) :
    Counted pins held (k.clearPending guards).holds (k.clearPending guards).stats := by
  induction guards generalizing k with
  | nil => exact h
  | cons g guards ih =>
    refine ih (k := { k with holds := k.holds.clearPending (k.version g) }) ?_
    refine ⟨h.positive.clearPending _, ?_, h.balance, h.redundant, h.swept, ?_⟩
    · intro q
      rw [HoldTable.count_clearPending, h.count]
    · have hpending := HoldTable.pendingCount_clearPending k.holds (k.version g)
      exact Nat.le_trans (Nat.add_le_add_left hpending _) h.deferred

theorem Counted.publish (h : Counted pins held k.holds k.stats) (generation : Nat)
    (guards : List Guard) :
    Counted pins held (k.publish generation guards).holds (k.publish generation guards).stats := by
  have hcleared := h.clearPending guards
  rw [clearPending_stats] at hcleared
  exact ⟨hcleared.positive, hcleared.count, hcleared.balance, hcleared.redundant, hcleared.swept,
    hcleared.deferred⟩

end SnapshotRetention.Keeper
