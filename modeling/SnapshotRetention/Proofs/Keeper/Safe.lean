import SnapshotRetention.Proofs.Catalog.Backed
import SnapshotRetention.Proofs.Keeper.RetainedCycle

/-!
# Safe keepers

`Keeper.Safe` joins what is known of a keeper whose commits have artifacts: the catalog is backed,
the holds are counted, and what is live or held is retained. Consumers (`Safe.use`), changes behind
the keeper (`Safe.setCatalog`), new commits (`Safe.adopt`) and cycles (`Safe.cycle`) keep a keeper
safe and lead to a later catalog.

`Keeper.Aside` is a commit that no cycle has been offered yet: consumers cannot reach it.
-/

namespace SnapshotRetention.Keeper

variable {k : Keeper} {commits : List Nat} {newest n : Nat} {m : Manifest}

/-- A keeper that retains what is live or held, over commits whose artifacts are in the store. -/
structure Safe (k : Keeper) : Prop where
  backed : k.catalog.Backed
  sound : Sound [] k
  retained : Retained k

theorem Safe.new (id : Nat) (reclaimOnRelease : Bool) {c : Catalog} (hb : c.Backed)
    (hc : c.Distinct) : Safe (.new id reclaimOnRelease c) :=
  ⟨hb, .new id reclaimOnRelease c, .new id reclaimOnRelease hc hb.artifacts⟩

/-- What a consumer does deletes at most commits that waited for their last hold. -/
theorem Safe.use (h : Safe k) {u : Use} (hu : k.AllowsUse u) :
    Safe (k.use u) ∧ k.catalog.Later (k.use u).catalog ∧
      k.catalog.SameCommits (k.use u).catalog := by
  have hprunes := use_prunes u k
  obtain ⟨hbacked, hlater⟩ := h.backed.prunes hprunes
  exact ⟨⟨hbacked, h.sound.use hu, h.retained.use u⟩, hlater, hprunes.sameCommits⟩

/-! ## The world -/

/-- The store and the tracker may change as long as the catalog stays backed. -/
theorem Safe.setCatalog (h : Safe k) {c : Catalog} (hcommits : c.commits = k.catalog.commits)
    (hbacked : c.Backed) (hlater : k.catalog.Later c) : Safe { k with catalog := c } := by
  have hlength : c.commits.length = k.catalog.commits.length := by rw [hcommits]
  have hdistinct : c.Distinct := by
    intro n m hn hm heq
    rw [hlength] at hn hm
    rw [hlater.describes.version hn, hlater.describes.version hm] at heq
    exact h.retained.distinct n m hn hm heq
  refine ⟨hbacked, h.sound.world hlater.describes, h.retained.world h.sound.issued hlater.describes
    hdistinct hbacked.artifacts (fun n _ => Catalog.isDeleted_congr hcommits n) ?_⟩
  intro n hge hlt
  omega

/-- A commit of a version of its own, all of whose artifacts are in the store, may join. -/
theorem Safe.adopt (h : Safe k)
    (hpresent : ∀ name ∈ m.fileNames, ((k.catalog.store 0).data? name).isSome)
    (hdistinct : (k.catalog.adopt 0 m).2.Distinct) :
    Safe { k with catalog := (k.catalog.adopt 0 m).2 } ∧
      k.catalog.Later (k.catalog.adopt 0 m).2 := by
  obtain ⟨hbacked, hlater⟩ := h.backed.adopt hpresent
  refine ⟨⟨hbacked, h.sound.world hlater.describes, h.retained.world h.sound.issued
    hlater.describes hdistinct hbacked.artifacts ?_ ?_⟩, hlater⟩
  · intro n hn
    unfold Catalog.isDeleted
    rw [Catalog.commit_adopt_of_lt hn]
  · intro n hge hlt
    rw [Catalog.length_adopt] at hlt
    obtain rfl : n = k.catalog.commits.length := by omega
    unfold Catalog.isDeleted
    rw [Catalog.commit_adopt_self]

/-! ## Cycles -/

/-- Whatever the primary policy does, a cycle over offered commits keeps a keeper safe. -/
theorem Safe.cycle (h : Safe k) (ho : Offers k commits newest) (requests : List Request) :
    Safe (k.cycle commits requests).2 ∧ k.catalog.Later (k.cycle commits requests).2.catalog ∧
      k.catalog.SameCommits (k.cycle commits requests).2.catalog := by
  have hprunes := cycle_prunes commits requests k
  obtain ⟨hbacked, hlater⟩ := h.backed.prunes hprunes
  exact ⟨⟨hbacked, h.sound.cycle ho.range requests, ho.retained h.sound h.retained requests⟩,
    hlater, hprunes.sameCommits⟩

/-! ## Commits that no cycle has been offered -/

/-- A commit that is not deleted, though it is neither live nor held. -/
structure Aside (n : Nat) (k : Keeper) : Prop where
  kept : k.catalog.isDeleted n = false
  unheld : k.holds.count (k.catalog.version n) = 0
  notLive : ¬k.IsLive (k.catalog.version n)

theorem SameHolds.aside {k' : Keeper} (hs : SameHolds k k') (h : Aside n k) : Aside n k' := by
  refine ⟨?_, ?_, ?_⟩
  · rw [hs.catalog]
    exact h.kept
  · rw [hs.catalog, hs.holds]
    exact h.unheld
  · rw [hs.isLive, hs.catalog]
    exact h.notLive

theorem Aside.release (h : Aside n k) (hk : Retained k) (v : Version) :
    Aside n (k.release v).2 := by
  cases released_release hk.waits.positive v with
  | unheld _ hsame => exact hsame.aside h
  | fewer hheld _ hsame =>
    refine hsame.aside ⟨h.kept, ?_, h.notLive⟩
    have hcount := HoldTable.count_release hheld (k.catalog.version n)
    have hnone := h.unheld
    show (k.holds.release v).2.count (k.catalog.version n) = 0
    omega
  | reclaimed m hone hm hsame =>
    have hframe := Catalog.sameCommits_delete m k.catalog
    have hcount := HoldTable.count_release (t := k.holds) (v := v) (by omega) (k.catalog.version n)
    have hnone := h.unheld
    have hne : n ≠ m := by
      rintro rfl
      rw [(hk.pending hm).2.1, hone] at hnone
      cases hnone
    refine hsame.aside ⟨?_, ?_, ?_⟩
    · exact (Catalog.isDeleted_delete_of_ne hne _).trans h.kept
    · show (k.holds.release v).2.count ((k.catalog.delete m).2.version n) = 0
      rw [hframe.version]
      omega
    · rw [isLive_sameCommits (k := { k with holds := (k.holds.release v).2 }) hframe]
      show ¬k.IsLive ((k.catalog.delete m).2.version n)
      rw [hframe.version]
      exact h.notLive

/-- Consumers only reach what is live or held. -/
theorem Aside.use (h : Aside n k) (hk : Retained k) (u : Use) : Aside n (k.use u) := by
  have hall : Aside n (k.use u) ∧ Retained (k.use u) := by
    refine use_induct (P := fun k => Aside n k ∧ Retained k) ?_ ?_ ?_ u ⟨h, hk⟩
    · intro k1 k2 hsame hk
      exact ⟨hsame.aside hk.1, hsame.retained hk.2⟩
    · intro k v hv hk
      refine ⟨⟨hk.1.kept, ?_, hk.1.notLive⟩, hk.2.acquire hv⟩
      have hcount := HoldTable.count_acquire k.holds v (k.catalog.version n)
      have hne : k.catalog.version n ≠ v := by
        rintro rfl
        exact hv.elim hk.1.notLive fun hheld => absurd hk.1.unheld (Nat.ne_of_gt hheld)
      rw [if_neg hne] at hcount
      exact hcount.trans hk.1.unheld
    · intro k x hk
      refine ⟨?_, hk.2.releaseValue x⟩
      rcases releaseValue_cases x k with hsame | hsame
      · exact hsame.aside hk.1
      · exact hsame.aside (hk.1.release hk.2 _)
  exact hall.1

/-- What happens behind the keeper leaves the commit aside. -/
theorem Aside.world (h : Aside n k) (hk : Issued k) (hn : n < k.catalog.commits.length)
    {c : Catalog} (hc : k.catalog.Extends c) (hkept : c.isDeleted n = k.catalog.isDeleted n) :
    Aside n { k with catalog := c } := by
  refine ⟨hkept.trans h.kept, ?_, ?_⟩
  · show k.holds.count (c.version n) = 0
    rw [hc.version hn]
    exact h.unheld
  · rw [isLive_world hk hc]
    show ¬k.IsLive (c.version n)
    rw [hc.version hn]
    exact h.notLive

end SnapshotRetention.Keeper
