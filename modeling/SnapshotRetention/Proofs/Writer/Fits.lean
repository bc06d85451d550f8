import SnapshotRetention.Proofs.Keeper.Safe
import SnapshotRetention.Proofs.Writer.Continues

/-!
# A writer and its keeper

`Writer.Fits` ties a writer to the keeper that decides about its commits: the keeper is safe and the
writer goes on with its commits (`Writer.Continues`), so that it offers to each cycle what a cycle
needs (`Fits.offers`).

A writer whose numbers cannot be followed makes one commit that is never offered to a cycle, and is
stuck with it (`Writer.Stuck`): the commit keeps the name of the next manifest taken.
-/

namespace SnapshotRetention

namespace Writer

open Keeper

variable {w : Writer} {k k' : Keeper} {m : Manifest} {n : Nat}

/-- A writer whose commits are those of a safe keeper. -/
structure Fits (w : Writer) (k : Keeper) : Prop where
  safe : k.Safe
  depot : w.depot = 0
  ascending : k.catalog.Ascending
  /-- The next version has not been used. -/
  next : ∀ n, n < k.catalog.commits.length → k.catalog.version n < w.nextVersion
  sorted : w.history.Pairwise (· < ·)
  range : ∀ n ∈ w.history, n < k.catalog.commits.length
  /-- The history misses no undeleted commit. -/
  complete : ∀ n, n < k.catalog.commits.length → k.catalog.isDeleted n = false → n ∈ w.history

/-- A writer whose next manifest cannot be written: a commit that no cycle has been offered has its
generation. -/
structure Stuck (n : Nat) (w : Writer) (k : Keeper) : Prop where
  safe : k.Safe
  depot : w.depot = 0
  range : n < k.catalog.commits.length
  generation : (k.catalog.commit n).manifest.generation = w.nextGeneration
  aside : Aside n k

theorem Fits.continues (h : w.Fits k) : w.Continues k.catalog :=
  ⟨h.depot, h.ascending, h.next, h.sorted, h.range, h.complete⟩

theorem Continues.fits (h : w.Continues k.catalog) (hsafe : k.Safe) : w.Fits k :=
  ⟨hsafe, h.depot, h.ascending, h.next, h.sorted, h.range, h.complete⟩

/-- Deleted commits may leave the history. -/
theorem Fits.prune (h : w.Fits k) :
    Fits { w with history := k.catalog.undeleted w.history } k :=
  h.continues.prune.fits h.safe

/-- The commits may be deleted, and what is behind them may change. -/
theorem Fits.later (h : w.Fits k) (hlater : k.catalog.Later k'.catalog)
    (hlength : k'.catalog.commits.length = k.catalog.commits.length) (hsafe : k'.Safe) :
    w.Fits k' :=
  (h.continues.later hlater.describes hlength hlater.deleted).fits hsafe

/-! ## One commit more -/

section
variable (h : w.Fits k) (hversion : m.version = w.nextVersion)
  (hpresent : ∀ name ∈ m.fileNames, ((k.catalog.store 0).data? name).isSome)
include h hversion hpresent

/-- A commit of the next version may join, if everything it lists is in the store. -/
theorem Fits.safe_adopt : Safe { k with catalog := (k.catalog.adopt 0 m).2 } ∧
    k.catalog.Later (k.catalog.adopt 0 m).2 ∧ (k.catalog.adopt 0 m).2.Ascending := by
  have hascending := h.ascending.adopt 0 (m := m) fun n hn => hversion ▸ h.next n hn
  obtain ⟨hsafe, hlater⟩ := h.safe.adopt hpresent hascending.distinct
  exact ⟨hsafe, hlater, hascending⟩

/-- Nothing reaches the new commit before a cycle has been offered it. -/
theorem Fits.aside_adopt :
    Aside k.catalog.commits.length { k with catalog := (k.catalog.adopt 0 m).2 } := by
  obtain ⟨hsafe, hlater, hascending⟩ := h.safe_adopt hversion hpresent
  have hlength := Catalog.length_adopt 0 m k.catalog
  -- the new version is later than all others, so nothing is held or live under it
  have hne : ∀ n, n < k.catalog.commits.length → (k.catalog.adopt 0 m).2.version n ≠
      (k.catalog.adopt 0 m).2.version k.catalog.commits.length :=
    fun n hn => KeyOrder.ne_of_lt (hascending n _ hn (by omega))
  refine ⟨?_, ?_, ?_⟩
  · show ((k.catalog.adopt 0 m).2.commit k.catalog.commits.length).deleted = false
    rw [Catalog.commit_adopt_self]
  · rcases Nat.eq_zero_or_pos (k.holds.count
        ((k.catalog.adopt 0 m).2.version k.catalog.commits.length)) with hnone | hheld
    · exact hnone
    · obtain ⟨n, hn, hv⟩ := h.safe.retained.exists_of_held h.safe.sound.issued hheld
      exact absurd ((hlater.describes.version hn).trans hv) (hne n hn)
  · rintro ⟨live, hlive, g, hg, hv⟩
    exact hne g.commit (h.safe.sound.issued.live live hlive g hg).commit hv

/-- The writer goes on with the numbers that follow. -/
theorem Fits.adopt {next : Version} (hnext : m.version < next) {w' : Writer} (hdepot : w'.depot = 0)
    (hhistory : w'.history = w.history ++ [k.catalog.commits.length])
    (hw' : w'.nextVersion = next) :
    w'.Fits { k with catalog := (k.catalog.adopt 0 m).2 } :=
  (h.continues.adopt hversion (hw'.symm ▸ hnext) hdepot hhistory).fits
    (h.safe_adopt hversion hpresent).1

end

/-! ## What is offered to a cycle -/

/-- The history of a writer is what a cycle needs, if its newest commit is one that nothing holds.
-/
theorem Fits.offers (h : w.Fits k) (hlast : w.history.getLast? = some n)
    (hkept : k.catalog.isDeleted n = false) (hunheld : k.holds.count (k.catalog.version n) = 0) :
    Offers k w.history n :=
  ⟨hlast, h.sorted.imp Nat.ne_of_lt, h.range, h.complete, hkept, hunheld⟩

/-- What a cycle over the history of a writer does to the keeper. -/
structure Cycled (w : Writer) (requests : List Request) (k k' : Keeper) : Prop where
  fits : w.Fits k'
  later : k.catalog.Later k'.catalog
  length : k'.catalog.commits.length = k.catalog.commits.length
  reclaimOnRelease : k'.reclaimOnRelease = k.reclaimOnRelease
  listed : ∀ seen, Listed (w.history ++ seen) k'
  exact : k.reclaimOnRelease = true ∨ (∀ r ∈ requests, r.Deletes) → ∀ bound, Exact bound k'

theorem Fits.cycle (h : w.Fits k) (ho : Offers k w.history n) (requests : List Request) :
    w.Cycled requests k (k.cycle w.history requests).2 := by
  obtain ⟨hsafe, hlater, hsame⟩ := h.safe.cycle ho requests
  exact
    { fits := h.later hlater hsame.length hsafe
      later := hlater
      length := hsame.length
      reclaimOnRelease := cycle_reclaimOnRelease w.history requests k
      listed := ho.listed h.safe.sound h.safe.retained requests
      exact := ho.exact h.safe.sound h.safe.retained }

/-! ## Steps that a stuck writer does not notice -/

theorem Stuck.use (h : Stuck n w k) {u : Use} (hu : k.AllowsUse u) : Stuck n w (k.use u) := by
  obtain ⟨hsafe, hlater, hsame⟩ := h.safe.use hu
  refine ⟨hsafe, h.depot, hsame.length.symm ▸ h.range, ?_, h.aside.use h.safe.retained u⟩
  rw [hsame.manifest]
  exact h.generation

theorem Stuck.setCatalog (h : Stuck n w k) {c : Catalog} (hcommits : c.commits = k.catalog.commits)
    (hbacked : c.Backed) (hlater : k.catalog.Later c) : Stuck n w { k with catalog := c } := by
  have hcommit : c.commit n = k.catalog.commit n := Catalog.commit_congr hcommits n
  refine ⟨h.safe.setCatalog hcommits hbacked hlater, h.depot, ?_, ?_, ?_⟩
  · rw [hcommits]
    exact h.range
  · show (c.commit n).manifest.generation = w.nextGeneration
    rw [hcommit]
    exact h.generation
  · refine h.aside.world h.safe.sound.issued h.range hlater.describes ?_
    unfold Catalog.isDeleted
    rw [hcommit]

end Writer

end SnapshotRetention
