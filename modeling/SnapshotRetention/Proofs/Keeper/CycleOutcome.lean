import SnapshotRetention.Proofs.Keeper.CycleSpec

/-!
# One cycle, end to end

Main statement: `cycle_outcome` — from any reachable state, a cycle over commits of distinct
versions whose newest is not deleted publishes exactly the commits that are kept, or the newest
alone, and leaves every hold as it was. Of the commits that are asked for it deletes those that
nobody holds, unless their deletion fails, and leaves the held ones pending; the newest is among
them only if others are kept. It reports the first of its failures (`CycleOutcome`). The primary
policy may ask for any of the commits in any order and as often as it likes, go on after a deletion
that failed or stop with an error.
-/

namespace SnapshotRetention.Keeper

variable {k : Keeper} {commits : List Nat} {newest : Nat} {requests : List Request}

/-- The outcome of deleting the newest at the end of a cycle, if that is done. -/
def newestDeletion (commits : List Nat) (newest : Nat) (requests : List Request) (k : Keeper) :
    Except Error Unit :=
  if k.Reclaims commits newest requests then
    ((k.decidedKeeper commits newest requests).catalog.delete newest).1
  else .ok ()

/-- What a cycle publishes, leaves alone, deletes and reports. -/
structure CycleOutcome (k : Keeper) (commits : List Nat) (newest : Nat) (requests : List Request) :
    Prop where
  /-- A list is published that is not empty and one generation after the one it replaces. It names
  the commits that are neither asked for nor deleted, or the newest alone if there are none. -/
  published : ∃ live, (k.cycle commits requests).2.live = some live ∧ live.guards ≠ [] ∧
    live.generation = (k.live.map fun previous => previous.generation + 1).getD 1 ∧
    live.guards.map Guard.commit =
      if k.kept commits newest requests = [] then [newest] else k.kept commits newest requests
  /-- A commit that is not asked for is deleted after the cycle exactly if it was before. -/
  unasked : ∀ n, n ∉ k.asked commits newest requests →
    (k.cycle commits requests).2.catalog.isDeleted n = k.catalog.isDeleted n
  /-- One that is asked for and that nobody holds is deleted, unless it is faulty, or the newest
  and no other is kept. -/
  asked_deleted : ∀ n ∈ k.asked commits newest requests, n < k.catalog.commits.length →
    ((k.cycle commits requests).2.catalog.isDeleted n = true ↔ k.catalog.isDeleted n = true ∨
      k.holds.count (k.catalog.version n) = 0 ∧ k.catalog.isFaulty n = false ∧
        (n = newest → k.kept commits newest requests ≠ []))
  /-- One that is asked for and held waits for its holds, unless it is the newest and no other is
  kept. -/
  asked_pending : ∀ n ∈ k.asked commits newest requests,
    0 < k.holds.count (k.catalog.version n) →
      (n = newest → k.kept commits newest requests ≠ []) →
        (k.cycle commits requests).2.holds.pending? (k.catalog.version n) = some n
  count : ∀ v, (k.cycle commits requests).2.holds.count v = k.holds.count v
  /-- No published version has a pending deletion. -/
  pending : ∀ live, (k.cycle commits requests).2.live = some live → ∀ g ∈ live.guards,
    (k.cycle commits requests).2.holds.hasPending ((k.cycle commits requests).2.version g) = false
  /-- The newest goes only if it was asked for, nobody holds it and another commit is kept. -/
  newest_deleted : (k.cycle commits requests).2.catalog.isDeleted newest = true →
    newest ∈ k.asked commits newest requests ∧ k.holds.count (k.catalog.version newest) = 0 ∧
      ∃ n ∈ k.kept commits newest requests, n ≠ newest
  /-- The error of the primary policy comes first, -/
  primary_error : ∀ e, k.decided commits newest requests = .error e →
    (k.cycle commits requests).1 = .error e
  /-- then that of deleting the newest, -/
  newest_error : ∀ e, k.decided commits newest requests = .ok () →
    k.newestDeletion commits newest requests = .error e → (k.cycle commits requests).1 = .error e
  /-- then the complaint that nothing was left. -/
  exhausted : k.decided commits newest requests = .ok () →
    k.newestDeletion commits newest requests = .ok () → k.kept commits newest requests = [] →
      (k.cycle commits requests).1 = .error (.noLiveCommits k.nextGeneration)
  ok : k.decided commits newest requests = .ok () →
    k.newestDeletion commits newest requests = .ok () → k.kept commits newest requests ≠ [] →
      (k.cycle commits requests).1 = .ok ()

theorem nextGeneration_eq (k : Keeper) :
    k.nextGeneration = (k.live.map fun previous => previous.generation + 1).getD 1 := by
  unfold nextGeneration
  cases k.live with
  | none => rfl
  | some live => rfl

theorem published_ne_nil (commits : List Nat) (newest : Nat) (requests : List Request)
    (k : Keeper) : k.published commits newest requests ≠ [] := by
  unfold published
  split
  next => exact List.cons_ne_nil _ _
  next hkept => exact hkept

/-- A commit that a cycle deletes was asked for. -/
theorem CycleSpec.asked_of_isDeleted {k' : Keeper} {result : Except Error Unit}
    (h : CycleSpec k commits newest requests result k') {n : Nat}
    (hn : n ∉ k.asked commits newest requests) :
    k'.catalog.isDeleted n = k.catalog.isDeleted n := by
  have hgone : n ∉ k.gone commits newest requests := fun hmem => hn (List.mem_filter.mp hmem).1
  rw [h.catalog, Catalog.isDeleted_deleteEach_of_not_mem,
    Catalog.isDeleted_deleteEach_of_not_mem hgone]
  split
  next hreclaims =>
    intro hmem
    exact hn (List.mem_singleton.mp hmem ▸ hreclaims.1)
  next => exact List.not_mem_nil

/-- A commit that is asked for goes while the policy decides or after that, if nobody holds it and
it is not the newest that is left. -/
theorem mem_gone_or_reclaims {n : Nat} (hn : n ∈ k.asked commits newest requests) :
    (n ∈ k.gone commits newest requests ∨
      n ∈ if k.Reclaims commits newest requests then [newest] else []) ↔
    k.holds.count (k.catalog.version n) = 0 ∧
      (n = newest → k.kept commits newest requests ≠ []) := by
  rw [List.mem_ite_nil_right, List.mem_singleton]
  unfold gone Reclaims
  by_cases hnewest : n = newest
  · subst hnewest
    simp [hn]
  · simp [hn, hnewest]

/-- Of the commits asked for only the newest may be published. -/
theorem not_mem_published_of_asked {n : Nat} (hn : n ∈ k.asked commits newest requests)
    (hnewest : n = newest → k.kept commits newest requests ≠ []) :
    n ∉ k.published commits newest requests := by
  unfold published
  split
  next hnil => exact fun hmem => hnewest (List.mem_singleton.mp hmem) hnil
  next => exact fun hmem => (mem_of_mem_kept hmem).2.1 hn

/-- The commits that are deleted after a cycle, of those asked for. -/
theorem CycleSpec.isDeleted_iff {k' : Keeper} {result : Except Error Unit}
    (h : CycleSpec k commits newest requests result k') {n : Nat}
    (hn : n ∈ k.asked commits newest requests) (hlt : n < k.catalog.commits.length) :
    k'.catalog.isDeleted n = true ↔ k.catalog.isDeleted n = true ∨
      k.holds.count (k.catalog.version n) = 0 ∧ k.catalog.isFaulty n = false ∧
        (n = newest → k.kept commits newest requests ≠ []) := by
  have hlt' : n < (k.catalog.deleteEach (k.gone commits newest requests)).commits.length :=
    (Catalog.sameCommits_deleteEach _ _).length.symm ▸ hlt
  rw [h.catalog, Catalog.isDeleted_deleteEach_iff hlt', Catalog.isDeleted_deleteEach_iff hlt,
    Catalog.isFaulty_deleteEach, or_assoc, ← or_and_right, mem_gone_or_reclaims hn, and_right_comm,
    and_assoc]

theorem Presents.newest_of_isDeleted (hp : Presents k commits newest requests) {k' : Keeper}
    {result : Except Error Unit} (h : CycleSpec k commits newest requests result k')
    (hdeleted : k'.catalog.isDeleted newest = true) : k.Reclaims commits newest requests := by
  by_cases hreclaims : k.Reclaims commits newest requests
  · exact hreclaims
  · have hkeeps : newest ∉ k.gone commits newest requests := by
      intro hmem
      have hne := (List.mem_filter.mp hmem).2
      simp at hne
    rw [h.catalog, if_neg hreclaims] at hdeleted
    have hsame := Catalog.isDeleted_deleteEach_of_not_mem hkeeps k.catalog
    rw [hp.undeleted] at hsame
    exact absurd (hsame.symm.trans hdeleted) (by decide)

theorem CycleSpec.pending_live {k' : Keeper} {result : Except Error Unit}
    (h : CycleSpec k commits newest requests result k')
    (hversion : ∀ n, k'.catalog.version n = k.catalog.version n) {live : LiveList}
    (hlive : k'.live = some live) {g : Guard} (hg : g ∈ live.guards) :
    k'.holds.hasPending (k'.version g) = false := by
  obtain ⟨guards, hguards, hmap⟩ := h.live
  rw [hlive] at hguards
  obtain rfl := Option.some.inj hguards
  have hmem : g.commit ∈ k.published commits newest requests := by
    rw [← hmap]
    exact List.mem_map_of_mem hg
  rw [HoldTable.hasPending_eq]
  unfold version
  rw [hversion, h.pending_published g.commit hmem]
  rfl

theorem cycle_outcome (h : Reachable k) (hp : Presents k commits newest requests) :
    CycleOutcome k commits newest requests := by
  have hspec := hp.cycle_spec h.sound
  have hversion : ∀ n, (k.cycle commits requests).2.catalog.version n = k.catalog.version n := by
    intro n
    rw [hspec.catalog]
    exact ((Catalog.sameCommits_deleteEach _ _).trans
      (Catalog.sameCommits_deleteEach _ _)).version n
  have hnewest : k.newestDeletion commits newest requests =
      if k.Reclaims commits newest requests then
        ((k.catalog.deleteEach (k.gone commits newest requests)).delete newest).1 else .ok () := by
    unfold newestDeletion
    rw [hp.decided_catalog]
  have hresult := hspec.result
  rw [← hnewest] at hresult
  refine
    { published := ?_
      unasked := fun n hn => hspec.asked_of_isDeleted hn
      asked_deleted := fun n hn hlt => hspec.isDeleted_iff hn hlt
      asked_pending := fun n hn hheld hnewest =>
        hspec.pending_asked n hn (not_mem_published_of_asked hn hnewest) hheld
      count := hspec.count
      pending := fun live hlive g hg => hspec.pending_live hversion hlive hg
      newest_deleted := ?_
      primary_error := ?_
      newest_error := ?_
      exhausted := ?_
      ok := ?_ }
  · obtain ⟨guards, hlive, hmap⟩ := hspec.live
    refine ⟨_, hlive, ?_, nextGeneration_eq k, hmap⟩
    intro hnil
    have hguards : guards = [] := hnil
    rw [hguards] at hmap
    exact published_ne_nil commits newest requests k hmap.symm
  · intro hdeleted
    obtain ⟨hasked, hnone, hkept⟩ := hp.newest_of_isDeleted hspec hdeleted
    obtain ⟨n, hn⟩ := List.exists_mem_of_ne_nil _ hkept
    exact ⟨hasked, hnone, n, hn, fun heq => (mem_of_mem_kept hn).2.1 (heq ▸ hasked)⟩
  · intro e hdecided
    rw [hresult, hdecided]
    rfl
  · intro e hdecided hdeletion
    rw [hresult, hdecided, hdeletion]
    rfl
  · intro hdecided hdeletion hkept
    rw [hresult, hdecided, hdeletion, if_pos hkept]
    rfl
  · intro hdecided hdeletion hkept
    rw [hresult, hdecided, hdeletion, if_neg hkept]
    rfl

/-- A keeper of three commits, of which the second cannot be deleted, after a cycle over the first
two and a snapshot of both. -/
def beforeCycle : Keeper :=
  ((new 0 false ⟨[], [], [.plain 1 0, { Commit.plain 2 0 with backing := .plain true 0 },
    .plain 3 0]⟩).step (.cycle [0, 1] [])).step (.use .snapshot)

/-- The policy asks for the first commit, which is held, twice and for the newest, and then stops.
-/
theorem cycle_outcome_beforeCycle :
    (Reachable beforeCycle ∧ Presents beforeCycle [0, 1, 2] 2
      [.delete 0, .attempt 0, .delete 2, .fail .notInitialized]) ∧
    CycleOutcome beforeCycle [0, 1, 2] 2
      [.delete 0, .attempt 0, .delete 2, .fail .notInitialized] := by
  have h : Reachable beforeCycle := by
    refine .step _ (.step _ (.new 0 false _) ?_) trivial
    show ∀ n ∈ [0, 1], n < 3
    decide
  have hp : Presents beforeCycle [0, 1, 2] 2
      [.delete 0, .attempt 0, .delete 2, .fail .notInitialized] := by
    refine ⟨rfl, by decide, rfl, ?_⟩
    simp [Request.Deletes]
  exact ⟨⟨h, hp⟩, cycle_outcome h hp⟩

end SnapshotRetention.Keeper
