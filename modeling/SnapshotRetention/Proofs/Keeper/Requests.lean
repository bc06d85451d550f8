import SnapshotRetention.Proofs.Keeper.Run

/-!
# Primary policies that only delete

A primary policy that only asks for deletions (`Request.Deletes`) is told by the guards it asks, in
order (`carryOutAll_deletes`). What that does to a keeper is written down once for a list of guards:
the commits of versions that are not held go (`deleteGuards_catalog`), the others are pending
(`deleteGuards_pending`), all guards are marked (`deleteGuards_marked`), and the counts stay.
-/

namespace SnapshotRetention

/-- The position that a request asks to delete. -/
def Request.position? : Request → Option Nat
  | .delete position | .attempt position => some position
  | .release _ | .drop _ | .fail _ => none

/-- Whether a request is for a deletion, or for nothing but an end with an error. -/
def Request.Deletes : Request → Prop
  | .delete _ | .attempt _ | .fail _ => True
  | .release _ | .drop _ => False

namespace Keeper

variable {k : Keeper} {gs : List Guard} {v : Version}

/-- Asks guards, in order, to delete their commits. -/
def deleteGuards (gs : List Guard) (k : Keeper) : Keeper :=
  gs.foldl (fun k g => (k.deleteGuard g).2) k

/-- The guards that some requests ask to delete. -/
def targets (shown : List Guard) (requests : List Request) : List Guard :=
  requests.filterMap fun r => r.position?.bind fun i => shown[i]?

theorem mem_carriedOut {shown : List Guard} {requests : List Request} {r : Request}
    (h : r ∈ k.carriedOut shown requests) : r ∈ requests := by
  induction requests generalizing k with
  | nil => exact absurd h List.not_mem_nil
  | cons r' rest ih =>
    unfold carriedOut at h
    split at h
    next =>
      obtain rfl := List.mem_singleton.mp h
      exact List.mem_cons_self
    next =>
      rcases List.mem_cons.mp h with rfl | h
      · exact List.mem_cons_self
      · exact List.mem_cons_of_mem _ (ih h)

theorem carryOut_deletes {shown : List Guard} {r : Request} (h : r.Deletes) (k : Keeper) :
    (k.carryOut shown r).2 = k.deleteGuards (targets shown [r]) := by
  cases r with
  | delete i =>
    cases hg : shown[i]? with
    | none => simp [carryOut, targets, Request.position?, deleteGuards, hg]
    | some g => simp [carryOut, targets, Request.position?, deleteGuards, hg]
  | attempt i =>
    cases hg : shown[i]? with
    | none => simp [carryOut, targets, Request.position?, deleteGuards, hg]
    | some g => simp [carryOut, targets, Request.position?, deleteGuards, hg]
  | release slot => exact h.elim
  | drop slot => exact h.elim
  | fail e => rfl

/-- A primary policy that only deletes asks its guards and does nothing else. -/
theorem carryOutAll_deletes {shown : List Guard} {requests : List Request}
    (h : ∀ r ∈ requests, r.Deletes) (k : Keeper) :
    (k.carryOutAll shown requests).2 =
      k.deleteGuards (targets shown (k.carriedOut shown requests)) := by
  rw [carryOutAll_state]
  have hcarried : ∀ r ∈ k.carriedOut shown requests, r.Deletes :=
    fun r hr => h r (mem_carriedOut hr)
  revert hcarried
  generalize k.carriedOut shown requests = carried
  intro hcarried
  induction carried generalizing k with
  | nil => rfl
  | cons r rest ih =>
    have hsplit : targets shown (r :: rest) = targets shown [r] ++ targets shown rest := by
      unfold targets
      rw [← List.filterMap_append, List.singleton_append]
    rw [List.foldl_cons, ih _ fun r' hr' => hcarried r' (List.mem_cons_of_mem _ hr'), hsplit,
      carryOut_deletes (hcarried r List.mem_cons_self)]
    unfold deleteGuards
    rw [List.foldl_append]

/-! ## Asking guards -/

theorem deleteGuards_frame (gs : List Guard) (k : Keeper) : Frame k (k.deleteGuards gs) := by
  induction gs generalizing k with
  | nil => exact Frame.refl k
  | cons g gs ih => exact (deleteGuard_frame g k).trans (ih _)

theorem deleteGuards_count (gs : List Guard) (k : Keeper) (v : Version) :
    (k.deleteGuards gs).holds.count v = k.holds.count v := by
  induction gs generalizing k with
  | nil => rfl
  | cons g gs ih => exact (ih _).trans (deleteGuard_count g k v)

theorem deleteGuards_positive (h : k.holds.Positive) (gs : List Guard) :
    (k.deleteGuards gs).holds.Positive := by
  induction gs generalizing k with
  | nil => exact h
  | cons g gs ih => exact ih (deleteGuard_positive h g)

theorem deleteGuards_marked (gs : List Guard) (k : Keeper) (s : Nat) :
    s ∈ (k.deleteGuards gs).marked ↔ s ∈ k.marked ∨ ∃ g ∈ gs, g.serial = s := by
  induction gs generalizing k with
  | nil => simp [deleteGuards]
  | cons g gs ih =>
    have hrest : s ∈ (k.deleteGuards (g :: gs)).marked ↔
        s ∈ (k.deleteGuard g).2.marked ∨ ∃ g ∈ gs, g.serial = s := ih _
    rw [hrest, deleteGuard_marked, List.mem_cons]
    constructor
    · rintro ((rfl | h) | ⟨g', hg', hs⟩)
      · exact Or.inr ⟨g, List.mem_cons_self, rfl⟩
      · exact Or.inl h
      · exact Or.inr ⟨g', List.mem_cons_of_mem _ hg', hs⟩
    · rintro (h | ⟨g', hg', hs⟩)
      · exact Or.inl (Or.inr h)
      · rcases List.mem_cons.mp hg' with rfl | hg'
        · exact Or.inl (Or.inl hs.symm)
        · exact Or.inr ⟨g', hg', hs⟩

/-- The commits of versions that are not held go, in the order in which they were asked for. -/
theorem deleteGuards_catalog (gs : List Guard) (k : Keeper) :
    (k.deleteGuards gs).catalog = k.catalog.deleteEach
      ((gs.filter fun g => k.holds.count (k.version g) = 0).map Guard.commit) := by
  induction gs generalizing k with
  | nil => rfl
  | cons g gs ih =>
    have hrest : (k.deleteGuards (g :: gs)).catalog = (k.deleteGuard g).2.catalog.deleteEach
        ((gs.filter fun g' => k.holds.count (k.version g') = 0).map Guard.commit) := by
      refine (ih _).trans ?_
      simp only [deleteGuard_count, (deleteGuard_frame g k).version]
    rw [hrest]
    by_cases hg : k.holds.count (k.version g) = 0
    · rw [deleteGuard_of_not_held hg, List.filter_cons_of_pos (by simpa using hg)]
      rfl
    · rw [deleteGuard_of_held (Nat.pos_of_ne_zero hg), List.filter_cons_of_neg (by simpa using hg)]
      rfl

theorem deleteGuard_pending (h : k.holds.Positive) (g : Guard) (v : Version) :
    (k.deleteGuard g).2.holds.pending? v =
      if v = k.version g ∧ 0 < k.holds.count v then some g.commit else k.holds.pending? v := by
  by_cases hg : 0 < k.holds.count (k.version g)
  · rw [deleteGuard_of_held hg]
    have hset : ((k.mark g).defer g).holds.pending? v =
        if v = k.version g then some g.commit else k.holds.pending? v :=
      HoldTable.pending?_setPending h hg g.commit v
    rw [hset]
    by_cases hv : v = k.version g
    · rw [if_pos hv, if_pos ⟨hv, hv ▸ hg⟩]
    · rw [if_neg hv, if_neg fun hand => hv hand.1]
  · rw [deleteGuard_of_not_held (by omega)]
    have hno : ¬(v = k.version g ∧ 0 < k.holds.count v) := fun hand => hg (hand.1 ▸ hand.2)
    rw [if_neg hno]
    rfl

theorem deleteGuards_pending_of_ne (h : k.holds.Positive) (hv : ∀ g ∈ gs, k.version g ≠ v) :
    (k.deleteGuards gs).holds.pending? v = k.holds.pending? v := by
  induction gs generalizing k with
  | nil => rfl
  | cons g gs ih =>
    have hne : ¬(v = k.version g ∧ 0 < k.holds.count v) :=
      fun hand => hv g List.mem_cons_self hand.1.symm
    have hrest : ∀ g' ∈ gs, (k.deleteGuard g).2.version g' ≠ v := by
      intro g' hg'
      rw [(deleteGuard_frame g k).version]
      exact hv g' (List.mem_cons_of_mem _ hg')
    have hfirst := deleteGuard_pending h g v
    rw [if_neg hne] at hfirst
    exact (ih (deleteGuard_positive h g) hrest).trans hfirst

/-- If only one commit of a held version is asked for, its deletion is pending. -/
theorem deleteGuards_pending {n : Nat} (h : k.holds.Positive) (hheld : 0 < k.holds.count v)
    (hone : ∀ g ∈ gs, k.version g = v → g.commit = n) (hex : ∃ g ∈ gs, k.version g = v) :
    (k.deleteGuards gs).holds.pending? v = some n := by
  induction gs generalizing k with
  | nil =>
    obtain ⟨g, hg, -⟩ := hex
    exact absurd hg List.not_mem_nil
  | cons g gs ih =>
    have hf := deleteGuard_frame g k
    have hpos := deleteGuard_positive h g
    show ((k.deleteGuard g).2.deleteGuards gs).holds.pending? v = some n
    by_cases hlater : ∃ g' ∈ gs, k.version g' = v
    · refine ih hpos ?_ ?_ ?_
      · rw [deleteGuard_count]
        exact hheld
      · intro g' hg' hv
        rw [hf.version] at hv
        exact hone g' (List.mem_cons_of_mem _ hg') hv
      · obtain ⟨g', hg', hv⟩ := hlater
        exact ⟨g', hg', (hf.version g').trans hv⟩
    · -- the last guard of the version leaves its commit in the table
      have hv : k.version g = v := by
        obtain ⟨g', hg', hv⟩ := hex
        rcases List.mem_cons.mp hg' with rfl | hg'
        · exact hv
        · exact absurd ⟨g', hg', hv⟩ hlater
      rw [deleteGuards_pending_of_ne hpos fun g' hg' hv' =>
        hlater ⟨g', hg', (hf.version g').symm.trans hv'⟩, deleteGuard_pending h,
        if_pos ⟨hv.symm, hheld⟩, hone g List.mem_cons_self hv]

end Keeper

end SnapshotRetention
