import SnapshotRetention.Proofs.Keeper.Frame
import SnapshotRetention.Proofs.Lists

/-!
# The handles a keeper has given out

`Keeper.given` lists all handles in slots, loose or inside bundles, and `Keeper.unreleased` those
among them that still hold their commit. Filling and emptying slots exchanges one handle, or the
handles of one bundle, and leaves the others where they are (`Keeper.setHandle_perm`,
`Keeper.setBundle_perm`); which slot a handle is in does not matter, so all of this is up to the
order of the lists.
-/

namespace SnapshotRetention

/-- The handles of a bundle, if there is one. -/
def Bundle.contents : Option Bundle → List Handle
  | none => []
  | some b => b.handles

namespace Keeper

variable {k k' : Keeper}

/-- All handles in slots, loose or inside bundles. -/
def given (k : Keeper) : List Handle :=
  k.handles.flatMap Option.toList ++ k.bundles.flatMap Bundle.contents

/-- The handles that hold their commit. -/
def unreleased (k : Keeper) : List Handle := k.given.filter fun h => !h.released

/-- The number of handles that hold a version. -/
def unreleasedOf (v : Version) (k : Keeper) : Nat :=
  k.unreleased.countP fun h => decide (k.version h.guard = v)

/-- The versions that some handles hold, each as often as it is held. -/
def heldBy (k : Keeper) (hs : List Handle) : List Version :=
  (hs.filter fun h => !h.released).map fun h => k.version h.guard

/-- The versions that the handles in slots hold, each as often as it is held. -/
def heldVersions (k : Keeper) : List Version := k.heldBy k.given

theorem mem_unreleased {h : Handle} : h ∈ k.unreleased ↔ h ∈ k.given ∧ h.released = false := by
  simp [unreleased]

theorem unreleasedOf_eq_count (v : Version) (k : Keeper) :
    k.unreleasedOf v = k.heldVersions.count v := by
  unfold unreleasedOf heldVersions heldBy unreleased
  rw [List.count_eq_countP, List.countP_map]
  rfl

theorem length_unreleased (k : Keeper) : k.unreleased.length = k.heldVersions.length := by
  unfold heldVersions heldBy unreleased
  rw [List.length_map]

theorem heldBy_append (hs hs' : List Handle) (k : Keeper) :
    k.heldBy (hs ++ hs') = k.heldBy hs ++ k.heldBy hs' := by
  unfold heldBy
  rw [List.filter_append, List.map_append]

theorem heldBy_cons_unreleased {h : Handle} (hr : h.released = false) (hs : List Handle)
    (k : Keeper) : k.heldBy (h :: hs) = k.version h.guard :: k.heldBy hs := by
  unfold heldBy
  rw [List.filter_cons_of_pos (by simp [hr]), List.map_cons]

theorem heldBy_cons_released {h : Handle} (hr : h.released = true) (hs : List Handle)
    (k : Keeper) : k.heldBy (h :: hs) = k.heldBy hs := by
  unfold heldBy
  rw [List.filter_cons_of_neg (by simp [hr])]

theorem heldBy_perm {hs hs' : List Handle} (hp : hs.Perm hs') (k : Keeper) :
    (k.heldBy hs).Perm (k.heldBy hs') :=
  (hp.filter _).map _

theorem Frame.heldBy (h : Frame k k') (hs : List Handle) : k'.heldBy hs = k.heldBy hs := by
  unfold Keeper.heldBy
  simp only [h.version]

theorem Frame.given (h : Frame k k') : k'.given = k.given := by
  unfold Keeper.given
  rw [h.handles, h.bundles]

theorem Frame.heldVersions (h : Frame k k') : k'.heldVersions = k.heldVersions := by
  unfold Keeper.heldVersions
  rw [h.given, h.heldBy]

/-! ## Slots -/

/-- Exchanging the handle in a slot leaves all other handles alone. -/
theorem setHandle_perm {slot : Nat} {h : Handle} (hh : k.handle? slot = some h) :
    ∃ rest, k.given.Perm (h :: rest) ∧
      ∀ x, (k.setHandle slot x).given.Perm (x.toList ++ rest) := by
  have hslot : k.handles[slot]? = some (some h) := Option.join_eq_some_iff.mp hh
  obtain ⟨rest, hl, hset⟩ := flatMap_set_perm Option.toList hslot
  refine ⟨rest ++ k.bundles.flatMap Bundle.contents, ?_, ?_⟩
  · exact hl.append_right _
  · intro x
    rw [← List.append_assoc]
    exact (hset x).append_right _

/-- Exchanging the bundle in a slot leaves all other handles alone. -/
theorem setBundle_perm {slot : Nat} {b : Bundle} (hb : k.bundle? slot = some b) :
    ∃ rest, k.given.Perm (b.handles ++ rest) ∧
      ∀ x, (k.setBundle slot x).given.Perm (Bundle.contents x ++ rest) := by
  have hslot : k.bundles[slot]? = some (some b) := Option.join_eq_some_iff.mp hb
  obtain ⟨rest, hl, hset⟩ := flatMap_set_perm Bundle.contents hslot
  refine ⟨k.handles.flatMap Option.toList ++ rest, ?_, ?_⟩
  · exact (hl.append_left _).trans (List.perm_append_comm_assoc ..)
  · intro x
    exact ((hset x).append_left _).trans (List.perm_append_comm_assoc ..)

theorem addHandle_perm (h : Handle) (k : Keeper) : (k.addHandle h).2.given.Perm (h :: k.given) := by
  unfold addHandle given
  simp only [List.flatMap_append, List.flatMap_cons, List.flatMap_nil, Option.toList_some,
    List.append_nil]
  rw [List.append_assoc]
  exact List.perm_middle

theorem addBundle_perm (b : Bundle) (k : Keeper) :
    (k.addBundle b).2.given.Perm (b.handles ++ k.given) := by
  unfold addBundle given
  simp only [List.flatMap_append, List.flatMap_cons, List.flatMap_nil, List.append_nil]
  rw [← List.append_assoc]
  exact List.perm_append_comm

/-- Taking a bundle apart moves its handles and nothing else. -/
theorem openBundle_perm (slot : Nat) (k : Keeper) : (k.openBundle slot).2.given.Perm k.given := by
  unfold openBundle
  split
  next => exact .refl _
  next b hb =>
    obtain ⟨rest, hall, hset⟩ := setBundle_perm hb
    have hloose : (b.handles.map some).flatMap Option.toList = b.handles := by
      simp [List.flatMap_map]
    have hnone : (k.setBundle slot none).given.Perm rest := hset none
    refine List.Perm.trans ?_ ((hnone.append_left b.handles).trans hall.symm)
    show ((k.handles ++ b.handles.map some).flatMap Option.toList ++ _).Perm _
    rw [List.flatMap_append, hloose, List.append_assoc]
    exact List.perm_append_comm_assoc ..

/-! ## Known guards -/

/-- A guard that the keeper can have made: its number is taken and its commit exists. -/
structure Knows (k : Keeper) (g : Guard) : Prop where
  serial : g.serial < k.serials
  commit : g.commit < k.catalog.commits.length

/-- The keeper knows every guard that is in use. -/
structure Issued (k : Keeper) : Prop where
  given : ∀ h ∈ k.given, k.Knows h.guard
  live : ∀ live, k.live = some live → ∀ g ∈ live.guards, k.Knows g
  marked : ∀ s ∈ k.marked, s < k.serials

theorem Frame.knows (h : Frame k k') {g : Guard} (hg : k.Knows g) : k'.Knows g :=
  ⟨h.serials ▸ hg.serial, h.commits.length ▸ hg.commit⟩

theorem Issued.frame (h : Issued k) (hf : Frame k k')
    (hm : ∀ s ∈ k'.marked, s ∈ k.marked ∨ s < k.serials) : Issued k' := by
  refine ⟨?_, ?_, ?_⟩
  · intro x hx
    exact hf.knows (h.given x (hf.given ▸ hx))
  · intro live hl g hg
    exact hf.knows (h.live live (hf.live ▸ hl) g hg)
  · intro s hs
    rw [hf.serials]
    exact (hm s hs).elim (h.marked s) fun hlt => hlt

end Keeper

end SnapshotRetention
