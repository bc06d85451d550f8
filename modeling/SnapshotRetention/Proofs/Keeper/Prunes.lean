import SnapshotRetention.Proofs.Keeper.Requests
import SnapshotRetention.Proofs.Keeper.Retained

/-!
# Whatever a keeper does, commits are only deleted

Consumers, guards that are asked and cycles change the catalog in one way: they delete commits one
after the other (`use_prunes`, `deleteGuard_prunes`, `cycle_prunes`), whatever is held or published
and whatever the primary policy asks for, since a request can do little (`CarriedOut`). So they keep
of a catalog what deleting one commit keeps (`Catalog.Prunes.induct`).
-/

namespace SnapshotRetention

namespace Keeper

open Catalog (Prunes)

variable {k k' : Keeper} {shown : List Guard} {r : Request}

/-! ## One request -/

/-- What a request of a primary policy does: it asks a guard that was shown, or it gives up a hold.
-/
inductive CarriedOut (shown : List Guard) (r : Request) (k k' : Keeper) : Prop where
  | nothing (hsame : SameHolds k k')
  | asked (g : Guard) (hg : g ∈ shown) (heq : k' = (k.deleteGuard g).2)
  | released (v : Version) (hr : ¬r.Deletes) (hsame : SameHolds (k.release v).2 k')

theorem releaseValue_cases (x : Handle) (k : Keeper) : SameHolds k (k.releaseValue x).2.2 ∨
    SameHolds (k.release (k.version x.guard)).2 (k.releaseValue x).2.2 := by
  unfold releaseValue
  split
  next => exact Or.inl (.refl k)
  next => exact Or.inr (.refl _)

theorem carriedOut_of_releaseValue {x : Handle} (hr : ¬r.Deletes)
    (h : SameHolds (k.releaseValue x).2.2 k') : CarriedOut shown r k k' := by
  rcases releaseValue_cases x k with hsame | hsame
  · exact .nothing (hsame.trans h)
  · exact .released _ hr (hsame.trans h)

theorem carriedOut_carryOut (shown : List Guard) (r : Request) (k : Keeper) :
    CarriedOut shown r k (k.carryOut shown r).2 := by
  cases r with
  | delete position =>
    unfold carryOut
    dsimp only
    split
    next => exact .nothing (.refl k)
    next g hg => exact .asked g (List.mem_of_getElem? hg) rfl
  | attempt position =>
    unfold carryOut
    dsimp only
    split
    next => exact .nothing (.refl k)
    next g hg => exact .asked g (List.mem_of_getElem? hg) rfl
  | release slot =>
    show CarriedOut shown _ k (k.releaseHandle slot).2
    unfold releaseHandle
    split
    next => exact .nothing (.refl k)
    next x _ =>
      exact carriedOut_of_releaseValue (x := x) (fun h => h) ⟨rfl, rfl, rfl, rfl, rfl, rfl⟩
  | drop slot =>
    show CarriedOut shown _ k (k.dropHandle slot).2
    unfold dropHandle
    split
    next => exact .nothing (.refl k)
    next x _ =>
      exact carriedOut_of_releaseValue (x := x) (fun h => h) ⟨rfl, rfl, rfl, rfl, rfl, rfl⟩
  | fail e => exact .nothing (.refl k)

/-! ## Giving back and taking -/

theorem deleteGuard_prunes (g : Guard) (k : Keeper) :
    Prunes k.catalog (k.deleteGuard g).2.catalog := by
  unfold deleteGuard
  split
  next => exact .refl _
  next => exact .delete g.commit k.catalog

theorem reclaim_prunes (n : Nat) (k : Keeper) : Prunes k.catalog (k.reclaim n).catalog := by
  cases hr : k.reclaimOnRelease with
  | false =>
    rw [reclaim_off hr]
    exact .refl _
  | true =>
    obtain ⟨stats, -, heq⟩ := reclaim_on hr n
    rw [heq]
    exact .delete n k.catalog

theorem settle_prunes (u : Unhold) (k : Keeper) : Prunes k.catalog (k.settle u).2.catalog := by
  unfold settle
  split
  next => exact .refl _
  next => exact .refl _
  next => exact .refl _
  next n => exact reclaim_prunes n k.countRelease

theorem release_prunes (v : Version) (k : Keeper) : Prunes k.catalog (k.release v).2.catalog :=
  settle_prunes (k.unhold v).1 (k.unhold v).2

theorem releaseValue_prunes (x : Handle) (k : Keeper) :
    Prunes k.catalog (k.releaseValue x).2.2.catalog := by
  rcases releaseValue_cases x k with hsame | hsame
  · rw [hsame.catalog]
    exact .refl _
  · rw [hsame.catalog]
    exact release_prunes _ k

theorem use_prunes (u : Use) (k : Keeper) : Prunes k.catalog (k.use u).catalog :=
  use_induct (P := fun k' => Prunes k.catalog k'.catalog)
    (fun hsame hk => hsame.catalog ▸ hk) (fun _ hk => hk)
    (fun x hk => hk.trans (releaseValue_prunes x _)) u (.refl _)

/-! ## Cycles -/

theorem carryOut_prunes (shown : List Guard) (r : Request) (k : Keeper) :
    Prunes k.catalog (k.carryOut shown r).2.catalog := by
  cases carriedOut_carryOut shown r k with
  | nothing hsame =>
    rw [hsame.catalog]
    exact .refl _
  | asked g _ heq =>
    rw [heq]
    exact deleteGuard_prunes g k
  | released v _ hsame =>
    rw [hsame.catalog]
    exact release_prunes v k

theorem carryOutAll_prunes (shown : List Guard) (requests : List Request) (k : Keeper) :
    Prunes k.catalog (k.carryOutAll shown requests).2.catalog := by
  rw [carryOutAll_state]
  generalize k.carriedOut shown requests = carried
  induction carried generalizing k with
  | nil => exact .refl _
  | cons r rest ih => exact (carryOut_prunes shown r k).trans (ih _)

theorem reclaimNewest_prunes (u : Unhold) (k : Keeper) :
    Prunes k.catalog (k.reclaimNewest u).2.catalog := by
  unfold reclaimNewest
  split
  next n => exact .delete n k.catalog
  all_goals exact .refl _

theorem publish_catalog (generation : Nat) (guards : List Guard) (u : Keeper) :
    (u.publish generation guards).catalog = u.catalog :=
  clearPending_catalog guards u

theorem conclude_prunes (shown : List Guard) (newest : Nat) (decided : Except Error Unit)
    (k : Keeper) : Prunes k.catalog (k.conclude shown newest decided).2.catalog := by
  unfold conclude
  dsimp only
  split
  next =>
    unfold concludeWithout
    split
    next => exact .refl _
    next =>
      dsimp only
      rw [publish_catalog]
      exact .refl _
  next =>
    unfold concludeWith
    dsimp only
    rw [publish_catalog]
    exact reclaimNewest_prunes _ _

theorem cycle_prunes (commits : List Nat) (requests : List Request) (k : Keeper) :
    Prunes k.catalog (k.cycle commits requests).2.catalog := by
  cases hlast : commits.getLast? with
  | none =>
    rw [cycle_of_none hlast]
    exact .refl _
  | some newest =>
    rw [cycle_of_newest hlast]
    have hdecided := carryOutAll_prunes (k.guardAll commits).1 requests (k.presented commits newest)
    exact hdecided.trans (conclude_prunes _ newest _ _)

end Keeper

end SnapshotRetention
