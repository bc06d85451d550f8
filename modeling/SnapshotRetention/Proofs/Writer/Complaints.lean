import SnapshotRetention.Proofs.Spared
import SnapshotRetention.Writer.Commit

/-!
# Errors that come from elsewhere

What reading manifests, deleting commits and deciding about them can go wrong with is a failed
access of a store, a manifest that makes no sense, or that nothing was left. A kind of error that is
none of these (`Error.Foreign`) is therefore avoided by all of them (`Avoids`), unless a policy
itself ends a cycle with such an error (`Decider.Avoids`). Whoever says that a number is missing, or
that a shard is in the wrong state, can be found out in this way.
-/

namespace SnapshotRetention

variable {α β : Type} {P : Error → Prop}

/-- A kind of error that no access of a store, no manifest and no cycle ends with. -/
structure Error.Foreign (P : Error → Prop) : Prop where
  store : ∀ cause, ¬P (.store cause)
  io : ∀ fault, ¬P (.io fault)
  manifest : ∀ cause, ¬P (.manifest cause)
  outOfOrder : ∀ g, ¬P (.outOfOrder g)
  noLiveCommits : ∀ cycle, ¬P (.noLiveCommits cycle)

/-- A result that is no error of some kind, but may be another error. -/
def Avoids (P : Error → Prop) (result : Except Error α) : Prop :=
  ∀ err, result = .error err → ¬P err

theorem avoids_ok (a : α) : Avoids P (.ok a : Except Error α) := nofun

theorem avoids_error {err : Error} (h : ¬P err) : Avoids P (.error err : Except Error α) :=
  fun _ heq => Except.error.inj heq ▸ h

/-- An error is passed on as an error. -/
theorem Avoids.of_error {result : Except Error α} {err : Error} (h : Avoids P result)
    (heq : result = .error err) : Avoids P (.error err : Except Error β) :=
  avoids_error (h err heq)

theorem avoids_firstFailure {first second : Except Error Unit} (h : Avoids P first)
    (h' : Avoids P second) : Avoids P (Tracker.firstFailure first second) := by
  unfold Tracker.firstFailure
  split
  next err => exact h
  next => exact h'

/-- A policy that ends no cycle with an error of some kind. -/
def Decider.Avoids (P : Error → Prop) (d : Decider) : Prop :=
  ∀ shown err, Request.fail err ∈ d.requests shown → ¬P err

/-- A stock policy never ends a cycle by itself. -/
theorem Decider.avoids_stock (p : Primary) (P : Error → Prop) : (Decider.stock p).Avoids P := by
  intro shown err hr
  obtain ⟨i, hi⟩ := Primary.eq_delete_of_mem hr
  cases hi

/-! ## Deleting -/

section
variable (hP : Error.Foreign P)
include hP

theorem Tracker.avoids_deleteAll (names : List String) (t : Tracker) (s : Store) :
    Avoids P (deleteAll names t s).1 := by
  induction names generalizing t s with
  | nil => exact avoids_ok _
  | cons name names ih =>
    refine avoids_firstFailure ?_ (ih _ _)
    split
    next => exact avoids_ok _
    next => exact avoids_ok _
    next => exact avoids_error (hP.store _)

theorem Catalog.avoids_delete (n : Nat) (c : Catalog) : Avoids P (c.delete n).1 := by
  unfold delete
  split
  next =>
    split
    next => exact avoids_ok _
    next => exact Tracker.avoids_deleteAll hP _ _ _
  next => exact avoids_error (hP.io _)
  next => exact avoids_ok _

/-! ## Deciding -/

namespace Keeper

variable {shown : List Guard} {requests : List Request}

theorem avoids_deleteGuard (g : Guard) (k : Keeper) : Avoids P (k.deleteGuard g).1 := by
  unfold deleteGuard
  split
  next => exact avoids_ok _
  next => exact Catalog.avoids_delete hP _ _

theorem avoids_carryOut {r : Request} (h : ∀ err, r = .fail err → ¬P err) (k : Keeper) :
    Avoids P (k.carryOut shown r).1 := by
  unfold carryOut
  split
  next =>
    split
    next => exact avoids_ok _
    next g _ => exact avoids_deleteGuard hP g k
  next =>
    split
    next => exact avoids_ok _
    next => exact avoids_ok _
  next => exact avoids_ok _
  next => exact avoids_ok _
  next err => exact avoids_error (h err rfl)

theorem avoids_carryOutAll (h : ∀ err, .fail err ∈ requests → ¬P err) (k : Keeper) :
    Avoids P (k.carryOutAll shown requests).1 := by
  induction requests generalizing k with
  | nil => exact avoids_ok _
  | cons r rest ih =>
    have hfirst : Avoids P (k.carryOut shown r).1 :=
      avoids_carryOut hP (fun err hr => h err (hr ▸ List.mem_cons_self)) k
    unfold carryOutAll
    split
    next heq =>
      rw [heq] at hfirst
      exact hfirst
    next k' _ => exact ih (fun err hr => h err (List.mem_cons_of_mem _ hr)) k'

theorem avoids_reclaimNewest (u : Unhold) (k : Keeper) : Avoids P (k.reclaimNewest u).1 := by
  unfold reclaimNewest
  split
  next => exact Catalog.avoids_delete hP _ _
  all_goals exact avoids_ok ()

/-- A cycle ends with an error of the policy or of a deletion, or because nothing was left. -/
theorem avoids_cycle (h : ∀ err, .fail err ∈ requests → ¬P err) (commits : List Nat) (k : Keeper) :
    Avoids P (k.cycle commits requests).1 := by
  unfold cycle
  split
  next => exact avoids_ok _
  next newest _ =>
    have hdecided : Avoids P (((k.guardAll commits).2.pin
        ((k.guardAll commits).2.catalog.version newest)).carryOutAll (k.guardAll commits).1
          requests).1 := avoids_carryOutAll hP h _
    unfold conclude
    dsimp only
    split
    next =>
      have hcomplaint := fun cycle => avoids_firstFailure hdecided
        (avoids_firstFailure (avoids_ok ()) (avoids_error (hP.noLiveCommits cycle)))
      unfold concludeWithout
      dsimp only
      split
      next => exact hcomplaint _
      next => exact hcomplaint _
    next =>
      exact avoids_firstFailure hdecided
        (avoids_firstFailure (avoids_reclaimNewest hP _ _) (avoids_ok ()))

end Keeper

namespace Engine

variable {commits : List Nat} {requests : List Request}

theorem avoids_carryOutAllBare (h : ∀ err, .fail err ∈ requests → ¬P err) (c : Catalog) :
    Avoids P (carryOutAllBare commits requests c).1 := by
  induction requests generalizing c with
  | nil => exact avoids_ok _
  | cons r rest ih =>
    have hfirst : Avoids P (carryOutBare commits r c).1 := by
      unfold carryOutBare
      split
      next =>
        split
        next => exact avoids_ok _
        next => exact Catalog.avoids_delete hP _ _
      next =>
        split
        next => exact avoids_ok _
        next => exact avoids_ok _
      next => exact avoids_ok _
      next => exact avoids_ok _
      next err => exact avoids_error (h err List.mem_cons_self)
    unfold carryOutAllBare
    split
    next heq =>
      rw [heq] at hfirst
      exact hfirst
    next c' _ => exact ih (fun err hr => h err (List.mem_cons_of_mem _ hr)) c'

/-- Whatever stands between the policy and the commits adds no errors of other kinds. -/
theorem avoids_decide {e : Engine} (hd : e.decider.Avoids P) (commits : List Nat) :
    Avoids P (e.decide commits).1 := by
  unfold decide
  dsimp only
  split
  next => exact Keeper.avoids_cycle hP (hd _) commits e.keeper
  next => exact avoids_carryOutAllBare hP (hd _) e.catalog

theorem avoids_presentHistory {e : Engine} (hd : e.decider.Avoids P) (w : Writer) :
    Avoids P (e.presentHistory w).1 := by
  unfold presentHistory
  split
  next => exact avoids_ok _
  next =>
    have hdecide := avoids_decide hP hd w.history
    split
    next heq =>
      rw [heq] at hdecide
      exact hdecide
    next => exact avoids_ok _

end Engine

/-! ## Reading and writing -/

namespace Store

theorem avoids_readManifest (s : Store) (g : Generation) : Avoids P (s.readManifest g) := by
  unfold readManifest
  split
  next => exact avoids_error (hP.store _)
  next =>
    split
    next => exact avoids_error (hP.manifest _)
    next =>
      split
      next => exact avoids_error (hP.manifest _)
      next => exact avoids_ok _

theorem avoids_readManifests (s : Store) (previous : Option Version) (gs : List Generation) :
    Avoids P (s.readManifests previous gs) := by
  induction gs generalizing previous with
  | nil => exact avoids_ok _
  | cons g rest ih =>
    unfold readManifests
    split
    next err heq => exact (avoids_readManifest hP s g).of_error heq
    next m _ =>
      split
      next => exact avoids_error (hP.outOfOrder g)
      next =>
        split
        next err heq => exact (ih (some m.version)).of_error heq
        next => exact avoids_ok _

theorem avoids_readCommits (s : Store) : Avoids P s.readCommits := by
  unfold readCommits
  split
  next => exact avoids_error (hP.store _)
  next => exact avoids_readManifests hP s _ _

end Store

theorem Engine.avoids_writeOut (add : List (String × Bytes)) (m : Manifest) (sync : Bool)
    (s : Store) : Avoids P (writeOut add m sync s).1 := by
  unfold writeOut
  split
  next => exact avoids_error (hP.store _)
  next =>
    split
    next => exact avoids_error (hP.manifest _)
    next =>
      split
      next => exact avoids_error (hP.store _)
      next =>
        split
        next =>
          split
          next => exact avoids_error (hP.store _)
          next => exact avoids_ok _
        next => exact avoids_ok _

end

end SnapshotRetention
