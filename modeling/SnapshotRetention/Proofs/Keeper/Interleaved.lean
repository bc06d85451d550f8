import SnapshotRetention.Proofs.Keeper.Prunes

/-!
# A cycle with releases in between

While a cycle runs, consumers may release snapshots, but have to wait with taking new ones. Neither
a cycle nor a release is one step. A cycle goes through phases (`Keeper.Phase`), each of them ended
by one step (`Keeper.proceed`); while the primary policy decides, each of its requests is a step. A
release first takes one hold off the table and later carries out what depended on it. `Keeper.Scene`
is a keeper in the middle of this, with the releases of which the second step is outstanding;
`Scene.run` puts the steps of one cycle and of any number of releases in an order.

Without releases in between the steps are those of `Keeper.cycle` (`Scene.run_cycle`), and the two
steps of a release, one after the other, are `Keeper.release` (`Scene.run_release`).

A release is of a version, and a snapshot is a hold of one: which slots the handles are in does not
matter here.
-/

namespace SnapshotRetention

/-- The pending deletion that giving up a hold has taken off the table. -/
def Unhold.pending? : Unhold → Option Nat
  | .freed pending => pending
  | .unknown | .held _ => none

namespace Keeper

variable {commits : List Nat} {newest : Nat} {k : Keeper} {shown guards : List Guard}
  {decided result : Except Error Unit}

/-- How far a cycle has come. -/
inductive Phase where
  | waiting
  /-- The newest is pinned, and the primary policy decides about the guarded commits. -/
  | deciding (shown : List Guard) (decided : Except Error Unit)
  | unpinned (shown : List Guard) (decided : Except Error Unit) (unpinned : Unhold)
  | swept (shown : List Guard) (decided : Except Error Unit) (unpinned : Unhold)
  /-- The survivors have been taken. -/
  | filtered (survivors : List Guard) (decided : Except Error Unit) (unpinned : Unhold)
  /-- It is settled what is published; on the rest of it deletions may be pending. -/
  | clearing (generation : Nat) (guards rest : List Guard) (result : Except Error Unit)
  | done (result : Except Error Unit)
  deriving DecidableEq

/-- Whether the survivors have been taken and are not published yet. -/
def Phase.Awaits : Phase → Prop
  | .filtered _ _ _ | .clearing _ _ _ _ => True
  | .waiting | .deciding _ _ | .unpinned _ _ _ | .swept _ _ _ | .done _ => False

/-- Publishes some guarded commits on which no deletion is pending. -/
def announce (generation : Nat) (guards : List Guard) (k : Keeper) : Keeper :=
  { k with
    live := some ⟨generation, guards⟩
    stats := { k.stats with commitsObserved := k.stats.commitsObserved + 1 } }

/-- The step of a cycle that ends a phase. -/
def proceed (commits : List Nat) (newest : Nat) (k : Keeper) : Phase → Option (Phase × Keeper)
  | .waiting => some (.deciding (k.guardAll commits).1 (.ok ()), k.presented commits newest)
  | .deciding shown decided =>
    let (unpinned, k) := k.unhold (k.catalog.version newest)
    some (.unpinned shown decided unpinned, k)
  | .unpinned shown decided unpinned => some (.swept shown decided unpinned, k.sweep)
  | .swept shown decided unpinned => some (.filtered (k.survivors shown) decided unpinned, k)
  | .filtered [] decided _ =>
    let complaint := report decided (.ok ()) (.error (.noLiveCommits k.nextGeneration))
    if k.catalog.isDeleted newest then some (.done complaint, k.withdraw)
    else
      let (g, k) := k.guard newest
      some (.clearing k.nextGeneration [g] [g] complaint, k)
  | .filtered guards decided unpinned =>
    let (reclaimed, k) := k.reclaimNewest unpinned
    some (.clearing k.nextGeneration guards guards (report decided reclaimed (.ok ())), k)
  | .clearing generation guards (g :: rest) result =>
    some (.clearing generation guards rest result, k.clearPending [g])
  | .clearing generation guards [] result => some (.done result, k.announce generation guards)
  | .done _ => none

/-- A keeper in the middle of a cycle and of releases. -/
structure Scene where
  keeper : Keeper
  phase : Phase
  /-- What the first steps of some releases have found whose second steps are still to come. -/
  outstanding : List Unhold

/-- What may happen next. -/
inductive Move where
  /-- The primary policy makes a request. -/
  | ask (r : Request)
  /-- The cycle goes on to its next phase. -/
  | proceed
  /-- The first step of a release. -/
  | release (v : Version)
  /-- The second step of a release. -/
  | settle (u : Unhold)
  /-- A snapshot is taken. -/
  | hold (v : Version)

namespace Scene

variable {s t : Scene} {moves moves' : List Move} {m : Move}

/-- Before a cycle, with no release under way. -/
def start (k : Keeper) : Scene := ⟨k, .waiting, []⟩

/-- The commits that releases are about to delete. -/
def doomed (s : Scene) : List Nat :=
  if s.keeper.reclaimOnRelease then s.outstanding.filterMap Unhold.pending? else []

/-- One step, if it is possible now. -/
def step (commits : List Nat) (newest : Nat) (m : Move) (s : Scene) : Option Scene :=
  match m with
  | .ask r =>
    match s.phase with
    | .deciding shown (.ok ()) =>
      let (decided, keeper) := s.keeper.carryOut shown r
      some { s with keeper, phase := .deciding shown decided }
    | _ => none
  | .proceed =>
    (s.keeper.proceed commits newest s.phase).map fun (phase, keeper) => { s with keeper, phase }
  | .release v =>
    let (u, keeper) := s.keeper.unhold v
    some { s with keeper, outstanding := u :: s.outstanding }
  | .settle u =>
    if u ∈ s.outstanding then
      some { s with keeper := (s.keeper.settle u).2, outstanding := s.outstanding.erase u }
    else none
  | .hold v =>
    -- Snapshots wait for the cycle.
    match s.phase with
    | .waiting | .done _ => some { s with keeper := s.keeper.acquire v }
    | _ => none

/-- Some steps in order, if they are possible. -/
def run (commits : List Nat) (newest : Nat) : List Move → Scene → Option Scene
  | [], s => some s
  | m :: rest, s => (s.step commits newest m).bind (run commits newest rest)

theorem run_append (moves moves' : List Move) (s : Scene) :
    s.run commits newest (moves ++ moves') =
      (s.run commits newest moves).bind (run commits newest moves') := by
  induction moves generalizing s with
  | nil => rfl
  | cons m moves ih =>
    show (s.step commits newest m).bind _ = ((s.step commits newest m).bind _).bind _
    rw [Option.bind_assoc]
    exact congrArg _ (funext fun t => ih t)

/-! ## Releases and cycles in one go -/

/-- A release of which nothing comes between the two steps. -/
theorem run_release (v : Version) (s : Scene) :
    s.run commits newest [.release v, .settle (s.keeper.unhold v).1] =
      some { s with keeper := (s.keeper.release v).2 } := by
  unfold run step
  dsimp only [Option.bind_some]
  unfold run step
  dsimp only
  rw [if_pos List.mem_cons_self, List.erase_cons_head]
  rfl

theorem run_proceed {p : Phase × Keeper} (h : s.keeper.proceed commits newest s.phase = some p) :
    s.run commits newest (.proceed :: moves) =
      run commits newest moves { s with keeper := p.2, phase := p.1 } := by
  have hstep : s.step commits newest .proceed = some { s with keeper := p.2, phase := p.1 } := by
    unfold step
    rw [h]
    rfl
  show (s.step commits newest .proceed).bind _ = _
  rw [hstep]
  rfl

theorem run_requests (requests : List Request) (k : Keeper) (outstanding : List Unhold) :
    run commits newest ((k.carriedOut shown requests).map .ask)
        ⟨k, .deciding shown (.ok ()), outstanding⟩ =
      some ⟨(k.carryOutAll shown requests).2, .deciding shown (k.carryOutAll shown requests).1,
        outstanding⟩ := by
  induction requests generalizing k with
  | nil => rfl
  | cons r rest ih =>
    unfold carryOutAll carriedOut
    split
    next e k' heq =>
      unfold List.map run step
      simp only [heq]
      rfl
    next k' heq =>
      unfold List.map run step
      simp only [heq]
      exact ih k'

theorem run_clearing (generation : Nat) (guards rest : List Guard) (k : Keeper)
    (outstanding : List Unhold) :
    run commits newest (List.replicate (rest.length + 1) .proceed)
        ⟨k, .clearing generation guards rest result, outstanding⟩ =
      some ⟨(k.clearPending rest).announce generation guards, .done result, outstanding⟩ := by
  induction rest generalizing k with
  | nil => rfl
  | cons g rest ih => exact ih (k.clearPending [g])

theorem run_publish (generation : Nat) (guards : List Guard) (k : Keeper)
    (outstanding : List Unhold) :
    run commits newest (List.replicate (guards.length + 1) .proceed)
        ⟨k, .clearing generation guards guards result, outstanding⟩ =
      some ⟨k.publish generation guards, .done result, outstanding⟩ := by
  have hpublish : (k.clearPending guards).announce generation guards =
      k.publish generation guards := by
    unfold announce publish
    rw [clearPending_stats]
  rw [← hpublish]
  exact run_clearing generation guards guards k outstanding

/-- The steps from the decision of the primary policy on. -/
theorem run_conclude (shown : List Guard) (decided : Except Error Unit) (k : Keeper)
    (outstanding : List Unhold) : ∃ n,
      run commits newest (List.replicate n .proceed) ⟨k, .deciding shown decided, outstanding⟩ =
        some ⟨(k.conclude shown newest decided).2, .done (k.conclude shown newest decided).1,
          outstanding⟩ := by
  -- the steps up to the filter are always possible; then it matters whether anything survives
  have hfiltered : ∀ n, run commits newest (List.replicate (n + 3) .proceed)
      ⟨k, .deciding shown decided, outstanding⟩ = run commits newest (List.replicate n .proceed)
        ⟨(k.unhold (k.catalog.version newest)).2.sweep, .filtered
          ((k.unhold (k.catalog.version newest)).2.sweep.survivors shown) decided
            (k.unhold (k.catalog.version newest)).1, outstanding⟩ := fun n => rfl
  unfold conclude
  dsimp only
  generalize (k.unhold (k.catalog.version newest)).1 = unpinned at hfiltered ⊢
  generalize (k.unhold (k.catalog.version newest)).2.sweep = k' at hfiltered ⊢
  cases hsurvivors : k'.survivors shown with
  | nil =>
    rw [hsurvivors] at hfiltered
    dsimp only
    unfold concludeWithout
    dsimp only
    by_cases hdeleted : k'.catalog.isDeleted newest = true
    · have hproceed : k'.proceed commits newest (.filtered [] decided unpinned) =
          some (.done (report decided (.ok ()) (.error (.noLiveCommits k'.nextGeneration))),
            k'.withdraw) := if_pos hdeleted
      rw [if_pos hdeleted]
      refine ⟨1 + 3, (hfiltered 1).trans ?_⟩
      rw [List.replicate_succ, run_proceed hproceed]
      rfl
    · have hproceed : k'.proceed commits newest (.filtered [] decided unpinned) =
          some (.clearing (k'.guard newest).2.nextGeneration [(k'.guard newest).1]
            [(k'.guard newest).1] (report decided (.ok ()) (.error (.noLiveCommits
              k'.nextGeneration))), (k'.guard newest).2) := if_neg hdeleted
      rw [if_neg hdeleted]
      refine ⟨3 + 3, (hfiltered 3).trans ?_⟩
      rw [List.replicate_succ, run_proceed hproceed]
      exact run_publish _ [(k'.guard newest).1] _ outstanding
  | cons g rest =>
    rw [hsurvivors] at hfiltered
    have hproceed : k'.proceed commits newest (.filtered (g :: rest) decided unpinned) =
        some (.clearing (k'.reclaimNewest unpinned).2.nextGeneration (g :: rest) (g :: rest)
          (report decided (k'.reclaimNewest unpinned).1 (.ok ())), (k'.reclaimNewest unpinned).2) :=
      rfl
    refine ⟨((g :: rest).length + 1) + 1 + 3, (hfiltered _).trans ?_⟩
    rw [List.replicate_succ, run_proceed hproceed]
    exact run_publish _ (g :: rest) (k'.reclaimNewest unpinned).2 outstanding

/-- The steps of a cycle with nothing in between make a cycle. -/
theorem run_cycle (hlast : commits.getLast? = some newest) (requests : List Request) (k : Keeper) :
    ∃ n, run commits newest (.proceed ::
        (((k.presented commits newest).carriedOut (k.guardAll commits).1 requests).map .ask ++
          List.replicate n .proceed)) (start k) =
      some ⟨(k.cycle commits requests).2, .done (k.cycle commits requests).1, []⟩ := by
  rw [cycle_of_newest hlast]
  obtain ⟨n, hconclude⟩ := @run_conclude commits newest (k.guardAll commits).1
    ((k.presented commits newest).carryOutAll (k.guardAll commits).1 requests).1
    ((k.presented commits newest).carryOutAll (k.guardAll commits).1 requests).2 []
  refine ⟨n, ?_⟩
  show run commits newest _ ⟨k.presented commits newest, .deciding (k.guardAll commits).1 (.ok ()),
    []⟩ = _
  rw [run_append, run_requests]
  exact hconclude

end Scene

end Keeper

end SnapshotRetention
