import SnapshotRetention.Proofs.Keeper.CycleSpec
import SnapshotRetention.Proofs.Keeper.Orderly

/-!
# The generations of the published lists

A keeper takes the number of its next list from the list that it has published last, and it
withdraws that list when a cycle is left with nothing to publish. The number goes with the list:
the next one is number 1 again.

Main statement: `generations_ascend_unless_withdrawn` — along any run the lists are numbered from 1
upwards, from the beginning and again after every withdrawal (`Numbered`). So their numbers ascend
exactly if no list is published after one that was withdrawn, and snapshots of all live commits with
the same number are of the same list as long as none was withdrawn in between. A cycle withdraws the
list only if the newest commit that it was shown had been deleted before.

The last of these rests on the pin: while a version is pinned, whatever a primary policy asks for
leaves the newest commit alone (`Sound.carryOutAll_spares`), because a deletion is pending only on
the version of its commit (`Aimed`).
-/

namespace SnapshotRetention

/-- Whether an event is a cycle that is shown commits. -/
def Event.publishes : Event → Bool
  | .cycle (_ :: _) _ => true
  | .cycle [] _ | .use _ | .delete _ | .world _ => false

/-- The numbers of the lists among what some cycles leave published. -/
def generations (lists : List (Option LiveList)) : List Nat :=
  lists.filterMap (Option.map LiveList.generation)

/-- Lists that are numbered upwards from a number, and from 1 on after every withdrawal. -/
def Numbered : Nat → List (Option LiveList) → Prop
  | _, [] => True
  | _, none :: rest => Numbered 0 rest
  | number, some live :: rest => live.generation = number + 1 ∧ Numbered (number + 1) rest

/-- A list is withdrawn, and another one is published later. -/
def Republishes (lists : List (Option LiveList)) : Prop :=
  ∃ first later, [some first, none, some later].Sublist lists

/-! ## Numbered lists -/

section

variable {lists rest : List (Option LiveList)} {live later : LiveList} {number : Nat}

theorem generations_some :
    generations (some live :: rest) = live.generation :: generations rest := rfl

theorem mem_generations {g : Nat} :
    g ∈ generations lists ↔ ∃ live, some live ∈ lists ∧ live.generation = g := by
  unfold generations
  simp only [List.mem_filterMap, Option.map_eq_some_iff]
  exact ⟨fun ⟨_, hlist, live, hlive, hg⟩ => ⟨live, hlive ▸ hlist, hg⟩,
    fun ⟨live, hlist, hg⟩ => ⟨some live, hlist, live, rfl, hg⟩⟩

/-- From the beginning on, the first list is number 1. -/
theorem Numbered.one_mem (h : Numbered 0 lists) (hmem : some live ∈ lists) :
    1 ∈ generations lists := by
  induction lists with
  | nil => cases hmem
  | cons list rest ih =>
    cases list with
    | none => exact ih h ((List.mem_cons.mp hmem).resolve_left (fun heq => nomatch heq))
    | some first =>
      rw [generations_some, h.1]
      exact List.mem_cons_self

/-- After a withdrawal the first list is number 1. -/
theorem Numbered.one_mem_of_withdrawn (h : Numbered number lists)
    (hwithdrawn : [none, some later].Sublist lists) : 1 ∈ generations lists := by
  induction lists generalizing number with
  | nil => cases hwithdrawn
  | cons list rest ih =>
    cases list with
    | none =>
      have hmem : some later ∈ rest := by
        cases hwithdrawn with
        | cons _ hrest => exact hrest.subset (List.mem_cons_of_mem _ List.mem_cons_self)
        | cons_cons _ hrest => exact hrest.subset List.mem_cons_self
      have h : Numbered 0 rest := h
      exact h.one_mem hmem
    | some first =>
      refine List.mem_cons_of_mem _ (ih h.2 ?_)
      cases hwithdrawn with
      | cons _ hrest => exact hrest

/-- If a list follows a withdrawn one, two lists have the number 1. -/
theorem Numbered.repeats (h : Numbered 0 lists) (hagain : Republishes lists) :
    2 ≤ (generations lists).count 1 := by
  obtain ⟨first, later, hsub⟩ := hagain
  induction lists with
  | nil => cases hsub
  | cons list rest ih =>
    cases list with
    | none =>
      cases hsub with
      | cons _ hrest => exact ih h hrest
    | some live =>
      have hrest : [none, some later].Sublist rest := by
        cases hsub with
        | cons _ hrest => exact (List.sublist_cons_self _ _).trans hrest
        | cons_cons _ hrest => exact hrest
      have hone := List.count_pos_iff.mpr (h.2.one_mem_of_withdrawn hrest)
      rw [generations_some, h.1, List.count_cons_self]
      omega

/-- Lists of which none is withdrawn and followed by another ascend. -/
theorem Numbered.ascends (h : Numbered number lists) (hagain : ¬Republishes lists)
    (hstart : number = 0 ∨ ∀ later, ¬[none, some later].Sublist lists) :
    (generations lists).Pairwise (· < ·) ∧ ∀ g ∈ generations lists, number < g := by
  induction lists generalizing number with
  | nil => exact ⟨.nil, fun g hg => nomatch hg⟩
  | cons list rest ih =>
    have hrest : ¬Republishes rest := fun ⟨first, later, hsub⟩ => hagain ⟨first, later, hsub.cons _⟩
    cases list with
    | none =>
      have h : Numbered 0 rest := h
      obtain ⟨hascends, hpositive⟩ := ih h hrest (Or.inl rfl)
      refine ⟨hascends, fun g hg => ?_⟩
      rcases hstart with rfl | hnothing
      · exact hpositive g hg
      · -- nothing follows this withdrawal
        have hg : g ∈ generations rest := hg
        obtain ⟨live, hlive, -⟩ := mem_generations.mp hg
        exact absurd ((List.singleton_sublist.mpr hlive).cons_cons none) (hnothing live)
    | some live =>
      obtain ⟨hgeneration, hnumbered⟩ := h
      obtain ⟨hascends, habove⟩ := ih hnumbered hrest
        (Or.inr fun later hsub => hagain ⟨live, later, hsub.cons_cons (some live)⟩)
      rw [generations_some, hgeneration]
      refine ⟨List.pairwise_cons.mpr ⟨fun g hg => habove g hg, hascends⟩, fun g hg => ?_⟩
      rcases List.mem_cons.mp hg with rfl | hg
      · exact Nat.lt_succ_self number
      · exact Nat.lt_of_succ_lt (habove g hg)

theorem Numbered.ascends_iff (h : Numbered 0 lists) :
    (generations lists).Pairwise (· < ·) ↔ ¬Republishes lists := by
  refine ⟨fun hascends hagain => ?_, fun hagain => (h.ascends hagain (Or.inl rfl)).1⟩
  have htwice := h.repeats hagain
  have honce := List.nodup_iff_count_le_one.mp (hascends.imp Nat.ne_of_lt) 1
  omega

end

namespace Keeper

variable {k k' : Keeper} {pins : List Version} {commits : List Nat} {newest n : Nat}
  {shown : List Guard} {events : List Event}

/-! ## What the cycles of a run leave published -/

/-- The keeper after some events. -/
def after (events : List Event) (k : Keeper) : Keeper := events.foldl (fun k e => k.step e) k

/-- The live list after each cycle of a run that was shown commits, none where it was withdrawn. -/
def posted : List Event → Keeper → List (Option LiveList)
  | [], _ => []
  | e :: rest, k =>
    if e.publishes then (k.step e).live :: posted rest (k.step e) else posted rest (k.step e)

/-- Each event of a run is allowed when it happens. -/
def AllowsAll : List Event → Keeper → Prop
  | [], _ => True
  | e :: rest, k => k.Allows e ∧ AllowsAll rest (k.step e)

instance (k : Keeper) (commits : List Nat) (requests : List Request) :
    Decidable (k.Allows (.cycle commits requests)) :=
  inferInstanceAs (Decidable (∀ n ∈ commits, n < k.catalog.commits.length))

/-- A snapshot of all live commits, if it were taken now. -/
def bundled (k : Keeper) : Option Bundle :=
  match k.snapshot with
  | (.ok slot, k') => k'.bundle? slot
  | (.error _, _) => none

/-- The number of the live list, or zero. -/
def number (k : Keeper) : Nat := k.nextGeneration - 1

theorem nextGeneration_eq_number (k : Keeper) : k.nextGeneration = k.number + 1 := by
  unfold number nextGeneration
  split
  all_goals omega

theorem bundled_eq (k : Keeper) : k.bundled =
    k.live.map fun live => ⟨live.generation, live.guards.map fun g => ⟨g, false⟩⟩ := by
  unfold bundled snapshot
  cases k.live with
  | none => rfl
  | some live => simp [addBundle, bundle?]

/-- A cycle ends with the withdrawal of the list, the newest being deleted, or with a new list. -/
theorem conclude_live (shown : List Guard) (newest : Nat) (decided : Except Error Unit)
    (k : Keeper) :
    ((k.conclude shown newest decided).2.live = none ∧ k.catalog.isDeleted newest = true) ∨
      ∃ guards, (k.conclude shown newest decided).2.live = some ⟨k.nextGeneration, guards⟩ := by
  unfold conclude
  dsimp only
  split
  next =>
    unfold concludeWithout
    split
    next hdeleted => exact Or.inl ⟨rfl, hdeleted⟩
    next => exact Or.inr ⟨_, rfl⟩
  next =>
    have hlive := (reclaimNewest_frame (k.unhold (k.catalog.version newest)).1
      (k.unhold (k.catalog.version newest)).2.sweep).live
    refine Or.inr ⟨survivors shown (k.unhold (k.catalog.version newest)).2.sweep, ?_⟩
    unfold concludeWith publish nextGeneration
    dsimp only
    rw [hlive]
    rfl

/-- A cycle that is shown commits publishes the next list or withdraws the list. -/
theorem cycle_live (hlast : commits.getLast? = some newest) (requests : List Request) (k : Keeper) :
    ((k.cycle commits requests).2.live = none ∧
        ((k.presented commits newest).carryOutAll (k.guardAll commits).1
          requests).2.catalog.isDeleted newest = true) ∨
      ∃ guards, (k.cycle commits requests).2.live = some ⟨k.nextGeneration, guards⟩ := by
  have hcarried := (carryOutAll_carried (k.guardAll commits).1 requests
    (k.presented commits newest)).live
  rw [cycle_of_newest hlast]
  refine (conclude_live _ newest _ _).imp_right fun ⟨guards, hlive⟩ => ⟨guards, hlive.trans ?_⟩
  unfold nextGeneration
  rw [hcarried]
  rfl

/-- Everything but a cycle that is shown commits leaves the published list alone. -/
theorem step_live {e : Event} (he : e.publishes = false) (k : Keeper) :
    (k.step e).live = k.live := by
  cases e with
  | use u => exact use_live u k
  | delete g => exact (deleteGuard_frame g k).live
  | cycle commits requests =>
    cases commits with
    | nil => rfl
    | cons n commits => cases he
  | world c => rfl

theorem step_live_of_publishes {e : Event} (he : e.publishes = true) (k : Keeper) :
    (k.step e).live = none ∨ ∃ guards, (k.step e).live = some ⟨k.nextGeneration, guards⟩ := by
  cases e with
  | cycle commits requests =>
    cases commits with
    | nil => cases he
    | cons n commits =>
      exact (cycle_live (List.getLast?_eq_getLast_of_ne_nil (List.cons_ne_nil n commits)) requests
        k).imp_left And.left
  | use u => cases he
  | delete g => cases he
  | world c => cases he

theorem number_of_live_eq (h : k'.live = k.live) : k'.number = k.number := by
  unfold number nextGeneration
  rw [h]

theorem number_of_live {live : LiveList} (h : k.live = some live) :
    k.number = live.generation := by
  unfold number nextGeneration
  rw [h]
  rfl

/-- Along a run, the lists are numbered upwards from the present one. -/
theorem posted_numbered (events : List Event) (k : Keeper) :
    Numbered k.number (posted events k) := by
  induction events generalizing k with
  | nil => trivial
  | cons e rest ih =>
    unfold posted
    split
    next he =>
      rcases step_live_of_publishes he k with hlive | ⟨guards, hlive⟩
      · have hrest := ih (k.step e)
        rw [hlive]
        unfold number nextGeneration at hrest
        rw [hlive] at hrest
        exact hrest
      · have hrest := ih (k.step e)
        rw [number_of_live hlive, nextGeneration_eq_number] at hrest
        rw [hlive, nextGeneration_eq_number]
        exact ⟨rfl, hrest⟩
    next he =>
      rw [← number_of_live_eq (step_live (Bool.eq_false_iff.mpr he) k)]
      exact ih (k.step e)

/-- While no list is withdrawn, the number of the live list tells how many were published. -/
theorem after_live {live : LiveList} (hlive : k.live = some live)
    (hnone : none ∉ posted events k) :
    ∃ live', (k.after events).live = some live' ∧
      live'.generation = live.generation + (posted events k).length ∧
      (posted events k = [] → live' = live) := by
  induction events generalizing k live with
  | nil => exact ⟨live, hlive, rfl, fun _ => rfl⟩
  | cons e rest ih =>
    unfold posted at hnone ⊢
    by_cases he : e.publishes = true
    · rw [if_pos he] at hnone ⊢
      obtain ⟨hhere, hrest⟩ := not_or.mp fun hmem => hnone (List.mem_cons.mpr hmem)
      obtain ⟨guards, hstep⟩ :=
        (step_live_of_publishes he k).resolve_left fun heq => hhere heq.symm
      obtain ⟨live', hlive', hgeneration, -⟩ := ih hstep hrest
      refine ⟨live', hlive', ?_, fun hnil => nomatch hnil⟩
      rw [hgeneration, List.length_cons, nextGeneration_eq_number, number_of_live hlive]
      dsimp only
      omega
    · rw [if_neg he] at hnone ⊢
      exact ih ((step_live (Bool.eq_false_iff.mpr he) k).trans hlive) hnone

/-- While no list is withdrawn, snapshots of all live commits with the same number are of the same
list. -/
theorem bundled_eq_of_generation_eq {b b' : Bundle} (hb : k.bundled = some b)
    (hb' : (k.after events).bundled = some b') (hnone : none ∉ posted events k)
    (hgeneration : b.generation = b'.generation) : b = b' := by
  rw [bundled_eq] at hb hb'
  obtain ⟨live, hlive, rfl⟩ := Option.map_eq_some_iff.mp hb
  obtain ⟨live', hlive', hnumber, hsame⟩ := after_live hlive hnone
  rw [hlive'] at hb'
  obtain rfl := Option.some.inj hb'
  have hgeneration : live.generation = live'.generation := hgeneration
  have hnil : posted events k = [] := List.eq_nil_of_length_eq_zero (by omega)
  rw [hsame hnil]

/-! ## The newest commit while the primary policy decides -/

/-- Each pending deletion is one of a commit of its version. -/
def Aimed (k : Keeper) : Prop :=
  ∀ v n, k.holds.pending? v = some n → n < k.catalog.commits.length ∧ k.catalog.version n = v

theorem Aimed.loses (h : Aimed k) (hl : Loses k k') : Aimed k' := by
  intro v n hp
  rw [hl.prunes.sameCommits.length, hl.prunes.sameCommits.version]
  exact h v n (hl.pending v n hp)

theorem Aimed.deleteGuard (h : Aimed k) (hpositive : k.holds.Positive) {g : Guard}
    (hg : k.Knows g) : Aimed (k.deleteGuard g).2 := by
  have hsame := (deleteGuard_prunes g k).sameCommits
  intro v n hp
  rw [hsame.length, hsame.version]
  rw [deleteGuard_pending hpositive] at hp
  split at hp
  next hv =>
    obtain rfl := Option.some.inj hp
    exact ⟨hg.commit, hv.1.symm⟩
  next => exact h v n hp

theorem Aimed.world (h : Aimed k) {c : Catalog} (hc : k.catalog.Extends c) :
    Aimed { k with catalog := c } := by
  intro v n hp
  obtain ⟨hn, hv⟩ := h v n hp
  exact ⟨Nat.lt_of_lt_of_le hn hc.length, (hc.version hn).trans hv⟩

theorem Aimed.use (h : Aimed k) (u : Use) : Aimed (k.use u) := by
  refine use_induct (P := Aimed) (fun hsame hk => hk.loses (.of_sameHolds hsame))
    (fun _ hk => hk.loses (loses_acquire _ _)) (fun {k} x hk => ?_) u h
  rcases releaseValue_cases x k with hsame | hsame
  · exact hk.loses (.of_sameHolds hsame)
  · exact hk.loses ((loses_release _ k).trans (.of_sameHolds hsame))

theorem Sound.carryOut_aimed (h : Sound pins k) (ha : Aimed k) (hshown : ∀ g ∈ shown, k.Knows g)
    (r : Request) : Aimed (k.carryOut shown r).2 := by
  cases carriedOut_carryOut shown r k with
  | nothing hsame => exact ha.loses (.of_sameHolds hsame)
  | asked g hg heq =>
    rw [heq]
    exact ha.deleteGuard h.counted.positive (hshown g hg)
  | released v _ hsame => exact ha.loses ((loses_release v k).trans (.of_sameHolds hsame))

/-- No request deletes a commit whose version is pinned. -/
theorem Sound.carryOut_spares (h : Sound (k.catalog.version newest :: pins) k) (ha : Aimed k)
    (hshown : ∀ g ∈ shown, k.Knows g) (hnewest : k.catalog.isDeleted newest = false)
    (r : Request) : (k.carryOut shown r).2.catalog.isDeleted newest = false := by
  have hafter := (h.carryOut hshown r).counted.pinned_pos
  cases carriedOut_carryOut shown r k with
  | nothing hsame => rwa [hsame.catalog]
  | asked g hg heq =>
    rw [heq]
    rcases Nat.eq_zero_or_pos (k.holds.count (k.version g)) with hnone | hheld
    · have hne : newest ≠ g.commit := by
        rintro rfl
        exact absurd h.counted.pinned_pos (Nat.not_lt_of_le (Nat.le_of_eq hnone))
      rw [deleteGuard_of_not_held hnone, deleteCommit_catalog, Catalog.isDeleted_delete_of_ne hne]
      exact hnewest
    · rwa [deleteGuard_of_held hheld]
  | released v _ hsame =>
    rw [hsame.catalog]
    rw [hsame.holds] at hafter
    cases released_release h.counted.positive v with
    | unheld _ hsame => rwa [hsame.catalog]
    | fewer _ _ hsame => rwa [hsame.catalog]
    | reclaimed n hlast hpending hsame =>
      -- the pin is left, so what was freed is of another version
      have hne : newest ≠ n := by
        rintro rfl
        obtain rfl := (ha v newest hpending).2
        have hcount := HoldTable.count_release (t := k.holds) (v := k.catalog.version newest)
          (by omega) (k.catalog.version newest)
        rw [if_pos rfl] at hcount
        rw [hsame.holds] at hafter
        dsimp only at hafter
        omega
      rw [hsame.catalog, Catalog.isDeleted_delete_of_ne hne]
      exact hnewest

/-- Whatever a primary policy asks for, it does not delete the pinned newest. -/
theorem Sound.carryOutAll_spares (h : Sound (k.catalog.version newest :: pins) k) (ha : Aimed k)
    (hshown : ∀ g ∈ shown, k.Knows g) (requests : List Request) :
    Aimed (k.carryOutAll shown requests).2 ∧ (k.catalog.isDeleted newest = false →
      (k.carryOutAll shown requests).2.catalog.isDeleted newest = false) := by
  rw [carryOutAll_state]
  generalize k.carriedOut shown requests = carried
  induction carried generalizing k with
  | nil => exact ⟨ha, fun hnewest => hnewest⟩
  | cons r rest ih =>
    have hcarried := carryOut_carried shown r k
    have hsound : Sound ((k.carryOut shown r).2.catalog.version newest :: pins)
        (k.carryOut shown r).2 := by
      rw [hcarried.commits.version]
      exact h.carryOut hshown r
    obtain ⟨haimed, hspared⟩ := ih hsound (h.carryOut_aimed ha hshown r)
      fun g hg => hcarried.knows (hshown g hg)
    exact ⟨haimed, fun hnewest => hspared (h.carryOut_spares ha hshown hnewest r)⟩

theorem Sound.decided_spares (h : Sound pins k) (ha : Aimed k)
    (hrange : ∀ n ∈ commits, n < k.catalog.commits.length) (newest : Nat)
    (requests : List Request) :
    Aimed ((k.presented commits newest).carryOutAll (k.guardAll commits).1 requests).2 ∧
      (k.catalog.isDeleted newest = false → ((k.presented commits newest).carryOutAll
        (k.guardAll commits).1 requests).2.catalog.isDeleted newest = false) :=
  (h.presented commits newest).carryOutAll_spares (k := k.presented commits newest)
    (fun v n hp => ha v n ((presented_pending commits newest k v) ▸ hp))
    (fun g hg => (pin_frame _ _).knows (knows_guardAll hrange g hg)) requests

/-! ## Runs -/

theorem Aimed.publish (h : Aimed k) (generation : Nat) (guards : List Guard) :
    Aimed (k.publish generation guards) := by
  have hclear : Aimed (k.clearPending guards) := by
    induction guards generalizing k with
    | nil => exact h
    | cons g guards ih => exact ih (h.loses (loses_clearPending g k))
  exact hclear

theorem Aimed.conclude (h : Aimed k) (shown : List Guard) (newest : Nat)
    (decided : Except Error Unit) (hpositive : k.holds.Positive) :
    Aimed (k.conclude shown newest decided).2 := by
  have hunpinned := h.loses (loses_unhold (k.catalog.version newest) k)
  unfold Keeper.conclude
  dsimp only
  rw [sweep_eq_self (hpositive.release _)]
  split
  next =>
    unfold concludeWithout
    split
    next => exact hunpinned
    next =>
      have hguarded : Aimed ((k.unhold (k.catalog.version newest)).2.guard newest).2 := hunpinned
      exact hguarded.publish _ _
  next =>
    have hreclaimed := hunpinned.loses (loses_reclaimNewest
      (k.unhold (k.catalog.version newest)).1 (k.unhold (k.catalog.version newest)).2)
    exact hreclaimed.publish _ _

theorem Sound.cycle_aimed (h : Sound [] k) (ha : Aimed k)
    (hrange : ∀ n ∈ commits, n < k.catalog.commits.length) (requests : List Request) :
    Aimed (k.cycle commits requests).2 := by
  cases hlast : commits.getLast? with
  | none =>
    rw [cycle_of_none hlast]
    exact ha
  | some newest =>
    rw [cycle_of_newest hlast]
    have hshown : ∀ g ∈ (k.guardAll commits).1, (k.presented commits newest).Knows g :=
      fun g hg => (pin_frame _ _).knows (knows_guardAll hrange g hg)
    exact (h.decided_spares ha hrange newest requests).1.conclude _ newest _
      ((h.presented commits newest).carryOutAll hshown requests).counted.positive

theorem Reachable.aimed (h : Reachable k) : Aimed k := by
  induction h with
  | new id reclaimOnRelease catalog => exact fun v n hp => nomatch hp
  | step e hk he ih =>
    cases e with
    | use u => exact ih.use u
    | delete g => exact ih.deleteGuard hk.sound.counted.positive he
    | cycle commits requests => exact hk.sound.cycle_aimed ih he requests
    | world c => exact ih.world he

/-- A cycle withdraws the list only if the newest of the commits that it was shown had been deleted
before. -/
theorem Reachable.newest_deleted (h : Reachable k)
    (hrange : ∀ n ∈ commits, n < k.catalog.commits.length) (hlast : commits.getLast? = some newest)
    {requests : List Request} (hlive : (k.cycle commits requests).2.live = none) :
    k.catalog.isDeleted newest = true := by
  rcases cycle_live hlast requests k with ⟨-, hdeleted⟩ | ⟨guards, hpublished⟩
  · by_contra hnewest
    have hspared := (h.sound.decided_spares h.aimed hrange newest requests).2
      (Bool.eq_false_iff.mpr hnewest)
    cases hspared.symm.trans hdeleted
  · cases hlive.symm.trans hpublished

theorem AllowsAll.split {before rest : List Event} (h : AllowsAll (before ++ rest) k) :
    AllowsAll before k ∧ AllowsAll rest (k.after before) := by
  induction before generalizing k with
  | nil => exact ⟨trivial, h⟩
  | cons e before ih =>
    obtain ⟨hbefore, hrest⟩ := ih h.2
    exact ⟨⟨h.1, hbefore⟩, hrest⟩

theorem Reachable.after (h : Reachable k) (hall : AllowsAll events k) :
    Reachable (k.after events) := by
  induction events generalizing k with
  | nil => exact h
  | cons e rest ih => exact ih (.step e h hall.1) hall.2

/-- What the numbers of the lists of a run tell. -/
structure Numbers (k : Keeper) (events : List Event) : Prop where
  numbered : Numbered 0 (posted events k)
  /-- The numbers ascend exactly if no list follows a withdrawn one, -/
  ascending : (generations (posted events k)).Pairwise (· < ·) ↔ ¬Republishes (posted events k)
  /-- and otherwise a number comes back. -/
  repeated : Republishes (posted events k) → 2 ≤ (generations (posted events k)).count 1
  /-- Until a list is withdrawn, the number tells the list that a snapshot is of. -/
  bundled : ∀ before between rest b b', events = before ++ (between ++ rest) →
    (k.after before).bundled = some b → (k.after (before ++ between)).bundled = some b' →
      none ∉ posted between (k.after before) → b.generation = b'.generation → b = b'
  /-- Only a cycle over a newest commit that had been deleted withdraws the list. -/
  withdrawn : ∀ before commits requests rest newest,
    events = before ++ Event.cycle commits requests :: rest → commits.getLast? = some newest →
      ((k.after before).step (.cycle commits requests)).live = none →
        (k.after before).catalog.isDeleted newest = true

/-- Generations ascend as long as no list is published after a withdrawn one. -/
theorem generations_ascend_unless_withdrawn (id : Nat) (reclaimOnRelease : Bool)
    (catalog : Catalog) (events : List Event)
    (hall : AllowsAll events (new id reclaimOnRelease catalog)) :
    Numbers (new id reclaimOnRelease catalog) events := by
  have hnumbered : Numbered 0 (posted events (new id reclaimOnRelease catalog)) :=
    posted_numbered events (new id reclaimOnRelease catalog)
  refine ⟨hnumbered, hnumbered.ascends_iff, hnumbered.repeats, ?_, ?_⟩
  · intro before between rest b b' _ hb hb' hnone hgeneration
    refine bundled_eq_of_generation_eq hb ?_ hnone hgeneration
    rwa [after, List.foldl_append] at hb'
  · intro before commits requests rest newest heq hlast hlive
    obtain ⟨hbefore, hrest⟩ := (heq ▸ hall : AllowsAll (before ++ _) _).split
    exact ((Reachable.new id reclaimOnRelease catalog).after hbefore).newest_deleted hrest.1 hlast
      hlive

/-- A commit is shown, snapshotted and deleted, its cycle withdraws the list, and the next commit is
shown and snapshotted. -/
def afterWithdrawal : List Event :=
  [.world ⟨[], [], [.plain 1 1]⟩, .cycle [0] [], .use .snapshot,
    .world ⟨[], [], [{ Commit.plain 1 1 with deleted := true }]⟩, .cycle [0] [],
    .world ⟨[], [], [{ Commit.plain 1 1 with deleted := true }, .plain 2 2]⟩, .cycle [0, 1] [],
    .use .snapshot]

theorem allowsAll_afterWithdrawal : AllowsAll afterWithdrawal (new 0 true default) := by
  refine ⟨⟨?_, ?_⟩, ?_, trivial, ⟨?_, ?_⟩, ?_, ⟨?_, ?_⟩, ?_, trivial, trivial⟩
  all_goals decide +kernel

theorem generations_ascend_unless_withdrawn_afterWithdrawal :
    AllowsAll afterWithdrawal (new 0 true default) ∧
      Numbers (new 0 true default) afterWithdrawal :=
  ⟨allowsAll_afterWithdrawal,
    generations_ascend_unless_withdrawn 0 true default _ allowsAll_afterWithdrawal⟩

/-- Two lists with the same number: the second commit is published as number 1, as the first was.
-/
theorem generation_repeats_after_withdrawal :
    AllowsAll afterWithdrawal (new 0 true default) ∧
      generations (posted afterWithdrawal (new 0 true default)) = [1, 1] ∧
      ¬(generations (posted afterWithdrawal (new 0 true default))).Pairwise (· < ·) ∧
      ((new 0 true default).after afterWithdrawal).bundles =
        [some ⟨1, [⟨⟨0, 0, 0⟩, false⟩]⟩, some ⟨1, [⟨⟨0, 3, 1⟩, false⟩]⟩] :=
  ⟨allowsAll_afterWithdrawal, by decide +kernel, by decide +kernel, by decide +kernel⟩

end Keeper

end SnapshotRetention
