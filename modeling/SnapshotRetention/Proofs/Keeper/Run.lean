import Mathlib.Data.List.Nodup
import SnapshotRetention.Proofs.Keeper.Slots

/-!
# Runs of a keeper

A keeper is driven by consumers, who take and give back snapshots and may also ask a guard to delete
its commit, by cycles over any commits with any requests, and by the world, which adds commits and
changes what stands behind them. `Keeper.Reachable` are the states that any order of these leads
to.

In each of them all guards in use are known and the holds are counted (`Keeper.Sound`): every step
keeps that (`Sound.step`), so every run does (`Reachable.sound`). Inside a cycle the newest version
is pinned as well, which is why `Sound` carries the pins: they come on with `Sound.pin`, stay
through all requests of the primary policy (`Sound.carryOutAll`) and go with `Sound.unhold`.
-/

namespace SnapshotRetention

/-- What a consumer does with snapshots. -/
inductive Use where
  | snapshot
  | current
  /-- A snapshot of the commit of a guard. -/
  | commit (g : Guard)
  | release (slot : Nat)
  | drop (slot : Nat)
  | releaseBundle (slot : Nat)
  | releaseInBundle (slot index : Nat)
  | dropBundle (slot : Nat)
  | openBundle (slot : Nat)

/-- What happens to a keeper. -/
inductive Event where
  | use (u : Use)
  /-- A consumer asks a guard to delete its commit. -/
  | delete (g : Guard)
  /-- A cycle over some commits, with what the primary policy asks for. -/
  | cycle (commits : List Nat) (requests : List Request)
  /-- The commits and what is behind them change. -/
  | world (c : Catalog)

namespace Keeper

variable {k k' : Keeper} {pins : List Version} {shown : List Guard}

/-- The keeper after a consumer's step. -/
def use (u : Use) (k : Keeper) : Keeper :=
  match u with
  | .snapshot => k.snapshot.2
  | .current => k.snapshotCurrent.2
  | .commit g => (k.snapshotCommit g).2
  | .release slot => (k.releaseHandle slot).2
  | .drop slot => (k.dropHandle slot).2
  | .releaseBundle slot => (k.releaseBundle slot).2
  | .releaseInBundle slot index => (k.releaseInBundle slot index).2
  | .dropBundle slot => (k.dropBundle slot).2
  | .openBundle slot => (k.openBundle slot).2

/-- The keeper after an event. -/
def step (e : Event) (k : Keeper) : Keeper :=
  match e with
  | .use u => k.use u
  | .delete g => (k.deleteGuard g).2
  | .cycle commits requests => (k.cycle commits requests).2
  | .world c => { k with catalog := c }

/-- A guard is used only if the keeper can have made it. -/
def AllowsUse (k : Keeper) : Use → Prop
  | .commit g => k.Knows g
  | _ => True

/-- The presented commits exist, and the world keeps the description of each commit. -/
def Allows (k : Keeper) : Event → Prop
  | .use u => k.AllowsUse u
  | .delete g => k.Knows g
  | .cycle commits _ => ∀ n ∈ commits, n < k.catalog.commits.length
  | .world c => k.catalog.Extends c

/-- The states of a keeper in any run. -/
inductive Reachable : Keeper → Prop where
  | new (id : Nat) (reclaimOnRelease : Bool) (catalog : Catalog) :
    Reachable (.new id reclaimOnRelease catalog)
  | step {k : Keeper} (e : Event) : Reachable k → k.Allows e → Reachable (k.step e)

/-! ## Consumers and the world -/

theorem Sound.use (h : Sound pins k) {u : Use} (hu : k.AllowsUse u) : Sound pins (k.use u) := by
  cases u with
  | snapshot => exact h.snapshot
  | current => exact h.snapshotCurrent
  | commit g => exact h.snapshotCommit hu
  | release slot => exact h.releaseHandle slot
  | drop slot => exact h.dropHandle slot
  | releaseBundle slot => exact h.releaseBundle slot
  | releaseInBundle slot index => exact h.releaseInBundle slot index
  | dropBundle slot => exact h.dropBundle slot
  | openBundle slot => exact h.openBundle slot

theorem Sound.deleteGuard (h : Sound pins k) {g : Guard} (hg : k.Knows g) :
    Sound pins (k.deleteGuard g).2 := by
  have hf := deleteGuard_frame g k
  refine ⟨h.issued.frame hf ?_, ?_⟩
  · intro s hs
    rw [deleteGuard_marked] at hs
    rcases List.mem_cons.mp hs with rfl | hs
    · exact Or.inr hg.serial
    · exact Or.inl hs
  · rw [hf.heldVersions]
    exact h.counted.deleteGuard g

/-- A known guard reads its version off any catalog that describes the commits. -/
theorem heldVersions_world (h : Issued k) {c : Catalog} (hc : k.catalog.Extends c) :
    heldVersions { k with catalog := c } = k.heldVersions := by
  unfold heldVersions heldBy
  refine List.map_congr_left ?_
  intro x hx
  exact hc.version (h.given x (List.mem_filter.mp hx).1).commit

theorem Sound.world (h : Sound pins k) {c : Catalog} (hc : k.catalog.Extends c) :
    Sound pins { k with catalog := c } := by
  have hknows : ∀ {g}, k.Knows g → Knows { k with catalog := c } g :=
    fun hg => ⟨hg.serial, Nat.lt_of_lt_of_le hg.commit hc.length⟩
  refine ⟨⟨fun x hx => hknows (h.issued.given x hx),
    fun live hl g hg => hknows (h.issued.live live hl g hg), h.issued.marked⟩, ?_⟩
  rw [heldVersions_world h.issued hc]
  exact h.counted

/-! ## New guards -/

/-- Making guards leaves the guards made before known. -/
theorem Sound.moreSerials (h : Sound pins k) (m : Nat) :
    Sound pins { k with serials := k.serials + m } := by
  have hknows : ∀ {g}, k.Knows g → Knows { k with serials := k.serials + m } g :=
    fun hg => ⟨Nat.lt_add_right m hg.serial, hg.commit⟩
  exact ⟨⟨fun x hx => hknows (h.issued.given x hx),
    fun live hl g hg => hknows (h.issued.live live hl g hg),
    fun s hs => Nat.lt_add_right m (h.issued.marked s hs)⟩, h.counted⟩

/-- The guard of the commit at a position. -/
theorem guardAll_getElem? (commits : List Nat) (k : Keeper) (i : Nat) :
    (k.guardAll commits).1[i]? = commits[i]?.map fun n => ⟨k.id, k.serials + i, n⟩ := by
  unfold guardAll
  rw [List.getElem?_zipWith]
  by_cases hi : i < commits.length
  · simp [hi]
  · simp [hi]

theorem map_commit_guardAll (commits : List Nat) (k : Keeper) :
    (k.guardAll commits).1.map Guard.commit = commits := by
  refine List.ext_getElem? ?_
  intro i
  rw [List.getElem?_map, guardAll_getElem?, Option.map_map]
  exact Option.map_id'

theorem mem_guardAll {commits : List Nat} {g : Guard} (h : g ∈ (k.guardAll commits).1) :
    ∃ i, commits[i]? = some g.commit ∧ g.serial = k.serials + i := by
  obtain ⟨i, hi⟩ := List.mem_iff_getElem?.mp h
  rw [guardAll_getElem?] at hi
  obtain ⟨n, hn, rfl⟩ := Option.map_eq_some_iff.mp hi
  exact ⟨i, hn, rfl⟩

/-- The number of a guard says which commit it guards. -/
theorem commit_eq_of_serial_eq {commits : List Nat} {g g' : Guard} (hg : g ∈ (k.guardAll commits).1)
    (hg' : g' ∈ (k.guardAll commits).1) (h : g.serial = g'.serial) : g.commit = g'.commit := by
  obtain ⟨i, hi, hs⟩ := mem_guardAll hg
  obtain ⟨j, hj, hs'⟩ := mem_guardAll hg'
  obtain rfl : i = j := by omega
  rw [hi] at hj
  exact Option.some.inj hj

theorem serial_eq_of_commit_eq {commits : List Nat} {g g' : Guard} (hnodup : commits.Nodup)
    (hg : g ∈ (k.guardAll commits).1) (hg' : g' ∈ (k.guardAll commits).1)
    (h : g.commit = g'.commit) : g.serial = g'.serial := by
  obtain ⟨i, hi, hs⟩ := mem_guardAll hg
  obtain ⟨j, hj, hs'⟩ := mem_guardAll hg'
  rw [← h] at hj
  have hij : i = j := by
    obtain ⟨hlt, hi⟩ := List.getElem?_eq_some_iff.mp hi
    obtain ⟨hlt', hj⟩ := List.getElem?_eq_some_iff.mp hj
    exact (List.Nodup.getElem_inj_iff hnodup).mp (hi.trans hj.symm)
  omega

theorem knows_guardAll {commits : List Nat} (hrange : ∀ n ∈ commits, n < k.catalog.commits.length) :
    ∀ g ∈ (k.guardAll commits).1, (k.guardAll commits).2.Knows g := by
  intro g hg
  obtain ⟨i, hi⟩ := List.mem_iff_getElem?.mp hg
  rw [guardAll_getElem?] at hi
  obtain ⟨n, hn, rfl⟩ := Option.map_eq_some_iff.mp hi
  have hlt : i < commits.length := (List.getElem?_eq_some_iff.mp hn).1
  exact ⟨Nat.add_lt_add_left hlt k.serials, hrange n (List.mem_of_getElem? hn)⟩

/-! ## The requests of a primary policy -/

/-- The requests of a primary policy that are carried out: the first that fails is the last. -/
def carriedOut (shown : List Guard) : List Request → Keeper → List Request
  | [], _ => []
  | r :: rest, k =>
    match k.carryOut shown r with
    | (.error _, _) => [r]
    | (.ok (), k) => r :: carriedOut shown rest k

theorem carryOutAll_state (shown : List Guard) (requests : List Request) (k : Keeper) :
    (k.carryOutAll shown requests).2 =
      (k.carriedOut shown requests).foldl (fun k r => (k.carryOut shown r).2) k := by
  induction requests generalizing k with
  | nil => rfl
  | cons r rest ih =>
    unfold carryOutAll carriedOut
    split
    next e k' heq => simp only [heq, List.foldl_cons, List.foldl_nil]
    next k' heq =>
      simp only [heq, List.foldl_cons]
      exact ih k'

/-- What every request of a primary policy leaves alone. -/
structure Carried (k k' : Keeper) : Prop where
  id : k'.id = k.id
  reclaimOnRelease : k'.reclaimOnRelease = k.reclaimOnRelease
  live : k'.live = k.live
  serials : k'.serials = k.serials
  commits : k.catalog.SameCommits k'.catalog

theorem Carried.refl (k : Keeper) : Carried k k := ⟨rfl, rfl, rfl, rfl, .refl _⟩

theorem Carried.trans {k'' : Keeper} (h : Carried k k') (h' : Carried k' k'') : Carried k k'' :=
  ⟨h'.id.trans h.id, h'.reclaimOnRelease.trans h.reclaimOnRelease, h'.live.trans h.live,
    h'.serials.trans h.serials, h.commits.trans h'.commits⟩

theorem Frame.carried (h : Frame k k') : Carried k k' :=
  ⟨h.id, h.reclaimOnRelease, h.live, h.serials, h.commits⟩

theorem Carried.knows (h : Carried k k') {g : Guard} (hg : k.Knows g) : k'.Knows g :=
  ⟨h.serials ▸ hg.serial, h.commits.length ▸ hg.commit⟩

theorem releaseHandle_carried (slot : Nat) (k : Keeper) : Carried k (k.releaseHandle slot).2 := by
  unfold releaseHandle
  split
  next => exact Carried.refl k
  next x _ =>
    have hf := (releaseValue_frame x k).carried
    exact ⟨hf.id, hf.reclaimOnRelease, hf.live, hf.serials, hf.commits⟩

theorem dropHandle_carried (slot : Nat) (k : Keeper) : Carried k (k.dropHandle slot).2 := by
  unfold dropHandle
  split
  next => exact Carried.refl k
  next x _ =>
    have hf := (releaseValue_frame x k).carried
    exact ⟨hf.id, hf.reclaimOnRelease, hf.live, hf.serials, hf.commits⟩

theorem carryOut_carried (shown : List Guard) (r : Request) (k : Keeper) :
    Carried k (k.carryOut shown r).2 := by
  unfold carryOut
  split
  next =>
    split
    next => exact Carried.refl k
    next g _ => exact (deleteGuard_frame g k).carried
  next =>
    split
    next => exact Carried.refl k
    next g _ => exact (deleteGuard_frame g k).carried
  next slot => exact releaseHandle_carried slot k
  next slot => exact dropHandle_carried slot k
  next => exact Carried.refl k

theorem carryOutAll_carried (shown : List Guard) (requests : List Request) (k : Keeper) :
    Carried k (k.carryOutAll shown requests).2 := by
  rw [carryOutAll_state]
  generalize k.carriedOut shown requests = carried
  induction carried generalizing k with
  | nil => exact Carried.refl k
  | cons r rest ih => exact (carryOut_carried shown r k).trans (ih _)

theorem Sound.carryOut (h : Sound pins k) (hshown : ∀ g ∈ shown, k.Knows g) (r : Request) :
    Sound pins (k.carryOut shown r).2 := by
  unfold Keeper.carryOut
  split
  next =>
    split
    next => exact h
    next g hg => exact h.deleteGuard (hshown g (List.mem_of_getElem? hg))
  next =>
    split
    next => exact h
    next g hg => exact h.deleteGuard (hshown g (List.mem_of_getElem? hg))
  next slot => exact h.releaseHandle slot
  next slot => exact h.dropHandle slot
  next => exact h

theorem Sound.carryOutAll (h : Sound pins k) (hshown : ∀ g ∈ shown, k.Knows g)
    (requests : List Request) : Sound pins (k.carryOutAll shown requests).2 := by
  rw [carryOutAll_state]
  generalize k.carriedOut shown requests = carried
  induction carried generalizing k with
  | nil => exact h
  | cons r rest ih =>
    have hcarried := carryOut_carried shown r k
    exact ih (h.carryOut hshown r) fun g hg => hcarried.knows (hshown g hg)

/-! ## The parts of a cycle -/

theorem pin_frame (v : Version) (k : Keeper) : Frame k (k.pin v) :=
  ⟨rfl, rfl, rfl, rfl, rfl, rfl, .refl _⟩

theorem Sound.pin (h : Sound pins k) (v : Version) : Sound (v :: pins) (k.pin v) :=
  ⟨h.issued.frame (pin_frame v k) fun _ hs => Or.inl hs, h.counted.pin v⟩

theorem Sound.unhold {v : Version} (h : Sound (v :: pins) k) : Sound pins (k.unhold v).2 :=
  ⟨h.issued.frame (unhold_frame v k) fun _ hs => Or.inl hs, h.counted.unpin⟩

theorem reclaimNewest_frame (u : Unhold) (k : Keeper) : Frame k (k.reclaimNewest u).2 := by
  unfold reclaimNewest
  split
  next n => exact deleteCommit_frame n k
  all_goals exact Frame.refl k

theorem Sound.reclaimNewest (h : Sound pins k) (u : Unhold) : Sound pins (k.reclaimNewest u).2 := by
  have hf := reclaimNewest_frame u k
  have hsame : (k.reclaimNewest u).2.holds = k.holds ∧ (k.reclaimNewest u).2.stats = k.stats ∧
      (k.reclaimNewest u).2.marked = k.marked := by
    unfold Keeper.reclaimNewest
    split
    all_goals exact ⟨rfl, rfl, rfl⟩
  obtain ⟨hholds, hstats, hmarked⟩ := hsame
  refine ⟨h.issued.frame hf fun s hs => Or.inl (hmarked ▸ hs), ?_⟩
  rw [hf.heldVersions, hholds, hstats]
  exact h.counted

theorem Sound.publish (h : Sound pins k) (generation : Nat) {guards : List Guard}
    (hguards : ∀ g ∈ guards, k.Knows g) : Sound pins (k.publish generation guards) := by
  have hf := clearPending_frame guards k
  have hissued : Issued (k.clearPending guards) :=
    h.issued.frame hf fun s hs => Or.inl (clearPending_marked guards k ▸ hs)
  have hknows : ∀ {g}, (k.clearPending guards).Knows g → (k.publish generation guards).Knows g :=
    fun hg => ⟨hg.serial, hg.commit⟩
  refine ⟨⟨fun x hx => hknows (hissued.given x hx), ?_, hissued.marked⟩, ?_⟩
  · intro live hl g hg
    have hlive : (⟨generation, guards⟩ : LiveList) = live := Option.some.inj hl
    rw [← hlive] at hg
    exact hknows (hf.knows (hguards g hg))
  · have hheld : (k.publish generation guards).heldVersions = k.heldVersions := hf.heldVersions
    rw [hheld]
    exact h.counted.publish generation guards

theorem Sound.withdraw (h : Sound pins k) : Sound pins k.withdraw := by
  refine ⟨⟨?_, ?_, h.issued.marked⟩, h.counted⟩
  · intro x hx
    exact ⟨(h.issued.given x hx).serial, (h.issued.given x hx).commit⟩
  · intro live hl
    cases hl

theorem Sound.concludeWith (h : Sound pins k) {guards : List Guard}
    (hguards : ∀ g ∈ guards, k.Knows g) (u : Unhold) (decided : Except Error Unit) :
    Sound pins (k.concludeWith guards u decided).2 :=
  (h.reclaimNewest u).publish _ fun g hg => (reclaimNewest_frame u k).knows (hguards g hg)

theorem Sound.concludeWithout (h : Sound pins k) {newest : Nat}
    (hnewest : newest < k.catalog.commits.length) (decided : Except Error Unit) :
    Sound pins (k.concludeWithout newest decided).2 := by
  unfold Keeper.concludeWithout
  split
  next => exact h.withdraw
  next =>
    refine (h.moreSerials 1).publish _ ?_
    intro g hg
    obtain rfl := List.mem_singleton.mp hg
    exact ⟨Nat.lt_succ_self _, hnewest⟩

theorem Sound.conclude {newest : Nat} (h : Sound (k.catalog.version newest :: pins) k)
    (hshown : ∀ g ∈ shown, k.Knows g) (hnewest : newest < k.catalog.commits.length)
    (decided : Except Error Unit) : Sound pins (k.conclude shown newest decided).2 := by
  have hunpinned := h.unhold
  unfold Keeper.conclude
  dsimp only
  rw [sweep_eq_self hunpinned.counted.positive]
  split
  next => exact hunpinned.concludeWithout hnewest decided
  next =>
    refine hunpinned.concludeWith ?_ _ decided
    intro g hg
    exact (unhold_frame _ k).knows (hshown g (List.mem_filter.mp hg).1)

/-- The keeper that a primary policy finds: all commits are guarded and the newest is pinned. -/
def presented (commits : List Nat) (newest : Nat) (k : Keeper) : Keeper :=
  (k.guardAll commits).2.pin (k.catalog.version newest)

/-- A cycle concludes after the primary policy has decided. -/
theorem cycle_of_newest {commits : List Nat} {newest : Nat} (h : commits.getLast? = some newest)
    (requests : List Request) (k : Keeper) :
    k.cycle commits requests =
      ((k.presented commits newest).carryOutAll (k.guardAll commits).1 requests).2.conclude
        (k.guardAll commits).1 newest
        ((k.presented commits newest).carryOutAll (k.guardAll commits).1 requests).1 := by
  unfold cycle
  rw [h]
  rfl

theorem cycle_of_none {commits : List Nat} (h : commits.getLast? = none)
    (requests : List Request) (k : Keeper) : k.cycle commits requests = (.ok (), k) := by
  unfold cycle
  rw [h]

theorem conclude_reclaimOnRelease (shown : List Guard) (newest : Nat)
    (decided : Except Error Unit) (k : Keeper) :
    (k.conclude shown newest decided).2.reclaimOnRelease = k.reclaimOnRelease := by
  unfold conclude
  dsimp only
  split
  next =>
    unfold concludeWithout
    split
    next => rfl
    next => exact (clearPending_frame _ _).reclaimOnRelease
  next =>
    exact (clearPending_frame _ _).reclaimOnRelease.trans
      (reclaimNewest_frame _ _).reclaimOnRelease

theorem cycle_reclaimOnRelease (commits : List Nat) (requests : List Request) (k : Keeper) :
    (k.cycle commits requests).2.reclaimOnRelease = k.reclaimOnRelease := by
  cases hlast : commits.getLast? with
  | none => rw [cycle_of_none hlast]
  | some newest =>
    rw [cycle_of_newest hlast, conclude_reclaimOnRelease]
    exact (carryOutAll_carried _ requests (k.presented commits newest)).reclaimOnRelease

theorem Sound.presented (h : Sound pins k) (commits : List Nat) (newest : Nat) :
    Sound (k.catalog.version newest :: pins) (k.presented commits newest) :=
  (h.moreSerials commits.length).pin (k.catalog.version newest)

/-- A cycle takes back its pin, whatever the primary policy asked for. -/
theorem Sound.cycle (h : Sound pins k) {commits : List Nat}
    (hrange : ∀ n ∈ commits, n < k.catalog.commits.length) (requests : List Request) :
    Sound pins (k.cycle commits requests).2 := by
  cases hlast : commits.getLast? with
  | none =>
    rw [cycle_of_none hlast]
    exact h
  | some newest =>
    rw [cycle_of_newest hlast]
    have hshown : ∀ g ∈ (k.guardAll commits).1, (k.presented commits newest).Knows g :=
      fun g hg => (pin_frame _ _).knows (knows_guardAll hrange g hg)
    have hdecided := (h.presented commits newest).carryOutAll hshown requests
    have hc := carryOutAll_carried (k.guardAll commits).1 requests (k.presented commits newest)
    refine Sound.conclude ?_ (fun g hg => hc.knows (hshown g hg)) ?_ _
    · rw [hc.commits.version newest]
      exact hdecided
    · rw [hc.commits.length]
      exact hrange newest (List.mem_of_getLast? hlast)

/-! ## Runs -/

theorem Sound.step (h : Sound [] k) {e : Event} (he : k.Allows e) : Sound [] (k.step e) := by
  cases e with
  | use u => exact h.use he
  | delete g => exact h.deleteGuard he
  | cycle commits requests => exact h.cycle he requests
  | world c => exact h.world he

theorem Reachable.sound (h : Reachable k) : Sound [] k := by
  induction h with
  | new id reclaimOnRelease catalog => exact Sound.new id reclaimOnRelease catalog
  | step e _ he ih => exact ih.step he

end Keeper

end SnapshotRetention
