import SnapshotRetention.Proofs.Catalog.DeleteOrder
import SnapshotRetention.Proofs.Keeper.Moves

/-!
# Handles may be given back in any order

Giving back a handle releases its version once and leaves all other handles, by whatever of the
means that consumers have (`givesBack_use`). A release does three things, and each can be exchanged
with that of another release: it takes a hold off the table (`HoldTable.release_comm`), it is
counted (`Stats.released_comm`), and with the last hold goes the commit whose deletion waited, where
commits may be deleted in any order (`release_comm`). So what is left does not depend on the order
in which versions are released (`releaseEach_perm`), nor on the order or the means by which the same
handles are given back (`coincide_useAll`).
-/

namespace SnapshotRetention

/-! ## Holds and counters -/

namespace HoldTable

variable {t : HoldTable} {v w : Version}

theorem get?_release (v : Version) (t : HoldTable) (q : Version) : (t.release v).2.get? q =
    if q = v then (t.get? v).bind fun hold =>
      if 1 < hold.count then some { hold with count := hold.count - 1 } else none
    else t.get? q := by
  unfold release
  split
  next hnone =>
    split
    next hq => rw [hq, hnone, Option.bind_none]
    next => rfl
  next hold hhold =>
    rw [hhold, Option.bind_some]
    split
    next hcount => rw [hcount]; exact Table.get?_erase ..
    next hcount => rw [hcount]; exact Table.get?_erase ..
    next n hcount =>
      refine (Table.get?_insert ..).trans ?_
      rw [hcount, if_pos (show 1 < n + 2 by omega)]
      rfl

/-- Releasing one version does not matter to another one. -/
theorem release_of_ne (h : v ≠ w) (t : HoldTable) :
    ((t.release v).2.release w).1 = (t.release w).1 := by
  unfold release
  have hget := get?_release v t w
  rw [if_neg (Ne.symm h)] at hget
  unfold release at hget
  rw [hget]
  split
  next => rfl
  next =>
    split
    next => rfl
    next => rfl
    next => rfl

theorem release_comm (h : v ≠ w) (t : HoldTable) :
    ((t.release v).2.release w).2 = ((t.release w).2.release v).2 := by
  refine Table.ext_get? fun q => ?_
  simp only [get?_release, if_neg h, if_neg (Ne.symm h)]
  by_cases hq : q = v
  · rw [if_neg fun hw => h (hq.symm.trans hw), if_pos hq, if_pos hq]
  · rw [if_neg hq, if_neg hq]

end HoldTable

namespace Stats

/-- The counters after a release, and after the deletions that it carried out. -/
def released (u : Unhold) (reclaimed : Nat) (s : Stats) : Stats :=
  match u with
  | .unknown => { s with redundantReleases := s.redundantReleases + 1 }
  | .held _ | .freed _ => { s with
      releases := s.releases + 1
      deferredReclaimed := s.deferredReclaimed + reclaimed }

theorem released_comm (u u' : Unhold) (n n' : Nat) (s : Stats) :
    (s.released u n).released u' n' = (s.released u' n').released u n := by
  cases u with
  | unknown =>
    cases u' with
    | unknown => rfl
    | held => rfl
    | freed => rfl
  | held =>
    cases u' with
    | unknown => rfl
    | held => simp only [released, Nat.add_right_comm]
    | freed => simp only [released, Nat.add_right_comm]
  | freed =>
    cases u' with
    | unknown => rfl
    | held => simp only [released, Nat.add_right_comm]
    | freed => simp only [released, Nat.add_right_comm]

end Stats

/-- The handles that a consumer's step asks to release themselves. -/
def Use.reaches (u : Use) (k : Keeper) : List Handle :=
  match u with
  | .release slot | .drop slot => (k.handle? slot).toList
  | .releaseInBundle slot index =>
    ((k.bundle? slot).bind fun b => b.handles[index]?).toList
  | .releaseBundle slot | .dropBundle slot => Bundle.contents (k.bundle? slot)
  | .snapshot | .current | .commit _ | .openBundle _ => []

namespace Keeper

variable {k k' : Keeper} {v w : Version} {vs vs' : List Version} {us us' : List Use}

/-! ## Releasing versions -/

/-- The commit that is deleted with the next release of a version, if there is one. -/
def goesWith (v : Version) (k : Keeper) : List Nat :=
  match (k.holds.release v).1 with
  | .freed (some n) => if k.reclaimOnRelease then [n] else []
  | .freed none | .held _ | .unknown => []

theorem reclaim_eq (h : k.catalog.Deletable) (n : Nat) : k.reclaim n = { k with
    catalog := k.catalog.deleteEach (if k.reclaimOnRelease then [n] else [])
    stats := { k.stats with
      deferredReclaimed := k.stats.deferredReclaimed +
        (if k.reclaimOnRelease then [n] else []).length } } := by
  have hdelete : k.catalog.delete n = (.ok (), (k.catalog.delete n).2) :=
    Prod.ext (h.delete_ok n) rfl
  unfold reclaim deleteCommit
  by_cases hsetting : k.reclaimOnRelease = true
  · rw [if_pos hsetting, if_pos hsetting, hdelete]
    rfl
  · rw [if_neg hsetting, if_neg hsetting]
    rfl

/-- A release where commits can be deleted. -/
theorem release_eq (h : k.catalog.Deletable) (v : Version) : (k.release v).2 = { k with
    holds := (k.holds.release v).2
    catalog := k.catalog.deleteEach (k.goesWith v)
    stats := k.stats.released (k.holds.release v).1 (k.goesWith v).length } := by
  show (settle (k.holds.release v).1 { k with holds := (k.holds.release v).2 }).2 = _
  unfold goesWith
  generalize (k.holds.release v).1 = u
  cases u with
  | unknown => rfl
  | held => rfl
  | freed pending =>
    cases pending with
    | none => rfl
    | some n => exact reclaim_eq (k := countRelease { k with holds := _ }) h n

theorem deletable_release (h : k.catalog.Deletable) (v : Version) :
    (k.release v).2.catalog.Deletable := by
  obtain ⟨ns, hns⟩ := release_prunes v k
  rw [hns]
  exact h.deleteEach ns

/-- Two versions may be released in either order. -/
theorem release_comm (h : k.catalog.Deletable) (v w : Version) :
    ((k.release v).2.release w).2 = ((k.release w).2.release v).2 := by
  by_cases hvw : v = w
  · rw [hvw]
  have hgoes : ∀ {v w : Version}, v ≠ w → (k.release v).2.goesWith w = k.goesWith w := by
    intro v w hvw
    rw [release_eq h]
    unfold goesWith
    rw [HoldTable.release_of_ne hvw]
  have htwice : ∀ {v w : Version}, v ≠ w → ((k.release v).2.release w).2 = { k with
      holds := ((k.holds.release v).2.release w).2
      catalog := k.catalog.deleteEach (k.goesWith v ++ k.goesWith w)
      stats := (k.stats.released (k.holds.release v).1 (k.goesWith v).length).released
        (k.holds.release w).1 (k.goesWith w).length } := by
    intro v w hvw
    rw [release_eq (deletable_release h v), hgoes hvw, release_eq h]
    dsimp only
    rw [HoldTable.release_of_ne hvw]
    unfold Catalog.deleteEach
    rw [List.foldl_append]
  rw [htwice hvw, htwice (Ne.symm hvw), HoldTable.release_comm hvw, Stats.released_comm,
    h.deleteEach_perm List.perm_append_comm]

/-- Releases versions in order. -/
def releaseEach (vs : List Version) (k : Keeper) : Keeper :=
  vs.foldl (fun k v => (k.release v).2) k

theorem releaseEach_append (vs vs' : List Version) (k : Keeper) :
    k.releaseEach (vs ++ vs') = (k.releaseEach vs).releaseEach vs' :=
  List.foldl_append

/-- Versions may be released in any order. -/
theorem releaseEach_perm (h : k.catalog.Deletable) (hperm : vs.Perm vs') :
    k.releaseEach vs = k.releaseEach vs' := by
  induction hperm generalizing k with
  | nil => rfl
  | cons v _ ih => exact ih (deletable_release h v)
  | swap v w vs =>
    show ((k.release w).2.release v).2.releaseEach vs = ((k.release v).2.release w).2.releaseEach vs
    rw [release_comm h]
  | trans _ _ ih ih' => exact (ih h).trans (ih' h)

/-! ## Releases, but for the slots -/

/-- A keeper that has forgotten where its handles are. -/
def bare (k : Keeper) : Keeper := { k with handles := [], bundles := [] }

theorem bare_release (h : k.catalog.Deletable) (v : Version) :
    (k.release v).2.bare = (k.bare.release v).2 := by
  rw [release_eq h, release_eq (k := k.bare) h]
  rfl

theorem bare_releaseEach (h : k.catalog.Deletable) (vs : List Version) :
    (k.releaseEach vs).bare = k.bare.releaseEach vs := by
  induction vs generalizing k with
  | nil => rfl
  | cons v vs ih =>
    refine (ih (deletable_release h v)).trans ?_
    rw [bare_release h]
    rfl

theorem releaseValue_eq (x : Handle) (k : Keeper) :
    (k.releaseValue x).2.2 = k.releaseEach (k.heldBy [x]) := by
  unfold releaseValue
  split
  next hreleased =>
    rw [heldBy_cons_released hreleased]
    rfl
  next hheld =>
    rw [heldBy_cons_unreleased (by simpa using hheld)]
    rfl

theorem releaseValues_eq (hs : List Handle) (k : Keeper) :
    (k.releaseValues hs).2.2 = k.releaseEach (k.heldBy hs) := by
  induction hs generalizing k with
  | nil => rfl
  | cons x hs ih =>
    have hsplit : k.heldBy (x :: hs) = k.heldBy [x] ++ k.heldBy hs := heldBy_append [x] hs k
    refine (ih (k.releaseValue x).2.2).trans ?_
    rw [(releaseValue_frame x k).heldBy, releaseValue_eq, hsplit, releaseEach_append]

/-! ## Giving back handles -/

/-- What giving back some handles leaves: their versions are released, each as often as handles that
were not released have it, and all other handles are still there. -/
structure GivesBack (hs : List Handle) (k k' : Keeper) : Prop where
  bare : k'.bare = (k.releaseEach (k.heldBy hs)).bare
  left : k.unreleased.Perm (hs.filter (fun x => !x.released) ++ k'.unreleased)

theorem GivesBack.nothing (k : Keeper) : GivesBack [] k k := ⟨rfl, .refl _⟩

/-- A handle in a slot may be put back released, or not at all. -/
theorem givesBack_setHandle {slot : Nat} {x : Handle} (hx : k.handle? slot = some x)
    {y : Option Handle} (hy : ∀ z, y = some z → z.released = true) :
    GivesBack [x] k ((k.releaseValue x).2.2.setHandle slot y) := by
  have hf := releaseValue_frame x k
  refine ⟨show (k.releaseValue x).2.2.bare = _ by rw [releaseValue_eq], ?_⟩
  have hx' : (k.releaseValue x).2.2.handle? slot = some x := by
    unfold handle?
    rw [hf.handles]
    exact hx
  obtain ⟨rest, hbefore, hafter⟩ := setHandle_perm hx'
  rw [hf.given] at hbefore
  have hnone : y.toList.filter (fun z => !z.released) = [] := by
    refine List.filter_eq_nil_iff.mpr fun z hz => ?_
    rw [hy z (Option.mem_toList.mp hz)]
    decide
  have hleft := (hafter y).filter fun z => !z.released
  rw [List.filter_append, hnone, List.nil_append] at hleft
  refine (hbefore.filter _).trans ?_
  rw [← List.singleton_append, List.filter_append]
  exact hleft.symm.append_left _

/-- A bundle may be put back with some of its handles released, or not at all. -/
theorem givesBack_setBundle {slot : Nat} {b : Bundle} {hs : List Handle} (hf : Frame k k')
    (heq : k' = k.releaseEach (k.heldBy hs)) (hb : k.bundle? slot = some b) {y : Option Bundle}
    (hy : (b.handles.filter fun z => !z.released).Perm
      (hs.filter (fun z => !z.released) ++ (Bundle.contents y).filter fun z => !z.released)) :
    GivesBack hs k (k'.setBundle slot y) := by
  refine ⟨show k'.bare = _ by rw [heq], ?_⟩
  have hb' : k'.bundle? slot = some b := by
    unfold bundle?
    rw [hf.bundles]
    exact hb
  obtain ⟨rest, hbefore, hafter⟩ := setBundle_perm hb'
  rw [hf.given] at hbefore
  have hleft := (hafter y).filter fun z => !z.released
  have hall := hbefore.filter fun z => !z.released
  rw [List.filter_append] at hleft hall
  refine (hall.trans (hy.append_right _)).trans ?_
  rw [List.append_assoc]
  exact hleft.symm.append_left _

theorem filter_map_releasedHandle (hs : List Handle) :
    (hs.map releasedHandle).filter (fun z => !z.released) = [] := by
  refine List.filter_eq_nil_iff.mpr fun z hz => ?_
  obtain ⟨x, -, rfl⟩ := List.mem_map.mp hz
  simp [releasedHandle]

/-- By whatever means, what a consumer asks to release itself is given back. -/
theorem givesBack_use {u : Use} (hu : u.Returns) (k : Keeper) :
    GivesBack (u.reaches k) k (k.use u) := by
  cases u with
  | snapshot => exact hu.elim
  | current => exact hu.elim
  | commit g => exact hu.elim
  | release slot =>
    show GivesBack (k.handle? slot).toList k (k.releaseHandle slot).2
    unfold releaseHandle
    split
    next hnone => rw [hnone]; exact .nothing k
    next x hx =>
      rw [hx]
      refine givesBack_setHandle hx fun z hz => ?_
      rw [← Option.some.inj hz, releaseValue_handle]
      rfl
  | drop slot =>
    show GivesBack (k.handle? slot).toList k (k.dropHandle slot).2
    unfold dropHandle
    split
    next hnone => rw [hnone]; exact .nothing k
    next x hx =>
      rw [hx]
      exact givesBack_setHandle hx nofun
  | releaseBundle slot =>
    show GivesBack (Bundle.contents (k.bundle? slot)) k (k.releaseBundle slot).2
    unfold releaseBundle
    split
    next hnone => rw [hnone]; exact .nothing k
    next b hb =>
      rw [hb]
      refine givesBack_setBundle (releaseValues_frame b.handles k) (releaseValues_eq _ k) hb ?_
      show List.Perm _ (_ ++ (k.releaseValues b.handles).2.1.filter _)
      rw [releaseValues_handles, filter_map_releasedHandle, List.append_nil]
  | releaseInBundle slot index =>
    show GivesBack ((k.bundle? slot).bind fun b => b.handles[index]?).toList k
      (k.releaseInBundle slot index).2
    unfold releaseInBundle
    split
    next hnone => rw [hnone]; exact .nothing k
    next b hb =>
      rw [hb, Option.bind_some]
      split
      next hnone => rw [hnone]; exact .nothing k
      next x hx =>
        rw [hx]
        refine givesBack_setBundle (releaseValue_frame x k) (releaseValue_eq x k) hb ?_
        obtain ⟨rest, hbefore, hafter⟩ := flatMap_set_perm (fun x : Handle => [x]) hx
        simp only [List.flatMap_singleton'] at hbefore hafter
        have hset := (hafter (k.releaseValue x).2.1).filter fun z => !z.released
        have hnone : [(k.releaseValue x).2.1].filter (fun z => !z.released) = [] := by
          rw [releaseValue_handle]
          exact filter_map_releasedHandle [x]
        rw [List.filter_append, hnone, List.nil_append] at hset
        refine (hbefore.filter _).trans ?_
        rw [List.filter_append]
        exact hset.symm.append_left _
  | dropBundle slot =>
    show GivesBack (Bundle.contents (k.bundle? slot)) k (k.dropBundle slot).2
    unfold dropBundle
    split
    next hnone => rw [hnone]; exact .nothing k
    next b hb =>
      rw [hb]
      refine givesBack_setBundle (releaseValues_frame b.handles k) (releaseValues_eq _ k) hb ?_
      exact List.Perm.of_eq (List.append_nil _).symm
  | openBundle slot =>
    refine ⟨?_, ((openBundle_perm slot k).filter _).symm⟩
    show (k.openBundle slot).2.bare = _
    unfold openBundle
    split
    next => rfl
    next => rfl

/-! ## Giving back handles one after the other -/

/-- The keeper after several steps of consumers. -/
def useAll (us : List Use) (k : Keeper) : Keeper := us.foldl (fun k u => k.use u) k

/-- The handles that several steps of consumers give back: those that are asked to release
themselves and have not been released before. -/
def givenBack : List Use → Keeper → List Handle
  | [], _ => []
  | u :: us, k => ((u.reaches k).filter fun x => !x.released) ++ givenBack us (k.use u)

theorem deletable_use (h : k.catalog.Deletable) (u : Use) : (k.use u).catalog.Deletable := by
  obtain ⟨ns, hns⟩ := use_prunes u k
  rw [hns]
  exact h.deleteEach ns

/-- But for the slots, giving back handles leaves what releasing their versions leaves. -/
theorem bare_useAll (hus : ∀ u ∈ us, u.Returns) (h : k.catalog.Deletable) :
    (k.useAll us).bare =
      k.bare.releaseEach ((k.givenBack us).map fun x => k.version x.guard) := by
  induction us generalizing k with
  | nil => rfl
  | cons u us ih =>
    have hfirst : (k.use u).bare = k.bare.releaseEach (k.heldBy (u.reaches k)) :=
      (givesBack_use (hus u List.mem_cons_self) k).bare.trans (bare_releaseEach h _)
    have hversion : (fun x : Handle => (k.use u).version x.guard) = fun x => k.version x.guard :=
      funext fun x => (use_prunes u k).sameCommits.version x.guard.commit
    refine (ih (fun u' hu' => hus u' (List.mem_cons_of_mem _ hu')) (deletable_use h u)).trans ?_
    rw [hfirst, ← releaseEach_append, hversion]
    exact congrArg (fun vs => k.bare.releaseEach vs) (List.map_append ..).symm

/-- What is given back was there unreleased, and all else is still there. -/
theorem unreleased_useAll (hus : ∀ u ∈ us, u.Returns) (k : Keeper) :
    k.unreleased.Perm (k.givenBack us ++ (k.useAll us).unreleased) := by
  induction us generalizing k with
  | nil => exact .refl _
  | cons u us ih =>
    have hrest := ih (fun u' hu' => hus u' (List.mem_cons_of_mem _ hu')) (k.use u)
    refine (givesBack_use (hus u List.mem_cons_self) k).left.trans ?_
    show List.Perm _ ((_ ++ (k.use u).givenBack us) ++ _)
    rw [List.append_assoc]
    exact hrest.append_left _

/-- Keepers that agree on all but where their handles are. -/
structure Coincide (k k' : Keeper) : Prop where
  /-- The hold counts and the deletions that wait. -/
  holds : k'.holds = k.holds
  stats : k'.stats = k.stats
  /-- Which commits are deleted. -/
  commits : k'.catalog.commits = k.catalog.commits
  /-- The reference counts of the artifacts and the deletions that are queued. -/
  depots : k'.catalog.depots = k.catalog.depots
  stores : k'.catalog.stores = k.catalog.stores

/-- Where commits can be deleted, the same handles may be given back in any order and by any
means. -/
theorem coincide_useAll (hus : ∀ u ∈ us, u.Returns) (hus' : ∀ u ∈ us', u.Returns)
    (h : k.catalog.Deletable) (hleft : (k.useAll us).unreleased.Perm (k.useAll us').unreleased) :
    Coincide (k.useAll us) (k.useAll us') := by
  have hsame : (k.givenBack us).Perm (k.givenBack us') := by
    have hall := (unreleased_useAll hus k).symm.trans (unreleased_useAll hus' k)
    exact (List.perm_append_right_iff _).mp (hall.trans (hleft.symm.append_left _))
  have hbare : (k.useAll us').bare = (k.useAll us).bare := by
    rw [bare_useAll hus h, bare_useAll hus' h]
    exact (releaseEach_perm (k := k.bare) h (hsame.map _)).symm
  have hcatalog : (k.useAll us').bare.catalog = (k.useAll us).bare.catalog := by rw [hbare]
  have hholds : (k.useAll us').bare.holds = (k.useAll us).bare.holds := by rw [hbare]
  have hstats : (k.useAll us').bare.stats = (k.useAll us).bare.stats := by rw [hbare]
  exact ⟨hholds, hstats, congrArg Catalog.commits hcatalog, congrArg Catalog.depots hcatalog,
    congrArg Catalog.stores hcatalog⟩

end Keeper

end SnapshotRetention
