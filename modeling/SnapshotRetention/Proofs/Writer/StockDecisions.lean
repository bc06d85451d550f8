import SnapshotRetention.Proofs.Keeper.Requests
import SnapshotRetention.Proofs.Writer.Bare
import SnapshotRetention.Trial.Rehearsal

/-!
# What the stock policies delete

A stock policy dooms some of the commits it is shown (`Primary.doomed`): none, all but the last few,
or those whose timestamp lies before that of the newest by more than an age. The last of these is
computed from whole milliseconds with a cutoff that stops at zero, and comes to the same as
comparing nanoseconds without bounds (`Primary.expired_iff`): timestamps are whole milliseconds, and
no two of them are further apart than the largest age that is told apart.

Whoever carries out what the policy asks for deletes the doomed commits in order, up to and
including the first whose deletion fails (`DeletesInOrder`), whether the commits are bare
(`Primary.carryOutAllBare_inOrder`) or guarded by a keeper (`Primary.carryOutAll_inOrder`). So an
engine that presents distinct commits to a stock policy, when a writer opens or after a commit,
deletes each of the doomed commits at most once, and never the newest
(`Engine.stock_policies_decide_exactly`). For plain commits this says what becomes of each of them
(`Primary.rehearse_eq`).
-/

namespace SnapshotRetention

/-! ## Deleting in order -/

section
variable {α σ : Type}

/-- Of some items, those whose deletion is called if they are deleted in order, up to and including
the first that fails, and what comes of it. -/
inductive DeletesInOrder (delete : α → σ → Except Error Unit × σ) :
    List α → σ → List α → Except Error Unit × σ → Prop where
  | nothing (s : σ) : DeletesInOrder delete [] s [] (.ok (), s)
  /-- The error of the first that fails is the outcome, and no other is called after it. -/
  | fails {x : α} {s s' : σ} {e : Error} (rest : List α) (h : delete x s = (.error e, s')) :
    DeletesInOrder delete (x :: rest) s [x] (.error e, s')
  | goesOn {x : α} {rest called : List α} {s s' : σ} {outcome : Except Error Unit × σ}
    (h : delete x s = (.ok (), s')) (hrest : DeletesInOrder delete rest s' called outcome) :
    DeletesInOrder delete (x :: rest) s (x :: called) outcome

variable {delete : α → σ → Except Error Unit × σ} {xs called : List α} {s : σ}
  {outcome : Except Error Unit × σ}

namespace DeletesInOrder

/-- Nothing is called that does not come next. -/
theorem called_isPrefix (h : DeletesInOrder delete xs s called outcome) : called <+: xs := by
  induction h with
  | nothing s => exact List.prefix_rfl
  | fails rest h => exact List.prefix_append [_] rest
  | goesOn h hrest ih => exact (List.prefix_cons_inj _).mpr ih

/-- All are called unless one fails. -/
theorem called_eq (h : DeletesInOrder delete xs s called outcome) (hok : outcome.1 = .ok ()) :
    called = xs := by
  induction h with
  | nothing s => rfl
  | fails rest h => cases hok
  | goesOn h hrest ih => rw [ih hok]

end DeletesInOrder

end

/-! ## The doomed commits -/

namespace Primary

variable {α : Type} {f : α → Shown} {xs : List α} {p : Primary} {age : Age}

/-- The commits that a policy dooms. -/
def doomed (p : Primary) (f : α → Shown) (xs : List α) : List α :=
  match p with
  | .keepAll => []
  | .keepOnlyLast => xs.dropLast
  | .keepLast count => xs.take (xs.length - max count 1)
  | .expireAfter age =>
    match xs.getLast? with
    | none => []
    | some newest => xs.dropLast.filter fun x =>
        decide ((f x).timestamp.toNat * 1000000 + age.nanoseconds <
          (f newest).timestamp.toNat * 1000000)

theorem doomed_sublist_dropLast (p : Primary) (f : α → Shown) (xs : List α) :
    (p.doomed f xs).Sublist xs.dropLast := by
  cases p with
  | keepAll => exact List.nil_sublist _
  | keepOnlyLast => exact List.Sublist.refl _
  | keepLast count =>
    show (xs.take (xs.length - max count 1)).Sublist _
    rw [List.dropLast_eq_take]
    exact List.take_sublist_take_left (by omega)
  | expireAfter age =>
    show (match xs.getLast? with
      | none => []
      | some newest => xs.dropLast.filter _).Sublist _
    split
    next => exact List.nil_sublist _
    next => exact List.filter_sublist

/-- Of distinct commits the newest is never doomed. -/
theorem newest_not_mem_doomed (hdistinct : xs.Nodup) {newest : α}
    (hnewest : xs.getLast? = some newest) (p : Primary) (f : α → Shown) :
    newest ∉ p.doomed f xs := by
  intro hmem
  have hbefore := (doomed_sublist_dropLast p f xs).subset hmem
  obtain ⟨before, rfl⟩ := List.getLast?_eq_some_iff.mp hnewest
  rw [List.dropLast_concat] at hbefore
  exact (List.nodup_append.mp hdistinct).2.2 newest hbefore newest List.mem_cons_self rfl

/-! ## Ages -/

/-- A commit is older than the cutoff exactly if it lies before the newest by more than the age:
neither whole milliseconds nor the bounds make a difference. -/
theorem expired_iff (age : Age) (old newest : Timestamp) :
    old.toNat < newest.toNat - ageLimit age ↔
      old.toNat * 1000000 + age.nanoseconds < newest.toNat * 1000000 := by
  have hbound : newest.toNat < UInt64.size := newest.toNat_lt
  have hsize : UInt64.size = 18446744073709551616 := rfl
  unfold ageLimit Age.milliseconds
  omega

/-! ## Positions -/

theorem filterMap_range (xs : List α) (n : Nat) :
    (List.range n).filterMap (fun i => xs[i]?) = xs.take n := by
  induction n with
  | zero => rfl
  | succ n ih =>
    rw [List.range_succ, List.filterMap_append, ih, List.take_add_one]
    cases hn : xs[n]? with
    | none => rw [List.filterMap_cons_none hn]; rfl
    | some x => rw [List.filterMap_cons_some hn]; rfl

theorem filterMap_filter_range {keep : Nat → Bool} {test : α → Bool}
    (h : ∀ i x, xs[i]? = some x → keep i = test x) (n : Nat) :
    ((List.range n).filter keep).filterMap (fun i => xs[i]?) = (xs.take n).filter test := by
  rw [← filterMap_range xs n, List.filter_filterMap, List.filterMap_filter]
  refine List.filterMap_congr fun i _ => ?_
  cases hi : xs[i]? with
  | none => cases keep i <;> rfl
  | some x =>
    rw [h i x hi]
    rfl

/-- A stock policy asks for the doomed commits, in order. -/
theorem requests_eq (p : Primary) (f : α → Shown) (xs : List α) :
    ∃ positions : List Nat, p.requests (xs.map f) = positions.map .delete ∧
      positions.filterMap (fun i => xs[i]?) = p.doomed f xs := by
  cases p with
  | keepAll => exact ⟨[], rfl, rfl⟩
  | keepOnlyLast =>
    refine ⟨_, rfl, ?_⟩
    rw [filterMap_range, List.length_map]
    exact (List.dropLast_eq_take).symm
  | keepLast count =>
    refine ⟨_, rfl, ?_⟩
    rw [filterMap_range, List.length_map]
    rfl
  | expireAfter age =>
    refine ⟨_, rfl, ?_⟩
    unfold expired doomed
    dsimp only
    rw [List.getLast?_map, List.length_map]
    cases xs.getLast? with
    | none => rfl
    | some newest =>
      rw [List.dropLast_eq_take]
      refine filterMap_filter_range (fun i x hx => ?_) _
      rw [List.getElem?_map, hx]
      exact decide_eq_decide.mpr (expired_iff age _ _)

/-! ## Carrying out -/

open Engine (carryOutAllBare carryOutAllBare_cons_of_none carryOutAllBare_cons_of_some)

/-- Bare commits are deleted in the order of their positions. -/
theorem carryOutAllBare_inOrder (commits positions : List Nat) (c : Catalog) :
    ∃ called, DeletesInOrder Catalog.delete (positions.filterMap fun i => commits[i]?) c called
      (carryOutAllBare commits (positions.map .delete) c) := by
  induction positions generalizing c with
  | nil => exact ⟨[], .nothing c⟩
  | cons i positions ih =>
    rw [List.map_cons]
    cases hi : commits[i]? with
    | none =>
      rw [List.filterMap_cons_none hi, carryOutAllBare_cons_of_none hi]
      exact ih c
    | some n =>
      rw [List.filterMap_cons_some hi, carryOutAllBare_cons_of_some hi]
      obtain ⟨⟨result, c1⟩, hdelete⟩ : ∃ r, c.delete n = r := ⟨_, rfl⟩
      rw [hdelete]
      cases result with
      | error e => exact ⟨[n], .fails _ hdelete⟩
      | ok _ =>
        obtain ⟨called, hrest⟩ := ih c1
        exact ⟨n :: called, .goesOn hdelete hrest⟩

/-- Guards are told to delete their commits in the order of their positions. -/
theorem carryOutAll_inOrder (shown : List Guard) (positions : List Nat) (k : Keeper) :
    ∃ called, DeletesInOrder Keeper.deleteGuard (positions.filterMap fun i => shown[i]?) k called
      (k.carryOutAll shown (positions.map .delete)) := by
  induction positions generalizing k with
  | nil => exact ⟨[], .nothing k⟩
  | cons i positions ih =>
    rw [List.map_cons, Keeper.carryOutAll]
    cases hi : shown[i]? with
    | none =>
      have hnothing : k.carryOut shown (.delete i) = (.ok (), k) := by rw [Keeper.carryOut, hi]
      rw [List.filterMap_cons_none hi, hnothing]
      exact ih k
    | some g =>
      have hasks : k.carryOut shown (.delete i) = k.deleteGuard g := by rw [Keeper.carryOut, hi]
      rw [List.filterMap_cons_some hi, hasks]
      obtain ⟨⟨result, k1⟩, hdelete⟩ : ∃ r, k.deleteGuard g = r := ⟨_, rfl⟩
      rw [hdelete]
      cases result with
      | error e => exact ⟨[g], .fails _ hdelete⟩
      | ok _ =>
        obtain ⟨called, hrest⟩ := ih k1
        exact ⟨g :: called, .goesOn hdelete hrest⟩

end Primary

/-! ## Exact decisions -/

/-- Some distinct commits, oldest first, are decided about by deleting what a policy dooms of them:
in their order, each once, up to and including the first that fails, and never the newest. -/
structure DecidesExactly {α σ : Type} (p : Primary) (f : α → Shown)
    (delete : α → σ → Except Error Unit × σ) (xs : List α) (s : σ)
    (outcome : Except Error Unit × σ) : Prop where
  ordered : (p.doomed f xs).Sublist xs
  once : (p.doomed f xs).Nodup
  newest : ∀ newest, xs.getLast? = some newest → newest ∉ p.doomed f xs
  called : ∃ called, DeletesInOrder delete (p.doomed f xs) s called outcome ∧
    called <+: p.doomed f xs ∧ (outcome.1 = .ok () → called = p.doomed f xs)

namespace Primary

variable {commits : List Nat} {p : Primary}

theorem decidesExactly {α σ : Type} {f : α → Shown} {delete : α → σ → Except Error Unit × σ}
    {xs : List α} {s : σ} {outcome : Except Error Unit × σ} (hdistinct : xs.Nodup)
    (h : ∃ called, DeletesInOrder delete (p.doomed f xs) s called outcome) :
    DecidesExactly p f delete xs s outcome := by
  have hordered : (p.doomed f xs).Sublist xs :=
    (doomed_sublist_dropLast p f xs).trans (List.dropLast_sublist xs)
  obtain ⟨called, hcalled⟩ := h
  exact ⟨hordered, hdistinct.sublist hordered,
    fun newest hnewest => newest_not_mem_doomed hdistinct hnewest p f,
    called, hcalled, hcalled.called_isPrefix, hcalled.called_eq⟩

/-- Bare commits. -/
theorem carryOutAllBare_exactly (hdistinct : commits.Nodup) (p : Primary) (c : Catalog) :
    DecidesExactly p (fun n => (c.commit n).shown) Catalog.delete commits c
      (Engine.carryOutAllBare commits (p.requests (c.shown commits)) c) := by
  obtain ⟨positions, hasks, hdoomed⟩ := p.requests_eq (fun n => (c.commit n).shown) commits
  have hasks : p.requests (c.shown commits) = positions.map .delete := hasks
  refine decidesExactly hdistinct ?_
  rw [hasks, ← hdoomed]
  exact carryOutAllBare_inOrder commits positions c

/-- Commits behind guards. -/
theorem carryOutAll_exactly (hdistinct : commits.Nodup) (p : Primary) (k k' : Keeper) :
    DecidesExactly p (fun g => (k.catalog.commit g.commit).shown) Keeper.deleteGuard
      (k.guardAll commits).1 k'
      (k'.carryOutAll (k.guardAll commits).1 (p.requests (k.catalog.shown commits))) := by
  have hcommits := Keeper.map_commit_guardAll commits k
  obtain ⟨positions, hasks, hdoomed⟩ :=
    p.requests_eq (fun g => (k.catalog.commit g.commit).shown) (k.guardAll commits).1
  have hshown : (k.guardAll commits).1.map (fun g => (k.catalog.commit g.commit).shown) =
      k.catalog.shown commits := by
    refine Eq.trans ?_ (congrArg (List.map fun n => (k.catalog.commit n).shown) hcommits)
    rw [List.map_map]
    rfl
  rw [hshown] at hasks
  refine decidesExactly (List.Nodup.of_map Guard.commit (hcommits.symm ▸ hdistinct)) ?_
  rw [hasks, ← hdoomed]
  exact carryOutAll_inOrder _ positions k'

end Primary

namespace Engine

open Keeper

variable {e : Engine} {p : Primary} {commits : List Nat}

/-- An engine that presents distinct commits to a stock policy deletes the doomed ones of them in
order, up to and including the first that fails. A bare policy deletes the commits themselves and
its outcome is that of the engine; behind a keeper it tells the guards to delete them, and the cycle
concludes with its outcome. -/
theorem stock_policies_decide_exactly (hstock : e.decider = .stock p) (hdistinct : commits.Nodup) :
    (e.guarded = false →
      DecidesExactly p (fun n => (e.catalog.commit n).shown) Catalog.delete commits e.catalog
        ((e.decide commits).1, (e.decide commits).2.catalog)) ∧
    (e.guarded = true → ∀ newest, commits.getLast? = some newest → ∃ outcome k,
      DecidesExactly p (fun g => (e.catalog.commit g.commit).shown) Keeper.deleteGuard
        (e.keeper.guardAll commits).1 (e.keeper.presented commits newest) (outcome, k) ∧
      (e.keeper.guardAll commits).1.map Guard.commit = commits ∧
      (e.decide commits).1 = (k.conclude (e.keeper.guardAll commits).1 newest outcome).1 ∧
      (e.decide commits).2.keeper =
        (k.conclude (e.keeper.guardAll commits).1 newest outcome).2) := by
  have hdecider : e.decider.requests = p.requests := by rw [hstock]; rfl
  constructor
  · intro hbare
    have hdecide : ((e.decide commits).1, (e.decide commits).2.catalog) =
        carryOutAllBare commits (p.requests (e.catalog.shown commits)) e.catalog := by
      unfold decide
      rw [hbare, hdecider]
      rfl
    rw [hdecide]
    exact Primary.carryOutAllBare_exactly hdistinct p e.catalog
  · intro hguarded newest hnewest
    have hdecide : e.decide commits =
        ((e.keeper.cycle commits (p.requests (e.catalog.shown commits))).1,
          { e with keeper :=
            (e.keeper.cycle commits (p.requests (e.catalog.shown commits))).2 }) := by
      unfold decide
      rw [hguarded, hdecider]
      rfl
    rw [hdecide, cycle_of_newest hnewest]
    exact ⟨_, _, Primary.carryOutAll_exactly hdistinct p e.keeper _,
      map_commit_guardAll commits e.keeper, rfl, rfl⟩

/-- Four commits, written out of order, of which one cannot be deleted. -/
def rehearsal : Engine :=
  ⟨.new 0 true ⟨[], [], [⟨1, 4, false⟩, ⟨2, 9, true⟩, ⟨3, 7, true⟩, ⟨4, 9, false⟩].map
    Rehearsed.commit⟩, .stock (.expireAfter ⟨1999999⟩), false, none⟩

/-- The first and the third commit lie before the newest by more than an age of just under two
milliseconds. The first is deleted, the third cannot be. -/
theorem stock_policies_decide_exactly_rehearsal :
    DecidesExactly (.expireAfter ⟨1999999⟩) (fun n => (rehearsal.catalog.commit n).shown)
      Catalog.delete [0, 1, 2, 3] rehearsal.catalog
      ((rehearsal.decide [0, 1, 2, 3]).1, (rehearsal.decide [0, 1, 2, 3]).2.catalog) ∧
    (Primary.expireAfter ⟨1999999⟩).doomed (fun n => (rehearsal.catalog.commit n).shown)
      [0, 1, 2, 3] = [0, 2] ∧
    (rehearsal.decide [0, 1, 2, 3]).1 = .error (.io (.diskGone 3)) := by
  have hdistinct : [0, 1, 2, 3].Nodup := by decide
  exact ⟨(stock_policies_decide_exactly rfl hdistinct).1 rfl, by decide +kernel,
    by decide +kernel⟩

end Engine

/-! ## Plain commits -/

/-- A plain commit after one more deletion. -/
def Commit.struck (c : Commit) : Commit :=
  match c.backing with
  | .artifacts _ => c
  | .plain faulty deletions =>
    { c with backing := .plain faulty (deletions + 1), deleted := true }

namespace Catalog

variable {c : Catalog} {n : Nat}

/-- Whether a commit is a plain one. -/
def IsPlain (c : Catalog) (n : Nat) : Prop :=
  ∃ faulty deletions, (c.commit n).backing = .plain faulty deletions

/-- Deleting a plain commit that is not faulty succeeds and strikes it. -/
theorem delete_of_isPlain (hplain : c.IsPlain n) (h : c.isFaulty n = false) :
    c.delete n = (.ok (), c.setCommit n (c.commit n).struck) := by
  obtain ⟨faulty, deletions, hb⟩ := hplain
  unfold isFaulty at h
  rw [hb] at h
  obtain rfl : faulty = false := h
  unfold delete Commit.struck
  rw [hb]

end Catalog

open Catalog in
/-- Of plain commits those before the first faulty one are deleted, once each. -/
theorem DeletesInOrder.of_plain {ns called : List Nat} {c : Catalog}
    {outcome : Except Error Unit × Catalog}
    (h : DeletesInOrder Catalog.delete ns c called outcome)
    (hplain : ∀ n ∈ ns, n < c.commits.length ∧ c.IsPlain n) (hdistinct : ns.Nodup) :
    (outcome.1 = match ns.find? c.isFaulty with
      | none => .ok ()
      | some n => .error (.io (.diskGone (c.version n).number))) ∧
    ∀ n, outcome.2.commit n =
      if n ∈ ns.takeWhile (fun n => !c.isFaulty n) then (c.commit n).struck else c.commit n := by
  induction h with
  | nothing c => exact ⟨rfl, fun n => rfl⟩
  | @fails x c c' e rest h =>
    have hfaulty : c.isFaulty x = true := by
      by_contra hnot
      rw [delete_of_isPlain (hplain x List.mem_cons_self).2 (Bool.eq_false_iff.mpr hnot)] at h
      cases h
    rw [delete_of_isFaulty hfaulty] at h
    cases h
    rw [List.find?_cons_of_pos hfaulty, List.takeWhile_cons_of_neg (by simp [hfaulty])]
    exact ⟨rfl, fun n => rfl⟩
  | @goesOn x rest called c c' outcome h hrest ih =>
    have hfaulty : c.isFaulty x = false := by
      by_contra hnot
      rw [delete_of_isFaulty (Bool.eq_true_of_not_eq_false hnot)] at h
      cases h
    obtain ⟨hx, hplainx⟩ := hplain x List.mem_cons_self
    have hsame := sameCommits_delete x c
    have hmended : (c.delete x).2.isFaulty = c.isFaulty := funext (isFaulty_delete x c)
    rw [delete_of_isPlain hplainx hfaulty] at h hsame hmended
    cases h
    obtain ⟨hnew, hdistinct⟩ := List.nodup_cons.mp hdistinct
    have hother : ∀ n, n ≠ x →
        (c.setCommit x (c.commit x).struck).commit n = c.commit n := by
      intro n hn
      rw [commit_setCommit, if_neg fun hand => hn hand.1]
    have hplain' : ∀ n ∈ rest, n < (c.setCommit x (c.commit x).struck).commits.length ∧
        (c.setCommit x (c.commit x).struck).IsPlain n := by
      intro n hn
      obtain ⟨hlt, faulty, deletions, hb⟩ := hplain n (List.mem_cons_of_mem _ hn)
      refine ⟨hsame.length.symm ▸ hlt, faulty, deletions, ?_⟩
      rw [hother n fun heq => hnew (heq ▸ hn), hb]
    obtain ⟨hresult, hcommit⟩ := ih hplain' hdistinct
    simp only [hmended] at hresult hcommit
    rw [List.find?_cons_of_neg (by simp [hfaulty]),
      List.takeWhile_cons_of_pos (by simp [hfaulty])]
    refine ⟨?_, fun n => ?_⟩
    · rw [hresult]
      cases rest.find? c.isFaulty with
      | none => rfl
      | some n =>
        dsimp only
        rw [hsame.version]
    · rw [hcommit]
      by_cases hn : n = x
      · subst hn
        have hnot : n ∉ rest.takeWhile fun n => !c.isFaulty n :=
          fun hmem => hnew ((List.takeWhile_prefix _).subset hmem)
        rw [if_neg hnot, if_pos List.mem_cons_self, commit_setCommit, if_pos ⟨rfl, hx⟩]
      · simp only [hother n hn, List.mem_cons, hn, false_or]

/-- A stock policy that is tried on plain commits deletes the doomed ones before the first of them
that is faulty, whose error is the outcome. -/
theorem Primary.rehearse_eq (p : Primary) (commits : List Rehearsed) :
    let c : Catalog := ⟨[], [], commits.map Rehearsed.commit⟩
    let doomed := p.doomed (fun n => (c.commit n).shown) (List.range commits.length)
    p.rehearse commits =
      (match doomed.find? c.isFaulty with
        | none => .ok ()
        | some n => .error (.io (.diskGone (c.version n).number)),
      (List.range commits.length).map fun n =>
        decide (n ∈ doomed.takeWhile fun n => !c.isFaulty n)) := by
  intro c doomed
  have hcommit : ∀ n ∈ List.range commits.length, n < c.commits.length ∧
      ∃ r : Rehearsed, c.commit n = r.commit := by
    intro n hn
    have hlt := List.mem_range.mp hn
    refine ⟨(List.length_map Rehearsed.commit).symm ▸ hlt, commits[n], ?_⟩
    show (commits.map Rehearsed.commit).getD n default = _
    rw [List.getD_eq_getElem?_getD, List.getElem?_map, List.getElem?_eq_getElem hlt]
    rfl
  obtain ⟨hordered, honce, -, called, hcalled, -, -⟩ :=
    carryOutAllBare_exactly (List.nodup_range (n := commits.length)) p c
  obtain ⟨hresult, hafter⟩ := hcalled.of_plain (fun n hn => by
    obtain ⟨hlt, r, hr⟩ := hcommit n (hordered.subset hn)
    exact ⟨hlt, r.faulty, 0, congrArg Commit.backing hr⟩) honce
  refine Prod.ext hresult (List.map_congr_left fun n hn => ?_)
  obtain ⟨-, r, hr⟩ := hcommit n hn
  show (Catalog.commit _ n).deleted = _
  rw [hafter, hr]
  by_cases hdeleted : n ∈ doomed.takeWhile fun n => !c.isFaulty n
  · rw [if_pos hdeleted, decide_eq_true hdeleted]
    rfl
  · rw [if_neg hdeleted, decide_eq_false hdeleted]
    rfl

end SnapshotRetention
