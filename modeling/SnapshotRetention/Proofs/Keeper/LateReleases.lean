import Mathlib.Data.List.Induction
import SnapshotRetention.Proofs.Keeper.Interleaved
import SnapshotRetention.Proofs.Keeper.Orderly

/-!
# Releases that come too late for a cycle

A cycle that publishes a commit calls off the deletion that is pending on it, but a release may
have taken this deletion off the table before and still have to carry it out, or may take it off
while the cycle has taken the survivors and has not called the deletion off yet. Such a release is
late (`Scene.Late`): the cycle cannot notice it.

Main statement: `Scene.deleted_or_doomed_iff` — from the publication on, a published commit is
deleted or about to be deleted by a release exactly if a late release had freed it.

What carries the proof is that each pending deletion is one of a commit of its version, that the
deletion of the newest is pending only if its guard has been asked, so that it does not survive, and
that what deletes a survivor can only be a late release (`Scene.Tracked`). Each step of the cycle
and each step of a release keeps this (`Tracked.step`).
-/

namespace SnapshotRetention.Keeper

open Catalog (Prunes)

variable {k k' : Keeper} {commits : List Nat} {newest n : Nat} {shown guards : List Guard}
  {decided result : Except Error Unit} {v : Version} {r : Request}

namespace Scene

variable {s t : Scene} {moves : List Move} {m : Move} {late : Nat → Prop}

theorem mem_doomed {s : Scene} {n : Nat} : n ∈ s.doomed ↔
    s.keeper.reclaimOnRelease = true ∧ Unhold.freed (some n) ∈ s.outstanding := by
  unfold doomed
  split
  next hon =>
    rw [List.mem_filterMap]
    refine ⟨?_, fun hand => ⟨_, hand.2, rfl⟩⟩
    rintro ⟨u, hu, hn⟩
    refine ⟨hon, ?_⟩
    cases u with
    | freed pending => exact (show pending = some n from hn) ▸ hu
    | unknown => cases hn
    | held _ => cases hn
  next hoff => exact ⟨fun h => absurd h List.not_mem_nil, fun hand => absurd hand.1 hoff⟩

/-! ## Steps beside the cycle -/

/-- What a step does that is not one of the cycle: it takes pending deletions off the table, or
carries out one that has been taken off. -/
structure Beside (s t : Scene) : Prop where
  phase : t.phase = s.phase
  live : t.keeper.live = s.keeper.live
  loses : Loses s.keeper t.keeper
  deleted : ∀ n, t.keeper.catalog.isDeleted n = true →
    s.keeper.catalog.isDeleted n = true ∨ n ∈ s.doomed
  doomed : ∀ n ∈ t.doomed, n ∈ s.doomed ∨ ∃ v, s.keeper.holds.pending? v = some n
  caught : ∀ n ∈ s.doomed, n < s.keeper.catalog.commits.length →
    (s.keeper.catalog.commit n).backing = .artifacts 0 →
      t.keeper.catalog.isDeleted n = true ∨ n ∈ t.doomed

theorem beside_release (v : Version) (s : Scene) : Beside s
    { s with
      keeper := (s.keeper.unhold v).2
      outstanding := (s.keeper.unhold v).1 :: s.outstanding } := by
  refine ⟨rfl, rfl, loses_unhold v s.keeper, fun n hn => Or.inl hn, fun n hn => ?_,
    fun n hn _ _ => ?_⟩
  · obtain ⟨hon, hmem⟩ := mem_doomed.mp hn
    rcases List.mem_cons.mp hmem with heq | hmem
    · exact Or.inr ⟨v, HoldTable.pending?_of_freed heq.symm⟩
    · exact Or.inl (mem_doomed.mpr ⟨hon, hmem⟩)
  · obtain ⟨hon, hmem⟩ := mem_doomed.mp hn
    exact Or.inr (mem_doomed.mpr ⟨hon, List.mem_cons_of_mem _ hmem⟩)

theorem beside_settle {u : Unhold} (hu : u ∈ s.outstanding) : Beside s
    { s with keeper := (s.keeper.settle u).2, outstanding := s.outstanding.erase u } := by
  have hloses := loses_settle u s.keeper
  have hmore : ∀ n, n ∈ doomed { s with
      keeper := (s.keeper.settle u).2, outstanding := s.outstanding.erase u } → n ∈ s.doomed := by
    intro n hn
    obtain ⟨hon, hmem⟩ := mem_doomed.mp hn
    exact mem_doomed.mpr ⟨hloses.reclaimOnRelease ▸ hon, List.mem_of_mem_erase hmem⟩
  refine ⟨rfl, (settle_frame u s.keeper).live, hloses, fun n hn => ?_,
    fun n hn => Or.inl (hmore n hn), fun n hn hlt hartifacts => ?_⟩
  · rcases settle_cases u s.keeper with ⟨m, rfl, hon, hsame⟩ | ⟨-, hsame⟩
    · have hn : (s.keeper.settle (.freed (some m))).2.catalog.isDeleted n = true := hn
      rw [hsame.catalog] at hn
      by_cases hne : n = m
      · exact Or.inr (mem_doomed.mpr ⟨hon, hne ▸ hu⟩)
      · exact Or.inl ((Catalog.isDeleted_delete_of_ne hne _).symm.trans hn)
    · have hn : (s.keeper.settle u).2.catalog.isDeleted n = true := hn
      rw [hsame.catalog] at hn
      exact Or.inl hn
  · obtain ⟨hon, hmem⟩ := mem_doomed.mp hn
    by_cases hne : Unhold.freed (some n) = u
    · -- the deletion is carried out
      refine Or.inl ?_
      subst hne
      rcases settle_cases (.freed (some n)) s.keeper with ⟨m, hm, -, hsame⟩ | ⟨hoff, -⟩
      · obtain rfl := Option.some.inj (Unhold.freed.inj hm)
        show (s.keeper.settle (.freed (some n))).2.catalog.isDeleted n = true
        rw [hsame.catalog]
        exact Catalog.isDeleted_delete_self hlt hartifacts
      · cases (hoff n rfl).symm.trans hon
    · refine Or.inr (mem_doomed.mpr ⟨hloses.reclaimOnRelease.trans hon, ?_⟩)
      exact (List.mem_erase_of_ne hne).mpr hmem

theorem beside_hold (v : Version) (s : Scene) : Beside s
    { s with keeper := s.keeper.acquire v } :=
  ⟨rfl, rfl, loses_acquire v s.keeper, fun _ hn => Or.inl hn, fun _ hn => Or.inl hn,
    fun _ hn _ _ => Or.inr hn⟩

/-! ## The invariant -/

/-- What is known in each phase, if some commits are known to have been freed by late releases. -/
def Keeps (newest : Nat) (late : Nat → Prop) (s : Scene) : Phase → Prop
  | .waiting => s.keeper.holds.pending? (s.keeper.catalog.version newest) = none
  | .deciding shown _ => Guards shown s.keeper ∧ AskedIfPending shown newest s.keeper
  | .unpinned shown _ unpinned | .swept shown _ unpinned => Guards shown s.keeper ∧
    ∀ n, unpinned = .freed (some n) → Doomed shown s.keeper n
  | .filtered guards _ unpinned => (∀ n, unpinned = .freed (some n) → ∀ g ∈ guards, g.commit ≠ n) ∧
    ∀ g ∈ guards, s.keeper.catalog.isDeleted g.commit = true → late g.commit
  | .clearing _ guards rest _ => ∀ g ∈ guards,
    (s.keeper.catalog.isDeleted g.commit = true → late g.commit) ∧
      (g ∈ rest ∨ s.keeper.holds.pending? (s.keeper.version g) = none)
  | .done _ => ∀ live, s.keeper.live = some live → ∀ g ∈ live.guards,
    (s.keeper.catalog.isDeleted g.commit = true ∨ g.commit ∈ s.doomed → late g.commit) ∧
      s.keeper.holds.pending? (s.keeper.version g) = none

/-- A scene in which everything that deletes what is going to be published is known to be late. -/
structure Tracked (commits : List Nat) (newest : Nat) (late : Nat → Prop) (s : Scene) : Prop where
  orderly : Orderly commits s.keeper
  owed : ∀ n ∈ s.doomed, n < s.keeper.catalog.commits.length
  caught : ∀ n, late n → s.keeper.catalog.isDeleted n = true ∨ n ∈ s.doomed
  noticed : s.phase.Awaits → ∀ n ∈ s.doomed, late n
  keeps : Keeps newest late s s.phase

theorem Keeps.mono {late' : Nat → Prop} {phase : Phase} (h : Keeps newest late s phase)
    (hlate : ∀ n, late n → late' n) : Keeps newest late' s phase := by
  cases phase with
  | waiting => exact h
  | deciding shown decided => exact h
  | unpinned shown decided unpinned => exact h
  | swept shown decided unpinned => exact h
  | filtered guards decided unpinned => exact ⟨h.1, fun g hg hn => hlate _ (h.2 g hg hn)⟩
  | clearing generation guards rest result =>
    exact fun g hg => ⟨fun hn => hlate _ ((h g hg).1 hn), (h g hg).2⟩
  | done result =>
    exact fun live hlive g hg =>
      ⟨fun hn => hlate _ ((h live hlive g hg).1 hn), (h live hlive g hg).2⟩

/-- What is late once a scene has been reached. -/
def later (late : Nat → Prop) (t : Scene) (n : Nat) : Prop :=
  late n ∨ t.phase.Awaits ∧ n ∈ t.doomed

theorem Tracked.next (h : Tracked commits newest late s) (horderly : Orderly commits t.keeper)
    (hprunes : Prunes s.keeper.catalog t.keeper.catalog)
    (howed : ∀ n ∈ t.doomed, n < s.keeper.catalog.commits.length)
    (hcaught : ∀ n ∈ s.doomed, t.keeper.catalog.isDeleted n = true ∨ n ∈ t.doomed)
    (hkeeps : Keeps newest (later late t) t t.phase) : Tracked commits newest (later late t) t := by
  refine ⟨horderly, fun n hn => ?_, fun n hn => ?_, fun hawaits n hn => Or.inr ⟨hawaits, hn⟩,
    hkeeps⟩
  · rw [hprunes.sameCommits.length]
    exact howed n hn
  · rcases hn with hlate | ⟨-, hdoomed⟩
    · rcases h.caught n hlate with hdeleted | hdoomed
      · exact Or.inl (hprunes.isDeleted hdeleted)
      · exact hcaught n hdoomed
    · exact Or.inr hdoomed

/-- A step beside the cycle leaves it in its phase, and what it deletes is late if the survivors
have been taken. -/
theorem Keeps.beside {phase : Phase} (h : Keeps newest late s phase) (hb : Beside s t)
    (haimed : ∀ v n, s.keeper.holds.pending? v = some n → s.keeper.catalog.version n = v)
    (hnoticed : phase.Awaits → ∀ n ∈ s.doomed, late n) : Keeps newest (later late t) t phase := by
  have hversion := hb.loses.prunes.sameCommits.version
  have hnone : ∀ g : Guard, s.keeper.holds.pending? (s.keeper.version g) = none →
      t.keeper.holds.pending? (t.keeper.version g) = none := by
    intro g hg
    unfold version
    rw [hversion]
    exact hb.loses.pending_none hg
  have hdeleted : phase.Awaits → ∀ n, (s.keeper.catalog.isDeleted n = true → late n) →
      t.keeper.catalog.isDeleted n = true → later late t n :=
    fun hawaits n hold hn => Or.inl ((hb.deleted n hn).elim hold (hnoticed hawaits n))
  cases phase with
  | waiting =>
    show t.keeper.holds.pending? (t.keeper.catalog.version newest) = none
    rw [hversion]
    exact hb.loses.pending_none h
  | deciding shown decided =>
    exact ⟨h.1.prunes hb.loses.prunes, h.2.loses hb.loses⟩
  | unpinned shown decided unpinned =>
    exact ⟨h.1.prunes hb.loses.prunes, fun n hn => hb.loses.doomed (h.2 n hn)⟩
  | swept shown decided unpinned =>
    exact ⟨h.1.prunes hb.loses.prunes, fun n hn => hb.loses.doomed (h.2 n hn)⟩
  | filtered guards decided unpinned =>
    exact ⟨h.1, fun g hg => hdeleted trivial _ (h.2 g hg)⟩
  | clearing generation guards rest result =>
    exact fun g hg => ⟨hdeleted trivial _ (h g hg).1, (h g hg).2.imp_right (hnone g)⟩
  | done result =>
    show ∀ live, t.keeper.live = some live → _
    rw [hb.live]
    intro live hlive g hg
    obtain ⟨hlate, hcleared⟩ := h live hlive g hg
    refine ⟨fun hn => Or.inl (hlate ?_), hnone g hcleared⟩
    rcases hn with hn | hn
    · exact hb.deleted _ hn
    · -- nothing is pending on what is published, so no release frees it any more
      refine Or.inr ((hb.doomed _ hn).resolve_right ?_)
      rintro ⟨v, hv⟩
      obtain rfl := haimed v _ hv
      cases hv.symm.trans hcleared

theorem Tracked.beside (h : Tracked commits newest late s) (hb : Beside s t) :
    Tracked commits newest (later late t) t := by
  refine h.next (h.orderly.loses hb.loses) hb.loses.prunes (fun n hn => ?_) (fun n hn => ?_) ?_
  · rcases hb.doomed n hn with hbefore | ⟨v, hv⟩
    · exact h.owed n hbefore
    · exact (h.orderly.aimed v n hv).1
  · exact hb.caught n hn (h.owed n hn) (h.orderly.artifacts n (h.owed n hn))
  · rw [hb.phase]
    exact h.keeps.beside hb (fun v n hv => (h.orderly.aimed v n hv).2) h.noticed

/-! ## Steps of the cycle -/

/-- The steps of the cycle leave the releases alone. -/
theorem Tracked.own (h : Tracked commits newest late s) {phase : Phase} {keeper : Keeper}
    (horderly : Orderly commits keeper) (hprunes : Prunes s.keeper.catalog keeper.catalog)
    (hsetting : keeper.reclaimOnRelease = s.keeper.reclaimOnRelease)
    (hkeeps : Keeps newest late { s with keeper, phase } phase) :
    Tracked commits newest (later late { s with keeper, phase }) { s with keeper, phase } := by
  have hdoomed : doomed { s with keeper, phase } = s.doomed := by
    unfold doomed
    rw [hsetting]
  refine h.next horderly hprunes ?_ (fun n hn => Or.inr ?_) (hkeeps.mono fun _ => Or.inl)
  · rw [hdoomed]
    exact h.owed
  · rw [hdoomed]
    exact hn

theorem Tracked.ask (h : Tracked commits newest late s) (hnewest : newest ∈ commits)
    (hphase : s.phase = .deciding shown decided) (r : Request)
    (decided' : Except Error Unit) :
    Tracked commits newest (later late { s with
        keeper := (s.keeper.carryOut shown r).2, phase := .deciding shown decided' })
      { s with keeper := (s.keeper.carryOut shown r).2, phase := .deciding shown decided' } := by
  have hkeeps := h.keeps
  rw [hphase] at hkeeps
  have hprunes := carryOut_prunes shown r s.keeper
  obtain ⟨horderly, hasked⟩ := h.orderly.carryOut hnewest hkeeps.1 hkeeps.2 r
  exact h.own horderly hprunes (carryOut_carried shown r s.keeper).reclaimOnRelease
    ⟨hkeeps.1.prunes hprunes, hasked⟩

/-- No step that ends a phase asks for anything. -/
theorem loses_proceed (hpositive : k.holds.Positive) {phase : Phase} {p : Phase × Keeper}
    (hp : k.proceed commits newest phase = some p) : Loses k p.2 := by
  cases phase with
  | waiting =>
    obtain rfl := Option.some.inj hp
    -- a pin is one more hold, on which nothing depends
    refine ⟨.refl _, fun h => h.acquire _, fun v n hn => ?_, rfl, rfl⟩
    have hn : (k.holds.acquire (k.catalog.version newest)).pending? v = some n := hn
    rwa [HoldTable.pending?_acquire] at hn
  | deciding shown decided =>
    obtain rfl := Option.some.inj hp
    exact loses_unhold _ k
  | unpinned shown decided unpinned =>
    obtain rfl := Option.some.inj hp
    exact .of_same rfl (HoldTable.sweep_eq_self hpositive) rfl rfl
  | swept shown decided unpinned =>
    obtain rfl := Option.some.inj hp
    exact .of_same rfl rfl rfl rfl
  | filtered guards decided unpinned =>
    cases guards with
    | nil =>
      unfold proceed at hp
      dsimp only at hp
      split at hp
      next =>
        obtain rfl := Option.some.inj hp
        exact .of_same rfl rfl rfl rfl
      next =>
        obtain rfl := Option.some.inj hp
        exact .of_same rfl rfl rfl rfl
    | cons g rest =>
      obtain rfl := Option.some.inj hp
      exact loses_reclaimNewest unpinned k
  | clearing generation guards rest result =>
    cases rest with
    | nil =>
      obtain rfl := Option.some.inj hp
      exact .of_same rfl rfl rfl rfl
    | cons g rest =>
      obtain rfl := Option.some.inj hp
      exact loses_clearPending g k
  | done result => cases hp

/-- The newest survives only if its deletion is not pending any more, so what is deleted for it is
no survivor. -/
theorem keeps_unpinned (h : Orderly commits s.keeper) (hnewest : newest ∈ commits)
    (hkeeps : Keeps newest late s (.deciding shown decided)) :
    Keeps newest late { s with keeper := (s.keeper.unhold (s.keeper.catalog.version newest)).2 }
      (.unpinned shown decided (s.keeper.unhold (s.keeper.catalog.version newest)).1) := by
  refine ⟨hkeeps.1.prunes (.refl _), fun n hn => ?_⟩
  -- what the unpin takes off the table is pending on the version of the newest, so it is the newest
  have hp := HoldTable.pending?_of_freed hn
  obtain ⟨hlt, hversion⟩ := h.aimed _ n hp
  obtain rfl := h.distinct n newest hlt (h.range newest hnewest) hversion
  exact hkeeps.2 (by rw [hp]; exact nofun)

theorem keeps_filtered {unpinned : Unhold}
    (hkeeps : Keeps newest late s (.swept shown decided unpinned)) :
    Keeps newest late s (.filtered (s.keeper.survivors shown) decided unpinned) := by
  refine ⟨fun n hn g hg => hkeeps.1.ne_of_survivor (hkeeps.2 n hn) hg, fun g hg hdeleted => ?_⟩
  cases (mem_survivors.mp hg).2.2.symm.trans hdeleted

/-- Deleting the newest deletes no survivor. -/
theorem keeps_settled {unpinned : Unhold}
    (hkeeps : Keeps newest late s (.filtered guards decided unpinned)) (generation : Nat)
    (result : Except Error Unit) :
    Keeps newest late { s with keeper := (s.keeper.reclaimNewest unpinned).2 }
      (.clearing generation guards guards result) := by
  refine fun g hg => ⟨fun hdeleted => hkeeps.2 g hg ?_, Or.inl hg⟩
  unfold reclaimNewest at hdeleted
  split at hdeleted
  next n => exact (Catalog.isDeleted_delete_of_ne (hkeeps.1 n rfl g hg) _).symm.trans hdeleted
  all_goals exact hdeleted

theorem keeps_cleared {generation : Nat} {g : Guard} {rest : List Guard}
    (hkeeps : Keeps newest late s (.clearing generation guards (g :: rest) result)) :
    Keeps newest late { s with keeper := s.keeper.clearPending [g] }
      (.clearing generation guards rest result) := by
  refine fun g' hg' => ⟨(hkeeps g' hg').1, ?_⟩
  show _ ∨ (s.keeper.holds.clearPending (s.keeper.version g)).pending? (s.keeper.version g') = none
  rw [HoldTable.pending?_clearPending]
  rcases (hkeeps g' hg').2 with hmem | hnone
  · rcases List.mem_cons.mp hmem with rfl | hmem
    · exact Or.inr (if_pos rfl)
    · exact Or.inl hmem
  · rw [hnone, ite_self]
    exact Or.inr rfl

theorem Keeps.proceed {phase : Phase} {p : Phase × Keeper} (h : Keeps newest late s phase)
    (horderly : Orderly commits s.keeper) (hnewest : newest ∈ commits) (hnodup : commits.Nodup)
    (hnoticed : phase.Awaits → ∀ n ∈ s.doomed, late n)
    (hp : s.keeper.proceed commits newest phase = some p) :
    Keeps newest late { s with keeper := p.2, phase := p.1 } p.1 := by
  cases phase with
  | waiting =>
    obtain rfl := Option.some.inj hp
    have hguards := guards_guardAll horderly hnodup
    refine ⟨⟨hguards.range, hguards.single⟩, fun hpending => absurd ?_ hpending⟩
    exact (HoldTable.pending?_acquire _ _ _).trans h
  | deciding shown decided =>
    obtain rfl := Option.some.inj hp
    exact keeps_unpinned horderly hnewest h
  | unpinned shown decided unpinned =>
    obtain rfl := Option.some.inj hp
    exact ⟨h.1.prunes (.refl _), h.2⟩
  | swept shown decided unpinned =>
    obtain rfl := Option.some.inj hp
    exact keeps_filtered h
  | filtered guards decided unpinned =>
    cases guards with
    | nil =>
      unfold Keeper.proceed at hp
      dsimp only at hp
      split at hp
      next =>
        obtain rfl := Option.some.inj hp
        exact fun live hlive => nomatch hlive
      next hkept =>
        obtain rfl := Option.some.inj hp
        intro g hg
        obtain rfl := List.mem_singleton.mp hg
        exact ⟨fun hdeleted => absurd hdeleted hkept, Or.inl hg⟩
    | cons g rest =>
      obtain rfl := Option.some.inj hp
      exact keeps_settled h (s.keeper.reclaimNewest unpinned).2.nextGeneration
        (report decided (s.keeper.reclaimNewest unpinned).1 (.ok ()))
  | clearing generation guards rest result =>
    cases rest with
    | nil =>
      obtain rfl := Option.some.inj hp
      intro live hlive g hg
      obtain rfl := Option.some.inj hlive
      -- all of it has been cleared, and what releases are about to delete has been noticed
      obtain ⟨hlate, hcleared⟩ := h g hg
      exact ⟨Or.rec hlate (hnoticed trivial _), hcleared.resolve_left List.not_mem_nil⟩
    | cons g rest =>
      obtain rfl := Option.some.inj hp
      exact keeps_cleared h
  | done result => cases hp

theorem Tracked.proceed (h : Tracked commits newest late s) (hnewest : newest ∈ commits)
    (hnodup : commits.Nodup) {p : Phase × Keeper}
    (hp : s.keeper.proceed commits newest s.phase = some p) :
    Tracked commits newest (later late { s with keeper := p.2, phase := p.1 })
      { s with keeper := p.2, phase := p.1 } := by
  have hloses := loses_proceed h.orderly.positive hp
  exact h.own (h.orderly.loses hloses) hloses.prunes hloses.reclaimOnRelease
    (h.keeps.proceed h.orderly hnewest hnodup h.noticed hp)

/-! ## Any step -/

theorem Tracked.step (h : Tracked commits newest late s) (hnewest : newest ∈ commits)
    (hnodup : commits.Nodup) (hstep : s.step commits newest m = some t) :
    Tracked commits newest (later late t) t := by
  cases m with
  | ask r =>
    unfold Scene.step at hstep
    dsimp only at hstep
    split at hstep
    next shown hphase =>
      obtain rfl := Option.some.inj hstep
      exact h.ask hnewest hphase r _
    next => cases hstep
  | proceed =>
    obtain ⟨p, hp, rfl⟩ := Option.map_eq_some_iff.mp hstep
    exact h.proceed hnewest hnodup hp
  | release v =>
    obtain rfl := Option.some.inj hstep
    exact h.beside (beside_release v s)
  | settle u =>
    unfold Scene.step at hstep
    dsimp only at hstep
    split at hstep
    next hu =>
      obtain rfl := Option.some.inj hstep
      exact h.beside (beside_settle hu)
    next => cases hstep
  | hold v =>
    have hheld : some { s with keeper := s.keeper.acquire v } = some t := by
      unfold Scene.step at hstep
      dsimp only at hstep
      split at hstep
      next => exact hstep
      next => exact hstep
      next => cases hstep
    obtain rfl := Option.some.inj hheld
    exact h.beside (beside_hold v s)

/-! ## A whole cycle -/

/-- A release has taken the deletion of a commit off the table too late for the cycle to notice: it
had still to carry it out at some time after the cycle had taken the survivors and before it
published them. -/
def Late (commits : List Nat) (newest : Nat) (moves : List Move) (s : Scene) (n : Nat) : Prop :=
  ∃ before t, before <+: moves ∧ s.run commits newest before = some t ∧ t.phase.Awaits ∧
    n ∈ t.doomed

theorem late_nil (k : Keeper) (n : Nat) : ¬Late commits newest [] (start k) n := by
  rintro ⟨before, t, hbefore, hrun, hawaits, -⟩
  obtain rfl := List.prefix_nil.mp hbefore
  obtain rfl := Option.some.inj hrun
  exact hawaits

theorem late_concat (hrun : s.run commits newest (moves ++ [m]) = some t) (n : Nat) :
    Late commits newest (moves ++ [m]) s n ↔ later (Late commits newest moves s) t n := by
  unfold Late later
  simp only [List.prefix_concat_iff]
  constructor
  · rintro ⟨before, r, rfl | hbefore, hr, hlate⟩
    · obtain rfl := Option.some.inj (hrun.symm.trans hr)
      exact Or.inr hlate
    · exact Or.inl ⟨before, r, hbefore, hr, hlate⟩
  · rintro (⟨before, r, hbefore, hr, hlate⟩ | hlate)
    · exact ⟨before, r, Or.inr hbefore, hr, hlate⟩
    · exact ⟨_, t, Or.inl rfl, hrun, hlate⟩

section
variable (h : Offers k commits newest) (hr : Retained k)
include h hr

theorem tracked_start : Tracked commits newest (Late commits newest [] (start k)) (start k) := by
  have hdoomed : ∀ n, n ∉ (start k).doomed := fun n hn =>
    List.not_mem_nil (mem_doomed.mp hn).2
  refine ⟨?_, fun n hn => absurd hn (hdoomed n), fun n hn => absurd hn (late_nil k n),
    fun hawaits => hawaits.elim, hr.waits.positive.pending?_eq_none h.unheld⟩
  exact ⟨hr.distinct, hr.artifacts, h.range, hr.waits.positive,
    fun v n hp => ⟨(hr.pending hp).1, (hr.pending hp).2.1⟩⟩

theorem tracked_run (moves : List Move) (hrun : run commits newest moves (start k) = some s) :
    Tracked commits newest (Late commits newest moves (start k)) s := by
  -- by the last step: what has been late by then is known when it is made
  induction moves using List.reverseRecOn generalizing s with
  | nil =>
    obtain rfl := Option.some.inj hrun
    exact tracked_start h hr
  | append_singleton moves m ih =>
    have hlater := funext fun n => propext (late_concat hrun n)
    rw [hlater]
    rw [run_append] at hrun
    obtain ⟨r, hr, hlast⟩ := Option.bind_eq_some_iff.mp hrun
    have hstep : r.step commits newest m = some s := (Option.bind_fun_some _).symm.trans hlast
    exact (ih hr).step h.newest_mem h.nodup hstep

/-- From the publication on, a published commit is deleted or about to be deleted by a release
exactly if a late release had freed it. -/
theorem deleted_or_doomed_iff (hrun : run commits newest moves (start k) = some s)
    (hdone : s.phase = .done result) {live : LiveList} (hlive : s.keeper.live = some live)
    {g : Guard} (hg : g ∈ live.guards) :
    s.keeper.catalog.isDeleted g.commit = true ∨ g.commit ∈ s.doomed ↔
      Late commits newest moves (start k) g.commit := by
  have htracked := tracked_run h hr moves hrun
  have hkeeps := htracked.keeps
  rw [hdone] at hkeeps
  exact ⟨(hkeeps live hlive g hg).1, htracked.caught g.commit⟩

end

end Scene

end SnapshotRetention.Keeper
