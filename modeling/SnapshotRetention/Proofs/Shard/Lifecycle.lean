import SnapshotRetention.Proofs.Shard.Regular

/-!
# The life of a shard

Main statement: `lifecycle_of_run` — in each state of a run the writer is there exactly while the
shard is recovering, started or relocated; what the state does not allow is refused and changes
nothing, and nothing else is refused; each handle is released once, whenever that is. Once the shard
is closed it stays closed, calls through it change nothing, and what is done with the handles adds
no hold, publishes nothing and writes nothing (`Shard.Outlives`). An undeleted commit that a handle
refers to stays undeleted and keeps its artifacts until the handle is released.

As long as no handle is asked to delete a commit of a published version before the shard is closed,
all commits that handles refer to are undeleted. Otherwise a snapshot may be taken of a deleted
commit, whose artifacts go with other commits, even after the shard is closed
(`lost_behind_handle`).
-/

namespace SnapshotRetention

open Keeper
open Engine (Ordered)

variable {allowed : Shard → Call → Prop} {asked : Nat → Prop} {careful : Prop} {config : Config}
  {stores : List Store} {s s' s'' : Shard} {k k' : Keeper} {D : Nat → Prop} {p : Place} {x : Handle}
  {v : Version}

/-! ## Releases -/

namespace Keeper

/-- The catalog after the next release of a version. If it is the last one, it carries out the
deletion that waits for it, unless that is left to the next cycle. -/
def reclaimed (v : Version) (k : Keeper) : Catalog :=
  match k.holds.pending? v with
  | none => k.catalog
  | some n =>
    if k.holds.count v = 1 ∧ k.reclaimOnRelease = true then (k.catalog.delete n).2 else k.catalog

theorem release_held (hv : 0 < k.holds.count v) :
    (k.release v).2.holds = (k.holds.release v).2 ∧ (k.release v).2.catalog = k.reclaimed v := by
  unfold reclaimed
  cases hp : k.holds.pending? v with
  | none =>
    rw [release_plain hv (Or.inr hp)]
    exact ⟨rfl, rfl⟩
  | some n =>
    dsimp only
    by_cases hone : k.holds.count v = 1
    · rw [release_pending hone hp]
      by_cases hr : k.reclaimOnRelease = true
      · obtain ⟨stats, -, hon⟩ := reclaim_on (k := (k.unhold v).2.countRelease) hr n
        rw [hon, if_pos ⟨hone, hr⟩]
        exact ⟨rfl, rfl⟩
      · have hoff : (k.unhold v).2.countRelease.reclaimOnRelease = false := Bool.eq_false_iff.mpr hr
        rw [reclaim_off hoff, if_neg fun hand => hr hand.2]
        exact ⟨rfl, rfl⟩
    · rw [release_plain hv (Or.inl hone), if_neg fun hand => hone hand.1]
      exact ⟨rfl, rfl⟩

/-- Releasing a handle releases the version of its commit, and fills its place again. -/
theorem releaseAt_state (hx : k.at? p = some x) :
    (k.releaseAt p).2.holds = (k.releaseValue x).2.2.holds ∧
      (k.releaseAt p).2.catalog = (k.releaseValue x).2.2.catalog := by
  cases p with
  | loose slot =>
    have hx : k.handle? slot = some x := hx
    unfold releaseAt releaseHandle
    dsimp only
    rw [hx]
    exact ⟨rfl, rfl⟩
  | bundled slot index =>
    obtain ⟨b, hb, hx⟩ := Option.bind_eq_some_iff.mp hx
    unfold releaseAt releaseInBundle
    dsimp only
    rw [hb]
    dsimp only
    rw [hx]
    exact ⟨rfl, rfl⟩

/-- A handle releases its hold once. The last release of a version reclaims the commit whose
deletion waits for it, if the keeper is to do so. -/
structure ReleasesOnce (k : Keeper) (p : Place) (x : Handle) : Prop where
  /-- The first time that a handle is asked for it, and never again. -/
  answer : ∃ called, Traced k p called ∧ (k.releaseAt p).1 = some (!called)
  count : ∀ v, (k.releaseAt p).2.holds.count v +
    (if x.released = false ∧ v = k.version x.guard then 1 else 0) = k.holds.count v
  catalog : (k.releaseAt p).2.catalog =
    if x.released then k.catalog else k.reclaimed (k.version x.guard)
  reclaims : x.released = false → k.reclaimOnRelease = true →
    k.holds.count (k.version x.guard) = 1 → ∀ n, k.holds.pending? (k.version x.guard) = some n →
      (k.releaseAt p).2.catalog.isDeleted n = true

theorem releasesOnce (hk : Reachable k) (hw : Within D k) (hx : k.at? p = some x) :
    ReleasesOnce k p x := by
  have hsound := hk.sound
  obtain ⟨called, htraced⟩ := hk.traced hx
  have hanswer := releaseAt_answer hsound hx
  rw [htraced.released hx] at hanswer
  obtain ⟨hholds, hcatalog⟩ := releaseAt_state hx
  by_cases hr : x.released = true
  · have hvalue : k.releaseValue x = (false, x, k) := by
      unfold releaseValue
      rw [if_pos hr]
    rw [hvalue] at hholds hcatalog
    refine ⟨⟨called, htraced, hanswer⟩, fun v => ?_, ?_, fun hfalse => absurd hr (by simp [hfalse])⟩
    · rw [hholds, if_neg fun hand => absurd hr (by simp [hand.1])]
      rfl
    · rw [hcatalog, if_pos hr]
  · have hr' : x.released = false := Bool.eq_false_iff.mpr hr
    have hheld := hsound.count_pos_of_unreleased (mem_unreleased.mpr ⟨mem_given_of_at? hx, hr'⟩)
    have hvalue : (k.releaseValue x).2.2 = (k.release (k.version x.guard)).2 := by
      unfold releaseValue
      rw [if_neg hr]
    obtain ⟨hcount, hreclaimed⟩ := release_held hheld
    rw [hvalue] at hholds hcatalog
    have hcatalog := hcatalog.trans hreclaimed
    refine ⟨⟨called, htraced, hanswer⟩, fun v => ?_, ?_, fun _ hon hone n hp => ?_⟩
    · rw [hholds, hcount]
      simp only [hr', true_and]
      exact HoldTable.count_release hheld v
    · rw [hcatalog, if_neg hr]
    · rw [hcatalog]
      unfold reclaimed
      rw [hp]
      dsimp only
      rw [if_pos ⟨hone, hon⟩]
      obtain ⟨hn, -⟩ := hw.due _ n hp
      obtain ⟨i, hb, -⟩ := hw.shelved.backed n hn
      exact Catalog.isDeleted_delete_self hn hb

end Keeper

namespace Shard

/-! ## Closed shards -/

/-- What a closed shard is later, whatever is done with its handles. -/
structure Outlives (s s' : Shard) : Prop where
  state : s'.state = .closed
  writer : s'.engine.writer = none
  live : s'.keeper.live = s.keeper.live
  count : ∀ v, s'.keeper.holds.count v ≤ s.keeper.holds.count v
  unreleased : ∀ x ∈ s'.keeper.unreleased, ∃ y ∈ s.keeper.unreleased, y.guard = x.guard
  manifest : ∀ n, (s'.engine.catalog.commit n).manifest = (s.engine.catalog.commit n).manifest
  backing : ∀ n, (s'.engine.catalog.commit n).backing = (s.engine.catalog.commit n).backing
  /-- Nothing is written. -/
  stores : ∀ n q data, (s'.engine.catalog.store n).data? q = some data →
    (s.engine.catalog.store n).data? q = some data
  /-- The commit of a handle keeps its artifacts. -/
  kept : ∀ x ∈ s'.keeper.unreleased, s.engine.catalog.isDeleted x.guard.commit = false →
    s'.engine.catalog.isDeleted x.guard.commit = false ∧
      ∀ i, (s.engine.catalog.commit x.guard.commit).backing = .artifacts i →
        ∀ q ∈ (s.engine.catalog.commit x.guard.commit).manifest.fileNames,
          (s'.engine.catalog.storeOf i).data? q = (s.engine.catalog.storeOf i).data? q

theorem Outlives.refl (hstate : s.state = .closed) (hwriter : s.engine.writer = none) :
    Outlives s s :=
  { state := hstate
    writer := hwriter
    live := rfl
    count := fun _ => Nat.le_refl _
    unreleased := fun x hx => ⟨x, hx, rfl⟩
    manifest := fun _ => rfl
    backing := fun _ => rfl
    stores := fun _ _ _ h => h
    kept := fun _ _ hundeleted => ⟨hundeleted, fun _ _ _ _ => rfl⟩ }

theorem Outlives.trans (h : Outlives s s') (h' : Outlives s' s'') : Outlives s s'' := by
  refine
    { state := h'.state
      writer := h'.writer
      live := h'.live.trans h.live
      count := fun v => Nat.le_trans (h'.count v) (h.count v)
      unreleased := fun x hx => ?_
      manifest := fun n => (h'.manifest n).trans (h.manifest n)
      backing := fun n => (h'.backing n).trans (h.backing n)
      stores := fun n q data hdata => h.stores n q data (h'.stores n q data hdata)
      kept := fun x hx hundeleted => ?_ }
  · obtain ⟨y, hy, hguard⟩ := h'.unreleased x hx
    obtain ⟨z, hz, hguard'⟩ := h.unreleased y hy
    exact ⟨z, hz, hguard'.trans hguard⟩
  · obtain ⟨y, hy, hguard⟩ := h'.unreleased x hx
    obtain ⟨hmiddle, hfirst⟩ := h.kept y hy (hguard ▸ hundeleted)
    rw [hguard] at hmiddle hfirst
    obtain ⟨hlast, hsecond⟩ := h'.kept x hx hmiddle
    rw [h.manifest, h.backing] at hsecond
    exact ⟨hlast, fun i hi q hq => (hsecond i hi q hq).trans (hfirst i hi q hq)⟩

section
variable (h : Regular careful config s) (hclosed : s.state = .closed)
include h hclosed

theorem Regular.writer_of_closed : s.engine.writer = none := by
  refine Option.not_isSome_iff_eq_none.mp fun hsome => ?_
  have hstate := h.writer.mp hsome
  simp [hclosed] at hstate

theorem Regular.outlives_refl : Outlives s s := .refl hclosed (h.writer_of_closed hclosed)

/-- Whatever is asked of handles, held commits keep their artifacts. -/
theorem Regular.outlives (hh : Handled asked s.keeper k) : Outlives s (s.withKeeper k) := by
  obtain ⟨D, hordered⟩ := h.ordered
  have hwithin := hordered.within
  have hm := hh.toMoves
  have hsame := hm.sameCommits
  obtain ⟨ns, hns, -⟩ := hm.deleted
  refine
    { state := hclosed
      writer := h.writer_of_closed hclosed
      live := hh.live
      count := hm.count
      unreleased := fun x hx => hm.unreleased hx
      manifest := hsame.manifest
      backing := fun n => ?_
      stores := fun n q data hdata => ?_
      kept := fun x hx hundeleted => ?_ }
  · show (k.catalog.commit n).backing = _
    rw [hns]
    exact hwithin.shelved.backing_deleteEach ns n
  · have hdata : (k.catalog.store n).data? q = some data := hdata
    rw [hns] at hdata
    exact (Catalog.erodes_deleteEach ns s.keeper.catalog n).data?_of_some hdata
  · -- the handle was there before, so that its commit comes from one of the depots
    obtain ⟨y, hy, hguard⟩ := hm.unreleased hx
    have hconcerns : s.keeper.Concerns x.guard.commit :=
      Or.inr (Or.inl ⟨y, (mem_unreleased.mp hy).1, congrArg Guard.commit hguard⟩)
    have hheld := (hh.reachable h.reachable).sound.count_pos_of_unreleased hx
    unfold version at hheld
    rw [hsame.version] at hheld
    obtain ⟨i, hi, hb⟩ := hwithin.concerns _ hconcerns
    obtain ⟨hafter, herodes⟩ := hwithin.keeps hm (hwithin.asks hh)
      (hwithin.lt_of_concerns hconcerns) hundeleted hi hb hheld
    refine ⟨hafter, fun j hj q hq => ?_⟩
    obtain rfl := Backing.artifacts.inj (hj.symm.trans hb)
    exact herodes.data?_eq hq

theorem Regular.outlives_refuse (n : Nat) (faults : Store.FaultPlan) :
    Outlives s (s.call (.refuse n faults)).2 := by
  have hdata : ∀ k q, ((s.call (.refuse n faults)).2.engine.catalog.store k).data? q =
      (s.engine.catalog.store k).data? q := by
    intro k q
    show ((s.engine.catalog.setStore n _).store k).data? q = _
    rw [Catalog.store_setStore]
    split
    next heq =>
      rw [heq.1]
      exact Store.data?_congr rfl q
    next => rfl
  exact
    { state := hclosed
      writer := h.writer_of_closed hclosed
      live := rfl
      count := fun _ => Nat.le_refl _
      unreleased := fun x hx => ⟨x, hx, rfl⟩
      manifest := fun _ => rfl
      backing := fun _ => rfl
      stores := fun k q data hq => (hdata k q).symm.trans hq
      kept := fun x _ hundeleted => ⟨hundeleted, fun i _ q _ => hdata _ q⟩ }

/-- One call after the shard is closed. -/
theorem Regular.outlives_call (c : Call) : Outlives s (s.call c).2 := by
  obtain ⟨D, hordered⟩ := h.ordered
  have hthrough : c.Through → Outlives s (s.call c).2 := by
    intro hc
    rw [call_of_closed hclosed hc]
    exact h.outlives_refl hclosed
  cases c with
  | use u hu => exact h.outlives hclosed (hordered.within.use hu)
  | delete p =>
    show Outlives s (s.withKeeper (s.keeper.deleteAt p).2)
    unfold deleteAt
    split
    next => exact h.outlives_refl hclosed
    next x hx =>
      exact h.outlives hclosed (hordered.within.deleteGuard (mem_given_of_at? hx))
  | refuse n faults => exact h.outlives_refuse hclosed n faults
  | _ => exact hthrough trivial

/-- Any calls after the shard is closed. -/
theorem Regular.outlives_leads (hleads : Leads allowed s s')
    (hspares : careful → ∀ s c, allowed s c → c.Spares s) :
    Regular careful config s' ∧ Outlives s s' := by
  induction hleads with
  | refl => exact ⟨h, h.outlives_refl hclosed⟩
  | call c _ hallowed ih =>
    obtain ⟨hregular, houtlives⟩ := ih
    exact ⟨hregular.call c fun hc => hspares hc _ c hallowed,
      houtlives.trans (hregular.outlives_call houtlives.state c)⟩

end

/-! ## The life of a shard -/

/-- What holds of a shard in each state of a run. -/
structure Lifecycle (allowed : Shard → Call → Prop) (config : Config) (s : Shard) : Prop where
  writer : s.engine.writer.isSome ↔ s.state = .recovering ∨ s.state = .started ∨
    s.state = .relocated
  /-- What is refused changes nothing. -/
  refused : ∀ c err, c.refusal? s.state = some err → s.call c = (.error err, s)
  /-- Nothing else is answered with a refusal. -/
  admitted : ∀ c, c.refusal? s.state = none → Admitted (s.call c).1
  moves : ∀ c, (s.call c).2.state =
    match (s.call c).1 with
    | .ok () => c.target s.state
    | .error _ => s.state
  next : ∀ c, (s.call c).2.state = s.state ∨ s.state.Next (s.call c).2.state
  /-- A recovery that fails leaves the shard as it was created. -/
  unrecovered : ∀ store err, s.state = .created → (s.call (.recover store)).1 = .error err →
    (s.call (.recover store)).2.state = .created ∧
      (s.call (.recover store)).2.engine.writer = none
  reclaimOnRelease : s.keeper.reclaimOnRelease = config.reclaimOnRelease
  released : ∀ p x, s.keeper.at? p = some x → ReleasesOnce s.keeper p x
  /-- Calls through a closed shard change nothing, and it outlives what is done with its handles. -/
  closed : s.state = .closed → (∀ c : Call, c.Through → (s.call c).2 = s) ∧
    ∀ s', Leads allowed s s' → Outlives s s'

theorem Regular.lifecycle (h : Regular careful config s)
    (hspares : careful → ∀ s c, allowed s c → c.Spares s) : Lifecycle allowed config s := by
  obtain ⟨D, hordered⟩ := h.ordered
  refine
    { writer := h.writer
      refused := fun c err hrefusal => call_of_refusal hrefusal
      admitted := fun c hrefusal => admitted_call h.decider (fun hnone => ?_) hrefusal
      moves := fun c => state_call c s
      next := fun c => state_call_next c s
      unrecovered := fun store err hstate herr => ?_
      reclaimOnRelease := h.reclaimOnRelease
      released := fun p x hx => releasesOnce h.reachable hordered.within hx
      closed := fun hclosed => ⟨fun c hc => call_of_closed hclosed hc,
        fun s' hleads => (h.outlives_leads hclosed hleads hspares).2⟩ }
  · have hnot := mt h.writer.mpr (by simp [hnone])
    cases hs : s.state with
    | created => exact Or.inl rfl
    | closed => exact Or.inr rfl
    | _ => simp [hs] at hnot
  · have hafter := state_call (.recover store) s
    rw [herr] at hafter
    have hcreated := hafter.trans hstate
    have hregular := h.call (.recover store) fun _ => trivial
    exact ⟨hcreated, (hregular.idle hcreated).writer⟩

/-- The life of a shard. Unless a handle is asked to delete a commit of a published version before
the shard is closed, the commits of all unreleased handles are undeleted. -/
theorem lifecycle_of_run (h : Run allowed config stores s) : Lifecycle allowed config s ∧
    ((∀ s c, allowed s c → c.Spares s) →
      ∀ x ∈ s.keeper.unreleased, s.engine.catalog.isDeleted x.guard.commit = false) := by
  have hregular : Regular False config s := h.regular False.elim
  exact ⟨hregular.lifecycle False.elim,
    fun hspares => (h.regular fun _ => hspares).keepsHeld hspares⟩

/-! ## Two shards that are closed -/

/-- A shard after some calls. -/
def after (calls : List Call) (s : Shard) : Shard := calls.foldl (fun s c => (s.call c).2) s

theorem Run.after (h : Run allowed config stores s) {calls : List Call}
    (hall : ∀ c ∈ calls, ∀ s, allowed s c) : Run allowed config stores (s.after calls) := by
  induction calls generalizing s with
  | nil => exact h
  | cons c calls ih =>
    exact ih (.call c h (hall c List.mem_cons_self s)) fun c hc =>
      hall c (List.mem_cons_of_mem _ hc)

theorem Leads.after (h : Leads allowed s s') {calls : List Call}
    (hall : ∀ c ∈ calls, ∀ s, allowed s c) : Leads allowed s (s'.after calls) := by
  induction calls generalizing s' with
  | nil => exact h
  | cons c calls ih =>
    exact ih (.call c h (hall c List.mem_cons_self s')) fun c hc =>
      hall c (List.mem_cons_of_mem _ hc)

/-- A new shard over an empty store. -/
def fresh (config : Config) : Shard :=
  ⟨.created, config, .ofConfig 0 config true ⟨[.empty], [], []⟩⟩

/-- A shard that is closed while a handle of its first commit is out, whose deletion waits. -/
def abandoned : Shard :=
  (fresh .standard).after [.recover 0, .start, .commit ⟨[("a", [1])], [], 0⟩, .snapshot,
    .use (.openBundle 0) trivial, .commit ⟨[("b", [2])], ["a"], 0⟩, .close]

/-- The handle keeps its commit, and takes it along when it is released. -/
theorem lifecycle_of_run_abandoned : Lifecycle (fun s c => c.Spares s) .standard abandoned ∧
    abandoned.state = .closed ∧ abandoned.keeper.unreleased.length = 1 ∧
      (∀ x ∈ abandoned.keeper.unreleased,
        abandoned.engine.catalog.isDeleted x.guard.commit = false) ∧
        (abandoned.engine.catalog.storeOf 0).names = ["a", "b", "commit_1", "commit_2"] ∧
          ((abandoned.after [.use (.release 0) trivial]).engine.catalog.storeOf 0).names =
            ["b", "commit_2"] := by
  have hrun : Run (fun s c => c.Spares s) .standard [.empty] abandoned := by
    refine Run.after (.created rfl) ?_
    simp [Call.Spares]
  obtain ⟨hlife, hheld⟩ := lifecycle_of_run hrun
  exact ⟨hlife, by decide +kernel, by decide +kernel, hheld fun _ _ h => h, by decide +kernel,
    by decide +kernel⟩

/-- A shard that is closed after a snapshot was taken of a commit that a handle had deleted. -/
def beguiled : Shard :=
  (fresh ⟨true, .keepAll, true⟩).after [.recover 0, .start, .commit ⟨[("a", [1])], [], 0⟩,
    .commit ⟨[("b", [2])], [], 0⟩, .snapshot, .use (.openBundle 0) trivial,
    .use (.release 0) trivial, .delete (.loose 0), .snapshot, .use (.openBundle 1) trivial,
    .use (.release 1) trivial, .close]

/-- The commit of a handle loses an artifact after the shard is closed, though the handle is never
released. -/
theorem lost_behind_handle : ∃ later x,
    Run (fun _ _ => True) ⟨true, .keepAll, true⟩ [.empty] beguiled ∧ beguiled.state = .closed ∧
      Leads (fun _ _ => True) beguiled later ∧ x ∈ beguiled.keeper.unreleased ∧
        x ∈ later.keeper.unreleased ∧
          "a" ∈ (beguiled.engine.catalog.commit x.guard.commit).manifest.fileNames ∧
            (beguiled.engine.catalog.commit x.guard.commit).backing = .artifacts 0 ∧
              (beguiled.engine.catalog.storeOf 0).data? "a" = some [1] ∧
                (later.engine.catalog.storeOf 0).data? "a" = none := by
  refine ⟨beguiled.after [.delete (.loose 3), .use (.release 3) trivial],
    ⟨⟨0, 1, 0⟩, false⟩, Run.after (.created rfl) fun _ _ _ => trivial, by decide +kernel,
    Leads.after .refl fun _ _ _ => trivial, ?_⟩
  decide +kernel

end Shard

end SnapshotRetention
