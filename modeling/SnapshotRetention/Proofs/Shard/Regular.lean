import SnapshotRetention.Proofs.Keeper.Retained
import SnapshotRetention.Proofs.Shard.Calls
import SnapshotRetention.Proofs.Shard.Recovering

/-!
# Runs of a shard

A run of a shard begins with its creation over any stores and goes on with calls, of which some may
not be allowed (`Shard.Run`). In each of its states the writer is there exactly while the shard is
recovering, started or relocated, and the engine is in order (`Shard.Regular`, `Run.regular`).

A call is careful (`Call.Spares`) unless it asks a handle to delete a commit of a published version
while snapshots can still be taken. As long as all calls are careful, every unreleased handle refers
to an undeleted commit.
-/

namespace SnapshotRetention

open Keeper
open Engine (Ordered Resumes Goes Idle Opens)

variable {allowed : Shard → Call → Prop} {asked : Nat → Prop} {careful : Prop} {config : Config}
  {stores : List Store} {s s' : Shard} {k k' : Keeper} {D : Nat → Prop} {e : Engine} {x : Handle}

namespace Shard

/-- The states of a shard in runs of calls that are allowed. -/
inductive Run (allowed : Shard → Call → Prop) (config : Config) (stores : List Store) :
    Shard → Prop where
  | created {s : Shard} : create config ⟨stores, [], []⟩ = .ok s → Run allowed config stores s
  | call {s : Shard} (c : Call) : Run allowed config stores s → allowed s c →
    Run allowed config stores (s.call c).2

/-- The later states of a run. -/
inductive Leads (allowed : Shard → Call → Prop) (s : Shard) : Shard → Prop where
  | refl : Leads allowed s s
  | call {s' : Shard} (c : Call) : Leads allowed s s' → allowed s' c →
    Leads allowed s (s'.call c).2

end Shard

/-- A call that deletes no commit of a published version while snapshots can still be taken. -/
def Call.Spares (s : Shard) : Call → Prop
  | .delete p => s.state = .closed ∨ ∀ x, s.keeper.at? p = some x →
    ∀ g ∈ s.keeper.listed, s.keeper.version g ≠ s.keeper.version x.guard
  | _ => True

/-! ## Handles -/

namespace Engine

theorem Ordered.moves (h : Ordered D e) (hm : Moves asked e.keeper k) (hk : Within D k) :
    Ordered D { e with keeper := k } := by
  obtain ⟨ns, hns, -⟩ := hm.deleted
  refine ⟨h.guarded, h.deletes, hk, fun w hw => ⟨(h.writer w hw).1, ?_⟩⟩
  refine (h.writer w hw).2.later hm.sameCommits.extends fun n _ => ?_
  show (k.catalog.commit n).backing = _
  rw [hns]
  exact h.within.shelved.backing_deleteEach ns n

theorem Ordered.takes (h : Ordered D e) (ht : Takes e.keeper k) (hk : Sound [] k) :
    Ordered D { e with keeper := k } := by
  refine ⟨h.guarded, h.deletes, h.within.takes ht hk, fun w hw => ⟨(h.writer w hw).1, ?_⟩⟩
  have hsame : k.catalog = e.catalog := ht.catalog
  show w.Course k.catalog
  rw [hsame]
  exact (h.writer w hw).2

/-- What a store refuses does not matter to an idle engine. -/
theorem Idle.refuse (h : Idle e) (n : Nat) (faults : Store.FaultPlan) :
    Idle (e.setCatalog (e.catalog.setStore n { e.catalog.store n with faults })) := by
  have hrefilled := Catalog.refilled_setStore n { e.catalog.store n with faults } e.catalog
  refine
    { h.unopened.refill hrefilled with
      apart := h.apart
      filed := fun g hg i hi => ?_ }
  obtain ⟨data, hnode⟩ := h.filed g hg i hi
  refine ⟨data, Eq.trans ?_ hnode⟩
  show ((e.catalog.setStore n _).store (e.catalog.depot i).store).medium.node? _ = _
  rw [Catalog.store_setStore]
  split
  next heq =>
    rw [← heq.1]
    rfl
  next => rfl

end Engine

/-- Nothing can be done with handles where there are none. -/
theorem Keeper.use_of_empty (hhandles : k.handles = []) (hbundles : k.bundles = []) {u : Use}
    (hu : u.Returns) : k.use u = k := by
  have hhandle : ∀ slot, k.handle? slot = none := fun slot => by
    unfold handle?
    rw [hhandles]
    rfl
  have hbundle : ∀ slot, k.bundle? slot = none := fun slot => by
    unfold bundle?
    rw [hbundles]
    rfl
  cases u with
  | snapshot => exact hu.elim
  | current => exact hu.elim
  | commit g => exact hu.elim
  | release slot =>
    show (k.releaseHandle slot).2 = k
    unfold releaseHandle
    rw [hhandle]
  | drop slot =>
    show (k.dropHandle slot).2 = k
    unfold dropHandle
    rw [hhandle]
  | releaseBundle slot =>
    show (k.releaseBundle slot).2 = k
    unfold releaseBundle
    rw [hbundle]
  | releaseInBundle slot index =>
    show (k.releaseInBundle slot index).2 = k
    unfold releaseInBundle
    rw [hbundle]
  | dropBundle slot =>
    show (k.dropBundle slot).2 = k
    unfold dropBundle
    rw [hbundle]
  | openBundle slot =>
    show (k.openBundle slot).2 = k
    unfold openBundle
    rw [hbundle]

theorem Keeper.mem_given_of_at? {p : Place} {x : Handle} (h : k.at? p = some x) : x ∈ k.given := by
  cases p with
  | loose slot =>
    obtain ⟨rest, hall, -⟩ := setHandle_perm h
    exact hall.mem_iff.mpr List.mem_cons_self
  | bundled slot index =>
    obtain ⟨b, hb, hx⟩ := Option.bind_eq_some_iff.mp h
    obtain ⟨rest, hall, -⟩ := setBundle_perm hb
    exact hall.mem_iff.mpr (List.mem_append_left _ (List.mem_of_getElem? hx))

namespace Keeper

/-- What is done with handles that were given out: they are given back, or asked to delete
commits. -/
structure Handled (asked : Nat → Prop) (k k' : Keeper) : Prop extends Moves asked k k' where
  live : k'.live = k.live
  asks : ∀ n, asked n → k.Concerns n
  reachable : Reachable k → Reachable k'

section
variable (h : Within D k)
include h

theorem Within.use {u : Use} (hu : u.Returns) : Handled (fun _ => False) k (k.use u) :=
  { moves_use h.due h.sound.counted.positive hu with
    live := use_live u k
    asks := fun _ hfalse => hfalse.elim
    reachable := fun hr => hr.step (.use u) (allowsUse_of_returns hu k) }

theorem Within.deleteGuard (hx : x ∈ k.given) :
    Handled (· = x.guard.commit) k (k.deleteGuard x.guard).2 :=
  { moves_deleteGuard h.sound.counted.positive x.guard with
    live := (deleteGuard_frame x.guard k).live
    asks := fun _ hn => Or.inr (Or.inl ⟨x, hx, hn.symm⟩)
    reachable := fun hr => hr.step (.delete x.guard) (h.sound.issued.given x hx) }

/-- What handles ask for comes from the depots. -/
theorem Within.asks (hh : Handled asked k k') (n : Nat) (hn : asked n) :
    n < k.catalog.commits.length ∧ ∃ i, D i ∧ (k.catalog.commit n).backing = .artifacts i :=
  ⟨h.lt_of_concerns (hh.asks n hn), h.concerns n (hh.asks n hn)⟩

theorem Within.handled (hh : Handled asked k k') (hr : Reachable k) : Within D k' :=
  h.moves hh.toMoves (hh.reachable hr).sound (h.asks hh)

end

end Keeper

/-! ## What every call keeps -/

namespace Shard

/-- What is always true of a shard, and what is as long as its calls are careful. -/
structure Regular (careful : Prop) (config : Config) (s : Shard) : Prop where
  configured : s.config = config
  guarded : s.engine.guarded = true
  decider : s.engine.decider = .stock config.primary
  reclaimOnRelease : s.keeper.reclaimOnRelease = config.reclaimOnRelease
  /-- The writer is there exactly in these states. -/
  writer : s.engine.writer.isSome ↔ s.state = .recovering ∨ s.state = .started ∨
    s.state = .relocated
  reachable : Reachable s.keeper
  ordered : ∃ D, Ordered D s.engine
  idle : s.state = .created → Idle s.engine
  keepsHeld : careful → s.keeper.KeepsHeld
  lasting : careful → s.state ≠ .closed → s.keeper.Lasting

theorem regular_create (h : create config ⟨stores, [], []⟩ = .ok s) : Regular careful config s := by
  unfold create at h
  split at h
  next => cases h
  next =>
    obtain rfl := Except.ok.inj h
    -- nothing is there yet of which anything would have to be true
    have hidle : Idle (Engine.ofConfig 0 config true ⟨stores, [], []⟩) :=
      { guarded := rfl
        deletes := Decider.deletes_stock config.primary
        writer := rfl
        handles := rfl
        bundles := rfl
        sound := .new 0 config.reclaimOnRelease ⟨stores, [], []⟩
        shelved := ⟨fun n hn => absurd hn (Nat.not_lt_zero n), fun _ _ => rfl⟩
        apart := fun _ _ ⟨_, hg, _⟩ => absurd hg List.not_mem_nil
        lasting := ⟨fun _ hg => absurd hg List.not_mem_nil, fun _ hg => absurd hg List.not_mem_nil⟩
        filed := fun _ hg => absurd hg List.not_mem_nil }
    exact
      { configured := rfl
        guarded := rfl
        decider := rfl
        reclaimOnRelease := rfl
        writer := by simp [Engine.ofConfig]
        reachable := .new 0 config.reclaimOnRelease ⟨stores, [], []⟩
        ordered := ⟨_, hidle.ordered⟩
        idle := fun _ => hidle
        keepsHeld := fun _ x hx => absurd hx List.not_mem_nil
        lasting := fun _ _ => hidle.lasting }

section
variable (h : Regular careful config s)
include h

/-- The shard recovers, or stays as it was created. -/
theorem Regular.recover (hstate : s.state = .created) (store : Nat) :
    Regular careful config (s.recover store).2 := by
  have hidle := h.idle hstate
  obtain ⟨result, e', hopen⟩ : ∃ result e',
      s.engine.openWriter store s.config.syncOnCommit = (result, e') := ⟨_, _, rfl⟩
  have hends := hidle.openWriter hopen
  have hkeeps : ∀ {e'}, Resumes s.engine e' → e'.keeper.KeepsHeld := by
    intro e' hresumes x hx
    have hgiven := (mem_unreleased.mp hx).1
    rw [hresumes.given, hidle.unopened.given] at hgiven
    cases hgiven
  rw [recover_eq, if_pos hstate, hopen]
  -- a recovery that fails leaves the shard created, so the engine must be idle for the next one
  cases result with
  | error err =>
    obtain ⟨hresumes, hidle'⟩ := hends
    exact
      { configured := h.configured
        guarded := hidle'.guarded
        decider := hresumes.decider.trans h.decider
        reclaimOnRelease := hresumes.reclaimOnRelease.trans h.reclaimOnRelease
        writer := by simp [hidle'.writer, hstate]
        reachable := hresumes.reachable h.reachable
        ordered := ⟨_, hidle'.ordered⟩
        idle := fun _ => hidle'
        keepsHeld := fun _ => hkeeps hresumes
        lasting := fun _ _ => hidle'.lasting }
  | ok _ =>
    obtain ⟨hresumes, hordered, hwriter, hlasting⟩ := hends
    exact
      { configured := h.configured
        guarded := hresumes.guarded.trans h.guarded
        decider := hresumes.decider.trans h.decider
        reclaimOnRelease := hresumes.reclaimOnRelease.trans h.reclaimOnRelease
        writer := iff_of_true hwriter (Or.inl rfl)
        reachable := hresumes.reachable h.reachable
        ordered := hordered
        idle := fun hcreated => nomatch hcreated
        keepsHeld := fun _ => hkeeps hresumes
        lasting := fun _ _ => hlasting }

/-- The shard moves on with its writer. -/
theorem Regular.move (hwriter : s.engine.writer.isSome) {state : ShardState}
    (hstate : state = .started ∨ state = .relocated) :
    Regular careful config { s with state } := by
  have hopen : s.state ≠ .closed := by
    intro hclosed
    have hnot := h.writer.mp hwriter
    simp [hclosed] at hnot
  refine { h with
    writer := iff_of_true hwriter (Or.inr hstate)
    idle := fun hcreated => ?_
    lasting := fun hc _ => h.lasting hc hopen }
  rcases hstate with rfl | rfl
  · cases hcreated
  · cases hcreated

theorem Regular.close : Regular careful config s.close := by
  unfold Shard.close
  split
  next => exact h
  next =>
    obtain ⟨D, hordered⟩ := h.ordered
    refine
      { configured := h.configured
        guarded := h.guarded
        decider := h.decider
        reclaimOnRelease := h.reclaimOnRelease
        writer := by simp [Engine.dropWriter]
        reachable := h.reachable
        ordered := ⟨D, hordered.guarded, hordered.deletes, hordered.within, nofun⟩
        idle := nofun
        keepsHeld := h.keepsHeld
        lasting := fun _ hopen => absurd rfl hopen }

/-- The engine goes on in order. -/
theorem Regular.goes (hgoes : ∀ D, Ordered D s.engine → Goes D s.engine e)
    (hwriter : e.writer.isSome = s.engine.writer.isSome)
    (hidle : s.state = .created → Idle e) : Regular careful config { s with engine := e } := by
  obtain ⟨D, hordered⟩ := h.ordered
  have hgoes := hgoes D hordered
  exact
    { configured := h.configured
      guarded := hgoes.resumes.guarded.trans h.guarded
      decider := hgoes.resumes.decider.trans h.decider
      reclaimOnRelease := hgoes.resumes.reclaimOnRelease.trans h.reclaimOnRelease
      writer := by
        show e.writer.isSome = true ↔ _
        rw [hwriter]
        exact h.writer
      reachable := hgoes.resumes.reachable h.reachable
      ordered := ⟨D, hgoes.ordered⟩
      idle := hidle
      keepsHeld := fun hc => hgoes.keepsHeld (h.keepsHeld hc)
      lasting := fun hc hopen => hgoes.lasting (h.lasting hc hopen) }

theorem Regular.commit (changes : Changes)
    (hstate : ¬(s.state = .created ∨ s.state = .closed)) :
    Regular careful config (s.commit changes).2 := by
  have hrunning : s.engine.writer.isSome := by
    refine h.writer.mpr ?_
    cases hs : s.state with
    | created => exact absurd (Or.inl hs) hstate
    | closed => exact absurd (Or.inr hs) hstate
    | _ => simp
  obtain ⟨w, hw⟩ := Option.isSome_iff_exists.mp hrunning
  rw [commit_eq, if_neg hstate, Engine.commit?_of_writer hw]
  obtain ⟨D, hordered⟩ := h.ordered
  refine h.goes (fun D hordered => (hordered.commitWith hw changes).1) ?_
    fun hcreated => absurd (Or.inl hcreated) hstate
  exact (hordered.commitWith hw changes).2.trans hrunning.symm

theorem Regular.refuse (n : Nat) (faults : Store.FaultPlan) :
    Regular careful config (s.call (.refuse n faults)).2 := by
  have hrefilled := Catalog.refilled_setStore n { s.engine.catalog.store n with faults }
    s.engine.catalog
  exact h.goes (fun D hordered => hordered.refill hrefilled) rfl fun hcreated =>
    (h.idle hcreated).refuse n faults

/-- Snapshots are taken. -/
theorem Regular.takes (hstate : s.state = .started ∨ s.state = .relocated)
    (ht : Takes s.keeper k) (hk : Reachable k) : Regular careful config (s.withKeeper k) := by
  obtain ⟨D, hordered⟩ := h.ordered
  have hopen : s.state ≠ .closed := by
    rcases hstate with hs | hs
    all_goals
      rw [hs]
      decide
  have hcreated : s.state ≠ .created := by
    rcases hstate with hs | hs
    all_goals
      rw [hs]
      decide
  exact
    { configured := h.configured
      guarded := h.guarded
      decider := h.decider
      reclaimOnRelease := ht.reclaimOnRelease.trans h.reclaimOnRelease
      writer := h.writer
      reachable := hk
      ordered := ⟨D, hordered.takes ht hk.sound⟩
      idle := fun hc => absurd hc hcreated
      keepsHeld := fun hc => ht.keepsHeld (h.lasting hc hopen) (h.keepsHeld hc)
      lasting := fun hc _ => ht.lasting (h.lasting hc hopen) }

/-- Handles that were given out are given back, or asked to delete their commits. -/
theorem Regular.handled (hh : Handled asked s.keeper k)
    (hcreated : s.state = .created → k = s.keeper)
    (hspares : careful → s.state ≠ .closed → ∀ n, asked n →
      ∀ g ∈ s.keeper.listed, s.keeper.version g ≠ s.keeper.catalog.version n) :
    Regular careful config (s.withKeeper k) := by
  obtain ⟨D, hordered⟩ := h.ordered
  have hm := hh.toMoves
  have hk := hh.reachable h.reachable
  have hlisted : k.listed = s.keeper.listed := by
    unfold listed
    rw [hh.live]
  exact
    { configured := h.configured
      guarded := h.guarded
      decider := h.decider
      reclaimOnRelease := hm.reclaimOnRelease.trans h.reclaimOnRelease
      writer := h.writer
      reachable := hk
      ordered := ⟨D, hordered.moves hm (hordered.within.handled hh h.reachable)⟩
      idle := fun hc => by
        rw [hcreated hc]
        exact h.idle hc
      keepsHeld := fun hc => hm.keepsHeld hk.sound (h.keepsHeld hc)
      lasting := fun hc hopen => (h.lasting hc hopen).moves hm hlisted (hspares hc hopen) }

theorem Regular.use {u : Use} (hu : u.Returns) :
    Regular careful config (s.withKeeper (s.keeper.use u)) := by
  obtain ⟨D, hordered⟩ := h.ordered
  exact h.handled (hordered.within.use hu)
    (fun hc => use_of_empty (h.idle hc).handles (h.idle hc).bundles hu)
    fun _ _ _ hfalse => hfalse.elim

theorem Regular.delete (p : Place) (hspares : careful → (Call.delete p).Spares s) :
    Regular careful config (s.withKeeper (s.keeper.deleteAt p).2) := by
  obtain ⟨D, hordered⟩ := h.ordered
  unfold deleteAt
  split
  next => exact h
  next x hx =>
    have hgiven := mem_given_of_at? hx
    refine h.handled (hordered.within.deleteGuard hgiven) (fun hc => ?_) ?_
    · have hnone : s.keeper.given = [] := (h.idle hc).unopened.given
      rw [hnone] at hgiven
      cases hgiven
    · rintro hc hopen n rfl
      exact (hspares hc).resolve_left hopen x hx

/-- What every call keeps. -/
theorem Regular.call (c : Call) (hspares : careful → c.Spares s) :
    Regular careful config (s.call c).2 := by
  cases hrefusal : c.refusal? s.state with
  | some err =>
    rw [call_of_refusal hrefusal]
    exact h
  | none =>
    unfold Call.refusal? at hrefusal
    cases c with
    | recover store =>
      have hstate : s.state = .created := by simpa using hrefusal
      exact h.recover hstate store
    | start =>
      have hstate : s.state = .recovering := by simpa using hrefusal
      unfold Shard.call
      dsimp only
      rw [start_eq, if_pos hstate]
      exact h.move (h.writer.mpr (Or.inl hstate)) (Or.inl rfl)
    | relocated =>
      have hstate : s.state = .started := by simpa using hrefusal
      unfold Shard.call
      dsimp only
      rw [relocated_eq, if_pos hstate]
      exact h.move (h.writer.mpr (Or.inr (Or.inl hstate))) (Or.inr rfl)
    | close => exact h.close
    | commit changes =>
      have hstate : ¬(s.state = .created ∨ s.state = .closed) := by simpa using hrefusal
      exact h.commit changes hstate
    | snapshot =>
      have hstate : s.state = .started ∨ s.state = .relocated := by
        simpa [or_iff_not_imp_left] using hrefusal
      show Regular careful config (s.whenStarted Keeper.snapshot).2
      rw [whenStarted_eq, if_pos hstate]
      exact h.takes hstate (takes_snapshot s.keeper) (h.reachable.step (.use .snapshot) trivial)
    | current =>
      have hstate : s.state = .started ∨ s.state = .relocated := by
        simpa [or_iff_not_imp_left] using hrefusal
      show Regular careful config (s.whenStarted Keeper.snapshotCurrent).2
      rw [whenStarted_eq, if_pos hstate]
      exact h.takes hstate (takes_snapshotCurrent s.keeper)
        (h.reachable.step (.use .current) trivial)
    | use u hu => exact h.use hu
    | delete p => exact h.delete p hspares
    | refuse n faults => exact h.refuse n faults

end

/-- Every state of a run is regular. -/
theorem Run.regular (h : Run allowed config stores s)
    (hspares : careful → ∀ s c, allowed s c → c.Spares s) : Regular careful config s := by
  induction h with
  | created hcreate => exact regular_create hcreate
  | call c _ hallowed ih => exact ih.call c fun hc => hspares hc _ c hallowed

end Shard

end SnapshotRetention
