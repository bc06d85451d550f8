import SnapshotRetention.Proofs.Keeper.LateReleases
import SnapshotRetention.Proofs.Writer.Run

/-!
# Releases beside the cycles of a run

Each cycle of a run is offered the history with one new commit, or all commits when the writer
opens (`Engine.Begins`). Consumers may release snapshots while it runs.

Main statement: `Engine.published_unless_late` — in any order of the steps of the cycle and of the
releases, a commit that the cycle publishes is undeleted and stays so until the next cycle, unless a
release had freed it too late for the cycle to notice.

There are such orders (`Engine.publishes_deleted`): a commit has been superseded while a snapshot
held it, so that its deletion is pending, and the next policy spares it. The snapshot is released
and its deletion taken off the table, the cycle takes the commit for a survivor, and only then it is
deleted.
-/

namespace SnapshotRetention.Engine

open Keeper

variable {e e1 : Engine} {w w1 w2 : Writer} {m : Manifest} {k : Keeper} {changes : Changes}
  {commits : List Nat} {newest n : Nat} {s : Store} {seen last : List Nat} {moves : List Move}
  {t : Scene} {result : Except Error Unit}

/-- The keeper to which a manifest has just been added. -/
def joined (w : Writer) (m : Manifest) (e : Engine) : Keeper :=
  { e.keeper with catalog := (e.catalog.adopt w.depot m).2 }

/-- How the cycles of the runs over a store begin: the keeper, the commits that are offered to it
and the newest of them. -/
inductive Begins (s : Store) : Keeper → List Nat → Nat → Prop where
  | opening {id : Nat} {reclaimOnRelease sync : Bool} {d : Decider} {ms : List Manifest}
    {w : Writer} {e : Engine} {newest : Nat}
    (hms : s.readCommits = .ok ms)
    (hpresent : ∀ m ∈ ms, ∀ name ∈ m.files, (s.data? name).isSome)
    (hload : (onStore id reclaimOnRelease d s).load 0 sync = (.ok w, e))
    (hnewest : w.history.getLast? = some newest) : Begins s e.keeper w.history newest
  | commit {e e1 : Engine} {seen last : List Nat} {w w1 w2 : Writer} {m : Manifest}
    {changes : Changes} (h : Run s e seen last) (hw : e.writer = some w)
    (hstage : e.stage w changes = (.ok (w1, m), e1))
    (hadvance : advance { w1 with history := w1.history ++ [e1.catalog.commits.length] }
      m.timestamp = some w2) :
    Begins s (e1.joined w1 m) w2.history e1.catalog.commits.length

/-- The newest of what a cycle is offered is new. -/
theorem Begins.offers (h : Begins s k commits newest) : Offers k commits newest ∧ Retained k := by
  cases h with
  | opening hms hpresent hload hnewest =>
    -- before the first cycle nothing is held
    have hloaded := loaded_load hms hpresent hload
    have hlt := hloaded.fits.range newest (List.mem_of_getLast? hnewest)
    exact ⟨hloaded.fits.offers hnewest (hloaded.undeleted newest hlt) (hloaded.unheld _),
      hloaded.fits.safe.retained⟩
  | commit h hw hstage hadvance =>
    -- a commit that has just joined has a new version
    obtain ⟨bound, hrunning, -⟩ := h.running
    obtain ⟨hfits, -, hversion, -, hpresent⟩ := hrunning.written hw hstage
    obtain ⟨hfits2, hoffers⟩ := offers_of_advance hfits hversion hpresent hadvance
    unfold joined
    rw [hfits.depot]
    exact ⟨hoffers, hfits2.safe.retained⟩

/-- A commit goes through the steps of its cycle, if nothing is released in between. -/
theorem run_commitWith (h : Run s e seen last) (hw : e.writer = some w)
    (hstage : e.stage w changes = (.ok (w1, m), e1))
    (hadvance : advance { w1 with history := w1.history ++ [e1.catalog.commits.length] }
      m.timestamp = some w2) :
    ∃ moves result, Scene.run w2.history e1.catalog.commits.length moves
      (.start (e1.joined w1 m)) = some ⟨(e.commitWith w changes).2.keeper, .done result, []⟩ := by
  obtain ⟨bound, hrunning, -⟩ := h.running
  obtain ⟨hoffers, -⟩ := (Begins.commit h hw hstage hadvance).offers
  have hguarded : e1.guarded = true := by
    have hstaged := staged_stage hrunning.safe.backed (hrunning.depot hw) changes
    rw [hstage] at hstaged
    exact hstaged.guarded.trans hrunning.guarded
  obtain ⟨requests, k, -, hk, hregister⟩ := register_of_some (m := m) hguarded hadvance
  obtain ⟨n, hrun⟩ := Scene.run_cycle hoffers.last requests (e1.joined w1 m)
  rw [commitWith_of_ok hstage, hregister, hk]
  exact ⟨_, _, hrun⟩

/-- Whatever the primary policy asks for and whatever is released while a cycle runs, a commit that
the cycle publishes is undeleted, and no release is going to delete it before the next cycle, unless
one had freed it too late for the cycle to notice. -/
theorem published_unless_late (h : Begins s k commits newest)
    (hrun : Scene.run commits newest moves (.start k) = some t) (hdone : t.phase = .done result)
    {live : LiveList} (hlive : t.keeper.live = some live) {g : Guard} (hg : g ∈ live.guards) :
    t.keeper.catalog.isDeleted g.commit = true ∨ g.commit ∈ t.doomed ↔
      Scene.Late commits newest moves (.start k) g.commit := by
  obtain ⟨hoffers, hretained⟩ := h.offers
  exact Scene.deleted_or_doomed_iff hoffers hretained hrun hdone hlive hg

/-- The second commit has replaced the first, whose deletion has to wait for a snapshot. -/
def superseded : Engine :=
  snapshotted.act (.commit (.stock .keepOnlyLast) ⟨[("b", [2])], ["a"], 0⟩)

/-- The keeper to which a third commit has been added. -/
def third : Keeper :=
  (superseded.stage ⟨0, [0, 1], ⟨3⟩, ⟨3⟩, 0, true⟩ ⟨[("c", [3])], [], 0⟩).2.joined
    ⟨0, [0, 1], ⟨3⟩, ⟨3⟩, 0, true⟩ ⟨⟨3⟩, ⟨3⟩, 0, ["b", "c"]⟩

theorem begins_third : Begins .empty third [0, 1, 2] 2 := by
  have hshows : snapshotted.shows (.commit (.stock .keepOnlyLast) ⟨[("b", [2])], ["a"], 0⟩) =
      [0, 1] := by decide +kernel
  have hsuperseded :=
    run_snapshotted.act (.commit (.stock .keepOnlyLast) ⟨[("b", [2])], ["a"], 0⟩) trivial
  rw [hshows] at hsuperseded
  have hstage : superseded.stage ⟨0, [0, 1], ⟨3⟩, ⟨3⟩, 0, true⟩ ⟨[("c", [3])], [], 0⟩ =
      (.ok (⟨0, [0, 1], ⟨3⟩, ⟨3⟩, 0, true⟩, ⟨⟨3⟩, ⟨3⟩, 0, ["b", "c"]⟩),
        (superseded.stage ⟨0, [0, 1], ⟨3⟩, ⟨3⟩, 0, true⟩ ⟨[("c", [3])], [], 0⟩).2) :=
    Prod.ext (by decide +kernel) rfl
  have hnewest : (superseded.stage ⟨0, [0, 1], ⟨3⟩, ⟨3⟩, 0, true⟩
      ⟨[("c", [3])], [], 0⟩).2.catalog.commits.length = 2 := by decide +kernel
  have hbegins : Begins .empty third
      (Writer.history ⟨0, [0, 1, 2], ⟨4⟩, ⟨4⟩, 0, true⟩) _ :=
    .commit hsuperseded (by decide +kernel) hstage (by rw [hnewest]; decide +kernel)
  rwa [hnewest] at hbegins

/-- The snapshot of the first commit is released, and the commit deleted, before the survivors are
taken. -/
def inTime : List Move :=
  [.proceed, .release ⟨1⟩, .settle (.freed (some 0)), .proceed, .proceed, .proceed, .proceed,
    .proceed, .proceed, .proceed]

/-- The other two commits are published and stay. -/
theorem published_unless_late_inTime : ∃ t,
    Scene.run [0, 1, 2] 2 inTime (.start third) = some t ∧
      t.keeper.live = some ⟨3, [⟨0, 4, 1⟩, ⟨0, 5, 2⟩]⟩ ∧ t.keeper.catalog.isDeleted 0 = true ∧
        t.keeper.catalog.isDeleted 1 = false ∧ ¬Scene.Late [0, 1, 2] 2 inTime (.start third) 1 := by
  have hends : (Scene.run [0, 1, 2] 2 inTime (.start third)).map (fun t => (t.phase, t.keeper.live,
      t.keeper.catalog.isDeleted 0, t.keeper.catalog.isDeleted 1, t.doomed)) =
      some (.done (.ok ()), some ⟨3, [⟨0, 4, 1⟩, ⟨0, 5, 2⟩]⟩, true, false, []) := by
    decide +kernel
  obtain ⟨t, hrun, ht⟩ := Option.map_eq_some_iff.mp hends
  obtain ⟨hdone, ht⟩ := Prod.mk.inj ht
  obtain ⟨hlive, ht⟩ := Prod.mk.inj ht
  obtain ⟨hfirst, ht⟩ := Prod.mk.inj ht
  obtain ⟨hsecond, hdoomed⟩ := Prod.mk.inj ht
  refine ⟨t, hrun, hlive, hfirst, hsecond, fun hlate => ?_⟩
  have hmem : (⟨0, 4, 1⟩ : Guard) ∈ [(⟨0, 4, 1⟩ : Guard), ⟨0, 5, 2⟩] := List.mem_cons_self
  rcases (published_unless_late begins_third hrun hdone hlive hmem).mpr hlate with hdeleted | hgoing
  · cases hsecond.symm.trans hdeleted
  · rw [hdoomed] at hgoing
    exact List.not_mem_nil hgoing

/-- The first step of the release comes before the survivors are taken, and the second after. -/
def tooLate : List Move :=
  [.proceed, .release ⟨1⟩, .proceed, .proceed, .proceed, .settle (.freed (some 0)), .proceed,
    .proceed, .proceed, .proceed, .proceed]

/-- The first commit survives, since its deletion is not pending any more and not carried out yet,
and is deleted when it is published. -/
theorem publishes_deleted : Begins .empty third [0, 1, 2] 2 ∧ third.holds.count ⟨1⟩ = 1 ∧
    ∃ t, Scene.run [0, 1, 2] 2 tooLate (.start third) = some t ∧ t.phase = .done (.ok ()) ∧
      t.keeper.live = some ⟨3, [⟨0, 3, 0⟩, ⟨0, 4, 1⟩, ⟨0, 5, 2⟩]⟩ ∧
        t.keeper.catalog.isDeleted 0 = true := by
  refine ⟨begins_third, by decide +kernel, ?_⟩
  have hends : (Scene.run [0, 1, 2] 2 tooLate (.start third)).map
      (fun t => (t.phase, t.keeper.live, t.keeper.catalog.isDeleted 0)) =
      some (.done (.ok ()), some ⟨3, [⟨0, 3, 0⟩, ⟨0, 4, 1⟩, ⟨0, 5, 2⟩]⟩, true) := by
    decide +kernel
  obtain ⟨t, hrun, ht⟩ := Option.map_eq_some_iff.mp hends
  obtain ⟨hdone, ht⟩ := Prod.mk.inj ht
  exact ⟨t, hrun, hdone, Prod.mk.inj ht⟩

end SnapshotRetention.Engine
