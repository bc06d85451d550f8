import SnapshotRetention.Proofs.Keeper.ReleaseOrder
import SnapshotRetention.Proofs.Writer.Reliable
import SnapshotRetention.Proofs.Writer.Snapshots

/-!
# The order of releases does not matter

An engine is driven over a store (`Engine.Driven`) by writers, which may be opened and dropped again
and again and commit whatever changes with whatever policy, and by consumers. If the store never
fails, nothing that happens makes the catalog less reliable (`Driven.dependable`): what a writer
writes lists what it has written or what a commit before it lists.

Main statement: `release_order_irrelevant` — in each such state two ways of giving back the same
handles, in any order, one by one or with their bundles, released or dropped, end with the same
holds and pending deletions, the same deleted commits, the same reference counts, the same
statistics and the same store, whether deletions that wait happen with the release or not.
-/

namespace SnapshotRetention

open Catalog (Prunes Reliable)
open Keeper (Coincide)

namespace Engine

variable {e e' : Engine} {s : Store} {w w' : Writer} {changes : Changes} {m : Manifest}

/-! ## Runs -/

/-- The states that writers and consumers lead to over a store. -/
inductive Driven (s : Store) : Engine → Prop where
  | fresh (id : Nat) (reclaimOnRelease : Bool) (d : Decider) :
    Driven s (onStore id reclaimOnRelease d s)
  /-- A writer is opened, in place of the present one if there is one, whatever comes of it. -/
  | opened {e : Engine} (d : Decider) (sync : Bool) : Driven s e →
    Driven s ({ e with decider := d }.openWriter 0 sync).2
  | dropped {e : Engine} : Driven s e → Driven s e.dropWriter
  | commit {e : Engine} (d : Decider) (changes : Changes) : Driven s e →
    Driven s (e.act (.commit d changes))
  | use {e : Engine} (u : Use) : Driven s e → e.keeper.AllowsUse u → Driven s (e.act (.use u))
  | asked {e : Engine} (g : Guard) : Driven s e → e.keeper.Knows g → Driven s (e.deleteGuard g)
  /-- A commit is deleted whatever the keeper has to say. -/
  | deleted {e : Engine} (n : Nat) : Driven s e → Driven s (e.setCatalog (e.catalog.delete n).2)
  /-- The queued deletions of a depot are tried again. -/
  | retried {e : Engine} (i : Nat) : Driven s e → Driven s (e.setCatalog (e.catalog.retryDepot i))

/-! ## What every step keeps -/

/-- A writer has a depot that is there, and its history consists of commits that are there. -/
def Rests (w : Writer) (c : Catalog) : Prop :=
  w.depot < c.depots.length ∧ ∀ n ∈ w.history, n < c.commits.length

/-- An engine over a reliable catalog. -/
structure Dependable (e : Engine) : Prop where
  catalog : e.catalog.Reliable
  writer : ∀ w, e.writer = some w → Rests w e.catalog

/-- Commits may leave the history. -/
theorem Rests.mono {c : Catalog} (h : Rests w c) (hdepot : w'.depot = w.depot)
    (hsub : ∀ n ∈ w'.history, n ∈ w.history) : Rests w' c :=
  ⟨hdepot ▸ h.1, fun n hn => h.2 n (hsub n hn)⟩

theorem Rests.prunes {c d : Catalog} (h : Rests w c) (hp : Prunes c d) : Rests w d := by
  obtain ⟨ns, rfl⟩ := hp
  refine ⟨Nat.lt_of_lt_of_le h.1 (Catalog.sameDepots_deleteEach ns c).length, ?_⟩
  rw [(Catalog.sameCommits_deleteEach ns c).length]
  exact h.2

/-- Commits may be deleted. -/
theorem Dependable.prunes (h : e.Dependable) (hp : Prunes e.catalog e'.catalog)
    (hwriter : ∀ w, e'.writer = some w → Rests w e.catalog) : e'.Dependable :=
  ⟨h.catalog.prunes hp, fun w hw => (hwriter w hw).prunes hp⟩

theorem dependable_onStore (hs : s.NeverFails) (id : Nat) (reclaimOnRelease : Bool) (d : Decider) :
    (onStore id reclaimOnRelease d s).Dependable :=
  ⟨Catalog.reliable_ofStore hs, nofun⟩

theorem Dependable.retryDepot (h : e.Dependable) (i : Nat) :
    (e.setCatalog (e.catalog.retryDepot i)).Dependable := by
  refine ⟨h.catalog.retryDepot i, fun w hw => ?_⟩
  obtain ⟨hdepot, hrange⟩ := h.writer w hw
  have hdepots : (e.catalog.retryDepot i).depots.length = e.catalog.depots.length :=
    List.length_set ..
  exact ⟨Nat.lt_of_lt_of_le hdepot (Nat.le_of_eq hdepots.symm), hrange⟩

theorem Dependable.dropWriter (h : e.Dependable) : e.dropWriter.Dependable :=
  ⟨h.catalog, nofun⟩

theorem decide_writer (commits : List Nat) (e : Engine) :
    (e.decide commits).2.writer = e.writer := by
  unfold decide
  dsimp only
  split
  next => rfl
  next => rfl

/-! ## Opening -/

theorem of_after {depot : Nat} {ns : List Nat} {sync : Bool} {ms : List Manifest}
    (h : Writer.after depot ns sync ms = some w) : w.depot = depot ∧ w.history = ns := by
  unfold Writer.after at h
  split at h
  next =>
    obtain rfl := Option.some.inj h
    exact ⟨rfl, rfl⟩
  next =>
    split at h
    next =>
      obtain rfl := Option.some.inj h
      exact ⟨rfl, rfl⟩
    next => cases h

/-- A writer that is there after the history has been shown is the one that was there, or has what
is left of the history. -/
theorem of_presentHistory (h : (e.presentHistory w).2.writer = some w') :
    e.writer = some w' ∨ w'.depot = w.depot ∧ ∀ n ∈ w'.history, n ∈ w.history := by
  unfold presentHistory at h
  split at h
  next =>
    obtain rfl := Option.some.inj h
    exact Or.inr ⟨rfl, fun _ hn => hn⟩
  next =>
    have hwriter := decide_writer w.history e
    split at h
    next heq =>
      rw [heq] at hwriter
      exact Or.inl (hwriter.symm.trans h)
    next =>
      obtain rfl := Option.some.inj h
      exact Or.inr ⟨rfl, fun _ hn => (List.mem_filter.mp hn).1⟩

/-- A writer may be opened, whatever comes of it. -/
theorem Dependable.openWriter (h : e.Dependable) (sync : Bool) :
    (e.openWriter 0 sync).2.Dependable := by
  cases hms : (e.catalog.store 0).readCommits with
  | error err =>
    rw [openWriter_of_error hms]
    exact h.dropWriter
  | ok ms =>
    obtain ⟨ns, c, hjoins, hopen⟩ := openWriter_eq_swept hms sync
    have hreload := h.catalog.reload hms hjoins (ms.flatMap Manifest.fileNames).contains
    rw [hopen]
    obtain ⟨result, s', hswept⟩ : ∃ result s', (e.catalog.store 0).sweep
        (ms.flatMap Manifest.fileNames).contains = (result, s') := ⟨_, _, rfl⟩
    rw [hswept] at hreload ⊢
    have hloaded : (e.dropWriter.setCatalog (c.setStore 0 s')).Dependable := ⟨hreload, nofun⟩
    cases result with
    | error cause => exact hloaded
    | ok _ =>
      dsimp only
      cases hafter : Writer.after e.catalog.depots.length ns sync ms with
      | none => exact hloaded
      | some w =>
        obtain ⟨hdepot, hhistory⟩ := of_after hafter
        have hrests : Rests w (c.setStore 0 s') := by
          refine ⟨?_, fun n hn => ?_⟩
          · show w.depot < c.depots.length
            rw [hdepot, hjoins.length, Catalog.length_addDepot]
            exact Nat.lt_succ_self _
          · show n < c.commits.length
            rw [hhistory, hjoins.numbers, List.mem_range'_1] at hn
            rw [hjoins.commits, List.length_append, List.length_map]
            exact hn.2
        refine hloaded.prunes (presentHistory_prunes w _) fun w' hw' => ?_
        rcases of_presentHistory hw' with hnone | ⟨hdepot', hsub⟩
        · cases hnone
        · exact hrests.mono hdepot' hsub

/-! ## Committing -/

/-- What registering a commit leaves: the commit has joined, and others may have been deleted. -/
theorem register_leaves (w : Writer) (m : Manifest) (e : Engine) :
    Prunes (e.catalog.adopt w.depot m).2 (e.register w m).2.catalog ∧
      ∀ w', (e.register w m).2.writer = some w' → w'.depot = w.depot ∧
        ∀ n ∈ w'.history, n ∈ w.history ++ [e.catalog.commits.length] := by
  refine ⟨register_prunes_withCommit, fun w' hw' => ?_⟩
  cases hadvance : advance { w with history := w.history ++ [e.catalog.commits.length] }
      m.timestamp with
  | none =>
    rw [register_of_none hadvance] at hw'
    obtain rfl := Option.some.inj hw'
    exact ⟨rfl, fun _ hn => hn⟩
  | some w1 =>
    obtain ⟨hdepot, hhistory, -⟩ := advance_eq_some hadvance
    rw [register_of_advance hadvance] at hw'
    obtain rfl := Option.some.inj hw'
    refine ⟨hdepot, fun n hn => ?_⟩
    have hn := (List.mem_filter.mp hn).1
    rwa [hhistory] at hn

/-- A commit that lists what can be deleted may join. -/
theorem Dependable.register (h : e.Dependable) (hw : Rests w e.catalog)
    (hfree : ∀ q ∈ m.fileNames, ¬(e.catalog.store 0).medium.Fixed q) :
    (e.register w m).2.Dependable := by
  obtain ⟨hprunes, hwriter⟩ := register_leaves w m e
  have hjoins := Catalog.joins_adoptAll hw.1 [m]
  have hjoined : (e.catalog.adopt w.depot m).2.Reliable := by
    refine h.catalog.joins hw.1 hjoins fun m' hm' => ?_
    rw [List.mem_singleton.mp hm']
    exact hfree
  refine ⟨hjoined.prunes hprunes, fun w' hw' => ?_⟩
  obtain ⟨hdepot, hsub⟩ := hwriter w' hw'
  refine Rests.prunes ⟨?_, fun n hn => ?_⟩ hprunes
  · rw [hdepot]
    exact Nat.lt_of_lt_of_le hw.1 (Nat.le_of_eq hjoins.length.symm)
  · rw [Catalog.length_adopt]
    rcases List.mem_append.mp (hsub n hn) with hn | hn
    · exact Nat.lt_succ_of_lt (hw.2 n hn)
    · rw [List.mem_singleton.mp hn]
      exact Nat.lt_succ_self _

/-- What a commit starts from can be deleted. -/
theorem free_of_mem_baseFiles {c : Catalog} (hc : c.Reliable) {history : List Nat}
    (hrange : ∀ n ∈ history, n < c.commits.length) {q : String} (hq : q ∈ baseFiles history c) :
    ¬(c.store 0).medium.Fixed q := by
  unfold baseFiles at hq
  split at hq
  next => cases hq
  next n hlast =>
    exact hc.free (hrange n (List.mem_of_getLast? hlast)) q (List.mem_append_left _ hq)

/-- An attempt to write a commit leaves a writer with what is left of its history. -/
theorem Dependable.attempted {c : Catalog} (hw : Rests w e.catalog) (hc : c.Reliable)
    (hdepots : c.depots.length = e.catalog.depots.length)
    (hcommits : c.commits = e.catalog.commits) : (e.attempted w c).Dependable := by
  refine ⟨hc, fun w' hw' => ?_⟩
  obtain rfl := Option.some.inj hw'
  refine ⟨?_, fun n hn => ?_⟩
  · show w.depot < c.depots.length
    rw [hdepots]
    exact hw.1
  · show n < c.commits.length
    rw [hcommits]
    exact hw.2 n (List.mem_filter.mp hn).1

/-- A commit may be made, wherever it ends. -/
theorem Dependable.commitWith (h : e.Dependable) (hw : e.writer = some w) (changes : Changes) :
    (e.commitWith w changes).2.Dependable := by
  have hrests := h.writer w hw
  have hretried := h.catalog.retryDepot w.depot
  have hdepots : (e.catalog.retryDepot w.depot).depots.length = e.catalog.depots.length :=
    List.length_set ..
  have hbase : ∀ q ∈ baseFiles (e.catalog.undeleted w.history) e.catalog,
      ¬((e.catalog.retryDepot w.depot).store 0).medium.Fixed q := fun q hq =>
    free_of_mem_baseFiles hretried (fun n hn => hrests.2 n (List.mem_filter.mp hn).1) hq
  rcases e.commitWith_cases w changes with ⟨err, e1, hstage, heq⟩ | ⟨w1, m, e1, hstage, heq⟩
  · rw [heq]
    rcases stage_error hstage with ⟨cause, -, -, rfl⟩ | ⟨files, s, hfiles, hwritten, rfl⟩
    · exact .attempted hrests hretried hdepots rfl
    · rw [hretried.storeOf_eq] at hwritten
      rw [hretried.setStoreOf_eq]
      rcases exists_wrote_of_writeOut_error hwritten with
        ⟨-, written, hbegins, hwrote⟩ | ⟨-, hrefuses, -⟩
      · refine .attempted hrests (hretried.write hwrote fun a ha hreserved => ?_) hdepots rfl
        have hplain := Changes.isReserved_of_added hfiles
          (List.mem_map_of_mem (hbegins.subset ha))
        cases hplain.symm.trans hreserved
      · exact absurd hrefuses (Store.not_refusesSync_of_never hretried.store.faults)
  · rw [heq]
    obtain ⟨rfl, files, s, hfiles, rfl, hwritten, rfl⟩ := stage_ok hstage
    rw [hretried.storeOf_eq] at hwritten
    rw [hretried.setStoreOf_eq]
    obtain ⟨data, hdata, hwrote⟩ := exists_wrote_of_writeOut hwritten
    have hlists : ∀ q ∈ files, ¬((e.catalog.retryDepot w.depot).store 0).medium.Fixed q := by
      intro q hq
      rcases Changes.mem_of_apply hfiles hq with hold | hadded
      · exact hbase q hold
      · refine (hwrote.free q ?_).2
        rw [List.map_append]
        exact List.mem_append_left _ hadded
    have hcatalog := hretried.write hwrote fun a ha hreserved => by
      rcases List.mem_append.mp ha with ha | ha
      · have hplain := Changes.isReserved_of_added hfiles (List.mem_map_of_mem ha)
        cases hplain.symm.trans hreserved
      · rw [List.mem_singleton.mp ha]
        exact ⟨_, Manifest.decode_of_encode hdata, hlists⟩
    have hattempted := Dependable.attempted hrests hcatalog hdepots rfl
    refine hattempted.register (hattempted.writer _ rfl) fun q hq hfixed => ?_
    have hstore : ((e.catalog.retryDepot w.depot).setStore 0 s).store 0 = s :=
      (Catalog.store_setStore ..).trans (if_pos ⟨rfl, hretried.room⟩)
    have hfixed : (((e.catalog.retryDepot w.depot).setStore 0 s).store 0).medium.Fixed q := hfixed
    rw [hstore, hwrote.alike.fixed_iff] at hfixed
    rcases List.mem_append.mp hq with hfile | hself
    · exact hlists q hfile hfixed
    · refine (hwrote.free q ?_).2 hfixed
      rw [List.mem_singleton.mp hself, List.map_append]
      exact List.mem_append_right _ (List.mem_singleton.mpr rfl)

/-- Over a store that never fails every state is one in which commits can be deleted. -/
theorem Driven.dependable (hs : s.NeverFails) (h : Driven s e) : e.Dependable := by
  induction h with
  | fresh id reclaimOnRelease d => exact dependable_onStore hs id reclaimOnRelease d
  | @opened e d sync _ ih =>
    exact Dependable.openWriter (e := { e with decider := d }) ⟨ih.catalog, ih.writer⟩ sync
  | dropped _ ih => exact ih.dropWriter
  | @commit e d changes _ ih =>
    have hd : Dependable { e with decider := d } := ⟨ih.catalog, ih.writer⟩
    cases hw : e.writer with
    | none =>
      rw [(act_commit_of_none d changes hw).2]
      exact hd
    | some w =>
      rw [(act_commit_of_some d changes hw).2]
      exact hd.commitWith hw changes
  | use u _ _ ih => exact ih.prunes (Keeper.use_prunes u _) ih.writer
  | asked g _ _ ih => exact ih.prunes (Keeper.deleteGuard_prunes g _) ih.writer
  | deleted n _ ih => exact ih.prunes (Catalog.Prunes.delete n _) ih.writer
  | retried i _ ih => exact ih.retryDepot i

/-! ## Any order -/

/-- In a store that never fails, two ways of giving back the same handles, after which the same are
left, end alike: in whatever order, released or dropped, one by one or with their bundles. -/
theorem release_order_irrelevant (hs : s.NeverFails) (h : Driven s e) {us us' : List Use}
    (hus : ∀ u ∈ us, u.Returns) (hus' : ∀ u ∈ us', u.Returns)
    (hleft : (e.keeper.useAll us).unreleased.Perm (e.keeper.useAll us').unreleased) :
    Coincide (e.keeper.useAll us) (e.keeper.useAll us') :=
  Keeper.coincide_useAll hus hus' (h.dependable hs).catalog.deletable hleft

/-- Of three commits the policy keeps the last. The first two share an artifact and wait: a bundle
and a handle hold the first, and a handle the second. -/
def sharing : Engine :=
  let d : Decider := .stock .keepOnlyLast
  let e := ((onStore 0 true d .empty).openWriter 0 true).2
  let e := (e.act (.commit d ⟨[("a", [1])], [], 0⟩)).act (.use .snapshot)
  let e := ((e.act (.use .current)).act (.commit d ⟨[("b", [2])], [], 0⟩)).act (.use .current)
  e.act (.commit d ⟨[("c", [3])], ["a"], 0⟩)

/-- The shared artifact goes with the second commit or with the first, whichever is given back last,
and nothing tells the two orders apart afterwards. -/
theorem release_order_irrelevant_sharing :
    let us : List Use := [.dropBundle 0, .release 0, .drop 1]
    let us' : List Use := [.drop 1, .release 0, .releaseBundle 0]
    ((sharing.keeper.useAll (us.take 2)).catalog.store 0).names =
        ["a", "b", "c", "commit_2", "commit_3"] ∧
      ((sharing.keeper.useAll (us'.take 2)).catalog.store 0).names =
          ["a", "b", "c", "commit_1", "commit_3"] ∧
        ((sharing.keeper.useAll us).catalog.store 0).names = ["b", "c", "commit_3"] ∧
          (sharing.keeper.useAll us).stats.deferredReclaimed = 2 ∧
            Coincide (sharing.keeper.useAll us) (sharing.keeper.useAll us') := by
  intro us us'
  have hnever : Store.empty.NeverFails := Store.neverFails_of_memory rfl rfl
  have hopened := (Driven.fresh (s := .empty) 0 true (.stock .keepOnlyLast)).opened
    (.stock .keepOnlyLast) true
  have hfirst := ((hopened.commit (.stock .keepOnlyLast) ⟨[("a", [1])], [], 0⟩).use .snapshot
    trivial).use .current trivial
  have hsecond := (hfirst.commit (.stock .keepOnlyLast) ⟨[("b", [2])], [], 0⟩).use .current trivial
  have hsharing : Driven .empty sharing :=
    hsecond.commit (.stock .keepOnlyLast) ⟨[("c", [3])], ["a"], 0⟩
  have hus : ∀ u ∈ us, u.Returns := by simp [us, Use.Returns]
  have hus' : ∀ u ∈ us', u.Returns := by simp [us', Use.Returns]
  have hleft : (sharing.keeper.useAll us).unreleased = (sharing.keeper.useAll us').unreleased := by
    decide +kernel
  exact ⟨by decide +kernel, by decide +kernel, by decide +kernel, by decide +kernel,
    release_order_irrelevant hnever hsharing hus hus' (.of_eq hleft)⟩

end Engine

end SnapshotRetention
