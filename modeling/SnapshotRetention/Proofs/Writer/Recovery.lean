import SnapshotRetention.Proofs.Writer.Cleanup
import SnapshotRetention.Shard.Basic

/-!
# Recovering after opens that failed

A writer may fail to open because the store refuses to delete something, and be opened again over
what is left, by the same keeper or by a new one (`Attempt`). As long as only deletions are refused,
an attempt over an eroded store does what it would have done over the store as it was
(`Underway.attempt`): what has gone is not missed, because it is never what the policy leaves.

So it does not matter how many attempts have failed before one does not: it ends as the only one
would have ended (`retries_converge`).
-/

namespace SnapshotRetention

open Store (Erodes Medium)

/-- One try at opening a writer. -/
structure Attempt where
  /-- What the store refuses meanwhile. -/
  faults : Store.FaultPlan
  syncOnCommit : Bool
  /-- The number and the setting of a new keeper, unless the attempt shares the one that is there. -/
  keeper : Option (Nat × Bool)

variable {p : Primary} {s s' : Store} {e e' : Engine} {ms ms' : List Manifest} {a : Attempt}
  {result result' : Except Error Unit}

namespace Engine

/-- The engine over whose store an attempt is made, with a stock policy. -/
def setUp (p : Primary) (a : Attempt) (e : Engine) : Engine :=
  let s := { e.catalog.store 0 with faults := a.faults }
  match a.keeper with
  | none => e.setCatalog (e.catalog.setStore 0 s)
  | some (id, reclaimOnRelease) => fresh id reclaimOnRelease true (.stock p) s

/-- Tries to open a writer over the store of an engine. -/
def attempt (p : Primary) (a : Attempt) (e : Engine) : Except Error Unit × Engine :=
  (e.setUp p a).openWriter 0 a.syncOnCommit

/-- Tries again and again, whatever comes of it. -/
def attemptAll (p : Primary) (attempts : List Attempt) (e : Engine) : Engine :=
  attempts.foldl (fun e a => (e.attempt p a).2) e

end Engine

theorem Catalog.setStore_store (c : Catalog) : c.setStore 0 (c.store 0) = c := by
  obtain ⟨stores, depots, commits⟩ := c
  cases stores with
  | nil => rfl
  | cons s rest => rfl

/-- A created shard that recovers makes an attempt that shares its keeper, and may make another one if
that fails. -/
theorem Shard.recover_of_created {shard : Shard} (h : shard.state = .created) (p : Primary) :
    ((shard.recover 0).1, (shard.recover 0).2.engine) = shard.engine.attempt p
        ⟨(shard.engine.catalog.store 0).faults, shard.config.syncOnCommit, none⟩ ∧
      ((shard.recover 0).1 ≠ .ok () → (shard.recover 0).2.state = .created) := by
  have hsame : shard.engine.setUp p
      ⟨(shard.engine.catalog.store 0).faults, shard.config.syncOnCommit, none⟩ = shard.engine :=
    congrArg shard.engine.setCatalog (Catalog.setStore_store shard.engine.catalog)
  unfold Engine.attempt Shard.recover
  rw [hsame, h]
  dsimp only [Shard.checkMove, ShardState.canMoveTo]
  split
  next heq => cases heq
  next =>
    split
    next err engine heq => exact ⟨heq.symm, fun _ => rfl⟩
    next engine heq => exact ⟨heq.symm, fun hne => absurd rfl hne⟩

namespace Engine

/-! ## Histories of which something has gone -/

/-- Of some manifests, those that are left and include all that a policy leaves. -/
structure Rest (p : Primary) (ms ms' : List Manifest) : Prop where
  sublist : ms'.Sublist ms
  recovered : p.recovered ms' = p.recovered ms
  last : ms'.getLast? = ms.getLast?

namespace Rest

variable (h : Rest p ms ms')
include h

theorem keeps : p.keeps ms' = p.keeps ms := congrArg (List.flatMap Manifest.fileNames) h.recovered

theorem canFollow : Writer.canFollow ms' = Writer.canFollow ms := Writer.canFollow_congr h.last

theorem eq_nil_iff : ms' = [] ↔ ms = [] := by
  rw [← List.getLast?_eq_none_iff, h.last, List.getLast?_eq_none_iff]

theorem remaining (hcan : Writer.canFollow ms = true) : p.remaining ms' = p.remaining ms := by
  have hrecovered := h.recovered
  unfold Primary.recovered at hrecovered
  rw [h.canFollow, if_pos hcan, if_pos hcan] at hrecovered
  exact hrecovered

end Rest

/-- What is read from an eroded store. -/
theorem exists_rest (h : Erodes (p.keeps ms) s s') (hms : s.readCommits = .ok ms)
    (hdeletes : s'.faults.OnlyDeletes) : ∃ ms', s'.readCommits = .ok ms' ∧ Rest p ms ms' := by
  have hholds : ∀ m ∈ p.recovered ms, s'.holdsManifest m = true := fun m hm =>
    h.holdsManifest hms (Primary.mem_of_mem_recovered hm)
      (List.mem_flatMap.mpr ⟨m, hm, List.mem_append_right _ (List.mem_singleton.mpr rfl)⟩)
  exact ⟨_, h.readCommits hms hdeletes, List.filter_sublist, Primary.recovered_filter hholds,
    Primary.getLast?_filter hholds⟩

/-! ## Single attempts -/

/-- What opening a writer over a store ends with. -/
structure Outcome (p : Primary) (s : Store) (ms : List Manifest) (e : Engine)
    (out : Except Error Unit × Engine) : Prop where
  vacant : Vacant p (out.2.catalog.store 0) out.2
  erodes : Erodes (p.keeps ms) s (out.2.catalog.store 0)
  cleansed : Unstopped out.1 → Cleansed p s ms out.1 out.2
  unstopped : s.faults = .never → Deletable p s ms → Unstopped out.1
  published : Unstopped out.1 → ms ≠ [] → Writer.canFollow ms = true →
    out.2.published = some (out.2.manifests.map Manifest.version)
  unlisted : ms = [] ∨ Writer.canFollow ms = false → out.2.keeper.live = e.keeper.live

theorem Vacant.outcome (h : Vacant p s e) (hms : s.readCommits = .ok ms) (sync : Bool) :
    Outcome p s ms e (e.openWriter 0 sync) := by
  have hends := ends_openWriter (p := p) hms sync
  obtain ⟨hresult, hlodges, hvacant, hunlisted, hpublished⟩ := h.openWriter hms sync
  have hstore : (e.openWriter 0 sync).2.catalog.store 0 =
      ((bare p s).openWriter 0 sync).2.catalog.store 0 := by
    rw [hlodges.catalog]
    rfl
  have hcleansed : Unstopped (e.openWriter 0 sync).1 →
      Cleansed p s ms (e.openWriter 0 sync).1 (e.openWriter 0 sync).2 := by
    intro hok
    rw [hresult] at hok ⊢
    obtain ⟨hfinal, hmanifests, hgone, hdeletable⟩ := hends.cleansed hok
    refine ⟨hfinal, hlodges.manifests.trans hmanifests, ?_, hdeletable⟩
    rw [hstore]
    exact hgone
  refine ⟨hstore ▸ hvacant, hstore ▸ hends.erodes, hcleansed, fun hnever hdeletable => ?_,
    fun hok hne hcan => hpublished ?_ hne, hunlisted⟩
  · rw [hresult]
    exact hends.unstopped_of_never hnever hdeletable
  · rw [(hcleansed hok).result, hcan]
    rfl

theorem Vacant.setUp (h : Vacant p s e) (a : Attempt) :
    Vacant p { s with faults := a.faults } (e.setUp p a) ∧
      ((e.setUp p a).keeper.live = none ∨ (e.setUp p a).keeper.live = e.keeper.live) := by
  unfold Engine.setUp
  rw [h.store_eq]
  cases a.keeper with
  | none =>
    have hstores : (e.catalog.setStore 0 { s with faults := a.faults }).stores =
        [{ s with faults := a.faults }] := by
      unfold Catalog.setStore
      rw [h.stores]
      rfl
    exact ⟨h.setCatalog ⟨Nat.le_refl _, fun _ _ => rfl⟩ hstores, Or.inr rfl⟩
  | some new => exact ⟨vacant_fresh new.1 new.2 p _, Or.inl rfl⟩

/-! ## Attempts over what is left -/

/-- The state between two attempts over a store. -/
structure Underway (p : Primary) (s : Store) (ms : List Manifest) (e : Engine) : Prop where
  vacant : Vacant p (e.catalog.store 0) e
  erodes : Erodes (p.keeps ms) s (e.catalog.store 0)
  unlisted : ms = [] ∨ Writer.canFollow ms = false → e.keeper.live = none

theorem underway_fresh (id : Nat) (reclaimOnRelease : Bool) (p : Primary) (s : Store)
    (ms : List Manifest) : Underway p s ms (fresh id reclaimOnRelease true (.stock p) s) :=
  ⟨vacant_fresh id reclaimOnRelease p s, .refl _ _, fun _ => rfl⟩

/-- What an attempt ends with in which no deletion fails: the history is what the policy leaves of it,
its versions are published, and the artifacts are those that it lists. A history whose last numbers
cannot be followed is not shown to the policy. -/
structure Recovered (p : Primary) (s : Store) (ms : List Manifest) (result : Except Error Unit)
    (e : Engine) : Prop where
  result : result = if Writer.canFollow ms then .ok () else .error .counterOverflow
  manifests : e.manifests = if Writer.canFollow ms then p.remaining ms else []
  file_iff : ∀ q data, (e.catalog.store 0).medium.node? q = some (.file data) ↔
    q ∈ p.keeps ms ∧ s.medium.node? q = some (.file data)
  published : e.published = if ms ≠ [] ∧ Writer.canFollow ms = true then
    some ((p.remaining ms).map Manifest.version) else none

/-- What an attempt does, whatever was done before. -/
structure Retried (p : Primary) (s : Store) (ms : List Manifest) (a : Attempt)
    (out : Except Error Unit × Engine) : Prop where
  underway : Underway p s ms out.2
  recovered : Unstopped out.1 → Recovered p s ms out.1 out.2
  unstopped : a.faults = .never → Deletable p s ms → Unstopped out.1

/-- What could be deleted at the beginning can be deleted later. -/
theorem Deletable.erodes (h : Deletable p s ms) (herodes : Erodes (p.keeps ms) s s')
    (hrest : Rest p ms ms') : Deletable p s' ms' := by
  intro q hq hnot hfixed
  refine h q (hq.imp (fun hlisted => ?_) fun hname => ?_) (hrest.keeps ▸ hnot)
    ((herodes.alike.fixed_iff q).mp hfixed)
  · obtain ⟨m, hm, hfile⟩ := List.mem_flatMap.mp hlisted
    exact List.mem_flatMap.mpr ⟨m, hrest.sublist.subset hm, hfile⟩
  · obtain ⟨data, hdata⟩ := (Store.mem_names_iff s' q).mp hname
    exact (Store.mem_names_iff s q).mpr ⟨data, herodes.node_of_some hdata⟩

/-- What is left over from a store ends as the store would have ended. -/
theorem Outcome.recovered {out : Except Error Unit × Engine} (h : Outcome p s' ms' e out)
    (herodes : Erodes (p.keeps ms) s s') (hrest : Rest p ms ms')
    (hunlisted : ms = [] ∨ Writer.canFollow ms = false → out.2.keeper.live = none)
    (hok : Unstopped out.1) : Recovered p s ms out.1 out.2 := by
  have hc := h.cleansed hok
  have hall : Erodes (p.keeps ms) s (out.2.catalog.store 0) :=
    herodes.trans (hrest.keeps ▸ h.erodes)
  have hmanifests : out.2.manifests = if Writer.canFollow ms then p.remaining ms else [] := by
    rw [← hrest.canFollow]
    refine hc.manifests.trans ?_
    split
    next hcan => exact hrest.remaining (hrest.canFollow ▸ hcan)
    next => rfl
  refine ⟨hrest.canFollow ▸ hc.result, hmanifests, fun q data => ⟨fun hfile => ?_, ?_⟩, ?_⟩
  · have hkeep : q ∈ p.keeps ms := by
      rw [← hrest.keeps]
      exact Classical.byContradiction fun hnot => hc.gone q hnot data hfile
    exact ⟨hkeep, hall.node_of_some hfile⟩
  · rintro ⟨hkeep, hfile⟩
    exact (hall.kept q hkeep).trans hfile
  · split
    next hshown =>
      obtain ⟨hnil, hcan⟩ := hshown
      rw [h.published hok (fun hempty => hnil (hrest.eq_nil_iff.mp hempty))
        (hrest.canFollow.trans hcan), hmanifests, if_pos hcan]
    next hnot =>
      have hor : ms = [] ∨ Writer.canFollow ms = false := by
        rcases Decidable.not_and_iff_or_not.mp hnot with hnil | hcan
        · exact Or.inl (Decidable.not_not.mp hnil)
        · exact Or.inr (Bool.eq_false_iff.mpr hcan)
      unfold Engine.published
      rw [hunlisted hor]
      rfl

theorem Underway.attempt (h : Underway p s ms e) (hms : s.readCommits = .ok ms)
    (ha : a.faults.OnlyDeletes) : Retried p s ms a (e.attempt p a) := by
  have herodes : Erodes (p.keeps ms) s { e.catalog.store 0 with faults := a.faults } :=
    h.erodes.trans (.of_medium rfl)
  obtain ⟨ms', hms', hrest⟩ := exists_rest herodes hms ha
  obtain ⟨hvacant, hlive⟩ := h.vacant.setUp a
  have hout := hvacant.outcome hms' a.syncOnCommit
  have hunlisted : ms = [] ∨ Writer.canFollow ms = false →
      (e.attempt p a).2.keeper.live = none := by
    intro hor
    refine (hout.unlisted (by rw [hrest.eq_nil_iff, hrest.canFollow]; exact hor)).trans ?_
    rcases hlive with hnone | hsame
    · exact hnone
    · exact hsame.trans (h.unlisted hor)
  exact ⟨⟨hout.vacant, herodes.trans (hrest.keeps ▸ hout.erodes), hunlisted⟩,
    hout.recovered herodes hrest hunlisted,
    fun hnever hdeletable => hout.unstopped hnever (hdeletable.erodes herodes hrest)⟩

theorem Underway.attemptAll (h : Underway p s ms e) (hms : s.readCommits = .ok ms)
    {attempts : List Attempt} (hattempts : ∀ a ∈ attempts, a.faults.OnlyDeletes) :
    Underway p s ms (e.attemptAll p attempts) := by
  induction attempts generalizing e with
  | nil => exact h
  | cons a rest ih =>
    have hstep := (h.attempt hms (hattempts a List.mem_cons_self)).underway
    exact ih hstep fun a ha => hattempts a (List.mem_cons_of_mem _ ha)

/-! ## Main statement -/

/-- The stores have the same artifacts, the writers the same history, and the same versions are
published. -/
structure Converged (e e' : Engine) : Prop where
  artifacts : (e'.catalog.store 0).medium.artifacts = (e.catalog.store 0).medium.artifacts
  manifests : e'.manifests = e.manifests
  published : e'.published = e.published

theorem Recovered.converged (h : Recovered p s ms result e) (h' : Recovered p s ms result' e') :
    result' = result ∧ Converged e e' := by
  refine ⟨h'.result.trans h.result.symm, ?_, h'.manifests.trans h.manifests.symm,
    h'.published.trans h.published.symm⟩
  refine Medium.artifacts_congr fun q data => ?_
  rw [h'.file_iff, h.file_iff]

/-- In an attempt over a store as it was in which no deletion fails, all can be deleted that is to be
cleaned up. -/
theorem deletable_of_attempt (id : Nat) (reclaimOnRelease : Bool) (hms : s.readCommits = .ok ms)
    (ha : a.faults.OnlyDeletes)
    (hok : Unstopped ((fresh id reclaimOnRelease true (.stock p) s).attempt p a).1) :
    Deletable p s ms := by
  have hread : { s with faults := a.faults }.readCommits = .ok ms :=
    Store.readCommits_of_medium (s := s) rfl hms ha
  obtain ⟨hvacant, -⟩ := (vacant_fresh id reclaimOnRelease p s).setUp a
  exact ((hvacant.outcome hread a.syncOnCommit).cleansed hok).deletable

/-- An attempt at opening a writer in which no deletion fails leaves what the policy leaves of the
history, and no other artifact. However many attempts have failed before it because of deletions that
the store refused, by the same keeper or by new ones, it ends as it would have ended alone. If the
store refuses nothing any more, no deletion fails. -/
theorem retries_converge {id : Nat} {reclaimOnRelease : Bool} {once last : Attempt}
    {attempts : List Attempt} (hms : s.readCommits = .ok ms) (honce : once.faults.OnlyDeletes)
    (hattempts : ∀ a ∈ attempts, a.faults.OnlyDeletes) (hlast : last.faults.OnlyDeletes)
    (hsingle : (fresh id reclaimOnRelease true (.stock p) s).attempt p once = (result, e))
    (hok : Unstopped result)
    (hfinal : ((fresh id reclaimOnRelease true (.stock p) s).attemptAll p attempts).attempt p last =
      (result', e')) :
    Recovered p s ms result e ∧ (Unstopped result' → result' = result ∧ Converged e e') ∧
      (last.faults = .never → Unstopped result') := by
  have hstart := underway_fresh id reclaimOnRelease p s ms
  have hfirst := hstart.attempt hms honce
  have hend := (hstart.attemptAll hms hattempts).attempt hms hlast
  rw [hfinal] at hend
  rw [hsingle] at hfirst
  have hrecovered := hfirst.recovered hok
  refine ⟨hrecovered, fun hok' => hrecovered.converged (hend.recovered hok'), fun hnever => ?_⟩
  refine hend.unstopped hnever (deletable_of_attempt id reclaimOnRelease hms honce ?_)
  rw [hsingle]
  exact hok

/-! ## A store that refuses a deletion -/

/-- The first of two commits. -/
def older : Manifest := ⟨⟨1⟩, ⟨1⟩, 0, ["a"]⟩

/-- The second of two commits. -/
def newer : Manifest := ⟨⟨2⟩, ⟨2⟩, 0, ["b"]⟩

/-- A store of two commits and of an artifact that neither of them lists. -/
def stale : Store :=
  .ofMedium (.memory (Table.ofList [("a", [1]), ("b", [2]), ("x", [3]),
    (older.name, older.encode.toOption.getD []), (newer.name, newer.encode.toOption.getD [])])) .never

theorem readCommits_stale : stale.readCommits = .ok [older, newer] := by
  have hlist : stale.list = .ok ["a", "b", "commit_1", "commit_2", "x"] := by decide +kernel
  have hgenerations :
      Store.generationsOf ["a", "b", "commit_1", "commit_2", "x"] = [⟨1⟩, ⟨2⟩] := by
    have hfound : ["a", "b", "commit_1", "commit_2", "x"].filterMap Manifest.generationOf? =
        [⟨1⟩, ⟨2⟩] := by
      decide +kernel
    unfold Store.generationsOf
    rw [hfound]
    exact List.mergeSort_of_pairwise (by decide)
  unfold Store.readCommits
  rw [hlist]
  dsimp only
  rw [hgenerations]
  decide +kernel

/-- An attempt while the stale store does not let go of an artifact of the older commit. -/
def refused (keeper : Option (Nat × Bool)) : Attempt := ⟨.listed [(.delete, "a")], true, keeper⟩

/-- An attempt while the stale store refuses nothing. -/
def unrefused : Attempt := ⟨.never, true, none⟩

theorem onlyDeletes_refused (keeper : Option (Nat × Bool)) : (refused keeper).faults.OnlyDeletes := by
  intro clock access name hne
  cases access with
  | delete => exact absurd rfl hne
  | _ => rfl

/-- A new engine over the stale store. -/
def staleEngine : Engine := fresh 0 true true (.stock .keepOnlyLast) stale

theorem attempt_refused : (staleEngine.attempt .keepOnlyLast (refused none)).1 =
    .error (.store (.io (.scripted .delete "a"))) := by
  have hread : { stale with faults := (refused none).faults }.readCommits = .ok [older, newer] :=
    Store.readCommits_of_medium (s := stale) rfl readCommits_stale (onlyDeletes_refused none)
  unfold attempt openWriter
  dsimp only
  rw [show ((staleEngine.setUp .keepOnlyLast (refused none)).dropWriter.catalog.store 0).readCommits =
    .ok [older, newer] from hread]
  decide +kernel

theorem attempt_unrefused :
    (staleEngine.attempt .keepOnlyLast unrefused).1 = .ok () ∧
      ((staleEngine.attempt .keepOnlyLast unrefused).2.catalog.store 0).names =
        ["b", "commit_2"] := by
  unfold attempt openWriter
  dsimp only
  rw [show ((staleEngine.setUp .keepOnlyLast unrefused).dropWriter.catalog.store 0).readCommits =
    .ok [older, newer] from readCommits_stale]
  decide +kernel

/-- An attempt fails, another keeper's attempt comes after it, and one by that keeper in which
nothing is refused leaves what a single attempt would have left. -/
theorem retries_converge_refused :
    (staleEngine.attempt .keepOnlyLast (refused none)).1 =
        .error (.store (.io (.scripted .delete "a"))) ∧
      ∃ e', (staleEngine.attemptAll .keepOnlyLast [refused none, refused (some (1, false))]).attempt
          .keepOnlyLast unrefused = (.ok (), e') ∧
        Converged (staleEngine.attempt .keepOnlyLast unrefused).2 e' ∧
          (e'.catalog.store 0).names = ["b", "commit_2"] := by
  obtain ⟨hok, hnames⟩ := attempt_unrefused
  have hattempts : ∀ a ∈ [refused none, refused (some (1, false))], a.faults.OnlyDeletes := by
    intro a ha
    rcases List.mem_cons.mp ha with rfl | ha
    · exact onlyDeletes_refused none
    · rw [List.mem_singleton.mp ha]
      exact onlyDeletes_refused (some (1, false))
  have hnever : unrefused.faults.OnlyDeletes := Store.FaultPlan.onlyDeletes_never
  have hsingle : staleEngine.attempt .keepOnlyLast unrefused = (.ok (), _) := Prod.ext hok rfl
  obtain ⟨-, hsame, hunstopped⟩ :=
    retries_converge readCommits_stale hnever hattempts hnever hsingle nofun rfl
  obtain ⟨hresult, hconverged⟩ := hsame (hunstopped rfl)
  exact ⟨attempt_refused, _, Prod.ext hresult rfl, hconverged,
    (congrArg _ hconverged.artifacts).trans hnames⟩

end Engine

end SnapshotRetention
