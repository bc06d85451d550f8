import SnapshotRetention.Proofs.Writer.Reopening
import SnapshotRetention.Proofs.Writer.Steady

/-!
# Snapshots leave no trace

Two writers with the same stock policy open over the same store, which never fails, and make the
same commits, all of which succeed. Consumers take and give back snapshots from the keeper of one of
them only. Once all snapshots are released, both have the same undeleted commits, published
versions, counts and artifacts: at once if deletions are carried out on release, and in any case
after one more commit (`Engine.snapshots_traceless`).

What snapshots hold lengthens the history that the policy is shown, so the two keepers do not go
through the same steps. What carries the proof is that both writers stay steady and agree on
everything that a commit reads (`Engine.Abreast`): the numbers of the next commit, the descriptions
of all commits, and what stands under each name that both list. Deleted commits do not matter to
this (`Abreast.use`), and a commit keeps it (`Abreast.commit`). As soon as nothing is undeleted
without being spared, there is no difference left (`Abreast.agree`).
-/

namespace SnapshotRetention

open Catalog (Prunes Twins Tallied)
open Keeper (Exact)
open Store (Node Medium)

namespace Engine

variable {p : Primary} {origin : Medium} {base : String → Option Node} {w w' : Writer}
  {a a0 a' b b0 b' e e' : Engine} {n n' id id' : Nat} {changes : Changes} {s s' s1 : Store}
  {c d : Catalog} {ms : List Manifest} {sync : Bool} {config : Config} {cs : List Changes}

/-! ## The two runs -/

/-- Commits that all succeed, with anything that consumers do with snapshots in between. -/
inductive Interleaved : Engine → List Changes → Engine → Prop where
  | done (e : Engine) : Interleaved e [] e
  | use {e e' : Engine} {cs : List Changes} (u : Use) (hu : e.keeper.AllowsUse u)
    (rest : Interleaved { e with keeper := e.keeper.use u } cs e') : Interleaved e cs e'
  | commit {e e1 e' : Engine} {cs : List Changes} {changes : Changes} {n : Nat}
    (hok : e.commit? changes = (some (.ok n), e1)) (rest : Interleaved e1 cs e') :
    Interleaved e (changes :: cs) e'

/-- The engine after some commits and nothing else, if all of them succeed. -/
def commitAll : List Changes → Engine → Option Engine
  | [], e => some e
  | changes :: rest, e =>
    match e.commit? changes with
    | (some (.ok _), e) => commitAll rest e
    | _ => none

/-- Two engines with the same undeleted commits, published versions, counts and artifacts. -/
structure Agree (a b : Engine) : Prop where
  commits : b.commits = a.commits
  manifests : b.manifests = a.manifests
  published : (b.keeper.live.map fun live => live.guards.map b.keeper.version) =
    a.keeper.live.map fun live => live.guards.map a.keeper.version
  counted : ∀ name, (b.catalog.tracker 0).refCount name = (a.catalog.tracker 0).refCount name
  medium : (b.catalog.store 0).medium = (a.catalog.store 0).medium

/-! ## Two steady writers -/

/-- Two steady writers that agree on what a commit reads, of which only the first has been used by
consumers. -/
structure Abreast (p : Primary) (origin : Medium) (base : String → Option Node) (w w' : Writer)
    (a b : Engine) : Prop where
  used : Steady p origin base w a
  plain : Steady p origin base w' b
  course : w'.course = w.course
  twins : Twins a.catalog b.catalog
  exact : Exact b.catalog.commits.length b.keeper
  unused : b.keeper.given = []

theorem Abreast.use (h : Abreast p origin base w w' a b) {u : Use} (hu : a.keeper.AllowsUse u) :
    Abreast p origin base w w' { a with keeper := a.keeper.use u } b :=
  { h with
    used := h.used.use hu
    twins := h.twins.prunes h.used.unfailing.tidy.tallied (Keeper.use_prunes u a.keeper) }

theorem Steady.baseFiles_congr (ha : Steady p origin base w a) (hb : Steady p origin base w' b)
    (hsame : a.catalog.retried.SameCommits b.catalog.retried) :
    baseFiles (b.catalog.retried.undeleted w'.history) b.catalog.retried =
      baseFiles (a.catalog.retried.undeleted w.history) a.catalog.retried := by
  have hnewest : ∀ {w e}, Steady p origin base w e → w.Continues e.catalog.retried ∧
      ∀ n, e.catalog.retried.commits.length = n + 1 → e.catalog.retried.isDeleted n = false := by
    intro w e h
    have hcommits := h.unfailing.single.commits_retried
    refine ⟨h.continues.congr hcommits, fun n hn => ?_⟩
    rw [hcommits] at hn
    exact (Catalog.isDeleted_congr hcommits n).trans
      (h.undeleted n (Catalog.newest_mem_spared p hn))
  obtain ⟨hca, hna⟩ := hnewest ha
  obtain ⟨hcb, hnb⟩ := hnewest hb
  exact hca.baseFiles_congr hcb hsame hna hnb

/-- What both write for a commit is the same, since it depends on what they agree on only. -/
theorem Stages.eq_of_abreast (h : Abreast p origin base w w' a b)
    (hsame : a.catalog.retried.SameCommits b.catalog.retried) {w1 w1' : Writer} {m m' : Manifest}
    {data data' : Bytes} (hs : Stages w changes a.catalog w1 m data s)
    (hs' : Stages w' changes b.catalog w1' m' data' s') : m' = m ∧ data' = data := by
  obtain ⟨files, hfiles, hm⟩ := hs.manifest
  obtain ⟨files', hfiles', hm'⟩ := hs'.manifest
  rw [hs.writer] at hfiles hm
  rw [hs'.writer] at hfiles' hm'
  have hbase := h.used.baseFiles_congr h.plain hsame
  rw [hbase, hfiles] at hfiles'
  obtain rfl := Except.ok.inj hfiles'
  -- the history of a writer has no part in its next manifest
  have hnext : nextManifest w'.course changes.timestamp files =
      nextManifest w.course changes.timestamp files := by rw [h.course]
  have hmanifest : m' = m := (hm'.trans hnext).trans hm.symm
  refine ⟨hmanifest, ?_⟩
  have hencoded := hs'.encoded
  rw [hmanifest, hs.encoded] at hencoded
  exact (Except.ok.inj hencoded).symm

/-- Both make the same commit. -/
theorem Abreast.commit (h : Abreast p origin base w w' a b)
    (ha : a.commit? changes = (some (.ok n), a')) (hb : b.commit? changes = (some (.ok n'), b')) :
    ∃ w1 w1', Abreast p origin base w1 w1' a' b' ∧ Exact a'.catalog.commits.length a'.keeper ∧
      a'.keeper.given = a.keeper.given ∧
      a'.keeper.reclaimOnRelease = a.keeper.reclaimOnRelease := by
  obtain ⟨m, data, s, w1, hca⟩ := h.used.commit ha
  obtain ⟨m', data', s', w1', hcb⟩ := h.plain.commit hb
  have htallied := h.used.unfailing.tidy.tallied
  have htallied' := h.plain.unfailing.tidy.tallied
  have hretried : Twins a.catalog.retried b.catalog.retried :=
    ((h.twins.retried htallied).symm.retried htallied').symm
  -- from here on both have written the same manifest and the same files
  obtain ⟨rfl, rfl⟩ := hca.stages.eq_of_abreast h hretried.same hcb.stages
  have hadopted := hretried.adopt htallied.single.retried htallied'.single.retried
    hca.stages.wrote hcb.stages.wrote
    (fun _ hq => hca.stages.listed_or_written htallied.single h.used.continues.range hq)
    fun _ hq => hcb.stages.listed_or_written htallied'.single h.plain.continues.range hq
  have hjoined := (h.used.joined hca.stages).tidy.tallied
  have hjoined' := (h.plain.joined hcb.stages).tidy.tallied
  have hleft := hadopted.prunes hjoined hca.prunes
  refine ⟨w1, w1',
    { used := hca.steady
      plain := hcb.steady
      course := ?_
      twins := (hleft.symm.prunes hjoined' hcb.prunes).symm
      exact := hcb.exact
      unused := hcb.given.trans h.unused }, hca.exact, hca.given, hca.reclaimOnRelease⟩
  have hnumbers := hcb.numbers
  rw [h.course, hca.numbers] at hnumbers
  exact (Option.some.inj hnumbers).symm

/-- Once the first has nothing undeleted without a reason and all snapshots are released, there is
no difference left. -/
theorem Abreast.agree (h : Abreast p origin base w w' a b)
    (hexact : Exact a.catalog.commits.length a.keeper) (hreleased : a.keeper.unreleased = []) :
    Agree a b := by
  have hsame := h.twins.same
  have hplain : b.keeper.unreleased = [] := by
    unfold Keeper.unreleased
    rw [h.unused]
    rfl
  have hcommits : b.commits = a.commits := by
    rw [commits_of_writer h.used.writer, commits_of_writer h.plain.writer,
      h.used.undeleted_eq hexact hreleased, h.plain.undeleted_eq h.exact hplain, hsame.spared]
  have hmanifests : b.manifests = a.manifests := by
    unfold manifests
    rw [hcommits]
    exact List.map_congr_left fun n _ => hsame.manifest n
  have hlisted : b.catalog.referenced = a.catalog.referenced := by
    rw [h.used.continues.referenced_eq, h.plain.continues.referenced_eq,
      ← manifests_of_writer h.used.writer, ← manifests_of_writer h.plain.writer, hmanifests]
  refine ⟨hcommits, hmanifests, ?_, fun name => ?_, ?_⟩
  · have hversion : b.catalog.version = a.catalog.version :=
      funext fun n => congrArg Manifest.version (hsame.manifest n)
    have hlisting : b.keeper.listing = a.keeper.listing := by
      rw [h.used.listing, h.plain.listing, hsame.length, hsame.spared]
    rw [Keeper.published_versions, Keeper.published_versions, hlisting]
    exact congrArg (fun f => a.keeper.listing.map (List.map f)) hversion
  · rw [h.used.unfailing.tidy.tallied.counted, h.plain.unfailing.tidy.tallied.counted, hlisted]
  · exact h.twins.medium_eq h.used.unfailing h.plain.unfailing fun q => by rw [hlisted]

/-! ## Opening both -/

/-- A writer that has opened has loaded its history and shown it to the policy. -/
theorem swept_of_openWriter
    (h : (ofConfig id config true (.ofStore s)).openWriter 0 sync = (.ok (), e')) :
    ∃ ms w c s', s.readCommits = .ok ms ∧ Swept s ms sync w c s' ∧
      ((ofConfig id config true (.ofStore s)).dropWriter.setCatalog
        (c.setStoreOf 0 s')).presentHistory w = (.ok (), e') := by
  obtain ⟨w, e1, hload, hpresent⟩ := load_of_openWriter h
  obtain ⟨ms, hms⟩ := readCommits_of_load (e := ofConfig id config true (.ofStore s)) rfl hload
  obtain ⟨c, s', hswept, rfl⟩ :=
    swept_load (e := ofConfig id config true (.ofStore s)) rfl hms hload
  exact ⟨ms, w, c, s', hms, hswept, hpresent⟩

/-- What loading a history leaves depends on the store alone. -/
theorem Swept.unique (h : Swept s ms sync w c s') (h' : Swept s ms sync w' d s1) :
    w' = w ∧ d = c ∧ s1 = s' := by
  obtain rfl : d = c := h'.catalog.trans h.catalog.symm
  exact ⟨Option.some.inj (h'.after.symm.trans h.after), rfl, h'.store.trans h.store.symm⟩

theorem abreast_of_openWriter (hnever : s.faults = .never)
    (ha : (ofConfig id config true (.ofStore s)).openWriter 0 sync = (.ok (), a))
    (hb : (ofConfig id' config true (.ofStore s)).openWriter 0 sync = (.ok (), b)) :
    ∃ base w w', Abreast config.primary s.medium base w w' a b ∧
      a.keeper.reclaimOnRelease = config.reclaimOnRelease := by
  obtain ⟨ms, w, c, s', hms, hswept, hpresent⟩ := swept_of_openWriter ha
  obtain ⟨ms', w', d, s1, hms', hswept', hpresent'⟩ := swept_of_openWriter hb
  obtain rfl := Except.ok.inj (hms'.symm.trans hms)
  obtain ⟨rfl, rfl, rfl⟩ := hswept.unique hswept'
  obtain ⟨base, -, htidy⟩ := hswept.tidy
  have hunfailing := hswept.unfailing hnever htidy
  obtain ⟨wa, hoa⟩ := hswept.opened hms hunfailing rfl rfl rfl hpresent
  obtain ⟨wb, hob⟩ := hswept.opened hms hunfailing rfl rfl rfl hpresent'
  have hleft := (Twins.refl _).prunes htidy.tallied hoa.prunes
  exact ⟨base, wa, wb,
    { used := hoa.steady
      plain := hob.steady
      course := hob.numbers.trans hoa.numbers.symm
      twins := (hleft.symm.prunes htidy.tallied hob.prunes).symm
      exact := hob.exact
      unused := hob.given }, hoa.reclaimOnRelease⟩

/-! ## Main statement -/

/-- The two writers stay abreast through both runs. -/
theorem Interleaved.abreast (hrun : Interleaved a0 cs a) :
    ∀ {w w' b0}, Abreast p origin base w w' a0 b0 → b0.commitAll cs = some b →
      (∃ w1 w1', Abreast p origin base w1 w1' a b) ∧
        a.keeper.reclaimOnRelease = a0.keeper.reclaimOnRelease := by
  -- along the run with snapshots; the other engine moves at commits only
  induction hrun with
  | done e =>
    intro w w' b0 h hplain
    obtain rfl := Option.some.inj hplain
    exact ⟨⟨w, w', h⟩, rfl⟩
  | use u hu _ ih =>
    intro w w' b0 h hplain
    obtain ⟨habreast, hsetting⟩ := ih (h.use hu) hplain
    exact ⟨habreast, hsetting.trans (Keeper.use_reclaimOnRelease u _)⟩
  | commit hok _ ih =>
    intro w w' b0 h hplain
    unfold commitAll at hplain
    split at hplain
    next n' b1 hok' =>
      obtain ⟨w1, w1', h1, -, -, hsetting⟩ := h.commit hok hok'
      obtain ⟨habreast, hrest⟩ := ih h1 hplain
      exact ⟨habreast, hrest.trans hsetting⟩
    next => cases hplain

/-- Once all snapshots are released, a run with snapshots ends like the run of its commits alone. -/
theorem snapshots_traceless (hnever : s.faults = .never)
    (ha : (ofConfig id config true (.ofStore s)).openWriter 0 config.syncOnCommit = (.ok (), a0))
    (hb : (ofConfig id' config true (.ofStore s)).openWriter 0 config.syncOnCommit = (.ok (), b0))
    (hrun : Interleaved a0 cs a) (hplain : b0.commitAll cs = some b)
    (hreleased : a.keeper.unreleased = []) :
    (config.reclaimOnRelease = true → Agree a b) ∧
      ∀ changes n n' a' b', a.commit? changes = (some (.ok n), a') →
        b.commit? changes = (some (.ok n'), b') → Agree a' b' := by
  obtain ⟨base, w0, w0', h0, hsetting⟩ := abreast_of_openWriter hnever ha hb
  obtain ⟨⟨w, w', h⟩, hkeeps⟩ := hrun.abreast h0 hplain
  refine ⟨fun hon => ?_, fun changes n n' a' b' hca hcb => ?_⟩
  · exact h.agree (h.used.exact (hkeeps.trans (hsetting.trans hon))) hreleased
  · obtain ⟨w1, w1', h1, hexact, hgiven, -⟩ := h.commit hca hcb
    refine h1.agree hexact ?_
    unfold Keeper.unreleased
    rw [hgiven]
    exact hreleased

/-- Two commits, the second of which replaces the file of the first. -/
def replacing : List Changes := [⟨[("a", [1])], [], 0⟩, ⟨[("b", [2])], ["a"], 0⟩]

/-- A snapshot of the first commit is released after the second has replaced it. -/
def outlived : Engine :=
  let first := (opened.commit? ⟨[("a", [1])], [], 0⟩).2
  let second := ({ first with keeper := first.keeper.use .current }.commit?
    ⟨[("b", [2])], ["a"], 0⟩).2
  { second with keeper := second.keeper.use (.release 0) }

/-- The same commits without the snapshot. -/
def alone : Engine := (opened.commitAll replacing).get (by decide +kernel)

/-- The first commit is gone with its snapshot, as if there had been none. -/
theorem snapshots_traceless_outlived : opened.commitAll replacing = some alone ∧
    Agree outlived alone ∧
      Agree (outlived.commit? ⟨[("c", [3])], [], 5⟩).2 (alone.commit? ⟨[("c", [3])], [], 5⟩).2 := by
  have hopen : (ofConfig 0 .standard true (.ofStore .empty)).openWriter 0
      Config.standard.syncOnCommit = (.ok (), opened) := Prod.ext (by decide +kernel) rfl
  have hrun : Interleaved opened replacing outlived :=
    .commit (n := 0) (Prod.ext (by decide +kernel) rfl) (.use .current trivial
      (.commit (n := 1) (Prod.ext (by decide +kernel) rfl) (.use (.release 0) trivial (.done _))))
  have halone : opened.commitAll replacing = some alone := (Option.some_get _).symm
  obtain ⟨hnow, hlater⟩ := snapshots_traceless rfl hopen hopen hrun halone (by decide +kernel)
  exact ⟨halone, hnow rfl,
    hlater _ 2 2 _ _ (Prod.ext (by decide +kernel) rfl) (Prod.ext (by decide +kernel) rfl)⟩

end Engine

end SnapshotRetention
