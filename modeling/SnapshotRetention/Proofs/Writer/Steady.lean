import SnapshotRetention.Proofs.Catalog.Twins
import SnapshotRetention.Proofs.Keeper.ExactHolds
import SnapshotRetention.Proofs.Writer.Loading
import SnapshotRetention.Proofs.Writer.StockCycle

/-!
# A writer with a stock policy

An engine is steady (`Engine.Steady`) if a stock policy behind a keeper decides about the commits of
a store that never fails, and the keeper has published what the policy spares of all commits. It is
so once a writer has opened (`Swept.opened`), whatever consumers do (`Steady.use`), and after each
commit that succeeds (`Steady.commit`), which does the same whatever is held by then: it writes the
same files, joins with the same numbers, and leaves nothing undeleted that is neither spared nor
held.
-/

namespace SnapshotRetention

open Catalog (Prunes Unfailing)
open Keeper (Sound Retained Exact Ready StockCycle)
open Store (Node Medium)

namespace Writer

variable {w w' : Writer} {c d : Catalog} {n : Nat}

/-- A writer apart from its history. -/
def course (w : Writer) : Writer := { w with history := [] }

theorem Continues.getLast?_undeleted (h : w.Continues c) (hlength : c.commits.length = n + 1)
    (hkept : c.isDeleted n = false) : (c.undeleted w.history).getLast? = some n := by
  have hn : n < c.commits.length := by omega
  refine getLast?_of_ascending (h.sorted.filter _) ?_ fun m hm => ?_
  · exact List.mem_filter.mpr ⟨h.complete n hn hkept, by simp [hkept]⟩
  · have hlt := h.range m (List.mem_filter.mp hm).1
    omega

/-- Writers over the same commits start from the same files, if the newest commit is there. -/
theorem Continues.baseFiles_congr (h : w.Continues c) (h' : w'.Continues d)
    (hsame : c.SameCommits d) (hc : ∀ n, c.commits.length = n + 1 → c.isDeleted n = false)
    (hd : ∀ n, d.commits.length = n + 1 → d.isDeleted n = false) :
    Engine.baseFiles (d.undeleted w'.history) d = Engine.baseFiles (c.undeleted w.history) c := by
  cases hlength : c.commits.length with
  | zero =>
    have hnone : ∀ {w : Writer} {c : Catalog}, w.Continues c → c.commits.length = 0 →
        c.undeleted w.history = [] := by
      intro w c h hzero
      refine List.eq_nil_iff_forall_not_mem.mpr fun n hn => ?_
      have hlt := h.range n (List.mem_filter.mp hn).1
      omega
    rw [hnone h hlength, hnone h' (hsame.length.trans hlength)]
    rfl
  | succ n =>
    unfold Engine.baseFiles
    have hlength' := hsame.length.trans hlength
    rw [h.getLast?_undeleted hlength (hc n hlength),
      h'.getLast?_undeleted hlength' (hd n hlength')]
    exact congrArg Manifest.files (hsame.manifest n)

end Writer

namespace Engine

variable {p : Primary} {origin : Medium} {base : String → Option Node} {w w1 w2 : Writer}
  {e e' : Engine} {m : Manifest} {n : Nat} {changes : Changes} {data : Bytes} {s s' : Store}
  {c : Catalog} {ms : List Manifest} {sync : Bool}

/-- A writer whose stock policy has published what it spares of all commits. -/
structure Steady (p : Primary) (origin : Medium) (base : String → Option Node) (w : Writer)
    (e : Engine) : Prop where
  writer : e.writer = some w
  guarded : e.guarded = true
  decider : e.decider = .stock p
  sound : Sound [] e.keeper
  retained : Retained e.keeper
  continues : w.Continues e.catalog
  /-- The writer knows the timestamp of the newest commit. -/
  time : ∀ n, e.catalog.commits.length = n + 1 →
    (e.catalog.commit n).manifest.timestamp = w.lastTimestamp
  listing : e.keeper.listing =
    if e.catalog.commits.length = 0 then none else some (e.catalog.spared p)
  /-- If deletions are carried out on release, nothing is undeleted without a reason. -/
  exact : e.keeper.reclaimOnRelease = true → Exact e.catalog.commits.length e.keeper
  unfailing : e.catalog.Unfailing origin base

/-- A commit is live exactly if it is spared. -/
theorem Steady.isLive_iff (h : Steady p origin base w e) (hn : n < e.catalog.commits.length) :
    e.keeper.IsLive (e.catalog.version n) ↔ n ∈ e.catalog.spared p := by
  have hlisting := h.listing
  rw [if_neg (by omega)] at hlisting
  obtain ⟨live, hlive, hmap⟩ := Option.map_eq_some_iff.mp hlisting
  constructor
  · -- a version belongs to one commit only
    rintro ⟨live', hlive', g, hg, hv⟩
    obtain rfl := Option.some.inj (hlive.symm.trans hlive')
    have hmem : g.commit ∈ e.catalog.spared p := by
      rw [← hmap]
      exact List.mem_map_of_mem hg
    rw [← h.retained.distinct g.commit n (Catalog.lt_of_mem_spared hmem) hn hv]
    exact hmem
  · intro hmem
    rw [← hmap] at hmem
    obtain ⟨g, hg, rfl⟩ := List.mem_map.mp hmem
    exact ⟨live, hlive, g, hg, rfl⟩

theorem Steady.undeleted (h : Steady p origin base w e) :
    ∀ n ∈ e.catalog.spared p, e.catalog.isDeleted n = false := by
  intro n hn
  have hlt := Catalog.lt_of_mem_spared hn
  exact h.retained.live n hlt ((h.isLive_iff hlt).mpr hn)

/-- If nothing is held, what is undeleted is what is spared. -/
theorem Steady.undeleted_eq (h : Steady p origin base w e)
    (hexact : Exact e.catalog.commits.length e.keeper) (hreleased : e.keeper.unreleased = []) :
    e.catalog.undeleted w.history = e.catalog.spared p := by
  rw [h.continues.undeleted_history]
  refine (List.pairwise_lt_range.filter _).eq_of_mem_iff (Primary.pairwise_spared _ _ _) fun n => ?_
  rw [List.mem_filter, List.mem_range]
  constructor
  · -- nothing holds it, so it must be live
    rintro ⟨hn, hkept⟩
    have hkept : e.catalog.isDeleted n = false := by simpa using hkept
    refine (h.isLive_iff hn).mp ((hexact n hn hn hkept).resolve_right fun hheld => ?_)
    have hcount : e.keeper.holds.count (e.catalog.version n) = 0 := by
      rw [h.sound.count]
      unfold Keeper.unreleasedOf
      rw [hreleased]
      rfl
    exact absurd hcount (Nat.ne_of_gt hheld)
  · intro hn
    refine ⟨Catalog.lt_of_mem_spared hn, ?_⟩
    rw [h.undeleted n hn]
    rfl

/-! ## Consumers -/

theorem Steady.use (h : Steady p origin base w e) {u : Use} (hu : e.keeper.AllowsUse u) :
    Steady p origin base w { e with keeper := e.keeper.use u } := by
  have hprunes : Prunes e.catalog (e.keeper.use u).catalog := Keeper.use_prunes u e.keeper
  have hsame := hprunes.sameCommits
  refine
    { writer := h.writer
      guarded := h.guarded
      decider := h.decider
      sound := h.sound.use hu
      retained := h.retained.use u
      continues := h.continues.prunes hprunes
      time := ?_
      listing := ?_
      exact := ?_
      unfailing := h.unfailing.prunes hprunes }
  · intro n hn
    rw [show Engine.catalog { e with keeper := e.keeper.use u } = (e.keeper.use u).catalog from rfl,
      hsame.manifest]
    exact h.time n (hsame.length.symm.trans hn)
  · show ((e.keeper.use u).live.map _) = if (e.keeper.use u).catalog.commits.length = 0 then none
      else some ((e.keeper.use u).catalog.spared p)
    rw [Keeper.use_live, hsame.length, hsame.spared]
    exact h.listing
  · intro hon
    have hon : e.keeper.reclaimOnRelease = true :=
      (Keeper.use_reclaimOnRelease u e.keeper).symm.trans hon
    show Exact (e.keeper.use u).catalog.commits.length (e.keeper.use u)
    rw [hsame.length]
    exact (h.exact hon).use h.retained hon u

/-! ## Commits -/

/-- A guarded policy that accepts some commits has gone through with the cycle. -/
theorem cycle_of_decide {commits : List Nat} (hg : e.guarded = true)
    (h : e.decide commits = (.ok (), e')) :
    ∃ k, e.keeper.cycle commits (e.decider.requests (e.catalog.shown commits)) = (.ok (), k) ∧
      e' = { e with keeper := k } := by
  rw [decide_eq_cycle hg] at h
  obtain ⟨hok, rfl⟩ := Prod.mk.inj h
  exact ⟨_, Prod.ext hok rfl, rfl⟩

/-- A registered commit that succeeds has been shown to a policy that went through with the cycle.
-/
theorem cycle_of_register (hg : e.guarded = true) (h : e.register w m = (.ok n, e')) :
    ∃ w1 k, advance { w with history := w.history ++ [e.catalog.commits.length] } m.timestamp =
        some w1 ∧
      Keeper.cycle w1.history (e.decider.requests ((e.catalog.adopt w.depot m).2.shown w1.history))
        { e.keeper with catalog := (e.catalog.adopt w.depot m).2 } = (.ok (), k) ∧
      e' = { e with
        keeper := k
        writer := some { w1 with history := k.catalog.undeleted w1.history } } := by
  cases hadvance : advance { w with history := w.history ++ [e.catalog.commits.length] }
      m.timestamp with
  | none =>
    rw [register_of_none hadvance] at h
    cases (Prod.mk.inj h).1
  | some w1 =>
    rw [register_of_advance hadvance] at h
    generalize hdecide : decide w1.history (e.withCommit w m) = r at h
    obtain ⟨result, e1⟩ := r
    cases result with
    | error err => cases (Prod.mk.inj h).1
    | ok _ =>
      obtain ⟨k, hcycle, rfl⟩ := cycle_of_decide (e := e.withCommit w m) hg hdecide
      exact ⟨w1, k, rfl, hcycle, (Prod.mk.inj h).2.symm⟩

/-- What a commit that succeeds has done. -/
structure Committed (p : Primary) (origin : Medium) (base : String → Option Node) (w : Writer)
    (changes : Changes) (e : Engine) (m : Manifest) (data : Bytes) (s : Store) (w' : Writer)
    (e' : Engine) : Prop where
  stages : Stages w changes e.catalog { w with history := e.catalog.retried.undeleted w.history } m
    data s
  numbers : advance w.course m.timestamp = some w'.course
  prunes : Prunes ((e.catalog.retried.setStoreOf 0 s).adopt 0 m).2 e'.catalog
  steady : Steady p origin base w' e'
  exact : Exact e'.catalog.commits.length e'.keeper
  given : e'.keeper.given = e.keeper.given
  reclaimOnRelease : e'.keeper.reclaimOnRelease = e.keeper.reclaimOnRelease

theorem advance_course {timestamp : Timestamp} (h : advance w timestamp = some w1) :
    advance w.course timestamp = some w1.course := by
  unfold advance at h ⊢
  split at h
  next version generation hversion hgeneration =>
    obtain rfl := Option.some.inj h
    rw [show w.course.nextVersion.next? = some version from hversion,
      show w.course.nextGeneration.next? = some generation from hgeneration]
    rfl
  next => cases h

theorem lastTimestamp_of_advance {timestamp : Timestamp} (h : advance w timestamp = some w1) :
    w1.lastTimestamp = timestamp := by
  unfold advance at h
  split at h
  next =>
    obtain rfl := Option.some.inj h
    rfl
  next => cases h

/-- Time does not go back. -/
theorem Stages.time_le (hs : Stages w changes c w1 m data s) : w.lastTimestamp ≤ m.timestamp := by
  obtain ⟨files, -, rfl⟩ := hs.manifest
  rw [hs.writer]
  show w.lastTimestamp ≤ if changes.timestamp ≤ w.lastTimestamp then w.lastTimestamp
    else changes.timestamp
  split
  next => exact UInt64.le_refl _
  next hlt => exact UInt64.le_of_lt (UInt64.not_le.mp hlt)

section
variable (h : Steady p origin base w e) (hs : Stages w changes e.catalog w1 m data s)
include h hs

/-- A commit that has been written joins. -/
theorem Steady.joined :
    ((e.catalog.retried.setStoreOf 0 s).adopt 0 m).2.Unfailing origin base :=
  h.unfailing.retried.adopt hs.wrote (fun _ hq => hs.mem_fileNames hq)
    fun _ hq => hs.listed_or_written h.unfailing.single h.continues.range hq

/-- A commit that has been written is ready to be shown to the policy with those before it. -/
theorem Steady.ready (hadvance : advance { w1 with
      history := w1.history ++ [(e.catalog.retried.setStoreOf 0 s).commits.length] } m.timestamp =
        some w2) :
    Ready p w2 e.catalog.commits.length
      { e.keeper with catalog := ((e.catalog.retried.setStoreOf 0 s).adopt 0 m).2 } := by
  have hcommits : (e.catalog.retried.setStoreOf 0 s).commits = e.catalog.commits :=
    h.unfailing.single.commits_retried
  have hcontinues : w1.Continues (e.catalog.retried.setStoreOf 0 s) := by
    rw [hs.writer]
    exact (h.continues.congr hcommits).prune
  obtain ⟨hdepot, hhistory, hnext⟩ := advance_eq_some hadvance
  have hversion : m.version = w1.nextVersion := hs.numbers.1.trans hs.nextVersion.symm
  have hadopted : w2.Continues ((e.catalog.retried.setStoreOf 0 s).adopt 0 m).2 :=
    hcontinues.adopt hversion (hversion ▸ hnext) (hdepot.trans hcontinues.depot) hhistory
  have htallied := (h.joined hs).tidy.tallied
  have htime : ∀ n, e.catalog.commits.length = n + 1 →
      (e.catalog.commit n).manifest.timestamp ≤ m.timestamp :=
    fun n hn => (h.time n hn).symm ▸ hs.time_le
  generalize e.catalog.retried.setStoreOf 0 s = c at hcommits hadopted htallied ⊢
  have hlength : (c.adopt 0 m).2.commits.length = e.catalog.commits.length + 1 := by
    rw [Catalog.length_adopt, hcommits]
  have hold : ∀ n, n < e.catalog.commits.length →
      (c.adopt 0 m).2.commit n = e.catalog.commit n := by
    intro n hn
    rw [Catalog.commit_adopt_of_lt (hcommits ▸ hn), Catalog.commit_congr hcommits]
  have hnew : (c.adopt 0 m).2.commit e.catalog.commits.length = ⟨m, .artifacts 0, false⟩ := by
    rw [← hcommits]
    exact Catalog.commit_adopt_self 0 m c
  have hextends : e.catalog.Extends (c.adopt 0 m).2 :=
    ⟨by omega, fun n hn => congrArg Commit.manifest (hold n hn)⟩
  refine
    { sound := h.sound.world hextends
      retained := h.retained.world h.sound.issued hextends hadopted.ascending.distinct
        htallied.artifacts (fun n hn => congrArg Commit.deleted (hold n hn)) ?_
      continues := hadopted
      length := hlength
      unheld := ?_
      undeleted := ?_ }
  · intro n hge hlt
    obtain rfl : n = e.catalog.commits.length :=
      Nat.le_antisymm (Nat.le_of_lt_succ (Nat.lt_of_lt_of_eq hlt hlength)) hge
    exact congrArg Commit.deleted hnew
  · -- the new version is later than all others, so nothing is held under it
    refine Nat.eq_zero_of_not_pos fun hheld => ?_
    obtain ⟨n, hn, hv⟩ := h.retained.exists_of_held h.sound.issued hheld
    have hlt := hadopted.ascending n e.catalog.commits.length hn (by rw [hlength]; omega)
    exact KeyOrder.ne_of_lt hlt ((hextends.version hn).trans hv)
  · -- what is spared now was spared before, when all of it was published
    intro n hn
    have hlt := Catalog.lt_of_mem_spared hn
    rcases Nat.lt_succ_iff_lt_or_eq.mp (hlength ▸ hlt) with hlt | rfl
    · refine (congrArg Commit.deleted (hold n hlt)).trans (h.undeleted n ?_)
      have hsame : e.catalog.SameCommits c := .of_commits hcommits
      rw [← hsame.spared p]
      refine Catalog.mem_spared_of_adopt (fun n hn => ?_) (hcommits ▸ hlt) hn
      rw [hsame.manifest]
      exact htime n (hsame.length ▸ hn)
    · exact congrArg Commit.deleted hnew

end

/-- A commit that succeeds leaves a steady engine, in which nothing is undeleted without a reason.
-/
theorem Steady.commit (h : Steady p origin base w e)
    (hok : e.commit? changes = (some (.ok n), e')) :
    ∃ m data s w', Committed p origin base w changes e m data s w' e' := by
  obtain ⟨w1, m, e1, hstage, hregister⟩ := register_of_commit? h.writer hok
  obtain ⟨data, s, hs, he1⟩ := stages_of_stage h.unfailing.single h.continues.depot hstage
  have hguarded : e1.guarded = true := by
    rw [he1]
    exact h.guarded
  obtain ⟨w2, k, hadvance, hcycle, rfl⟩ := cycle_of_register hguarded hregister
  have hdepot : w1.depot = 0 := hs.depot.trans h.continues.depot
  have hdecider : e1.decider = .stock p := by
    rw [he1]
    exact h.decider
  have hkeeper : e1.keeper =
      { e.keeper with catalog := e.catalog.retried.setStoreOf 0 s } := by rw [he1]
  have hcatalog : e1.catalog = e.catalog.retried.setStoreOf 0 s := congrArg Keeper.catalog hkeeper
  rw [hcatalog] at hadvance hcycle
  rw [hdepot, hdecider, hkeeper] at hcycle
  have hready := h.ready hs hadvance
  have hdone := hready.cycle hcycle
  have hcommits := hdone.prunes.sameCommits
  have hlength := hcommits.length.trans hready.length
  obtain ⟨hdepot2, hhistory, -⟩ := advance_eq_some hadvance
  refine ⟨m, data, s, { w2 with history := k.catalog.undeleted w2.history },
    { stages := hs.writer ▸ hs
      numbers := ?_
      prunes := hdone.prunes
      steady :=
        { writer := rfl
          guarded := hguarded
          decider := hdecider
          sound := hdone.sound
          retained := hdone.retained
          continues := (hready.continues.prunes hdone.prunes).prune
          time := ?_
          listing := ?_
          exact := fun _ => hdone.exact _
          unfailing := (h.joined hs).prunes hdone.prunes }
      exact := hdone.exact _
      given := hdone.given
      reclaimOnRelease := hdone.reclaimOnRelease }⟩
  · have hcourse := advance_course hadvance
    rw [hs.writer] at hcourse
    exact hcourse
  · intro n hn
    have hn : k.catalog.commits.length = n + 1 := hn
    obtain rfl : n = e.catalog.commits.length := by omega
    show (k.catalog.commit e.catalog.commits.length).manifest.timestamp = w2.lastTimestamp
    have hself := Catalog.commit_adopt_self 0 m (e.catalog.retried.setStoreOf 0 s)
    rw [show (e.catalog.retried.setStoreOf 0 s).commits.length = e.catalog.commits.length from
      congrArg List.length h.unfailing.single.commits_retried] at hself
    rw [hcommits.manifest, lastTimestamp_of_advance hadvance, hself]
  · show k.listing = if k.catalog.commits.length = 0 then none else some (k.catalog.spared p)
    rw [hlength, if_neg (Nat.succ_ne_zero _), hcommits.spared]
    exact hdone.listing

/-! ## Opening -/

/-- The numbers of a new writer come after those of the newest commit, and so does its time. -/
theorem lastTimestamp_after {depot : Nat} {history : List Nat}
    (hw : Writer.after depot history sync ms = some w) (hlength : ms.length = n + 1) :
    ms[n].timestamp = w.lastTimestamp := by
  unfold Writer.after at hw
  have hlast : ms.getLast? = some ms[n] := by
    rw [List.getLast?_eq_getElem?, show ms.length - 1 = n by omega]
    exact List.getElem?_eq_getElem _
  rw [hlast] at hw
  dsimp only at hw
  split at hw
  next =>
    obtain rfl := Option.some.inj hw
    rfl
  next => cases hw

/-- What opening a writer over a store that never fails leaves. -/
structure Opened (p : Primary) (origin : Medium) (base : String → Option Node) (onRelease : Bool)
    (w : Writer) (c : Catalog) (w' : Writer) (e : Engine) : Prop where
  numbers : w'.course = w.course
  prunes : Prunes c e.catalog
  steady : Steady p origin base w' e
  exact : Exact e.catalog.commits.length e.keeper
  given : e.keeper.given = []
  reclaimOnRelease : e.keeper.reclaimOnRelease = onRelease

section
variable (h : Swept s ms sync w c s') (hms : s.readCommits = .ok ms)
include h hms

/-- The history of a new writer is ready to be shown to the policy. -/
theorem Swept.ready (id : Nat) (reclaimOnRelease : Bool) (p : Primary)
    (hlength : ms.length = n + 1) :
    Ready p w n (.new id reclaimOnRelease (c.setStoreOf 0 s')) := by
  have hcontinues := h.continues hms
  refine
    { sound := .new id reclaimOnRelease _
      retained := .new id reclaimOnRelease hcontinues.ascending.distinct
        (h.recounts.tallied.setStoreOf s').artifacts
      continues := hcontinues
      length := h.length.trans hlength
      unheld := rfl
      undeleted := fun n hn => ?_ }
  have hlt := Catalog.lt_of_mem_spared hn
  show ((c.setStoreOf 0 s').commit n).deleted = false
  rw [h.commit_eq (h.length ▸ hlt)]

omit hms in
/-- Nothing waits after loading, and the store still never fails. -/
theorem Swept.unfailing (hnever : s.faults = .never)
    (hbase : Catalog.Tidy base (c.setStoreOf 0 s')) :
    (c.setStoreOf 0 s').Unfailing s.medium base := by
  have hsingle := h.recounts.tallied.single
  refine ⟨hbase, ?_, ?_, ?_⟩
  · rw [hsingle.store_setStoreOf]
    exact h.cleared.faults.trans hnever
  · rw [hsingle.store_setStoreOf]
    exact h.cleared.alike
  · rw [hsingle.queue_setStoreOf, h.recounts.queue]
    exact fun q hq => absurd hq List.not_mem_nil

section
variable {id : Nat} {reclaimOnRelease : Bool}
  (hunfailing : (c.setStoreOf 0 s').Unfailing s.medium base)
  (hkeeper : e.keeper = .new id reclaimOnRelease (c.setStoreOf 0 s')) (hguarded : e.guarded = true)
  (hdecider : e.decider = .stock p)
include hunfailing hkeeper hguarded hdecider

/-- Without any commit there is nothing to show to the policy. -/
theorem Swept.opened_of_nil (hnil : ms = []) :
    Opened p s.medium base reclaimOnRelease w (c.setStoreOf 0 s') w
      { e with writer := some w } := by
  have hcontinues := h.continues hms
  have hcatalog : e.catalog = c.setStoreOf 0 s' := congrArg Keeper.catalog hkeeper
  have hzero : e.catalog.commits.length = 0 := by
    rw [hcatalog, h.length, hnil]
    rfl
  have hexact : Exact e.catalog.commits.length e.keeper :=
    fun n _ hn => absurd (hzero ▸ hn) (Nat.not_lt_zero n)
  refine ⟨rfl, hcatalog ▸ .refl _, ?_, hexact, ?_, ?_⟩
  · refine
      { writer := rfl
        guarded := hguarded
        decider := hdecider
        sound := hkeeper ▸ .new id reclaimOnRelease _
        retained := hkeeper ▸ .new id reclaimOnRelease hcontinues.ascending.distinct
          hunfailing.tidy.tallied.artifacts
        continues := hcatalog ▸ hcontinues
        time := fun n hn => absurd (hzero.symm.trans hn) (Nat.succ_ne_zero n).symm
        listing := ?_
        exact := fun _ => hexact
        unfailing := hcatalog ▸ hunfailing }
    show e.keeper.listing = if e.catalog.commits.length = 0 then none else _
    rw [if_pos hzero, hkeeper]
    rfl
  · show e.keeper.given = []
    rw [hkeeper]
    rfl
  · show e.keeper.reclaimOnRelease = reclaimOnRelease
    rw [hkeeper]
    rfl

/-- A policy that accepts the history has published what it spares of it. -/
theorem Swept.opened_of_decide (hlength : ms.length = n + 1)
    (hdecide : e.decide w.history = (.ok (), e')) :
    Opened p s.medium base reclaimOnRelease w (c.setStoreOf 0 s')
      { w with history := e'.catalog.undeleted w.history }
      { e' with writer := some { w with history := e'.catalog.undeleted w.history } } := by
  have hcatalog : e.catalog = c.setStoreOf 0 s' := congrArg Keeper.catalog hkeeper
  obtain ⟨k, hcycle, rfl⟩ := cycle_of_decide hguarded hdecide
  rw [hdecider, hcatalog, hkeeper] at hcycle
  have hdone := (h.ready hms id reclaimOnRelease p hlength).cycle hcycle
  have hsame := hdone.prunes.sameCommits
  have hcount : k.catalog.commits.length = n + 1 := hsame.length.trans (h.length.trans hlength)
  refine ⟨rfl, hdone.prunes, ?_, hdone.exact _, hdone.given, hdone.reclaimOnRelease⟩
  refine
    { writer := rfl
      guarded := hguarded
      decider := hdecider
      sound := hdone.sound
      retained := hdone.retained
      continues := ((h.continues hms).prunes hdone.prunes).prune
      time := ?_
      listing := ?_
      exact := fun _ => hdone.exact _
      unfailing := hunfailing.prunes hdone.prunes }
  · intro i hi
    obtain rfl : i = n := Nat.succ.inj (hi.symm.trans hcount)
    show (k.catalog.commit i).manifest.timestamp = w.lastTimestamp
    rw [hsame.manifest, ← lastTimestamp_after h.after hlength]
    show ((c.setStoreOf 0 s').commit i).manifest.timestamp = _
    rw [h.commit_eq]
  · show k.listing = if k.catalog.commits.length = 0 then none else some (k.catalog.spared p)
    rw [hcount, if_neg (Nat.succ_ne_zero n), hsame.spared]
    exact hdone.listing

/-- A stock policy that accepts the history of a new writer leaves it steady. -/
theorem Swept.opened (hpresent : e.presentHistory w = (.ok (), e')) :
    ∃ w', Opened p s.medium base reclaimOnRelease w (c.setStoreOf 0 s') w' e' := by
  have hhistory : w.history = List.range ms.length :=
    (version_lt_after h.after (Store.readCommits_ok hms).1).2.1
  unfold presentHistory at hpresent
  split at hpresent
  next hnil =>
    obtain ⟨-, rfl⟩ := Prod.mk.inj hpresent
    have hzero := List.range_eq_nil.mp (hhistory.symm.trans hnil)
    exact ⟨w, h.opened_of_nil hms hunfailing hkeeper hguarded hdecider
      (List.length_eq_zero_iff.mp hzero)⟩
  next hne =>
    obtain ⟨n, hn⟩ : ∃ n, ms.length = n + 1 := by
      refine Nat.exists_eq_succ_of_ne_zero fun hzero => hne ?_
      rw [hhistory, hzero]
      rfl
    split at hpresent
    next => cases (Prod.mk.inj hpresent).1
    next e1 hdecide =>
      obtain ⟨-, rfl⟩ := Prod.mk.inj hpresent
      exact ⟨_, h.opened_of_decide hms hunfailing hkeeper hguarded hdecider hn hdecide⟩

end

end

end Engine

end SnapshotRetention
