import SnapshotRetention.Proofs.Keeper.CycleOutcome
import SnapshotRetention.Proofs.Keeper.Superseded
import SnapshotRetention.Proofs.Lists
import SnapshotRetention.Proofs.Shard.Lifecycle

/-!
# What is published after failed recoveries

The keeper belongs to the shard and outlives a recovery that fails. If a history has been shown to
the policy by then, what is left of it is published (`Engine.Displays`). The next recovery publishes
the commits that it finds instead. But over a store without commits there is nothing to show to the
policy, and the list stays.

`Shard.Unrecovered` has the shards of which all recoveries have failed, over any stores, and
`Unrecovered.leaves` says what they are. `restarts_after_failures` is about the recovery that
succeeds at last.
-/

namespace SnapshotRetention

open Keeper

namespace Keeper

variable {k : Keeper} {commits : List Nat} {newest n : Nat} {requests : List Request}

/-! ## Cycles of a keeper that holds nothing -/

section
variable (h : Presents k commits newest requests)
include h

theorem Presents.sublist_published : (k.published commits newest requests).Sublist commits := by
  unfold published
  split
  next => exact List.singleton_sublist.mpr h.newest_mem
  next => exact List.filter_sublist

variable (hk : Sound [] k)
include hk

theorem Presents.isDeleted_of_published (hn : n ∈ k.published commits newest requests) :
    (k.cycle commits requests).2.catalog.isDeleted n = false := by
  rw [← (h.cycle_spec hk).map_commit_listed] at hn
  obtain ⟨g, hg, rfl⟩ := List.mem_map.mp hn
  exact (h.lasting hk).undeleted g hg

variable (hfree : ∀ v, k.holds.count v = 0)
  (hbacked : ∀ n ∈ commits, n < k.catalog.commits.length ∧
    ∃ i, (k.catalog.commit n).backing = .artifacts i)
include hfree hbacked

/-- With nothing held, all that is asked for goes, except what is published for want of others. -/
theorem Presents.isDeleted_of_asked (hn : n ∈ k.asked commits newest requests)
    (hnot : n ∉ k.published commits newest requests) :
    (k.cycle commits requests).2.catalog.isDeleted n = true := by
  have hall : (k.cycle commits requests).2.catalog =
      k.catalog.deleteEach (k.gone commits newest requests ++
        if k.Reclaims commits newest requests then [newest] else []) :=
    (h.cycle_spec hk).catalog.trans List.foldl_append.symm
  rw [hall]
  refine Catalog.isDeleted_deleteEach_of_mem (List.mem_append.mpr ?_) fun m hm => hbacked m ?_
  · -- the newest is pinned while the policy decides, and goes afterwards if others are kept
    by_cases hnewest : n = newest
    · have hkept : k.kept commits newest requests ≠ [] := by
        intro hnil
        unfold published at hnot
        rw [if_pos hnil] at hnot
        exact hnot (List.mem_singleton.mpr hnewest)
      have hreclaims : k.Reclaims commits newest requests := ⟨hnewest ▸ hn, hfree _, hkept⟩
      rw [if_pos hreclaims]
      exact Or.inr (List.mem_singleton.mpr hnewest)
    · exact Or.inl (List.mem_filter.mpr ⟨hn, decide_eq_true ⟨hfree _, hnewest⟩⟩)
  · rcases List.mem_append.mp hm with hm | hm
    · exact mem_of_mem_asked (List.mem_filter.mp hm).1
    · split at hm
      next => exact List.mem_singleton.mp hm ▸ h.newest_mem
      next => cases hm

/-- With nothing held, a cycle publishes what it leaves of the commits, and that is something. -/
theorem Presents.listing_undeleted :
    (k.cycle commits requests).2.listing =
        some ((k.cycle commits requests).2.catalog.undeleted commits) ∧
      (k.cycle commits requests).2.catalog.undeleted commits ≠ [] := by
  have hspec := h.cycle_spec hk
  have hleft : (k.cycle commits requests).2.catalog.undeleted commits =
      k.published commits newest requests := by
    refine Eq.trans ?_ (eq_filter_of_sublist h.sublist_published h.nodup).symm
    refine List.filter_congr fun n hn => ?_
    by_cases hmem : n ∈ k.published commits newest requests
    · rw [h.isDeleted_of_published hk hmem, List.contains_iff_mem.mpr hmem]
      rfl
    · have hgone : (k.cycle commits requests).2.catalog.isDeleted n = true := by
        by_cases hasked : n ∈ k.asked commits newest requests
        · exact h.isDeleted_of_asked hk hfree hbacked hasked hmem
        · -- what is neither asked for nor deleted is kept, and so published
          rw [hspec.asked_of_isDeleted hasked]
          by_contra hundeleted
          have hkept : n ∈ k.kept commits newest requests :=
            List.mem_filter.mpr ⟨hn, by simp [hasked, hundeleted]⟩
          unfold published at hmem
          rw [if_neg (List.ne_nil_of_mem hkept)] at hmem
          exact hmem hkept
      rw [hgone, List.contains_eq_mem, decide_eq_false hmem]
      rfl
  obtain ⟨guards, hlive, hmap⟩ := hspec.live
  rw [hleft]
  refine ⟨?_, published_ne_nil commits newest requests k⟩
  unfold listing
  rw [hlive]
  exact congrArg some hmap

end

end Keeper

namespace Engine

variable {e e' : Engine} {w : Writer} {shown : Option Writer} {store : Nat} {sync : Bool}
  {ms : List Manifest} {ns : List Nat} {c : Catalog} {result : Except Error Unit}

/-! ## What opening a writer publishes -/

/-- The writer whose history is shown to the policy when a writer opens, if it comes to that. -/
def shows? (store : Nat) (sync : Bool) (e : Engine) : Option Writer :=
  match (e.load store sync).1 with
  | .error _ => none
  | .ok w => if w.history = [] then none else some w

/-- What is published is what is left of a history that was shown to the policy, and nothing if none
was. -/
structure Displays (shown : Option Writer) (e : Engine) : Prop where
  listing : e.keeper.listing = shown.map fun w => e.catalog.undeleted w.history
  left : ∀ w, shown = some w → e.catalog.undeleted w.history ≠ []
  backed : ∀ w, shown = some w → ∀ n ∈ w.history, n < e.catalog.commits.length ∧
    (e.catalog.commit n).backing = .artifacts w.depot

/-- A writer is there whose commits are what is left of a history that was shown to the policy,
none if none was. -/
structure Installs (store depot : Nat) (shown : Option Writer) (e : Engine) : Prop where
  writer : ∃ w, e.writer = some w ∧ w.depot = depot
  store : (e.catalog.depot depot).store = store
  depot : ∀ w, shown = some w → w.depot = depot
  commits : e.commits = (shown.map fun w => e.catalog.undeleted w.history).getD []

theorem Displays.world (h : Displays shown e)
    (hlength : e.catalog.commits.length ≤ c.commits.length)
    (hsame : ∀ n, n < e.catalog.commits.length → c.commit n = e.catalog.commit n) :
    Displays shown (e.setCatalog c) := by
  have hundeleted : ∀ w, shown = some w →
      c.undeleted w.history = e.catalog.undeleted w.history := by
    intro w hw
    refine List.filter_congr fun n hn => congrArg Bool.not ?_
    exact congrArg Commit.deleted (hsame n (h.backed w hw n hn).1)
  refine ⟨h.listing.trans ?_, fun w hw => ?_, fun w hw n hn => ?_⟩
  · cases shown with
    | none => rfl
    | some w => exact congrArg some (hundeleted w rfl).symm
  · show c.undeleted w.history ≠ []
    rw [hundeleted w hw]
    exact h.left w hw
  · obtain ⟨hlt, hb⟩ := h.backed w hw n hn
    exact ⟨Nat.lt_of_lt_of_le hlt hlength, (congrArg Commit.backing (hsame n hlt)).trans hb⟩

theorem Displays.load (h : Displays shown e) (hl : Loads store ms ns e.catalog c) :
    Displays shown (e.setCatalog c) :=
  h.world hl.extends.length fun _ hn => hl.commit_of_lt hn

theorem Displays.refill (h : Displays shown e) (hc : Catalog.Refilled e.catalog c) :
    Displays shown (e.setCatalog c) :=
  h.world (Nat.le_of_eq (congrArg List.length hc.commits).symm) fun n _ =>
    Catalog.commit_congr hc.commits n

/-- Another writer in place of the present one. -/
theorem Displays.withWriter (h : Displays shown e) (writer : Option Writer) :
    Displays shown { e with writer } :=
  ⟨h.listing, h.left, h.backed⟩

/-- A history is empty if the store has no manifests. -/
theorem Loads.eq_nil_iff (hl : Loads store ms ns e.catalog c) : ns = [] ↔ ms = [] := by
  have hversions := hl.map_version
  rw [← List.map_eq_nil_iff (f := c.version), hversions, List.map_eq_nil_iff]

section
variable (h : Unopened e)
include h

/-- Showing a history that has been loaded to the policy publishes what is left of it. -/
theorem Unopened.displays_decide (hl : Loads store ms ns e.catalog c)
    (hw : Writer.after e.catalog.depots.length ns sync ms = some w) (hne : w.history ≠ []) :
    Unopened ((e.setCatalog c).decide w.history).2 ∧
      Displays (some w) ((e.setCatalog c).decide w.history).2 ∧
        ∃ gone, ((e.setCatalog c).decide w.history).2.catalog = c.deleteEach gone := by
  obtain ⟨-, -, hcourse⟩ := hl.course hw
  have hloaded := h.load hl
  obtain ⟨newest, hlast, hkept, hdistinct⟩ := hl.presentable hw hne
  obtain ⟨requests, hpresents, hdecide, hunopened, -⟩ :=
    hloaded.decide hlast hkept hdistinct fun n hn => (hcourse.backed n hn).1
  have hlisting := hpresents.listing_undeleted hloaded.sound hloaded.count fun n hn =>
    (hcourse.backed n hn).imp_right fun hb => ⟨_, hb⟩
  obtain ⟨gone, hgone, -⟩ := (hpresents.cycle_spec hloaded.sound).deleted
  rw [hdecide] at hunopened ⊢
  refine ⟨hunopened, ⟨hlisting.1, fun w' hw' => ?_, fun w' hw' n hn => ?_⟩, gone, hgone⟩
  · obtain rfl := Option.some.inj hw'
    exact hlisting.2
  · obtain rfl := Option.some.inj hw'
    obtain ⟨hlt, hb⟩ := hcourse.backed n hn
    have hcatalog : ((e.setCatalog c).keeper.cycle w.history requests).2.catalog =
        c.deleteEach gone := hgone
    show n < ((e.setCatalog c).keeper.cycle w.history requests).2.catalog.commits.length ∧
      (((e.setCatalog c).keeper.cycle w.history requests).2.catalog.commit n).backing = _
    rw [hcatalog]
    exact ⟨(Catalog.sameCommits_deleteEach gone c).length ▸ hlt,
      (hl.shelved.backing_deleteEach gone n).trans hb⟩

/-- How showing a history that has been loaded to the policy ends, and what is published then. -/
theorem Unopened.presentHistory (hl : Loads store ms ns e.catalog c)
    (hw : Writer.after e.catalog.depots.length ns sync ms = some w) (hne : w.history ≠ [])
    (hpresent : (e.setCatalog c).presentHistory w = (result, e')) :
    Displays (some w) e' ∧ (∀ err, result = .error err → Unopened e') ∧
      (result = .ok () → Installs store e.catalog.depots.length (some w) e') := by
  obtain ⟨hdepot, -, -⟩ := hl.course hw
  obtain ⟨hunopened, hdisplays, gone, hgone⟩ := h.displays_decide hl hw hne
  rw [presentHistory_of_ne_nil hne] at hpresent
  obtain ⟨decided, e2, hdecide⟩ :
      ∃ decided e2, (e.setCatalog c).decide w.history = (decided, e2) := ⟨_, _, rfl⟩
  rw [hdecide] at hpresent hunopened hdisplays hgone
  cases decided with
  | error err =>
    obtain ⟨rfl, rfl⟩ := Prod.mk.inj hpresent
    exact ⟨hdisplays, fun _ _ => hunopened, nofun⟩
  | ok _ =>
    obtain ⟨rfl, rfl⟩ := Prod.mk.inj hpresent
    refine ⟨hdisplays.withWriter _, nofun, fun _ => ⟨⟨_, rfl, hdepot⟩, ?_, fun w' hw' => ?_, ?_⟩⟩
    · have hgone : e2.catalog = c.deleteEach gone := hgone
      have hlt : e.catalog.depots.length < c.depots.length := hl.length ▸ Nat.lt_succ_self _
      show (e2.catalog.depot e.catalog.depots.length).store = store
      rw [hgone, (Catalog.sameDepots_deleteEach gone c).store _ hlt]
      exact hl.store_depot
    · exact Option.some.inj hw' ▸ hdepot
    · exact Catalog.undeleted_undeleted w.history e2.catalog

/-- How opening a writer ends, and what is published then: what is left of the history that it has
shown to the policy, or what was published before. -/
theorem Unopened.openWriter (hd : Displays shown e)
    (hopen : e.openWriter store sync = (result, e')) :
    Displays ((e.shows? store sync).or shown) e' ∧ (∀ err, result = .error err → Unopened e') ∧
      (result = .ok () → Installs store e.catalog.depots.length (e.shows? store sync) e' ∧
        (e.shows? store sync = none ↔ (e.catalog.store store).readCommits = .ok [])) := by
  unfold shows?
  rcases h.openWriter_cases hopen with ⟨err, rfl, hload, rfl | ⟨ms, ns, c, hl, rfl⟩⟩ |
    ⟨ms, ns, c, w, hl, hload, hw, hpresent⟩
  · rw [hload]
    exact ⟨hd, fun _ _ => h, nofun⟩
  · rw [hload]
    exact ⟨hd.load hl, fun _ _ => h.load hl, nofun⟩
  · rw [hload]
    dsimp only
    obtain ⟨hdepot, hhistory, -⟩ := hl.course hw
    have hread : ms = [] ↔ (e.catalog.store store).readCommits = .ok [] := by
      rw [hl.read]
      exact ⟨congrArg _, Except.ok.inj⟩
    by_cases hnil : w.history = []
    · -- there is nothing to show to the policy, so that what it has published before stays
      rw [presentHistory_of_nil hnil] at hpresent
      obtain ⟨rfl, rfl⟩ := Prod.mk.inj hpresent
      rw [if_pos hnil]
      have hempty := hread.mp (hl.eq_nil_iff.mp (hhistory ▸ hnil))
      refine ⟨(hd.load hl).withWriter _, nofun, fun _ =>
        ⟨⟨⟨w, rfl, hdepot⟩, hl.store_depot, nofun, ?_⟩, fun _ => hempty, fun _ => rfl⟩⟩
      show c.undeleted w.history = []
      rw [hnil]
      rfl
    · rw [if_neg hnil]
      obtain ⟨hdisplays, hfailed, hinstalls⟩ := h.presentHistory hl hw hnil hpresent
      refine ⟨hdisplays, hfailed, fun hresult => ⟨hinstalls hresult, nofun, fun hempty => ?_⟩⟩
      exact absurd (hhistory ▸ hl.eq_nil_iff.mpr (hread.mpr hempty)) hnil

end

end Engine

namespace Shard

open Engine (Displays Installs Unopened)

variable {config : Config} {last : Option Writer} {s s' : Shard} {w : Writer} {store : Nat}
  {ns : List Nat}

/-! ## Failed recoveries -/

/-- The writer whose history a shard shows to its policy when it recovers, if it comes to that. -/
def shows? (store : Nat) (s : Shard) : Option Writer :=
  s.engine.shows? store s.config.syncOnCommit

/-- The shard with something else in a store. -/
def refill (n : Nat) (t : Store) (s : Shard) : Shard :=
  { s with engine := s.engine.setCatalog (s.engine.catalog.setStore n t) }

/-- The states of a shard of which all recoveries have failed, with the writer whose history was the
last that was shown to the policy, if any was. Between the recoveries the stores may become
anything. -/
inductive Unrecovered (config : Config) : Option Writer → Shard → Prop where
  | created {stores : List Store} {s : Shard} (h : create config ⟨stores, [], []⟩ = .ok s) :
    Unrecovered config none s
  | recover {last : Option Writer} {s : Shard} {err : Error} (store : Nat)
    (h : Unrecovered config last s) (hfails : (s.recover store).1 = .error err) :
    Unrecovered config ((s.shows? store).or last) (s.recover store).2
  | refill {last : Option Writer} {s : Shard} (n : Nat) (t : Store)
    (h : Unrecovered config last s) : Unrecovered config last (s.refill n t)

/-- A shard of which all recoveries have failed is as it was created, but what is left of the
history that was shown last is published. -/
theorem Unrecovered.leaves (h : Unrecovered config last s) :
    s.state = .created ∧ Unopened s.engine ∧ Displays last s.engine := by
  induction h with
  | created hcreate =>
    have hregular : Regular False config _ := regular_create hcreate
    unfold create at hcreate
    split at hcreate
    next => cases hcreate
    next =>
      obtain rfl := Except.ok.inj hcreate
      exact ⟨rfl, (hregular.idle rfl).unopened, rfl, nofun, nofun⟩
  | @recover last s err store h hfails ih =>
    -- each recovery goes on with what those before it have left published
    obtain ⟨hstate, hunopened, hdisplays⟩ := ih
    rw [recover_eq, if_pos hstate] at hfails ⊢
    obtain ⟨result, e', hopen⟩ : ∃ result e',
        s.engine.openWriter store s.config.syncOnCommit = (result, e') := ⟨_, _, rfl⟩
    obtain ⟨hshown, hfailed, -⟩ := hunopened.openWriter hdisplays hopen
    rw [hopen] at hfails ⊢
    cases result with
    | error err' => exact ⟨hstate, hfailed err' rfl, hshown⟩
    | ok _ => cases hfails
  | @refill last s n t h ih =>
    obtain ⟨hstate, hunopened, hdisplays⟩ := ih
    have hrefilled := Catalog.refilled_setStore n t s.engine.catalog
    exact ⟨hstate, hunopened.refill hrefilled, hdisplays.refill hrefilled⟩

/-! ## Snapshots of what is published -/

/-- The snapshots that a shard gives out are of some commits, and if there are none it says that
nothing has been published yet. -/
structure Serves (ns : List Nat) (s : Shard) : Prop where
  published : s.keeper.listed.map Guard.commit = ns
  refused : ns = [] → s.keeper.live = none ∧ s.snapshot = (.error .notInitialized, s) ∧
    s.snapshotCurrent = (.error .notInitialized, s)
  snapshot : ns ≠ [] → ∃ slot b, s.snapshot.1 = .ok slot ∧
    s.snapshot.2.keeper.bundle? slot = some b ∧
      b.handles.map (fun x => x.guard.commit) = ns ∧ ∀ x ∈ b.handles, x.released = false
  current : ns ≠ [] → ∃ slot x, s.snapshotCurrent.1 = .ok slot ∧
    s.snapshotCurrent.2.keeper.handle? slot = some x ∧ ns.getLast? = some x.guard.commit ∧
      x.released = false

theorem serves_of_none (hstate : s.state = .started) (h : s.keeper.listing = none) :
    Serves [] s := by
  have hlive : s.keeper.live = none := Option.map_eq_none_iff.mp h
  have hsnapshot : s.keeper.snapshot = (.error .notInitialized, s.keeper) := by
    unfold Keeper.snapshot
    rw [hlive]
  have hcurrent : s.keeper.snapshotCurrent = (.error .notInitialized, s.keeper) := by
    unfold Keeper.snapshotCurrent
    rw [hlive]
    rfl
  refine ⟨?_, fun _ => ⟨hlive, ?_, ?_⟩, fun hne => absurd rfl hne, fun hne => absurd rfl hne⟩
  · unfold listed
    rw [hlive]
    rfl
  · unfold snapshot
    rw [whenStarted_eq, if_pos (Or.inl hstate), hsnapshot]
    rfl
  · unfold snapshotCurrent
    rw [whenStarted_eq, if_pos (Or.inl hstate), hcurrent]
    rfl

theorem serves_of_listing (hstate : s.state = .started) (h : s.keeper.listing = some ns)
    (hne : ns ≠ []) : Serves ns s := by
  obtain ⟨live, hlive, rfl⟩ := Option.map_eq_some_iff.mp h
  refine ⟨?_, fun hnil => absurd hnil hne, fun _ => ?_, fun _ => ?_⟩
  · unfold listed
    rw [hlive]
    rfl
  · unfold snapshot
    rw [whenStarted_eq, if_pos (Or.inl hstate)]
    unfold Keeper.snapshot
    rw [hlive]
    refine ⟨_, ⟨live.generation, live.guards.map fun g => ⟨g, false⟩⟩, rfl,
      bundle?_addBundle _ _, ?_, fun x hx => ?_⟩
    · rw [List.map_map]
      rfl
    · obtain ⟨g, -, rfl⟩ := List.mem_map.mp hx
      rfl
  · have hguards : live.guards ≠ [] := fun hnil => hne (by rw [hnil]; rfl)
    obtain ⟨g, hg⟩ := Option.isSome_iff_exists.mp (List.getLast?_isSome.mpr hguards)
    have hlast : (s.keeper.live.bind fun live => live.guards.getLast?) = some g := by
      rw [hlive]
      exact hg
    unfold snapshotCurrent
    rw [whenStarted_eq, if_pos (Or.inl hstate)]
    unfold Keeper.snapshotCurrent
    rw [hlast]
    refine ⟨_, ⟨g, false⟩, rfl, handle?_hold g s.keeper, ?_, rfl⟩
    rw [List.getLast?_map, hg]
    rfl

/-! ## A recovery that succeeds at last -/

/-- What a shard is once it has recovered and been started: its writer has the commits of a store,
and they are what is published, unless there are none and those of another writer had been published
by a recovery that failed. -/
structure Restarted (store : Nat) (last : Option Writer) (s s' : Shard) (w : Writer) : Prop where
  state : s'.state = .started
  writer : s'.engine.writer = some w
  depot : (s'.engine.catalog.depot w.depot).store = store
  /-- The commits of the writer are undeleted, and in its depot. -/
  commits : ∀ n ∈ s'.engine.commits, s'.engine.catalog.isDeleted n = false ∧
    (s'.engine.catalog.commit n).backing = .artifacts w.depot
  empty : s'.engine.commits = [] ↔ (s.engine.catalog.store store).readCommits = .ok []
  serves : s'.engine.commits ≠ [] ∨ last = none → Serves s'.engine.commits s'
  stale : ∀ old, last = some old → s'.engine.commits = [] →
    Serves (s'.engine.catalog.undeleted old.history) s' ∧
      s'.engine.catalog.undeleted old.history ≠ [] ∧ old.depot ≠ w.depot ∧
        ∀ n ∈ old.history, (s'.engine.catalog.commit n).backing = .artifacts old.depot

/-- The depots of what has been published are older than those of a writer that opens. -/
theorem Unrecovered.lt_of_last (h : Unrecovered config last s) {old : Writer}
    (hold : last = some old) : old.depot < s.engine.catalog.depots.length := by
  obtain ⟨-, hunopened, hdisplays⟩ := h.leaves
  obtain ⟨n, hn⟩ := List.exists_mem_of_ne_nil _ (hdisplays.left old hold)
  obtain ⟨hlt, hb⟩ := hdisplays.backed old hold n (List.mem_filter.mp hn).1
  exact hunopened.shelved.lt_of_backing hlt hb

theorem Unrecovered.restarted (h : Unrecovered config last s) (hok : (s.recover store).1 = .ok ()) :
    ∃ s' w, (s.recover store).2.start = (.ok (), s') ∧ Restarted store last s s' w := by
  obtain ⟨hstate, hunopened, hdisplays⟩ := h.leaves
  obtain ⟨result, e', hopen⟩ : ∃ result e',
      s.engine.openWriter store s.config.syncOnCommit = (result, e') := ⟨_, _, rfl⟩
  obtain ⟨hshown, -, hinstalls⟩ := hunopened.openWriter hdisplays hopen
  rw [recover_eq, if_pos hstate, hopen] at hok ⊢
  cases result with
  | error err => cases hok
  | ok _ =>
    obtain ⟨⟨⟨w, hw, hdepot⟩, hstore, hsame, hcommits⟩, hempty⟩ := hinstalls rfl
    refine ⟨{ s with engine := e', state := .started }, w, start_eq _, ?_⟩
    cases hshows : s.engine.shows? store s.config.syncOnCommit with
    | none =>
      rw [hshows] at hshown hcommits hempty
      have hcommits : e'.commits = [] := hcommits
      refine
        { state := rfl
          writer := hw
          depot := hdepot ▸ hstore
          commits := fun n hn => absurd (hcommits ▸ hn) List.not_mem_nil
          empty := iff_of_true hcommits (hempty.mp rfl)
          serves := fun hpublished => ?_
          stale := fun old hold _ => ?_ }
      · obtain rfl := hpublished.resolve_left fun hne => hne hcommits
        show Serves e'.commits _
        rw [hcommits]
        exact serves_of_none rfl hshown.listing
      · have hlisting := hshown.listing
        rw [hold] at hlisting
        refine ⟨serves_of_listing rfl hlisting (hshown.left old hold), hshown.left old hold,
          ?_, fun n hn => (hshown.backed old hold n hn).2⟩
        rw [hdepot]
        exact Nat.ne_of_lt (h.lt_of_last hold)
    | some w1 =>
      rw [hshows] at hshown hcommits hempty hsame
      have hcommits : e'.commits = e'.catalog.undeleted w1.history := hcommits
      have hleft : e'.commits ≠ [] := hcommits ▸ hshown.left w1 rfl
      refine
        { state := rfl
          writer := hw
          depot := hdepot ▸ hstore
          commits := fun n hn => ?_
          empty := iff_of_false hleft fun hread => nomatch hempty.mpr hread
          serves := fun _ => serves_of_listing rfl (hcommits ▸ hshown.listing) hleft
          stale := fun old _ hnil => absurd hnil hleft }
      have hn : n ∈ e'.catalog.undeleted w1.history := hcommits ▸ hn
      obtain ⟨hmem, hundeleted⟩ := List.mem_filter.mp hn
      refine ⟨by simpa using hundeleted, ?_⟩
      rw [hdepot, ← hsame w1 rfl]
      exact (hshown.backed w1 rfl n hmem).2

/-- Recoveries that fail leave a shard created, without a writer and with nothing given out. When
it recovers at last and is started, its writer's commits are published and nothing else, and if the
store has none, snapshots are refused. There is one exception: if the store has no commits and a
recovery that failed had already shown those of another history to the policy, what is left of them
is still published, though the writer has none of them. -/
theorem restarts_after_failures (h : Unrecovered config last s) :
    (s.state = .created ∧ s.engine.writer = none ∧ s.keeper.given = [] ∧
      Displays last s.engine) ∧
    ∀ store, (s.recover store).1 = .ok () →
      ∃ s' w, (s.recover store).2.start = (.ok (), s') ∧ Restarted store last s s' w := by
  obtain ⟨hstate, hunopened, hdisplays⟩ := h.leaves
  exact ⟨⟨hstate, hunopened.writer, hunopened.given, hdisplays⟩, fun store hok => h.restarted hok⟩

/-! ## A store whose deletions are refused -/

/-- A store with two commits, the older of which has an artifact that cannot be deleted. -/
def clogged : Store :=
  { ((fresh ⟨true, .keepAll, true⟩).after [.recover 0, .start, .commit ⟨[("a", [1])], [], 0⟩,
      .commit ⟨[("b", [2])], ["a"], 0⟩]).engine.catalog.store 0 with
    faults := .listed [(.delete, "a")] }

/-- A shard over this store and an empty one, which keeps the last commit only. -/
def stranded : Shard :=
  ⟨.created, .standard, .ofConfig 0 .standard true ⟨[clogged, .empty], [], []⟩⟩

/-- The shard after it has failed to recover, when the store is as before and can delete again. -/
def restored : Shard := (stranded.recover 0).2.refill 0 { clogged with faults := .never }

theorem readCommits_clogged : clogged.readCommits =
    .ok [⟨⟨1⟩, ⟨1⟩, 0, ["a"]⟩, ⟨⟨2⟩, ⟨2⟩, 0, ["b"]⟩] := by
  have hlist : clogged.list = .ok ["a", "b", "commit_1", "commit_2"] := by decide +kernel
  have hgenerations : Store.generationsOf ["a", "b", "commit_1", "commit_2"] = [⟨1⟩, ⟨2⟩] := by
    have hfound : ["a", "b", "commit_1", "commit_2"].filterMap Manifest.generationOf? =
        [⟨1⟩, ⟨2⟩] := by
      decide +kernel
    exact Store.generationsOf_eq (hfound ▸ .refl _) (by decide)
  unfold Store.readCommits
  rw [hlist]
  dsimp only
  rw [hgenerations]
  decide +kernel

theorem readCommits_stranded : (stranded.engine.dropWriter.catalog.store 0).readCommits =
    .ok [⟨⟨1⟩, ⟨1⟩, 0, ["a"]⟩, ⟨⟨2⟩, ⟨2⟩, 0, ["b"]⟩] := readCommits_clogged

theorem unrecovered_stranded :
    Unrecovered .standard (stranded.shows? 0) (stranded.recover 0).2 := by
  have hfails : (stranded.recover 0).1 = .error (.store (.io (.scripted .delete "a"))) := by
    unfold recover Engine.openWriter
    dsimp only
    rw [readCommits_stranded]
    decide +kernel
  have hcreated : create .standard ⟨[clogged, .empty], [], []⟩ = .ok stranded := rfl
  have hrecovered := Unrecovered.recover 0 (.created hcreated) hfails
  rwa [Option.or_none] at hrecovered

theorem readCommits_restored : (restored.engine.dropWriter.catalog.store 0).readCommits =
    .ok [⟨⟨1⟩, ⟨1⟩, 0, ["a"]⟩, ⟨⟨2⟩, ⟨2⟩, 0, ["b"]⟩] := by
  have hthere : 0 < (stranded.recover 0).2.engine.catalog.stores.length := by
    unfold recover Engine.openWriter
    dsimp only
    rw [readCommits_stranded]
    decide +kernel
  show (((stranded.recover 0).2.engine.catalog.setStore 0 _).store 0).readCommits = _
  rw [Catalog.store_setStore, if_pos ⟨rfl, hthere⟩, ← readCommits_clogged]
  exact Store.readCommits_congr rfl fun _ => rfl

/-- Once the store can delete again, the shard recovers over it and publishes the commit that it
keeps. -/
theorem restarts_after_failures_restored : ∃ last s' w,
    Unrecovered .standard last restored ∧ (restored.recover 0).2.start = (.ok (), s') ∧
      Restarted 0 last restored s' w ∧ s'.engine.commits = [3] ∧ Serves [3] s' := by
  have hrecovers : (restored.recover 0).1 = .ok () ∧
      (restored.recover 0).2.start.2.engine.commits = [3] := by
    unfold recover Engine.openWriter
    dsimp only
    rw [readCommits_restored]
    unfold restored recover Engine.openWriter
    dsimp only
    rw [readCommits_stranded]
    decide +kernel
  have hunrecovered : Unrecovered .standard (stranded.shows? 0) restored :=
    .refill 0 _ unrecovered_stranded
  obtain ⟨-, hrestarts⟩ := restarts_after_failures hunrecovered
  obtain ⟨s', w, hstart, hrestarted⟩ := hrestarts 0 hrecovers.1
  have hcommits : s'.engine.commits = [3] := by
    rw [← hrecovers.2, hstart]
  have hserves := hrestarted.serves (Or.inl (by rw [hcommits]; exact List.cons_ne_nil _ _))
  exact ⟨_, s', w, hunrecovered, hstart, hrestarted, hcommits, hcommits ▸ hserves⟩

/-- The shard when it has recovered over the empty store instead. -/
def misled : Shard := ((stranded.recover 0).2.recover 1).2.start.2

/-- The writer has no commits, but snapshots are given out of the one that the failed recovery has
published. -/
theorem failed_recovery_stays_published : ∃ last,
    Unrecovered .standard last (stranded.recover 0).2 ∧
      ((stranded.recover 0).2.recover 1).1 = .ok () ∧ misled.state = .started ∧
      misled.engine.commits = [] ∧ misled.keeper.listed.map Guard.commit = [1] ∧
      misled.snapshot.1 = .ok 0 ∧ misled.snapshotCurrent.1 = .ok 0 ∧
      (misled.engine.catalog.commit 1).backing = .artifacts 0 ∧
      (misled.engine.catalog.depot 0).store = 0 := by
  refine ⟨_, unrecovered_stranded, ?_⟩
  unfold misled recover Engine.openWriter
  dsimp only
  rw [readCommits_stranded]
  decide +kernel

end Shard

end SnapshotRetention
