import SnapshotRetention.Proofs.Shard.Courses
import SnapshotRetention.Proofs.Writer.Vacant

/-!
# Recoveries that fail

A shard that has not recovered yet has given nothing out (`Engine.Unopened`), but its keeper may
have published commits: those of a recovery that failed after its cycle. Opening a writer then goes
one of three ways (`Unopened.openWriter_cases`).

As long as the manifests of what is published are still in the stores (`Engine.Idle`), another
recovery over the same store finds them and publishes its own commits instead. A recovery that fails
leaves the engine idle again, and one that succeeds leaves it in order (`Engine.Recovers`,
`Idle.openWriter`).
-/

namespace SnapshotRetention

open Keeper
open Store (Erodes)

namespace Catalog

variable {c d : Catalog} {n i depot : Nat} {ms : List Manifest} {ns : List Nat}

theorem Enters.commit_of_lt (h : Enters depot ms c ns d) (hn : n < c.commits.length) :
    d.commit n = c.commit n := by
  unfold commit
  rw [h.commits, List.getD_eq_getElem?_getD, List.getElem?_append_left hn,
    ← List.getD_eq_getElem?_getD]

/-- Each manifest has become a commit. -/
theorem Enters.commit_add (h : Enters depot ms c ns d) (hi : i < ms.length) :
    d.commit (c.commits.length + i) = ⟨ms[i], .artifacts depot, false⟩ := by
  unfold commit
  rw [h.commits, List.getD_eq_getElem?_getD, List.getElem?_append_right (Nat.le_add_right _ _)]
  simp [hi]

theorem Enters.exists_of_mem (h : Enters depot ms c ns d) (hn : n ∈ ns) :
    n < d.commits.length ∧ ∃ m ∈ ms, d.commit n = ⟨m, .artifacts depot, false⟩ := by
  rw [h.numbers] at hn
  obtain ⟨i, hi, rfl⟩ := List.mem_range'_1.mp hn |> fun hn =>
    (⟨n - c.commits.length, by omega, by omega⟩ :
      ∃ i, i < ms.length ∧ c.commits.length + i = n)
  refine ⟨?_, ms[i], List.getElem_mem hi, h.commit_add hi⟩
  rw [h.commits, List.length_append, List.length_map]
  exact Nat.add_lt_add_left hi _

theorem Enters.map_version (h : Enters depot ms c ns d) :
    ns.map d.version = ms.map Manifest.version := by
  refine List.ext_getElem ?_ fun i hi hi' => ?_
  · rw [List.length_map, List.length_map, h.numbers, List.length_range']
  · have hi : i < ms.length := by simpa using hi'
    simp only [List.getElem_map, h.numbers, List.getElem_range', Nat.one_mul]
    exact congrArg Commit.version (h.commit_add hi)

theorem Enters.extends (h : Enters depot ms c ns d) : c.Extends d := by
  refine ⟨?_, fun n hn => congrArg Commit.manifest (h.commit_of_lt hn)⟩
  rw [h.commits, List.length_append]
  exact Nat.le_add_right _ _

/-- What is adopted is counted. -/
theorem Enters.isReferenced (h : Enters depot ms c ns d) {q : String}
    (hq : q ∈ ms.flatMap Manifest.fileNames) : (d.tracker depot).isReferenced q = true := by
  obtain ⟨m, hm, hq⟩ := List.mem_flatMap.mp hq
  obtain ⟨i, hi, rfl⟩ := List.getElem_of_mem hm
  have hcommit := h.commit_add hi
  have hmem : q ∈ d.referencedIn depot := by
    refine mem_referencedIn (n := c.commits.length + i) ?_ ?_ ?_ ?_
    · rw [h.commits, List.length_append, List.length_map]
      exact Nat.add_lt_add_left hi _
    · exact congrArg Commit.deleted hcommit
    · rw [hcommit]
    · rw [hcommit]
      exact hq
  refine decide_eq_true ?_
  rw [h.shelved.counted]
  exact List.count_pos_iff.mpr hmem

end Catalog

/-- The manifest of a commit stands in the store of its depot. -/
def Catalog.Filed (n : Nat) (c : Catalog) : Prop :=
  ∀ i, (c.commit n).backing = .artifacts i → ∃ data,
    (c.storeOf i).medium.node? (c.commit n).manifest.name = some (.file data)

/-- The depots of the published commits. -/
def Keeper.Posts (k : Keeper) (i : Nat) : Prop :=
  ∃ g ∈ k.listed, (k.catalog.commit g.commit).backing = .artifacts i

/-- A cycle over commits of one depot publishes some of them, and their manifests are kept. -/
theorem Keeper.Presents.posts {k : Keeper} {commits : List Nat} {newest j : Nat}
    {requests : List Request} (h : Presents k commits newest requests) (hk : Sound [] k)
    (hshelved : k.catalog.Shelved) (hbacked : ∀ n ∈ commits, n < k.catalog.commits.length ∧
      (k.catalog.commit n).backing = .artifacts j)
    (hfiled : ∀ n ∈ commits, k.catalog.Filed n) :
    (∀ i, (k.cycle commits requests).2.Posts i → i = j) ∧
      ∀ g ∈ (k.cycle commits requests).2.listed,
        (k.cycle commits requests).2.catalog.Filed g.commit := by
  have hspec := h.cycle_spec hk
  have hlasting := h.lasting hk
  obtain ⟨gone, hgone, hwhy⟩ := hspec.deleted
  have hpublished : ∀ g ∈ (k.cycle commits requests).2.listed,
      g.commit ∈ k.published commits newest requests := by
    intro g hg
    rw [← hspec.map_commit_listed]
    exact List.mem_map_of_mem hg
  have hbacking : ∀ m, ((k.cycle commits requests).2.catalog.commit m).backing =
      (k.catalog.commit m).backing := by
    intro m
    rw [hgone]
    exact hshelved.backing_deleteEach gone m
  refine ⟨?_, fun g hg i hi => ?_⟩
  · rintro i ⟨g, hg, hb⟩
    obtain ⟨-, hb'⟩ := hbacked _ (h.mem_of_mem_published (hpublished g hg))
    exact Backing.artifacts.inj (hb.symm.trans ((hbacking _).trans hb'))
  · have hmem := hpublished g hg
    have hnot : g.commit ∉ gone := fun hn => (hwhy _ hn).2.1 hmem
    have hpresented := h.mem_of_mem_published hmem
    rw [hbacking] at hi
    have hundeleted := hlasting.undeleted g hg
    rw [hgone, Catalog.isDeleted_deleteEach_of_not_mem hnot] at hundeleted
    -- a commit that stays keeps its manifest, whichever others of the depot go
    have herodes := hshelved.erodes_deleteEach (hbacked _ hpresented).1 hundeleted hi hnot
      fun n hn => by
        obtain ⟨hlt, hb⟩ := hbacked n (mem_of_mem_asked (hwhy n hn).1)
        obtain rfl := Backing.artifacts.inj (hi.symm.trans (hbacked _ hpresented).2)
        exact ⟨i, hb, hshelved.lt_of_backing hlt hb, Or.inl rfl⟩
    obtain ⟨data, hnode⟩ := hfiled _ hpresented i hi
    refine ⟨data, ?_⟩
    rw [hgone, (Catalog.sameCommits_deleteEach gone k.catalog).manifest]
    exact (herodes.kept _ (List.mem_append_right _ (List.mem_singleton.mpr rfl))).trans hnode

namespace Engine

variable {e e' : Engine} {w : Writer} {store n : Nat} {sync : Bool} {ms : List Manifest}
  {ns : List Nat} {c d : Catalog} {result : Except Error Unit}

/-! ## Loading -/

/-- What loading a history does to a catalog: the manifests of the store have become commits of a
depot of their own, and nothing that they list has gone. -/
structure Loads (store : Nat) (ms : List Manifest) (ns : List Nat) (c d : Catalog) : Prop where
  read : (c.store store).readCommits = .ok ms
  entered : ∃ d', Catalog.Enters c.depots.length ms (c.addDepot store) ns d' ∧
    ∃ s, d = d'.setStore store s
  erodes : Erodes (ms.flatMap Manifest.fileNames) (c.store store) (d.store store)

/-- Loading fails at the manifests, or leaves their commits, with a writer or without. -/
theorem load_cases (hc : e.catalog.Shelved) (store : Nat) (sync : Bool) :
    (∃ err, e.load store sync = (.error err, e.dropWriter)) ∨ ∃ ms ns c,
      Loads store ms ns e.catalog c ∧ (e.load store sync).2 = e.dropWriter.setCatalog c ∧
        ∀ w, (e.load store sync).1 = .ok w →
          Writer.after e.catalog.depots.length ns sync ms = some w := by
  have hdropped : e.dropWriter.catalog = e.catalog := rfl
  cases hread : (e.catalog.store store).readCommits with
  | error err =>
    refine Or.inl ⟨err, ?_⟩
    unfold load
    dsimp only
    rw [hdropped, hread]
  | ok ms =>
    have hdepot : e.catalog.depots.length < (e.catalog.addDepot store).depots.length := by
      rw [Catalog.length_addDepot]
      exact Nat.lt_succ_self _
    obtain ⟨ns, d, hall⟩ : ∃ ns d,
        Catalog.adoptAll e.catalog.depots.length ms (e.catalog.addDepot store) = (ns, d) :=
      ⟨_, _, rfl⟩
    have henters := (hc.addDepot store).adoptAll hdepot ms
    rw [hall] at henters
    have hstore : d.store store = e.catalog.store store :=
      Catalog.store_congr henters.stores store
    obtain ⟨swept, s, hsweep⟩ : ∃ swept s,
        (d.store store).sweep (d.tracker e.catalog.depots.length).isReferenced = (swept, s) :=
      ⟨_, _, rfl⟩
    have hkeeps : ∀ q ∈ ms.flatMap Manifest.fileNames,
        (d.tracker e.catalog.depots.length).isReferenced q = true :=
      fun q hq => henters.isReferenced hq
    have herodes := Store.erodes_sweep hkeeps (d.store store)
    rw [hsweep] at herodes
    have hloads : Loads store ms ns e.catalog (d.setStore store s) := by
      refine ⟨hread, ⟨d, henters, s, rfl⟩, ?_⟩
      rw [Catalog.store_setStore]
      split
      next => exact hstore ▸ herodes
      next =>
        rw [hstore]
        exact .refl _ _
    refine Or.inr ⟨ms, ns, d.setStore store s, hloads, ?_⟩
    unfold load
    dsimp only
    rw [hdropped, hread]
    dsimp only
    rw [hall]
    dsimp only
    rw [hsweep]
    cases swept with
    | error err => exact ⟨rfl, nofun⟩
    | ok _ =>
      dsimp only
      cases hafter : Writer.after e.catalog.depots.length ns sync ms with
      | none => exact ⟨rfl, nofun⟩
      | some w1 => exact ⟨rfl, fun w hw => congrArg some (Except.ok.inj hw)⟩

section
variable (h : Loads store ms ns c d)
include h

theorem Loads.commit_of_lt (hn : n < c.commits.length) : d.commit n = c.commit n := by
  obtain ⟨d', henters, s, rfl⟩ := h.entered
  exact henters.commit_of_lt hn

theorem Loads.extends : c.Extends d := by
  obtain ⟨d', henters, s, rfl⟩ := h.entered
  have hextends := henters.extends
  exact ⟨hextends.length, hextends.manifest⟩

theorem Loads.shelved : d.Shelved := by
  obtain ⟨d', henters, s, rfl⟩ := h.entered
  exact (Catalog.refilled_setStore store s d').shelved henters.shelved

theorem Loads.length : d.depots.length = c.depots.length + 1 := by
  obtain ⟨d', henters, s, rfl⟩ := h.entered
  exact henters.length.trans (Catalog.length_addDepot store c)

theorem Loads.sameDepots : Catalog.SameDepots c d := by
  obtain ⟨d', henters, s, rfl⟩ := h.entered
  have hall : Catalog.SameDepots (c.addDepot store) (d'.setStore store s) :=
    ⟨Nat.le_of_eq henters.length.symm, fun k _ => henters.store k⟩
  exact (Catalog.sameDepots_addDepot store c).trans hall

/-- The depot of the commits that have been loaded. -/
theorem Loads.store_depot : (d.depot c.depots.length).store = store := by
  obtain ⟨d', henters, s, rfl⟩ := h.entered
  refine (henters.store _).trans ?_
  rw [Catalog.depot_addDepot, if_pos rfl]

theorem Loads.store_of_ne {k : Nat} (hk : k ≠ store) : d.store k = c.store k := by
  obtain ⟨d', henters, s, rfl⟩ := h.entered
  rw [Catalog.store_setStore_of_ne hk]
  exact Catalog.store_congr henters.stores k

theorem Loads.map_version : ns.map d.version = ms.map Manifest.version := by
  obtain ⟨d', henters, s, rfl⟩ := h.entered
  exact henters.map_version

theorem Loads.exists_of_mem (hn : n ∈ ns) : n < d.commits.length ∧
    ∃ m ∈ ms, d.commit n = ⟨m, .artifacts c.depots.length, false⟩ := by
  obtain ⟨d', henters, s, rfl⟩ := h.entered
  exact henters.exists_of_mem hn

/-- A manifest that stands in a store is not swept, whichever depot it belongs to. -/
theorem Loads.filed (hc : c.Shelved) (hn : n < c.commits.length) (hfiled : c.Filed n) :
    d.Filed n := by
  intro i hi
  rw [h.commit_of_lt hn] at hi ⊢
  obtain ⟨data, hnode⟩ := hfiled i hi
  refine ⟨data, ?_⟩
  rw [h.sameDepots.storeOf (hc.lt_of_backing hn hi)]
  unfold Catalog.storeOf at hnode
  by_cases hstore : (c.depot i).store = store
  · rw [hstore] at hnode ⊢
    obtain ⟨m, hm, hname⟩ := Store.named_of_readCommits h.read
      ((Store.mem_names_iff _ _).mpr ⟨data, hnode⟩) (Store.namesGeneration_nameOf _)
    rw [h.erodes.kept _ (List.mem_flatMap.mpr ⟨m, hm, ?_⟩)]
    · exact hnode
    · rw [← hname]
      exact List.mem_append_right _ (List.mem_singleton.mpr rfl)
  · rw [h.store_of_ne hstore]
    exact hnode

/-- The manifests that have been read stand in the store. -/
theorem Loads.filed_of_mem (hn : n ∈ ns) : d.Filed n := by
  obtain ⟨-, m, hm, hcommit⟩ := h.exists_of_mem hn
  intro i hi
  rw [hcommit] at hi ⊢
  obtain rfl := Backing.artifacts.inj hi
  obtain ⟨data, -, hnode, -⟩ := Store.readCommits_node h.read m hm
  refine ⟨data, ?_⟩
  unfold Catalog.storeOf
  rw [h.store_depot, h.erodes.kept _ (List.mem_flatMap.mpr ⟨m, hm, ?_⟩)]
  · exact hnode
  · exact List.mem_append_right _ (List.mem_singleton.mpr rfl)

/-- Where there are no manifests, no commit is filed. -/
theorem Loads.ne_store_of_nil (hnil : ms = []) (hfiled : c.Filed n) {i : Nat}
    (hi : (c.commit n).backing = .artifacts i) : (c.depot i).store ≠ store := by
  intro hstore
  obtain ⟨data, hnode⟩ := hfiled i hi
  unfold Catalog.storeOf at hnode
  rw [hstore] at hnode
  obtain ⟨m, hm, -⟩ := Store.named_of_readCommits h.read
    ((Store.mem_names_iff _ _).mpr ⟨data, hnode⟩) (Store.namesGeneration_nameOf _)
  rw [hnil] at hm
  cases hm

/-- A writer over what has been loaded is on its course. -/
theorem Loads.course (hw : Writer.after c.depots.length ns sync ms = some w) :
    w.depot = c.depots.length ∧ w.history = ns ∧ w.Course d := by
  have hversions := (Store.readCommits_ok h.read).1
  obtain ⟨hdepot, hhistory, hnext⟩ := version_lt_after hw hversions
  refine ⟨hdepot, hhistory, fun n hn => ?_, fun _ _ => ⟨?_, fun n hn => ?_⟩⟩
  · rw [hhistory] at hn
    obtain ⟨hlt, m, -, hcommit⟩ := h.exists_of_mem hn
    refine ⟨hlt, ?_⟩
    rw [hcommit, hdepot]
  · rw [hhistory, h.map_version]
    exact hversions.imp KeyOrder.ne_of_lt
  · rw [hhistory] at hn
    obtain ⟨-, m, hm, hcommit⟩ := h.exists_of_mem hn
    unfold Catalog.version
    rw [hcommit]
    exact hnext m hm

/-- A history that has been loaded can be shown to the policy. -/
theorem Loads.presentable (hw : Writer.after c.depots.length ns sync ms = some w)
    (hne : w.history ≠ []) : ∃ newest, w.history.getLast? = some newest ∧
      d.isDeleted newest = false ∧ (w.history.map d.version).Nodup := by
  obtain ⟨-, hhistory, -⟩ := h.course hw
  obtain ⟨newest, hlast⟩ := Option.isSome_iff_exists.mp (List.getLast?_isSome.mpr hne)
  refine ⟨newest, hlast, ?_, ?_⟩
  · obtain ⟨-, m, -, hcommit⟩ := h.exists_of_mem (hhistory ▸ List.mem_of_getLast? hlast)
    exact congrArg Commit.deleted hcommit
  · rw [hhistory, h.map_version]
    exact (Store.readCommits_ok h.read).1.imp KeyOrder.ne_of_lt

end

/-! ## Engines without a writer -/

/-- An engine without a writer, whose keeper has given nothing out. -/
structure Unopened (e : Engine) : Prop where
  guarded : e.guarded = true
  deletes : e.decider.Deletes
  writer : e.writer = none
  handles : e.keeper.handles = []
  bundles : e.keeper.bundles = []
  sound : Sound [] e.keeper
  shelved : e.catalog.Shelved
  lasting : e.keeper.Lasting

section
variable (h : Unopened e)
include h

theorem Unopened.given : e.keeper.given = [] := by
  unfold Keeper.given
  rw [h.handles, h.bundles]
  rfl

/-- With nothing given out, nothing is held. -/
theorem Unopened.count (v : Version) : e.keeper.holds.count v = 0 := by
  rw [h.sound.count]
  unfold unreleasedOf unreleased
  rw [h.given]
  rfl

theorem Unopened.dropWriter : e.dropWriter = e := by
  obtain ⟨keeper, decider, guarded, writer⟩ := e
  obtain rfl : writer = none := h.writer
  rfl

theorem Unopened.world (hc : e.catalog.Extends c) (hshelved : c.Shelved)
    (hdeleted : ∀ n, n < e.catalog.commits.length → c.isDeleted n = e.catalog.isDeleted n) :
    Unopened (e.setCatalog c) :=
  { guarded := h.guarded
    deletes := h.deletes
    writer := h.writer
    handles := h.handles
    bundles := h.bundles
    sound := h.sound.world hc
    shelved := hshelved
    lasting := h.lasting.world h.sound.issued hc hdeleted }

theorem Unopened.load (hl : Loads store ms ns e.catalog c) : Unopened (e.setCatalog c) :=
  h.world hl.extends hl.shelved fun _ hn => congrArg Commit.deleted (hl.commit_of_lt hn)

/-- What is behind the commits may become anything. -/
theorem Unopened.refill (hc : Catalog.Refilled e.catalog c) : Unopened (e.setCatalog c) :=
  h.world hc.extends (hc.shelved h.shelved) fun n _ =>
    congrArg Commit.deleted (Catalog.commit_congr hc.commits n)

/-- Showing undeleted commits to the policy is one cycle of the keeper. -/
theorem Unopened.decide {newest : Nat} (hlast : ns.getLast? = some newest)
    (hkept : e.catalog.isDeleted newest = false) (hdistinct : (ns.map e.catalog.version).Nodup)
    (hrange : ∀ n ∈ ns, n < e.catalog.commits.length) : ∃ requests,
      Presents e.keeper ns newest requests ∧
        e.decide ns = ((e.keeper.cycle ns requests).1,
          { e with keeper := (e.keeper.cycle ns requests).2 }) ∧
          Unopened (e.decide ns).2 ∧ Resumes e (e.decide ns).2 := by
  obtain ⟨requests, hdeletes, hdecide⟩ := decide_of_guarded h.guarded ns
  have hpresents : Presents e.keeper ns newest requests :=
    ⟨hlast, hdistinct, hkept, hdeletes h.deletes⟩
  have hspec := hpresents.cycle_spec h.sound
  obtain ⟨gone, hgone, -⟩ := hspec.deleted
  refine ⟨requests, hpresents, hdecide, ?_⟩
  rw [hdecide]
  refine ⟨?_, ⟨rfl, rfl, hspec.reclaimOnRelease, hspec.given,
    fun hr => hr.step (.cycle ns requests) hrange⟩⟩
  refine
    { guarded := h.guarded
      deletes := h.deletes
      writer := h.writer
      handles := hspec.handles.trans h.handles
      bundles := hspec.bundles.trans h.bundles
      sound := h.sound.cycle hrange requests
      shelved := ?_
      lasting := hpresents.lasting h.sound }
  show (e.keeper.cycle ns requests).2.catalog.Shelved
  rw [hgone]
  exact h.shelved.deleteEach gone

/-- Opening a writer fails at the manifests or after they have been loaded, or it shows the history
that has been loaded to the policy. -/
theorem Unopened.openWriter_cases (hopen : e.openWriter store sync = (result, e')) :
    (∃ err, result = .error err ∧ (e.load store sync).1 = .error err ∧
      (e' = e ∨ ∃ ms ns c, Loads store ms ns e.catalog c ∧ e' = e.setCatalog c)) ∨
    ∃ ms ns c w, Loads store ms ns e.catalog c ∧ (e.load store sync).1 = .ok w ∧
      Writer.after e.catalog.depots.length ns sync ms = some w ∧
        (e.setCatalog c).presentHistory w = (result, e') := by
  rw [openWriter_eq_load] at hopen
  rcases load_cases h.shelved store sync with ⟨err, hload⟩ | ⟨ms, ns, c, hl, hload, hok⟩
  · rw [hload, h.dropWriter] at hopen
    obtain ⟨rfl, rfl⟩ := Prod.mk.inj hopen
    exact Or.inl ⟨err, rfl, congrArg Prod.fst hload, Or.inl rfl⟩
  · rw [h.dropWriter] at hload
    obtain ⟨loaded, e1, heq⟩ : ∃ loaded e1, e.load store sync = (loaded, e1) := ⟨_, _, rfl⟩
    rw [heq] at hopen hload hok ⊢
    obtain rfl : e1 = e.setCatalog c := hload
    cases loaded with
    | error err =>
      obtain ⟨rfl, rfl⟩ := Prod.mk.inj hopen
      exact Or.inl ⟨err, rfl, rfl, Or.inr ⟨ms, ns, c, hl, rfl⟩⟩
    | ok w => exact Or.inr ⟨ms, ns, c, w, hl, rfl, hok w rfl, hopen⟩

end

/-! ## Idle engines -/

/-- An engine without a writer, whose keeper has given nothing out. What it has published is in the
stores, in depots that do not share a store. -/
structure Idle (e : Engine) : Prop where
  guarded : e.guarded = true
  deletes : e.decider.Deletes
  writer : e.writer = none
  handles : e.keeper.handles = []
  bundles : e.keeper.bundles = []
  sound : Sound [] e.keeper
  shelved : e.catalog.Shelved
  apart : ∀ i j, e.keeper.Posts i → e.keeper.Posts j → e.catalog.Apart i j
  lasting : e.keeper.Lasting
  filed : ∀ g ∈ e.keeper.listed, e.catalog.Filed g.commit

section
variable (h : Idle e)
include h

theorem Idle.unopened : Unopened e :=
  { guarded := h.guarded
    deletes := h.deletes
    writer := h.writer
    handles := h.handles
    bundles := h.bundles
    sound := h.sound
    shelved := h.shelved
    lasting := h.lasting }

theorem Idle.lt_of_posts {i : Nat} (hi : e.keeper.Posts i) : i < e.catalog.depots.length := by
  obtain ⟨g, hg, hb⟩ := hi
  exact h.shelved.lt_of_backing (h.sound.issued.listed hg).commit hb

/-- With nothing held, nothing waits. -/
theorem Idle.pending (v : Version) : e.keeper.holds.pending? v = none :=
  h.sound.counted.positive.pending?_eq_none (h.unopened.count v)

theorem Idle.ordered : Ordered e.keeper.Posts e := by
  refine ⟨h.guarded, h.deletes, ?_, fun w hw => nomatch h.writer.symm.trans hw⟩
  refine
    { sound := h.sound
      due := fun v n hp => nomatch (h.pending v).symm.trans hp
      shelved := h.shelved
      depots := fun i hi => h.lt_of_posts hi
      apart := h.apart
      concerns := ?_ }
  rintro n (⟨g, hg, rfl⟩ | ⟨x, hx, rfl⟩ | ⟨v, hp⟩)
  · obtain ⟨i, hb, -⟩ := h.shelved.backed g.commit (h.sound.issued.listed hg).commit
    exact ⟨i, ⟨g, hg, hb⟩, hb⟩
  · rw [h.unopened.given] at hx
    cases hx
  · cases (h.pending v).symm.trans hp

/-- Loading a history leaves an engine idle. -/
theorem Idle.load (hl : Loads store ms ns e.catalog c) : Idle (e.setCatalog c) := by
  have hissued := h.sound.issued
  have hposts : ∀ i, (e.setCatalog c).keeper.Posts i → e.keeper.Posts i := by
    rintro i ⟨g, hg, hb⟩
    have hb : (c.commit g.commit).backing = .artifacts i := hb
    rw [hl.commit_of_lt (hissued.listed hg).commit] at hb
    exact ⟨g, hg, hb⟩
  refine
    { h.unopened.load hl with
      apart := fun i j hi hj => ?_
      filed := fun g hg => hl.filed h.shelved (hissued.listed hg).commit (h.filed g hg) }
  have hi := hposts i hi
  have hj := hposts j hj
  exact hl.sameDepots.apart (h.lt_of_posts hi) (h.lt_of_posts hj) (h.apart i j hi hj)

/-- A writer may be installed whose depot shares no store with what is published. -/
theorem Idle.install (hcourse : w.Course e.catalog) (hlt : w.depot < e.catalog.depots.length)
    (hapart : ∀ i, e.keeper.Posts i → e.catalog.Apart i w.depot) :
    Ordered (fun i => i = w.depot ∨ e.keeper.Posts i) { e with writer := some w } := by
  have hordered := h.ordered
  refine ⟨h.guarded, h.deletes, ?_, fun w' hw' => ?_⟩
  · refine { hordered.within with
      depots := ?_
      apart := ?_
      concerns := fun n hn => (hordered.within.concerns n hn).imp fun i => And.imp_left Or.inr }
    · rintro i (rfl | hi)
      · exact hlt
      · exact h.lt_of_posts hi
    · rintro i j (rfl | hi) (rfl | hj)
      · exact Or.inl rfl
      · exact (hapart j hj).symm
      · exact hapart i hi
      · exact h.apart i j hi hj
  · obtain rfl := Option.some.inj hw'
    exact ⟨Or.inl rfl, hcourse⟩

/-- Showing commits of one depot to the policy leaves an engine idle, with nothing published but
some of them. -/
theorem Idle.decide {j newest : Nat} (hlast : ns.getLast? = some newest)
    (hkept : e.catalog.isDeleted newest = false) (hdistinct : (ns.map e.catalog.version).Nodup)
    (hbacked : ∀ n ∈ ns, n < e.catalog.commits.length ∧
      (e.catalog.commit n).backing = .artifacts j)
    (hfiled : ∀ n ∈ ns, e.catalog.Filed n) :
    Idle (e.decide ns).2 ∧ Resumes e (e.decide ns).2 ∧
      (∀ i, (e.decide ns).2.keeper.Posts i → i = j) ∧
        ∃ gone, (e.decide ns).2.catalog = e.catalog.deleteEach gone := by
  obtain ⟨requests, hpresents, hdecide, hunopened, hresumes⟩ :=
    h.unopened.decide hlast hkept hdistinct fun n hn => (hbacked n hn).1
  obtain ⟨hposts, hmanifests⟩ := hpresents.posts h.sound h.shelved hbacked hfiled
  obtain ⟨gone, hgone, -⟩ := (hpresents.cycle_spec h.sound).deleted
  rw [hdecide] at hunopened hresumes ⊢
  exact ⟨{ hunopened with
      apart := fun i i' hi hi' => Or.inl ((hposts i hi).trans (hposts i' hi').symm)
      filed := hmanifests }, hresumes, hposts, gone, hgone⟩

end

/-! ## Opening a writer -/

/-- An engine that can be started: its writer is there, and what is published is undeleted. -/
def Opens (e e' : Engine) : Prop :=
  Resumes e e' ∧ (∃ D, Ordered D e') ∧ e'.writer.isSome ∧ e'.keeper.Lasting

/-- How opening a writer ends. -/
def Recovers (e : Engine) : Except Error Unit → Engine → Prop
  | .ok (), e' => Opens e e'
  | .error _, e' => Resumes e e' ∧ Idle e'

/-- Showing a history that has been loaded to the policy. -/
theorem Idle.presentHistory (h : Idle e) (hl : Loads store ms ns e.catalog c)
    (hw : Writer.after e.catalog.depots.length ns sync ms = some w)
    (hpresent : (e.setCatalog c).presentHistory w = (result, e')) :
    Recovers e result e' := by
  obtain ⟨hdepot, hhistory, hcourse⟩ := hl.course hw
  have hloaded := h.load hl
  have hresumes : Resumes e (e.setCatalog c) := resumes_world hl.extends
  have hlt : w.depot < c.depots.length := by
    rw [hdepot, hl.length]
    exact Nat.lt_succ_self _
  by_cases hnil : w.history = []
  · rw [presentHistory_of_nil hnil] at hpresent
    obtain ⟨rfl, rfl⟩ := Prod.mk.inj hpresent
    refine ⟨hresumes.withWriter _, ⟨_, hloaded.install hcourse hlt ?_⟩, rfl, hloaded.lasting⟩
    -- a published commit of the same store would have been found
    rintro i ⟨g, hg, hb⟩
    refine Or.inr ?_
    have hms : ms = [] := by
      have hversions := hl.map_version
      rw [← hhistory, hnil] at hversions
      exact List.map_eq_nil_iff.mp hversions.symm
    have hknown := (h.sound.issued.listed hg).commit
    have hb : (c.commit g.commit).backing = .artifacts i := hb
    rw [hl.commit_of_lt hknown] at hb
    have hi := h.shelved.lt_of_backing hknown hb
    show (c.depot i).store ≠ (c.depot w.depot).store
    rw [hdepot, hl.store_depot, hl.sameDepots.store i hi]
    exact hl.ne_store_of_nil hms (h.filed g hg) hb
  · obtain ⟨newest, hlast, hkept, hdistinct⟩ := hl.presentable hw hnil
    obtain ⟨hidle, hdecided, hposts, gone, hgone⟩ := hloaded.decide hlast hkept hdistinct
      hcourse.backed fun n hn => hl.filed_of_mem (hhistory ▸ hn)
    have hall := hresumes.trans hdecided
    rw [presentHistory_of_ne_nil hnil] at hpresent
    obtain ⟨decided, e2, hdecide⟩ :
        ∃ decided e2, (e.setCatalog c).decide w.history = (decided, e2) := ⟨_, _, rfl⟩
    rw [hdecide] at hpresent hidle hposts hgone hall
    have hgone : e2.catalog = c.deleteEach gone := hgone
    cases decided with
    | error err =>
      obtain ⟨rfl, rfl⟩ := Prod.mk.inj hpresent
      exact ⟨hall, hidle⟩
    | ok _ =>
      obtain ⟨rfl, rfl⟩ := Prod.mk.inj hpresent
      have hsame := Catalog.sameCommits_deleteEach gone c
      have hcourse' : w.Course e2.catalog := by
        rw [hgone]
        exact hcourse.later hsame.extends fun n _ => hl.shelved.backing_deleteEach gone n
      refine ⟨hall.withWriter _, ⟨_, hidle.install (hcourse'.prune List.filter_sublist) ?_ ?_⟩,
        rfl, hidle.lasting⟩
      · show w.depot < e2.catalog.depots.length
        rw [hgone]
        exact Nat.lt_of_lt_of_le hlt (Catalog.sameDepots_deleteEach gone c).length
      · exact fun i hi => Or.inl (hposts i hi)

/-- Opening a writer leaves one that can go on, or leaves the engine idle. -/
theorem Idle.openWriter (h : Idle e)
    (hopen : e.openWriter store sync = (result, e')) :
    Recovers e result e' := by
  rcases h.unopened.openWriter_cases hopen with ⟨err, rfl, -, rfl | ⟨ms, ns, c, hl, rfl⟩⟩ |
    ⟨ms, ns, c, w, hl, -, hw, hpresent⟩
  · exact ⟨.refl _, h⟩
  · exact ⟨resumes_world hl.extends, h.load hl⟩
  · exact h.presentHistory hl hw hpresent

end Engine

end SnapshotRetention
