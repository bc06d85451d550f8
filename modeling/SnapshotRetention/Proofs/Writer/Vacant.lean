import SnapshotRetention.Proofs.Writer.Remaining
import SnapshotRetention.Proofs.Writer.Unheld

/-!
# Opening a writer while nothing is held

An engine is vacant (`Engine.Vacant`) as long as no snapshot is out, whatever its keeper has published
and however many commits and trackers of earlier writers are in its catalog. Opening a writer over
its store does what the bare policy does over a catalog of its own (`Engine.bare`): the same failure,
the same store and the same history, behind what was there before (`Vacant.openWriter`). It leaves
the engine vacant, whether it fails or not.
-/

namespace SnapshotRetention

open Keeper (Sound Presents Transparent)
open Catalog (Tallied Prunes)

variable {p : Primary} {s s' : Store} {e e' f : Engine} {ms : List Manifest} {w : Writer}
  {b c : Catalog} {old : List Commit} {olds : List Depot} {sync : Bool}

/-! ## Writers behind earlier ones -/

/-- A writer whose commits and whose depot come behind some that are there already. -/
def Writer.lodge (commits depots : Nat) (w : Writer) : Writer :=
  { w with depot := depots, history := w.history.map (commits + ·) }

theorem Writer.after_lodge (commits depots depot : Nat) (history : List Nat) (sync : Bool)
    (ms : List Manifest) : after depots (history.map (commits + ·)) sync ms =
      (after depot history sync ms).map (lodge commits depots) := by
  unfold after
  cases ms.getLast? with
  | none => rfl
  | some last =>
    dsimp only
    cases last.version.next? with
    | none => rfl
    | some version =>
      cases last.generation.next? with
      | none => rfl
      | some generation => rfl

namespace Engine

/-- A new engine over a store, whose policy is bare. -/
def bare (p : Primary) (s : Store) : Engine := fresh 0 true false (.stock p) s

/-- `e` has the commits and the writer of `f`, behind what was there before. -/
structure Lodges (old : List Commit) (olds : List Depot) (f e : Engine) : Prop where
  catalog : e.catalog = f.catalog.lodge old olds
  writer : e.writer = f.writer.map (Writer.lodge old.length olds.length)
  range : ∀ w, f.writer = some w → ∀ n ∈ w.history, n < f.catalog.commits.length

/-- Both have the same history. -/
theorem Lodges.manifests (h : Lodges old olds f e) : e.manifests = f.manifests := by
  have hwriter := h.writer
  unfold Engine.manifests commits
  rw [h.catalog]
  cases hw : f.writer with
  | none =>
    rw [hw] at hwriter
    rw [hwriter]
    rfl
  | some w =>
    rw [hw] at hwriter
    have hrange := h.range w hw
    rw [hwriter]
    show ((f.catalog.lodge old olds).undeleted (w.history.map (old.length + ·))).map _ =
      (f.catalog.undeleted w.history).map _
    rw [Catalog.undeleted_lodge _ _ hrange, List.map_map]
    refine List.map_congr_left fun n hn => ?_
    exact Catalog.manifest_lodge (hrange n (List.mem_filter.mp hn).1)

/-- The published versions. -/
def published (e : Engine) : Option (List Version) :=
  e.keeper.live.map fun live => live.guards.map e.keeper.version

/-! ## Vacant engines -/

/-- A guarded stock policy over a store, and no snapshot is out. -/
structure Vacant (p : Primary) (s : Store) (e : Engine) : Prop where
  guarded : e.guarded = true
  decider : e.decider = .stock p
  sound : Sound [] e.keeper
  unheld : ∀ v, e.keeper.holds.count v = 0
  stores : e.catalog.stores = [s]

theorem vacant_fresh (id : Nat) (reclaimOnRelease : Bool) (p : Primary) (s : Store) :
    Vacant p s (fresh id reclaimOnRelease true (.stock p) s) :=
  ⟨rfl, rfl, .new id reclaimOnRelease (.ofStore s), fun _ => rfl, rfl⟩

theorem Vacant.store_eq (h : Vacant p s e) : e.catalog.store 0 = s := by
  unfold Catalog.store
  rw [h.stores]
  rfl

/-- Commits may be added, and another store may take the place of the store. -/
theorem Vacant.setCatalog (h : Vacant p s e) (hc : e.catalog.Extends c) (hs : c.stores = [s']) :
    Vacant p s' (e.setCatalog c) :=
  ⟨h.guarded, h.decider, h.sound.world hc, h.unheld, hs⟩

theorem Vacant.dropWriter (h : Vacant p s e) : Vacant p s e.dropWriter :=
  ⟨h.guarded, h.decider, h.sound, h.unheld, h.stores⟩

theorem Vacant.setWriter (h : Vacant p s e) (w : Option Writer) :
    Vacant p s { e with writer := w } :=
  ⟨h.guarded, h.decider, h.sound, h.unheld, h.stores⟩

/-- A cycle may have passed that leaves nothing held. -/
theorem Vacant.cycle (h : Vacant p s e) {history : List Nat} {rs : List Request}
    (hrange : ∀ n ∈ history, n < e.catalog.commits.length)
    (ht : Transparent e.keeper history rs)
    (hstores : (e.keeper.cycle history rs).2.catalog.stores = [s']) :
    Vacant p s' { e with keeper := (e.keeper.cycle history rs).2 } :=
  ⟨h.guarded, h.decider, h.sound.cycle hrange rs, ht.count, hstores⟩

/-! ## Loading -/

/-- Loading a history behind another one is loading it on its own. -/
theorem Vacant.load_eq (h : Vacant p s e) (hms : s.readCommits = .ok ms) (sync : Bool) :
    e.load 0 sync =
      (((bare p s).load 0 sync).1.map
          (Writer.lodge e.catalog.commits.length e.catalog.depots.length),
        e.dropWriter.setCatalog
          (((bare p s).load 0 sync).2.catalog.lodge e.catalog.commits e.catalog.depots)) := by
  have htallied := Catalog.tallied_ofStore s
  have hstore : e.dropWriter.catalog.store 0 = s := h.store_eq
  have hall := htallied.adoptAll rfl ms
  have hlodge := htallied.adoptAll_lodge e.catalog.commits e.catalog.depots rfl ms
  have hadd : e.dropWriter.catalog.addDepot 0 =
      ((Catalog.ofStore s).addDepot 0).lodge e.catalog.commits e.catalog.depots :=
    Catalog.addDepot_eq_lodge h.stores
  unfold load
  dsimp only
  rw [hstore, show ((bare p s).dropWriter.catalog.store 0).readCommits = .ok ms from hms, hms]
  dsimp only
  rw [hadd, show e.dropWriter.catalog.depots.length = e.catalog.depots.length from rfl, hlodge]
  rw [show (bare p s).dropWriter.catalog.addDepot 0 = (Catalog.ofStore s).addDepot 0 from rfl,
    show (bare p s).dropWriter.catalog.depots.length = 0 from rfl]
  generalize Catalog.adoptAll 0 ms ((Catalog.ofStore s).addDepot 0) = adopted at hall ⊢
  obtain ⟨ns, b⟩ := adopted
  dsimp only at hall ⊢
  rw [hall.1.single.tracker_lodge, Catalog.store_lodge, Catalog.setStore_lodge]
  generalize (b.store 0).sweep (b.tracker 0).isReferenced = swept
  obtain ⟨result, s1⟩ := swept
  cases result with
  | error err => rfl
  | ok _ =>
    dsimp only
    rw [Writer.after_lodge _ _ 0]
    cases Writer.after 0 ns sync ms with
    | none => rfl
    | some w => rfl

/-! ## Showing the history -/

theorem Swept.shown_eq (h : Swept s ms sync w c s') :
    (c.setStoreOf 0 s').shown (List.range ms.length) = ms.map Manifest.shown := by
  unfold Catalog.shown
  refine List.ext_getElem (by simp) fun n hn hn' => ?_
  have hn : n < ms.length := by simpa using hn'
  rw [List.getElem_map, List.getElem_range, h.commit_eq hn, List.getElem_map]
  rfl

/-- The keeper is presented with commits of distinct versions, none of them deleted. -/
theorem Swept.presents_lodge {k : Keeper} {n : Nat} (h : Swept s ms sync w c s')
    (hms : s.readCommits = .ok ms) (hcatalog : k.catalog = (c.setStoreOf 0 s').lodge old olds)
    (hlength : ms.length = n + 1) :
    Presents k ((List.range ms.length).map (old.length + ·)) (old.length + n)
      (p.requests (ms.map Manifest.shown)) := by
  have hn : n < (c.setStoreOf 0 s').commits.length := by
    rw [h.length, hlength]
    exact Nat.lt_succ_self n
  refine ⟨?_, ?_, ?_, fun r hr => ?_⟩
  · rw [List.getLast?_map, List.getLast?_range, hlength]
    simp
  · have hversions : ((List.range ms.length).map (old.length + ·)).map k.catalog.version =
        ms.map Manifest.version := by
      rw [List.map_map]
      refine List.ext_getElem (by simp) fun i hi hi' => ?_
      have hi : i < ms.length := by simpa using hi'
      rw [List.getElem_map, List.getElem_range, List.getElem_map, Function.comp_apply, hcatalog]
      unfold Catalog.version Commit.version
      rw [Catalog.manifest_lodge (h.length.symm ▸ hi), h.commit_eq hi]
    rw [hversions]
    exact (Store.readCommits_ok hms).1.imp fun hlt => KeyOrder.ne_of_lt hlt
  · rw [hcatalog, Catalog.isDeleted_lodge hn]
    unfold Catalog.isDeleted
    rw [h.commit_eq (h.length ▸ hn)]
  · obtain ⟨i, rfl⟩ := Primary.eq_delete_of_mem hr
    trivial

/-- A stock policy does not ask for the newest commit. -/
theorem not_asks_newest {n : Nat} (hlength : ms.length = n + 1) (commits : Nat) :
    ¬Asks ((List.range ms.length).map (commits + ·)) (p.requests (ms.map Manifest.shown))
      (commits + n) := by
  rintro ⟨i, hi, hget⟩
  obtain ⟨hlt, heq⟩ := List.getElem?_eq_some_iff.mp hget
  rw [List.getElem_map, List.getElem_range] at heq
  obtain rfl : i = n := Nat.add_left_cancel heq
  exact Primary.not_mem_requests_newest p hlength hi

/-- What opening a writer does, by what the bare policy does. -/
structure Transpires (p : Primary) (ms : List Manifest) (e : Engine)
    (bare out : Except Error Unit × Engine) : Prop where
  result : out.1 = bare.1
  lodges : Lodges e.catalog.commits e.catalog.depots bare.2 out.2
  vacant : Vacant p (bare.2.catalog.store 0) out.2
  /-- Nothing is published unless there is a history and the writer can go on. -/
  unlisted : ms = [] ∨ Writer.canFollow ms = false → out.2.keeper.live = e.keeper.live
  /-- A history that the policy accepts is published. -/
  published : out.1 = .ok () → ms ≠ [] →
    out.2.published = some (out.2.manifests.map Manifest.version)

/-- A writer's own history is published. -/
theorem published_of_listing {ns : List Nat}
    (hw : e.writer = some { w with history := e.catalog.undeleted ns })
    (hlisting : e.keeper.listing = some (e.catalog.undeleted ns)) :
    e.published = some (e.manifests.map Manifest.version) := by
  unfold published
  rw [Keeper.published_versions, hlisting, manifests_of_writer hw, Option.map_some]
  unfold Writer.manifests
  dsimp only
  rw [Catalog.undeleted_undeleted, List.map_map]
  rfl

theorem presentHistory_of_nil (h : w.history = []) (e : Engine) :
    e.presentHistory w = (.ok (), { e with writer := some w }) := by
  unfold presentHistory
  rw [h]

theorem presentHistory_of_ne_nil (h : w.history ≠ []) (e : Engine) :
    e.presentHistory w =
      match e.decide w.history with
      | (.error err, e) => (.error err, e)
      | (.ok (), e) =>
        (.ok (), { e with writer := some { w with history := e.catalog.undeleted w.history } }) := by
  unfold presentHistory
  split
  next hnil => exact absurd hnil h
  next => rfl

theorem decide_bare (hcatalog : f.catalog = b) (hdecider : f.decider = .stock p)
    (hguarded : f.guarded = false) {ns : List Nat} (hshown : b.shown ns = ms.map Manifest.shown) :
    f.decide ns = ((carryOutAllBare ns (p.requests (ms.map Manifest.shown)) b).1,
      f.setCatalog (carryOutAllBare ns (p.requests (ms.map Manifest.shown)) b).2) := by
  unfold decide
  rw [hdecider, hcatalog, hshown, hguarded]
  unfold onCatalog
  rw [hcatalog]
  rfl

/-- What a vacant engine decides about a history behind another one. -/
structure Settles (p : Primary) (old : List Commit) (olds : List Depot) (ns : List Nat)
    (rs : List Request) (b : Catalog) (e : Engine) : Prop where
  decide : e.decide (ns.map (old.length + ·)) = ((carryOutAllBare ns rs b).1,
    { e with keeper := (e.keeper.cycle (ns.map (old.length + ·)) rs).2 })
  catalog : (e.keeper.cycle (ns.map (old.length + ·)) rs).2.catalog =
    (carryOutAllBare ns rs b).2.lodge old olds
  listing : (carryOutAllBare ns rs b).1 = .ok () →
    (e.keeper.cycle (ns.map (old.length + ·)) rs).2.listing =
      some (((carryOutAllBare ns rs b).2.undeleted ns).map (old.length + ·))
  vacant : Vacant p ((carryOutAllBare ns rs b).2.store 0)
    { e with keeper := (e.keeper.cycle (ns.map (old.length + ·)) rs).2 }

theorem Vacant.settles (h : Vacant p s e) (hcatalog : e.catalog = b.lodge old olds)
    (htallied : b.Tallied) {ns : List Nat} (hrange : ∀ n ∈ ns, n < b.commits.length)
    (hshown : b.shown ns = ms.map Manifest.shown) {newest : Nat}
    (hpresents : Presents e.keeper (ns.map (old.length + ·)) newest
      (p.requests (ms.map Manifest.shown)))
    (hasks : ¬Asks (ns.map (old.length + ·)) (p.requests (ms.map Manifest.shown)) newest) :
    Settles p old olds ns (p.requests (ms.map Manifest.shown)) b e := by
  have hkeeper : e.keeper.catalog = b.lodge old olds := hcatalog
  have hbacked : ∀ n ∈ ns.map (old.length + ·), n < e.keeper.catalog.commits.length ∧
      ∃ depot, (e.keeper.catalog.commit n).backing = .artifacts depot := by
    intro n hn
    obtain ⟨i, hi, rfl⟩ := List.mem_map.mp hn
    rw [hkeeper]
    refine ⟨?_, olds.length, ?_⟩
    · unfold Catalog.lodge
      simp [hrange i hi]
    · rw [Catalog.commit_lodge (hrange i hi)]
      rfl
  have ht := Keeper.cycle_of_unheld hpresents h.sound h.unheld
    (fun r hr => Primary.eq_delete_of_mem hr) hasks hbacked
  have hlodge := carryOutAllBare_lodge old olds htallied hrange
    (p.requests (ms.map Manifest.shown))
  have hprunes := carryOutAllBare_prunes ns (p.requests (ms.map Manifest.shown)) b
  have hcycle := ht.catalog
  have hresult := ht.result
  rw [hkeeper, hlodge] at hcycle hresult
  refine ⟨?_, hcycle, fun hok => ?_, h.cycle (fun n hn => (hbacked n hn).1) ht ?_⟩
  · have hrequests : e.decider.requests (e.catalog.shown (ns.map (old.length + ·))) =
        p.requests (ms.map Manifest.shown) := by
      rw [h.decider, hcatalog, Catalog.shown_lodge hrange, hshown]
      rfl
    unfold Engine.decide
    dsimp only
    rw [hrequests, h.guarded]
    exact Prod.ext hresult rfl
  · rw [ht.listing (hresult.trans hok), hcycle,
      Catalog.undeleted_lodge _ _ fun n hn => hprunes.sameCommits.length.symm ▸ hrange n hn]
  · rw [hcycle]
    exact (htallied.prunes hprunes).single.stores_eq

/-- A history that is there is shown to the policy. -/
theorem Vacant.present_of_ne_nil (h : Vacant p s e) (hms : s.readCommits = .ok ms)
    (hswept : Swept s ms sync w c s') (hhistory : w.history = List.range ms.length)
    (hnil : ms ≠ []) (hfollow : Writer.canFollow ms = true) :
    Transpires p ms e
      (((bare p s).dropWriter.setCatalog (c.setStoreOf 0 s')).presentHistory w)
      ((e.dropWriter.setCatalog
          ((c.setStoreOf 0 s').lodge e.catalog.commits e.catalog.depots)).presentHistory
        (w.lodge e.catalog.commits.length e.catalog.depots.length)) := by
  obtain ⟨n, hn⟩ : ∃ n, ms.length = n + 1 :=
    Nat.exists_eq_add_one.mpr (List.length_pos_iff.mpr hnil)
  have hne : w.history ≠ [] := by
    rw [hhistory, hn]
    exact fun hempty => nomatch List.range_eq_nil.mp hempty
  have hlodged : (w.lodge e.catalog.commits.length e.catalog.depots.length).history ≠ [] :=
    fun hempty => hne (List.map_eq_nil_iff.mp hempty)
  have hlodge : (w.lodge e.catalog.commits.length e.catalog.depots.length).history =
      (List.range ms.length).map (e.catalog.commits.length + ·) :=
    congrArg (List.map _) hhistory
  have htallied := hswept.recounts.tallied.setStoreOf s'
  have hrange : ∀ n ∈ List.range ms.length, n < (c.setStoreOf 0 s').commits.length :=
    fun n hn => hswept.length.symm ▸ List.mem_range.mp hn
  have hvacant : Vacant p ((c.setStoreOf 0 s').store 0) (e.dropWriter.setCatalog
      ((c.setStoreOf 0 s').lodge e.catalog.commits e.catalog.depots)) :=
    h.dropWriter.setCatalog (Catalog.extends_lodge e.catalog _) htallied.single.stores_eq
  obtain ⟨hdecide, hcatalog, hlisting, hleft⟩ := hvacant.settles rfl htallied hrange
    hswept.shown_eq (hswept.presents_lodge hms rfl hn) (not_asks_newest hn _)
  have hprunes := carryOutAllBare_prunes (List.range ms.length)
    (p.requests (ms.map Manifest.shown)) (c.setStoreOf 0 s')
  rw [presentHistory_of_ne_nil hne, presentHistory_of_ne_nil hlodged, hlodge, hdecide, hhistory,
    decide_bare (b := c.setStoreOf 0 s') rfl rfl rfl hswept.shown_eq]
  have hunlisted : ¬(ms = [] ∨ Writer.canFollow ms = false) := by
    rw [hfollow]
    exact fun hor => hor.elim hnil nofun
  generalize carryOutAllBare (List.range ms.length) (p.requests (ms.map Manifest.shown))
    (c.setStoreOf 0 s') = carried at hprunes hcatalog hlisting hleft ⊢
  obtain ⟨result, d⟩ := carried
  cases result with
  | error err => exact ⟨rfl, ⟨hcatalog, rfl, nofun⟩, hleft, fun hor => absurd hor hunlisted, nofun⟩
  | ok _ =>
    have hrange' : ∀ n ∈ List.range ms.length, n < d.commits.length :=
      fun n hn => hprunes.sameCommits.length.symm ▸ hrange n hn
    have hundeleted := Catalog.undeleted_lodge e.catalog.commits e.catalog.depots hrange'
    refine ⟨rfl, ⟨hcatalog, ?_, ?_⟩, hleft.setWriter _, fun hor => absurd hor hunlisted,
      fun _ _ => ?_⟩
    · refine congrArg some ?_
      show ({ w.lodge _ _ with
        history := Catalog.undeleted _ (Keeper.cycle _ _ _).2.catalog } : Writer) = _
      rw [hcatalog, hundeleted]
      rfl
    · intro w' hw' n hn
      obtain rfl := Option.some.inj hw'
      exact hrange' n (List.mem_filter.mp hn).1
    · refine published_of_listing rfl ((hlisting rfl).trans (congrArg some ?_))
      rw [← hundeleted, ← hcatalog]
      rfl

theorem Vacant.present (h : Vacant p s e) (hms : s.readCommits = .ok ms)
    (hswept : Swept s ms sync w c s') :
    Transpires p ms e
      (((bare p s).dropWriter.setCatalog (c.setStoreOf 0 s')).presentHistory w)
      ((e.dropWriter.setCatalog
          ((c.setStoreOf 0 s').lodge e.catalog.commits e.catalog.depots)).presentHistory
        (w.lodge e.catalog.commits.length e.catalog.depots.length)) := by
  have hhistory : w.history = List.range ms.length :=
    (version_lt_after hswept.after (Store.readCommits_ok hms).1).2.1
  by_cases hnil : ms = []
  · have hempty : w.history = [] := by rw [hhistory, hnil]; rfl
    have hlodged : (w.lodge e.catalog.commits.length e.catalog.depots.length).history = [] := by
      show w.history.map _ = []
      rw [hempty]
      rfl
    have hstores := (hswept.recounts.tallied.setStoreOf s').single.stores_eq
    rw [presentHistory_of_nil hempty, presentHistory_of_nil hlodged]
    refine ⟨rfl, ⟨rfl, rfl, ?_⟩, ?_, fun _ => rfl, fun _ hne => absurd hnil hne⟩
    · intro w' hw' n hn
      obtain rfl := Option.some.inj hw'
      rw [hempty] at hn
      cases hn
    · exact (h.dropWriter.setCatalog (Catalog.extends_lodge e.catalog (c.setStoreOf 0 s'))
        hstores).setWriter _
  · refine h.present_of_ne_nil hms hswept hhistory hnil ?_
    rw [← Writer.isSome_after 0 (List.range ms.length) sync, hswept.after]
    rfl

/-- Opening a writer while nothing is held does what the bare policy does. -/
theorem Vacant.openWriter (h : Vacant p s e) (hms : s.readCommits = .ok ms) (sync : Bool) :
    Transpires p ms e ((bare p s).openWriter 0 sync) (e.openWriter 0 sync) := by
  obtain ⟨c, -, hall, hload⟩ := Engine.load_eq (e := bare p s) rfl hms sync
  have hf1 := congrArg Prod.snd hload
  rw [openWriter_eq_load, openWriter_eq_load, h.load_eq hms sync]
  obtain ⟨r, f1, hl⟩ : ∃ r f1, (bare p s).load 0 sync = (r, f1) := ⟨_, _, rfl⟩
  rw [hl] at hf1 ⊢
  cases r with
  | error err =>
    obtain rfl : f1 = _ := hf1
    refine ⟨rfl, ⟨rfl, rfl, nofun⟩, ?_, fun _ => rfl, nofun⟩
    exact h.dropWriter.setCatalog (Catalog.extends_lodge e.catalog (c.setStoreOf 0 _))
      (hall.tallied.setStoreOf _).single.stores_eq
  | ok w =>
    obtain ⟨c, s', hswept, rfl⟩ := swept_load (e := bare p s) rfl hms hl
    exact h.present hms hswept

end Engine

end SnapshotRetention
