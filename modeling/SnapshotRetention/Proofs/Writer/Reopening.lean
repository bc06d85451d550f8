import SnapshotRetention.Proofs.Keeper.CycleSpec
import SnapshotRetention.Proofs.Writer.Described

/-!
# Another writer takes over

In every state of a run over a store that was empty and never fails, the manifests in the store are
those of the commits that the writer has undeleted, and a writer that opens over this store with a
policy that keeps everything has the same history, the same counts and the same artifacts, apart
from those that no commit lists, and goes on with the numbers that follow
(`Engine.store_describes_history`).

This holds for any primary policy, bare or behind a keeper, whatever consumers do, and whether
commits are rejected or not, as long as no counter is at its end (`Engine.Unhindered`).
-/

namespace SnapshotRetention

open Catalog (Prunes)
open Keeper (Sound Presents)

namespace Engine

variable {e e' e1 : Engine} {s : Store} {w : Writer} {c : Catalog} {ms : List Manifest}
  {s' : Store} {sync guarded : Bool} {d : Decider} {id : Nat} {reclaimOnRelease : Bool}
  {history : List Nat} {n : Nat} {m : Manifest} {changes : Changes}

/-- A new engine over a store, whose policy is bare or guarded. -/
def fresh (id : Nat) (reclaimOnRelease guarded : Bool) (d : Decider) (s : Store) : Engine :=
  ⟨.new id reclaimOnRelease (.ofStore s), d, guarded, none⟩

/-! ## The run -/

/-- A step in which the store does not fail, and no number of the writer is the last one. -/
def Unhindered (e : Engine) : Act → Prop
  | .commit _ _ => ∀ w, e.writer = some w →
    w.nextVersion.next? ≠ none ∧ w.nextGeneration.next? ≠ none
  | .use _ => True
  | .refuse _ => False

/-- The manifests of the undeleted commits, oldest first. -/
def manifests (e : Engine) : List Manifest := e.commits.map fun n => (e.catalog.commit n).manifest

/-- There is a writer, and the store describes its commits. -/
def Recorded (e : Engine) : Prop := ∃ w, e.writer = some w ∧ w.Keeps e.catalog

theorem manifests_of_writer (hw : e.writer = some w) : e.manifests = w.manifests e.catalog := by
  unfold manifests commits Writer.manifests
  rw [hw]

theorem Recorded.act (h : e.Recorded) {a : Act} (ha : e.Unhindered a) : (e.act a).Recorded := by
  obtain ⟨w, hw, hkeeps⟩ := h
  cases a with
  | commit d changes =>
    obtain ⟨hversion, hgeneration⟩ := ha w hw
    obtain ⟨v, hv⟩ := Option.ne_none_iff_exists'.mp hversion
    obtain ⟨g, hg⟩ := Option.ne_none_iff_exists'.mp hgeneration
    obtain ⟨-, hact⟩ := act_commit_of_some d changes hw
    rw [hact]
    exact hkeeps.commit (e := { e with decider := d }) hv hg changes
  | use u => exact ⟨w, hw, hkeeps.prunes (Keeper.use_prunes u e.keeper)⟩
  | refuse faults => exact ha.elim

theorem Follows.recorded (h : Follows Unhindered e e') (he : e.Recorded) : e'.Recorded := by
  induction h with
  | refl => exact he
  | act a _ _ ha ih => exact ih.act ha

/-! ## Opening over an empty store -/

theorem readCommits_of_empty (hempty : s.names = []) (hnever : s.faults = .never) :
    s.readCommits = .ok [] := by
  have hdescribes : s.Describes [] := by
    refine ⟨fun m hm => absurd hm List.not_mem_nil, fun q hq => ?_, .nil, .nil⟩
    rw [hempty] at hq
    cases hq
  exact hdescribes.readCommits hnever

/-- Nothing is in the store and nothing is listed. -/
theorem Swept.described (h : Swept s [] sync w c s') (hnever : s.faults = .never) :
    (c.setStoreOf 0 s').Described := by
  have hsingle := h.recounts.tallied.single
  have hnone : (c.setStoreOf 0 s').commits = [] := h.recounts.commits
  have hrange : ∀ n, ¬n < (c.setStoreOf 0 s').commits.length := by
    intro n
    rw [hnone]
    exact Nat.not_lt_zero n
  obtain ⟨base, hbase, htidy⟩ := h.tidy
  refine ⟨⟨base, htidy, fun q data hfile => absurd hfile (hbase q data)⟩, ?_, ?_, ?_,
    fun n hn => absurd hn (hrange n), fun n hn => absurd hn (hrange n)⟩
  · intro q hq
    rw [hsingle.referenced_setStoreOf, hsingle.queue_setStoreOf, h.recounts.queue,
      h.referenced_eq] at hq
    exact hq.elim (fun hq => absurd hq List.not_mem_nil) fun hq => absurd hq List.not_mem_nil
  · rw [hsingle.store_setStoreOf]
    exact h.cleared.faults.trans hnever
  · rw [hsingle.queue_setStoreOf]
    exact h.recounts.queue

theorem recorded_openWriter (hcatalog : e.catalog = .ofStore s) (hempty : s.names = [])
    (hnever : s.faults = .never) : (e.openWriter 0 sync).2.Recorded := by
  have hms := readCommits_of_empty hempty hnever
  obtain ⟨e1, hload⟩ := exists_load (w := ⟨0, [], ⟨1⟩, ⟨1⟩, 0, sync⟩) hcatalog hms hnever
    (fun q hq => absurd (hempty ▸ hq) List.not_mem_nil) rfl
  obtain ⟨c, s', hswept, rfl⟩ := swept_load hcatalog hms hload
  rw [openWriter_of_load hload]
  refine ⟨_, rfl, hswept.continues hms, hswept.described hnever, fun n hn => ?_, rfl⟩
  have hn : n < (c.setStoreOf 0 s').commits.length := hn
  rw [hswept.length] at hn
  exact absurd hn (Nat.not_lt_zero n)

/-! ## Opening over the store of a run -/

/-- The numbers that come after those of some manifests. -/
def Succeeds (ms : List Manifest) (v : Version) (g : Generation) : Prop :=
  match ms.getLast? with
  | none => v = ⟨1⟩ ∧ g = ⟨1⟩
  | some m => m.version.next? = some v ∧ m.generation.next? = some g

/-- What a writer that takes over has of the commits of the one before. -/
structure Restores (e e' : Engine) : Prop where
  manifests : e'.manifests = e.manifests
  counted : ∀ name, (e'.catalog.tracker 0).refCount name = (e.catalog.tracker 0).refCount name
  /-- What a commit lists is left alone. -/
  unchanged : ∀ name ∈ e.catalog.referenced,
    (e'.catalog.store 0).data? name = (e.catalog.store 0).data? name
  /-- What no commit lists goes. -/
  names : ∀ name, name ∈ (e'.catalog.store 0).names ↔
    name ∈ (e.catalog.store 0).names ∧ name ∈ e.catalog.referenced
  writer : ∃ w, e'.writer = some w ∧ Succeeds e.manifests w.nextVersion w.nextGeneration
  /-- The next commit has the numbers that follow. -/
  next : ∀ changes n e'', e'.commit? changes = (some (.ok n), e'') →
    Succeeds e.manifests (e''.catalog.commit n).manifest.version
      (e''.catalog.commit n).manifest.generation

/-- A number below another can be followed. -/
theorem succ?_ne_none {n n' : UInt64} (h : n < n') : succ? n ≠ none := by
  have hlt := UInt64.lt_iff_toNat_lt.mp h
  have hbound := n'.toNat_lt
  unfold succ?
  rw [if_pos (by unfold UInt64.size; omega)]
  exact nofun

/-- The numbers of the commits of a writer can be followed. -/
theorem after_of_keeps (h : w.Keeps c) (sync : Bool) : ∃ w',
    Writer.after 0 (List.range (w.manifests c).length) sync (w.manifests c) = some w' ∧
      w'.depot = 0 ∧ w'.history = List.range (w.manifests c).length ∧
        Succeeds (w.manifests c) w'.nextVersion w'.nextGeneration := by
  unfold Writer.after Succeeds
  cases hlast : (w.manifests c).getLast? with
  | none => exact ⟨_, rfl, rfl, rfl, rfl, rfl⟩
  | some m =>
    obtain ⟨n, hn, -, rfl⟩ := h.continues.mem_manifests.mp (List.mem_of_getLast? hlast)
    have hversion : (c.commit n).manifest.version.next? ≠ none := by
      unfold Version.next?
      rw [Ne, Option.map_eq_none_iff]
      exact succ?_ne_none (h.continues.next n hn)
    have hgeneration : (c.commit n).manifest.generation.next? ≠ none := by
      unfold Generation.next?
      rw [Ne, Option.map_eq_none_iff, h.numbered n hn]
      exact succ?_ne_none (h.continues.next n hn)
    obtain ⟨v, hv⟩ := Option.ne_none_iff_exists'.mp hversion
    obtain ⟨g, hg⟩ := Option.ne_none_iff_exists'.mp hgeneration
    dsimp only
    rw [hv, hg]
    exact ⟨_, rfl, rfl, rfl, rfl, rfl⟩

/-- A cycle in which nothing is asked for deletes nothing. -/
theorem cycle_nil {k : Keeper} (hk : Sound [] k) (h : Presents k history n []) :
    (k.cycle history []).1 = .ok () ∧ (k.cycle history []).2.catalog = k.catalog := by
  have hspec := h.cycle_spec hk
  have hreclaims : ¬k.Reclaims history n [] := fun hr => absurd hr.1 List.not_mem_nil
  have hmem : n ∈ k.kept history n [] :=
    List.mem_filter.mpr ⟨h.newest_mem, by rw [h.undeleted]; rfl⟩
  have hkept : k.kept history n [] ≠ [] := List.ne_nil_of_mem hmem
  have hresult := hspec.result
  have hcatalog := hspec.catalog
  rw [if_neg hreclaims] at hresult hcatalog
  rw [if_neg hkept] at hresult
  exact ⟨hresult, hcatalog⟩

/-- A policy that keeps everything leaves the commits alone. -/
theorem decide_keepAll (hd : e.decider = .stock .keepAll) (hk : Sound [] e.keeper)
    (h : Presents e.keeper history n []) :
    (e.decide history).1 = .ok () ∧ (e.decide history).2.catalog = e.catalog := by
  have hrequests : ∀ shown, e.decider.requests shown = [] := fun shown => by
    rw [hd]
    rfl
  unfold decide
  dsimp only
  rw [hrequests]
  split
  next => exact cycle_nil hk h
  next => exact ⟨rfl, rfl⟩

theorem Swept.undeleted_eq (h : Swept s ms sync w c s') :
    (c.setStoreOf 0 s').undeleted (List.range ms.length) = List.range ms.length := by
  refine List.filter_eq_self.mpr fun n hn => ?_
  unfold Catalog.isDeleted
  rw [h.commit_eq (List.mem_range.mp hn)]
  rfl

theorem Swept.manifests_eq (h : Swept s ms sync w c s') :
    ((c.setStoreOf 0 s').undeleted (List.range ms.length)).map
      (fun n => ((c.setStoreOf 0 s').commit n).manifest) = ms := by
  rw [h.undeleted_eq]
  refine List.ext_getElem (by simp) fun n hn hn' => ?_
  rw [List.getElem_map, List.getElem_range, h.commit_eq hn']

/-- The keeper of a loaded history has seen none of it. -/
theorem Swept.presents {k : Keeper} (h : Swept s ms sync w c s')
    (hversions : (ms.map Manifest.version).Pairwise (· < ·))
    (hhistory : w.history = List.range ms.length)
    (hcatalog : k.catalog = c.setStoreOf 0 s') (hlast : w.history.getLast? = some n) :
    Presents k w.history n [] := by
  have hn : n < ms.length := by
    have hmem := List.mem_of_getLast? hlast
    rw [hhistory] at hmem
    exact List.mem_range.mp hmem
  refine ⟨hlast, ?_, ?_, fun r hr => absurd hr List.not_mem_nil⟩
  · rw [hcatalog, hhistory]
    have hascending := Catalog.ascending_of_adopted h.commits hversions
    exact hascending.nodup_versions List.pairwise_lt_range
      fun n hn => h.length.symm ▸ List.mem_range.mp hn
  · rw [hcatalog]
    show ((c.setStoreOf 0 s').commit n).deleted = false
    rw [h.commit_eq hn]

/-- A history that is shown to a policy that keeps everything is kept. -/
theorem presentHistory_keepAll (h : Swept s ms sync w c s')
    (hversions : (ms.map Manifest.version).Pairwise (· < ·))
    (hhistory : w.history = List.range ms.length) (hd : e.decider = .stock .keepAll)
    (hkeeper : e.keeper = .new id reclaimOnRelease (c.setStoreOf 0 s')) :
    ∃ e', e.presentHistory w = (.ok (), e') ∧ e'.writer = some w ∧
      e'.catalog = c.setStoreOf 0 s' := by
  have hcatalog : e.catalog = c.setStoreOf 0 s' := congrArg Keeper.catalog hkeeper
  have hundeleted : (c.setStoreOf 0 s').undeleted w.history = w.history := by
    rw [hhistory]
    exact h.undeleted_eq
  unfold presentHistory
  split
  next => exact ⟨_, rfl, rfl, hcatalog⟩
  next hne =>
    obtain ⟨n, hlast⟩ := Option.isSome_iff_exists.mp (List.getLast?_isSome.mpr fun hnil => hne hnil)
    have hpresents := h.presents (k := e.keeper) hversions hhistory hcatalog hlast
    obtain ⟨hok, hsame⟩ := decide_keepAll hd (hkeeper ▸ Sound.new _ _ _) hpresents
    split
    next err e1 heq =>
      rw [heq] at hok
      cases hok
    next e1 heq =>
      rw [heq] at hsame
      refine ⟨_, rfl, ?_, hsame.trans hcatalog⟩
      show some { w with history := e1.catalog.undeleted w.history } = some w
      rw [show e1.catalog = _ from hsame, hcatalog, hundeleted]

theorem register_ok (h : (e.register w m).1 = .ok n) : n = e.catalog.commits.length := by
  cases hadvance : advance { w with history := w.history ++ [e.catalog.commits.length] }
      m.timestamp with
  | none =>
    rw [register_of_none hadvance] at h
    cases h
  | some w1 =>
    rw [register_of_advance hadvance] at h
    cases hdecided : ((e.withCommit w m).decide w1.history).1 with
    | error err =>
      rw [hdecided] at h
      cases h
    | ok _ =>
      rw [hdecided] at h
      exact (Except.ok.inj h).symm

/-- A commit that is made has the next numbers of the writer. -/
theorem numbers_of_commit? {e'' : Engine} (hsingle : e.catalog.Single) (hw : e.writer = some w)
    (hdepot : w.depot = 0) (h : e.commit? changes = (some (.ok n), e'')) :
    (e''.catalog.commit n).manifest.version = w.nextVersion ∧
      (e''.catalog.commit n).manifest.generation = w.nextGeneration := by
  obtain ⟨w1, m, e1, hstage, hregister⟩ := register_of_commit? hw h
  obtain ⟨data, s, hs, he1⟩ := stages_of_stage hsingle hdepot hstage
  obtain rfl := register_ok (congrArg Prod.fst hregister)
  have hprunes := register_prunes (e := e1) (m := m) (hs.depot.trans hdepot)
  rw [hregister] at hprunes
  rw [hprunes.sameCommits.manifest, Catalog.commit_adopt_self]
  exact hs.numbers

/-! ## Main statement -/

/-- A writer that takes over from one whose commits the store describes restores them. -/
theorem Recorded.restores (h : e.Recorded) (id : Nat) (reclaimOnRelease guarded sync : Bool) :
    ∃ e', (fresh id reclaimOnRelease guarded (.stock .keepAll) (e.catalog.store 0)).openWriter 0
      sync = (.ok (), e') ∧ Restores e e' := by
  obtain ⟨w, hw, hkeeps⟩ := h
  have hms := hkeeps.describes.readCommits hkeeps.described.never
  have hreferenced := hkeeps.continues.referenced_eq
  obtain ⟨w', hafter, hdepot, hhistory, hsucceeds⟩ := after_of_keeps hkeeps sync
  have hstray : ∀ q ∈ (e.catalog.store 0).names,
      q ∉ (w.manifests e.catalog).flatMap Manifest.fileNames →
        ¬(e.catalog.store 0).medium.Fixed q := by
    intro q hq hnot
    obtain ⟨base, htidy, hbase⟩ := hkeeps.described.tidy
    obtain ⟨data, hdata⟩ := (Store.mem_names_iff _ q).mp hq
    rw [← hreferenced] at hnot
    have hnode := htidy.rest q hnot (by rw [hkeeps.described.queue]; exact List.not_mem_nil)
    exact (hbase q data (hnode.symm.trans hdata)).2
  obtain ⟨e1, hload⟩ := exists_load
    (e := fresh id reclaimOnRelease guarded (.stock .keepAll) (e.catalog.store 0)) rfl hms
    hkeeps.described.never hstray hafter
  obtain ⟨c, s', hswept, rfl⟩ := swept_load rfl hms hload
  obtain ⟨e', hpresent, hwriter, hcatalog'⟩ := presentHistory_keepAll
    (e := (fresh id reclaimOnRelease guarded (.stock .keepAll)
      (e.catalog.store 0)).dropWriter.setCatalog (c.setStoreOf 0 s')) hswept
    hkeeps.continues.ascending_manifests hhistory rfl rfl
  have hsingle := hswept.recounts.tallied.single
  have hmanifests : e'.manifests = e.manifests := by
    rw [manifests_of_writer hw, manifests_of_writer hwriter, hcatalog']
    unfold Writer.manifests
    rw [hhistory]
    exact hswept.manifests_eq
  rw [openWriter_of_load hload]
  refine ⟨e', hpresent, hmanifests, ?_, ?_, ?_, ⟨w', hwriter, manifests_of_writer hw ▸ hsucceeds⟩, ?_⟩
  · intro name
    rw [hcatalog', (hswept.recounts.tallied.setStoreOf s').counted,
      hkeeps.described.tallied.counted, hsingle.referenced_setStoreOf, hswept.referenced_eq,
      hreferenced]
  · intro name hname
    obtain ⟨⟨data, hdata⟩, hfixed⟩ := hkeeps.described.housed name (Or.inl hname)
    have hnode : s'.medium.node? name = some (.file data) := by
      refine (hswept.cleared.node_of_not_mem fun hmem => ?_).trans hdata
      rw [hreferenced, ← hswept.referenced_eq] at hname
      exact (hswept.mem_stray.mp hmem).2 hname
    rw [hcatalog', hsingle.store_setStoreOf, Store.data?_of_node hdata hfixed]
    exact Store.data?_of_node hnode fun hf => hfixed ((hswept.cleared.alike.fixed_iff name).mp hf)
  · intro name
    rw [hcatalog', hsingle.store_setStoreOf, Store.mem_names_iff, Store.mem_names_iff,
      hswept.cleared.node, hreferenced, ← hswept.referenced_eq]
    by_cases hstay : name ∈ c.referenced
    · rw [if_neg fun hand => (hswept.mem_stray.mp hand.1).2 hstay, and_iff_left hstay]
    · refine ⟨fun hfile => ?_, fun hand => absurd hand.2 hstay⟩
      obtain ⟨data, hdata⟩ := hfile
      split at hdata
      next => cases hdata
      next hnot =>
        exact absurd ⟨hswept.mem_stray.mpr ⟨⟨data, hdata⟩, hstay⟩, List.not_mem_nil⟩ hnot
  · intro changes n e'' hcommit
    obtain ⟨hversion, hgeneration⟩ :=
      numbers_of_commit? (hcatalog' ▸ hsingle.setStoreOf s') hwriter hdepot hcommit
    rw [hversion, hgeneration, manifests_of_writer hw]
    exact hsucceeds

/-- The store describes the history, and another writer that opens over it takes over from there. -/
theorem store_describes_history (hempty : s.names = []) (hnever : s.faults = .never)
    (h : Follows Unhindered ((fresh id reclaimOnRelease guarded d s).openWriter 0 sync).2 e) :
    (∃ w, e.writer = some w) ∧ (e.catalog.store 0).readCommits = .ok e.manifests ∧
      ∀ id' reclaimOnRelease' guarded' sync', ∃ e',
        (fresh id' reclaimOnRelease' guarded' (.stock .keepAll) (e.catalog.store 0)).openWriter 0
          sync' = (.ok (), e') ∧ Restores e e' := by
  have hrecorded := h.recorded (recorded_openWriter rfl hempty hnever)
  have hrestores := hrecorded.restores
  obtain ⟨w, hw, hkeeps⟩ := hrecorded
  refine ⟨⟨w, hw⟩, ?_, hrestores⟩
  rw [manifests_of_writer hw]
  exact hkeeps.describes.readCommits hkeeps.described.never

/-- A snapshot holds the first commit, a commit that adds its file again has been rejected, and
another one has replaced the first. -/
def handedOver : Engine :=
  (snapshotted.act (.commit (.stock .keepOnlyLast) ⟨[("b", [2]), ("a", [3])], [], 0⟩)).act
    (.commit (.stock .keepOnlyLast) ⟨[("c", [4])], ["a"], 5⟩)

theorem unhindered_of_writer {d : Decider} (hw : e.writer = some w)
    (hnext : w.nextVersion.next? ≠ none ∧ w.nextGeneration.next? ≠ none) :
    e.Unhindered (.commit d changes) := by
  intro w' hw'
  obtain rfl := Option.some.inj (hw.symm.trans hw')
  exact hnext

/-- Both commits are read back, the first of which is only kept by its snapshot. -/
theorem store_describes_history_handedOver :
    handedOver.manifests = [⟨⟨1⟩, ⟨1⟩, 0, ["a"]⟩, ⟨⟨2⟩, ⟨2⟩, 5, ["c"]⟩] ∧
      (handedOver.catalog.store 0).readCommits = .ok handedOver.manifests ∧
      ∃ e', (fresh 1 true false (.stock .keepAll) (handedOver.catalog.store 0)).openWriter 0 true =
        (.ok (), e') ∧ Restores handedOver e' := by
  have hfirst : opened.Unhindered (.commit (.stock .keepOnlyLast) ⟨[("a", [1])], [], 0⟩) :=
    unhindered_of_writer (w := ⟨0, [], ⟨1⟩, ⟨1⟩, 0, true⟩) (by decide +kernel) (by decide +kernel)
  have hsecond : snapshotted.Unhindered
      (.commit (.stock .keepOnlyLast) ⟨[("b", [2]), ("a", [3])], [], 0⟩) :=
    unhindered_of_writer (w := ⟨0, [0], ⟨2⟩, ⟨2⟩, 0, true⟩) (by decide +kernel) (by decide +kernel)
  have hthird : (snapshotted.act (.commit (.stock .keepOnlyLast)
      ⟨[("b", [2]), ("a", [3])], [], 0⟩)).Unhindered
        (.commit (.stock .keepOnlyLast) ⟨[("c", [4])], ["a"], 5⟩) :=
    unhindered_of_writer (w := ⟨0, [0], ⟨2⟩, ⟨2⟩, 0, true⟩) (by decide +kernel) (by decide +kernel)
  have hrun : Follows Unhindered
      ((fresh 0 true true (.stock .keepOnlyLast) .empty).openWriter 0 true).2 handedOver :=
    .act _ (.act _ (.act _ (.act _ .refl trivial hfirst) trivial trivial) trivial hsecond)
      trivial hthird
  obtain ⟨-, hread, htake⟩ := store_describes_history (by decide +kernel) rfl hrun
  exact ⟨by decide +kernel, hread, htake 1 true false true⟩

end Engine

end SnapshotRetention
