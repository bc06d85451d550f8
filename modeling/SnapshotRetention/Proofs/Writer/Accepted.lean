import Mathlib.Data.Finset.Card
import SnapshotRetention.Proofs.ByteOrder
import SnapshotRetention.Proofs.Catalog.Twins
import SnapshotRetention.Proofs.Writer.Rejected

/-!
# Which commits are made, and what they make

Whether a commit is made is decided step by step: the removals one after the other, then the
additions, then each write, then the bytes of the manifest, and at last its name. Over a store in
memory that never fails this comes to one condition on the change set, in which no order is left
(`Changes.Acceptable`): a writer always finds the name of its next manifest free, and everything
that its commits list fits into a manifest (`Writer.Serving`).

Main statement: `committed_iff_acceptable`, for every state of such a writer (`Serves`), with what
the new commit is then (`Makes`).
-/

namespace SnapshotRetention

open Catalog (Disposed Prunes)
open Store (Wrote)

/-! ## Change sets -/

namespace Changes

variable {changes : Changes} {base after : List String} {s : Store}

/-- The files that changes lead to. -/
def resulting (changes : Changes) (base : List String) : Finset String :=
  (base.toFinset \ changes.remove.toFinset) ∪ (changes.add.map Prod.fst).toFinset

theorem toFinset_apply (h : changes.apply base = .ok after) :
    after.toFinset = changes.resulting base := by
  ext q
  simp only [resulting, List.mem_toFinset, Finset.mem_union, Finset.mem_sdiff]
  exact mem_apply_iff h q

theorem card_resulting (h : changes.apply base = .ok after) :
    (changes.resulting base).card = after.length := by
  rw [← toFinset_apply h]
  exact List.toFinset_card_of_nodup ((pairwise_of_apply h).imp Std.ne_of_lt)

/-- Changes to the files of a commit that can be written to a store in memory: they can be applied,
the added names are valid, fit into a manifest and are not in the store, and there are not too many
files afterwards. -/
structure Acceptable (changes : Changes) (base : List String) (s : Store) : Prop
    extends changes.Applicable base where
  valid : ∀ q ∈ changes.add.map Prod.fst, Store.isValidName q = true
  short : ∀ q ∈ changes.add.map Prod.fst, q.utf8ByteSize ≤ 65535
  absent : ∀ q ∈ changes.add.map Prod.fst, q ∉ s.names
  few : (changes.resulting base).card ≤ 4294967295

end Changes

/-! ## Writing out -/

namespace Engine

variable {add : List (String × Bytes)} {m : Manifest} {s : Store}

/-- In a store that works a commit whose manifest has its own free name is written exactly if each
artifact can be written and the manifest can be encoded. -/
theorem writeOut_ok_iff (hworks : s.Works) (hnodup : (add.map Prod.fst).Nodup)
    (haccepts : s.medium.Accepts m.name) (hfree : s.medium.node? m.name = none)
    (hother : m.name ∉ add.map Prod.fst) (sync : Bool) :
    (writeOut add m sync s).1 = .ok () ↔
      (∀ q ∈ add.map Prod.fst, s.medium.takes q = true) ∧ ∃ data, m.encode = .ok data := by
  constructor
  · intro hok
    obtain ⟨data, hdata, hwrote⟩ := exists_wrote_of_writeOut (Prod.ext hok rfl)
    refine ⟨fun q hq => (Store.Medium.takes_iff _ q).mpr ⟨?_, ?_⟩, data, hdata⟩
    · unfold writeOut at hok
      split at hok
      next => cases hok
      next hadd => exact Store.accepts_of_writeAll hadd q hq
    · refine (hwrote.free q ?_).1
      rw [List.map_append]
      exact List.mem_append_left _ hq
  · rintro ⟨htakes, data, hdata⟩
    obtain ⟨s1, hadd⟩ := Store.exists_writeAll hworks hnodup
      (fun q hq => ((Store.Medium.takes_iff _ q).mp (htakes q hq)).1)
      fun q hq => ((Store.Medium.takes_iff _ q).mp (htakes q hq)).2
    have hwrote := Store.wrote_writeAll hadd
    exact writeOut_of_free hadd hdata (hworks.congr hwrote.faults)
      ((hwrote.alike.place.accepts_iff _).mpr haccepts) ((hwrote.other _ hother).trans hfree) sync

end Engine

/-! ## A writer that is served -/

namespace Catalog

/-- The manifests of all commits, deleted or not, oldest first. -/
def manifests (c : Catalog) : List Manifest := c.commits.map Commit.manifest

variable {c d : Catalog}

theorem SameCommits.manifests (h : c.SameCommits d) : d.manifests = c.manifests := by
  refine List.ext_getElem (by simp [Catalog.manifests, h.length]) fun n hn hn' => ?_
  have hn : n < d.commits.length := by simpa [Catalog.manifests] using hn
  have hn' : n < c.commits.length := by simpa [Catalog.manifests] using hn'
  simpa [Catalog.manifests, commit, hn, hn'] using h.manifest n

theorem manifests_adopt (depot : Nat) (m : Manifest) (c : Catalog) :
    (c.adopt depot m).2.manifests = c.manifests ++ [m] :=
  List.map_append

/-- A catalog over a store in memory that never fails; no deletion has been queued. -/
structure InMemory (c : Catalog) : Prop where
  tallied : c.Tallied
  never : (c.store 0).faults = .never
  memory : ∃ table, (c.store 0).medium = .memory table
  idle : (c.tracker 0).queue = []

theorem InMemory.accepts_iff (h : c.InMemory) (q : String) :
    (c.store 0).medium.Accepts q ↔ Store.isValidName q = true := by
  obtain ⟨table, htable⟩ := h.memory
  rw [htable]
  exact Iff.rfl

theorem InMemory.node?_eq_none_iff (h : c.InMemory) (q : String) :
    (c.store 0).medium.node? q = none ↔ q ∉ (c.store 0).names := by
  obtain ⟨table, htable⟩ := h.memory
  rw [Store.mem_names_iff, htable, Store.Medium.node?_memory]
  cases table.get? q with
  | none => simp
  | some data => simp

/-- A store in memory stays one. -/
theorem memory_of_alike {m m' : Store.Medium} (h : m.Alike m') (hm : ∃ table, m = .memory table) :
    ∃ table, m' = .memory table := by
  obtain ⟨table, rfl⟩ := hm
  have hplace := h.place
  cases m' with
  | memory table' => exact ⟨table', rfl⟩
  | directory path dir => exact hplace.elim

/-- Whatever is deleted goes, so that nothing is queued. -/
theorem InMemory.disposed {waiting names kept : List String} (h : c.InMemory)
    (hd : Disposed waiting names kept c d) : d.InMemory := by
  refine ⟨hd.tallied, hd.cleared.faults.trans h.never, memory_of_alike hd.cleared.alike h.memory,
    List.eq_nil_iff_forall_not_mem.mpr fun q hq => ?_⟩
  rcases hd.mem_queue.mp hq with hwaits | hkept
  · have hqueued := hd.waits q hwaits
    rw [h.idle] at hqueued
    cases hqueued
  · obtain ⟨table, htable⟩ := h.memory
    have hfixed := hd.cleared.fixed (hd.cleared.never h.never) q hkept
    rw [htable] at hfixed
    exact hfixed

theorem InMemory.prunes (h : c.InMemory) (hp : Prunes c d) : d.InMemory :=
  h.tallied.induct_prunes hp h fun hd _ _ hc => hc.disposed hd

/-- There is nothing to try again. -/
theorem InMemory.retried_eq (h : c.InMemory) : c.retried = c := by
  obtain ⟨s, hs⟩ := h.tallied.single.stores
  obtain ⟨t, ht⟩ := h.tallied.single.depots
  have hidle := h.idle
  unfold Catalog.retried
  rw [h.tallied.single.onDepot_eq, Tracker.retry_of_idle hidle]
  obtain ⟨stores, depots, commits⟩ := c
  cases hs
  cases ht
  rfl

theorem InMemory.write {entries : List (String × Bytes)} {s : Store} (h : c.InMemory)
    (hw : Wrote entries (c.store 0) s) : (c.setStoreOf 0 s).InMemory := by
  have hsingle := h.tallied.single
  refine ⟨h.tallied.setStoreOf s, ?_, ?_, ?_⟩
  · rw [hsingle.store_setStoreOf]
    exact hw.faults.trans h.never
  · rw [hsingle.store_setStoreOf]
    exact memory_of_alike hw.alike h.memory
  · rw [hsingle.queue_setStoreOf]
    exact h.idle

theorem InMemory.adopt (h : c.InMemory) (m : Manifest) : (c.adopt 0 m).2.InMemory := by
  have hsingle := h.tallied.single
  have hstores : (c.adopt 0 m).2.store 0 = c.store 0 := by
    unfold store
    rw [hsingle.stores_adopt]
  refine ⟨h.tallied.adopt fun q _ hqueued => ?_, ?_, ?_, ?_⟩
  · rw [h.idle] at hqueued
    cases hqueued
  · rw [hstores]
    exact h.never
  · rw [hstores]
    exact h.memory
  · rw [hsingle.adopt_eq]
    exact (Tracker.queue_incref _ _).trans h.idle

end Catalog

/-- The timestamp of the last of some manifests. -/
def timeAfter (ms : List Manifest) : Timestamp := (ms.getLast?.map Manifest.timestamp).getD 0

namespace Writer

variable {w w1 : Writer} {c d : Catalog} {m : Manifest} {e e1 : Engine} {changes : Changes}
  {data : Bytes} {s : Store} {err : Error} {v : Version} {g : Generation}

/-- A writer over a store in memory that never fails: it goes on from the commit made last, and
finds the names of the manifests to come free. -/
structure Serving (w : Writer) (c : Catalog) : Prop where
  continues : w.Continues c
  inMemory : c.InMemory
  /-- Every listed name fits into a manifest. -/
  short : ∀ n, n < c.commits.length → ∀ q ∈ (c.commit n).manifest.files,
    q.utf8ByteSize < UInt16.size
  numbers : Engine.Succeeds c.manifests w.nextVersion w.nextGeneration
  time : w.lastTimestamp = timeAfter c.manifests
  free : ∀ g, w.nextGeneration.number ≤ g.number →
    (c.store 0).medium.node? (Manifest.nameOf g) = none

/-- Deleted commits may leave the history. -/
theorem Serving.prune (h : w.Serving c) :
    Serving { w with history := c.undeleted w.history } c :=
  ⟨h.continues.prune, h.inMemory, h.short, h.numbers, h.time, h.free⟩

theorem Serving.prunes (h : w.Serving c) (hp : c.Prunes d) : w.Serving d := by
  have hsame := hp.sameCommits
  refine ⟨h.continues.prunes hp, h.inMemory.prunes hp, fun n hn => ?_, ?_, ?_, ?_⟩
  · rw [hsame.manifest]
    exact h.short n (hsame.length ▸ hn)
  · rw [hsame.manifests]
    exact h.numbers
  · rw [hsame.manifests]
    exact h.time
  · -- deleting puts nothing in the way
    exact h.inMemory.tallied.induct_prunes hp (P := fun d => ∀ g,
      w.nextGeneration.number ≤ g.number → (d.store 0).medium.node? (Manifest.nameOf g) = none)
      h.free fun hd _ _ hfree g hg => hd.free (hfree g hg)

/-- A commit that is turned down has written no manifest. -/
theorem Serving.rejected (h : w.Serving e.catalog) (hstage : e.stage w changes = (.error err, e1)) :
    ∃ w', e1.writer = some w' ∧ w'.Serving e1.catalog := by
  have hsingle := h.inMemory.tallied.single
  obtain ⟨s, rfl, hwritten⟩ :=
    Engine.exists_wrote_of_stage_error hsingle h.continues.depot hstage
  rw [h.inMemory.retried_eq] at hwritten ⊢
  have hworks := Store.not_refusesSync_of_never h.inMemory.never
  obtain ⟨-, written, hwrote, hplain⟩ := hwritten.resolve_right fun hand => hworks hand.2.1
  have hserving : w.Serving (e.catalog.setStoreOf 0 s) := by
    refine ⟨h.continues.congr rfl, h.inMemory.write hwrote, h.short, h.numbers, h.time,
      fun g hg => ?_⟩
    have hnot : Manifest.nameOf g ∉ written.map Prod.fst := by
      intro hmem
      have hreserved := hplain _ hmem
      rw [Manifest.isReserved_nameOf] at hreserved
      cases hreserved
    rw [hsingle.store_setStoreOf, hwrote.other _ hnot]
    exact h.free g hg
  exact ⟨_, rfl, hserving.prune⟩

/-- A commit that has been written joins, and the numbers move on. -/
theorem Serving.join (h : w.Serving c) (hs : Engine.Stages w changes c w1 m data s)
    (hv : w.nextVersion.next? = some v) (hg : w.nextGeneration.next? = some g) :
    Serving { w1 with
      history := w1.history ++ [(c.retried.setStoreOf 0 s).commits.length]
      nextVersion := v
      nextGeneration := g
      lastTimestamp := m.timestamp } ((c.retried.setStoreOf 0 s).adopt 0 m).2 := by
  have hsingle := h.inMemory.tallied.single
  have hwrote := hs.wrote
  rw [h.inMemory.retried_eq] at hwrote
  have hmanifests : ((c.retried.setStoreOf 0 s).adopt 0 m).2.manifests = c.manifests ++ [m] := by
    rw [Catalog.manifests_adopt, h.inMemory.retried_eq]
    rfl
  refine ⟨hs.continues hsingle h.continues hv, ?_, fun n hn => ?_, ?_, ?_, fun g' hle => ?_⟩
  · rw [h.inMemory.retried_eq]
    exact (h.inMemory.write hwrote).adopt m
  · rw [Catalog.length_adopt, h.inMemory.retried_eq] at hn
    rw [h.inMemory.retried_eq]
    rcases Nat.lt_succ_iff_lt_or_eq.mp hn with hn | rfl
    · rw [Catalog.commit_adopt_of_lt hn]
      exact h.short n hn
    · rw [Catalog.commit_adopt_self]
      exact (Manifest.encode_eq_ok_iff.mp hs.encoded).names
  · rw [hmanifests]
    unfold Engine.Succeeds
    rw [List.getLast?_concat]
    exact ⟨hs.numbers.1 ▸ hv, hs.numbers.2 ▸ hg⟩
  · rw [hmanifests]
    unfold timeAfter
    rw [List.getLast?_concat]
    rfl
  · obtain ⟨hlater, hnot⟩ := hs.not_mem_of_later hg hle
    rw [hsingle.retried.store_written, hs.wrote.other _ hnot, h.inMemory.retried_eq]
    exact h.free g' hlater

/-- A commit whose numbers can be followed is served, whether it is made or not. -/
theorem Serving.commit (h : w.Serving e.catalog) (hv : w.nextVersion.next? = some v)
    (hg : w.nextGeneration.next? = some g) (changes : Changes) :
    ∃ w', (e.commitWith w changes).2.writer = some w' ∧
      w'.Serving (e.commitWith w changes).2.catalog :=
  Engine.commitWith_induct h.inMemory.tallied.single h.continues.depot hv hg
    (fun _ _ hstage => h.rejected hstage) (fun _ _ _ _ hs => h.join hs hv hg)
    fun _ _ _ hprunes hserving => (hserving.prunes hprunes).prune

end Writer

/-! ## The states of a writer -/

namespace Engine

variable {e e' e1 : Engine} {s s' : Store} {ms : List Manifest} {sync guarded : Bool}
  {w : Writer} {c : Catalog} {d : Decider} {changes : Changes} {id : Nat} {reclaimOnRelease : Bool}

/-- The states of a writer over a store: it has opened, it has tried to make commits, with whatever
policy, while its numbers could be followed, and in between whoever holds commits has deleted some
of them. -/
inductive Serves (s : Store) : Engine → Prop where
  | opened {id : Nat} {reclaimOnRelease guarded sync : Bool} {d : Decider} {e : Engine}
    (hopen : (fresh id reclaimOnRelease guarded d s).openWriter 0 sync = (.ok (), e)) : Serves s e
  | commit {e : Engine} (d : Decider) (changes : Changes) : Serves s e →
    e.Unhindered (.commit d changes) → Serves s (e.act (.commit d changes))
  | others {e : Engine} (k : Keeper) : Serves s e → e.catalog.Prunes k.catalog →
    Serves s { e with keeper := k }

/-- The numbers and the time of a writer that opens are those after the last manifest. -/
theorem succeeds_of_after {depot : Nat} {history : List Nat}
    (h : Writer.after depot history sync ms = some w) :
    Succeeds ms w.nextVersion w.nextGeneration ∧ w.lastTimestamp = timeAfter ms := by
  unfold Writer.after at h
  unfold Succeeds timeAfter
  cases hlast : ms.getLast? with
  | none =>
    rw [hlast] at h
    obtain rfl := Option.some.inj h
    exact ⟨⟨rfl, rfl⟩, rfl⟩
  | some m =>
    rw [hlast] at h
    dsimp only at h ⊢
    split at h
    next version generation hversion hgeneration =>
      obtain rfl := Option.some.inj h
      exact ⟨⟨hversion, hgeneration⟩, rfl⟩
    next => cases h

theorem Swept.manifests (h : Swept s ms sync w c s') : (c.setStoreOf 0 s').manifests = ms := by
  unfold Catalog.manifests
  rw [h.commits, List.map_map]
  exact List.map_id ms

theorem Swept.serving (h : Swept s ms sync w c s') (hms : s.readCommits = .ok ms)
    (hmemory : ∃ table, s.medium = .memory table) (hnever : s.faults = .never) :
    w.Serving (c.setStoreOf 0 s') := by
  have hsingle := h.recounts.tallied.single
  obtain ⟨hsucceeds, htime⟩ := succeeds_of_after h.after
  refine ⟨h.continues hms, ⟨h.recounts.tallied.setStoreOf s', ?_, ?_, ?_⟩, h.short hms, ?_, ?_,
    h.free hms fun g => ?_⟩
  · rw [hsingle.store_setStoreOf]
    exact h.cleared.faults.trans hnever
  · rw [hsingle.store_setStoreOf]
    exact Catalog.memory_of_alike h.cleared.alike hmemory
  · rw [hsingle.queue_setStoreOf]
    exact h.recounts.queue
  · rw [h.manifests]
    exact hsucceeds
  · rw [h.manifests]
    exact htime
  · obtain ⟨table, htable⟩ := hmemory
    rw [htable, Store.Medium.node?_memory]
    cases table.get? (Manifest.nameOf g) with
    | none => exact Or.inl rfl
    | some data => exact Or.inr ⟨data, rfl⟩

/-- In every state there is a writer that finds what it needs. -/
theorem Serves.serving (h : Serves s e) (hmemory : ∃ table, s.medium = .memory table)
    (hnever : s.faults = .never) : ∃ w, e.writer = some w ∧ w.Serving e.catalog := by
  induction h with
  | @opened id reclaimOnRelease guarded sync d e hopen =>
    obtain ⟨w, e1, hload, hpresented⟩ := load_of_openWriter hopen
    obtain ⟨ms, hms⟩ : ∃ ms, s.readCommits = .ok ms := readCommits_of_load rfl hload
    obtain ⟨c, s', hswept, rfl⟩ := swept_load rfl hms hload
    have hprunes := presentHistory_prunes w ((fresh id reclaimOnRelease guarded d
      s).dropWriter.setCatalog (c.setStoreOf 0 s'))
    rw [hpresented] at hprunes
    exact ⟨_, writer_of_presentHistory hpresented,
      ((hswept.serving hms hmemory hnever).prunes hprunes).prune⟩
  | @commit e d changes _ hnext ih =>
    obtain ⟨w, hw, hserving⟩ := ih
    obtain ⟨hversion, hgeneration⟩ := hnext w hw
    obtain ⟨v, hv⟩ := Option.ne_none_iff_exists'.mp hversion
    obtain ⟨g, hg⟩ := Option.ne_none_iff_exists'.mp hgeneration
    rw [(act_commit_of_some d changes hw).2]
    exact hserving.commit (e := { e with decider := d }) hv hg changes
  | others k _ hprunes ih =>
    obtain ⟨w, hw, hserving⟩ := ih
    exact ⟨w, hw, hserving.prunes hprunes⟩

/-! ## Main statement -/

/-- An artifact under the name of a generation that is read as a manifest. -/
def ReadsAs (s : Store) (m : Manifest) : Prop :=
  ∃ data, s.read (Manifest.nameOf m.generation) = .ok data ∧ Manifest.decode data = .ok m

/-- A commit is made: it is the next one, and its manifest is the one that the changes ask for. -/
structure Makes (d : Decider) (changes : Changes) (e e' : Engine) (m : Manifest) : Prop where
  joins : e'.catalog.manifests = e.catalog.manifests ++ [m]
  files : m.files.toFinset = changes.resulting (baseFiles e.commits e.catalog)
  /-- The names ascend in the order of their bytes, so that none is repeated. -/
  ascending : m.files.Pairwise fun q q' => Bytes.ofText q < Bytes.ofText q'
  /-- Version and generation follow those of the commit made or found last. -/
  numbers : Succeeds e.catalog.manifests m.version m.generation
  time : m.timestamp = max changes.timestamp (timeAfter e.catalog.manifests)
  /-- When the policy is called the manifest is in the store. -/
  written : ∃ w w1 e1, e.writer = some w ∧
    { e with decider := d }.stage w changes = (.ok (w1, m), e1) ∧ ReadsAs (e1.catalog.store 0) m
  /-- Afterwards it is there unless the policy has deleted the commit. -/
  stays : e'.catalog.isDeleted e.catalog.commits.length = false → ReadsAs (e'.catalog.store 0) m

/-- The manifest of a commit that applies changes can be encoded exactly if the added names fit and
the files are not too many. -/
theorem exists_encode_iff (h : w.Serving c) {files : List String}
    (hfiles : changes.apply (baseFiles (c.undeleted w.history) c) = .ok files) :
    (∃ data, (nextManifest w changes.timestamp files).encode = .ok data) ↔
      (∀ q ∈ changes.add.map Prod.fst, q.utf8ByteSize ≤ 65535) ∧
        (changes.resulting (baseFiles (c.undeleted w.history) c)).card ≤ 4294967295 := by
  rw [Changes.card_resulting hfiles]
  constructor
  · rintro ⟨data, hdata⟩
    have hlaid := Manifest.encode_eq_ok_iff.mp hdata
    exact ⟨fun q hq => Nat.le_of_lt_succ (hlaid.names q (Changes.mem_of_added hfiles hq)),
      Nat.le_of_lt_succ hlaid.count⟩
  · rintro ⟨hshort, hfew⟩
    refine ⟨_, Manifest.encode_eq_ok_iff.mpr
      ⟨Nat.le_refl _, Nat.lt_succ_of_le hfew, fun q hq => ?_, rfl⟩⟩
    rcases Changes.mem_of_apply hfiles hq with hold | hadded
    · exact h.continues.short_baseFiles h.short q hold
    · exact Nat.lt_succ_of_le (hshort q hadded)

/-- A commit is written exactly if its change set is acceptable. -/
theorem stage_ok_iff (h : w.Serving e.catalog) (changes : Changes) :
    (∃ p, (e.stage w changes).1 = .ok p) ↔
      changes.Acceptable (baseFiles (e.catalog.undeleted w.history) e.catalog)
        (e.catalog.store 0) := by
  have hresult := stage_result h.inMemory.tallied.single h.continues.depot changes
  rw [h.inMemory.retried_eq] at hresult
  -- what remains once the changes are applied
  have hwritten : ∀ files,
      changes.apply (baseFiles (e.catalog.undeleted w.history) e.catalog) = .ok files →
        ((writeOut changes.add (nextManifest w changes.timestamp files) w.syncOnCommit
          (e.catalog.store 0)).1 = .ok () ↔
            (∀ q ∈ changes.add.map Prod.fst, (e.catalog.store 0).medium.takes q = true) ∧
              ∃ data, (nextManifest w changes.timestamp files).encode = .ok data) := by
    intro files hfiles
    have happlicable := Changes.applicable_of_apply hfiles
    refine writeOut_ok_iff (Store.works_of_never h.inMemory.never) happlicable.addedOnce
      ((h.inMemory.accepts_iff _).mpr (Manifest.isValidName_nameOf _))
      (h.free _ (UInt64.le_refl _)) (fun hmem => ?_) _
    have hplain := happlicable.plain _ hmem
    rw [show (nextManifest w changes.timestamp files).name = Manifest.nameOf w.nextGeneration from
      rfl, Manifest.isReserved_nameOf] at hplain
    cases hplain
  have htakes : ∀ q, (e.catalog.store 0).medium.takes q = true ↔
      Store.isValidName q = true ∧ q ∉ (e.catalog.store 0).names := fun q => by
    rw [Store.Medium.takes_iff, h.inMemory.accepts_iff, h.inMemory.node?_eq_none_iff]
  constructor
  · rintro ⟨p, hp⟩
    rw [hresult] at hp
    split at hp
    next => cases hp
    next files hfiles =>
      split at hp
      next => cases hp
      next hok =>
        obtain ⟨hall, hencode⟩ := (hwritten files hfiles).mp hok
        obtain ⟨hshort, hfew⟩ := (exists_encode_iff h hfiles).mp hencode
        exact
          { toApplicable := Changes.applicable_of_apply hfiles
            valid := fun q hq => ((htakes q).mp (hall q hq)).1
            short := hshort
            absent := fun q hq => ((htakes q).mp (hall q hq)).2
            few := hfew }
  · intro ha
    obtain ⟨files, hfiles⟩ := (Changes.exists_apply_iff _ _).mpr ha.toApplicable
    have hok := (hwritten files hfiles).mpr
      ⟨fun q hq => (htakes q).mpr ⟨ha.valid q hq, ha.absent q hq⟩,
        (exists_encode_iff h hfiles).mpr ⟨ha.short, ha.few⟩⟩
    rw [hresult, hfiles]
    dsimp only
    rw [hok]
    exact ⟨_, rfl⟩

theorem readsAs_of_node {m : Manifest} {data : Bytes} (hc : c.InMemory)
    (hdata : m.encode = .ok data)
    (hnode : (c.store 0).medium.node? m.name = some (.file data)) : ReadsAs (c.store 0) m := by
  obtain ⟨table, htable⟩ := hc.memory
  refine ⟨data, ?_, Manifest.decode_of_encode hdata⟩
  unfold Store.read Store.fault?
  rw [hc.never]
  refine Store.Medium.read_of_node hnode ?_
  rw [htable]
  exact not_false

/-- What a commit is that has been written. -/
theorem makes_of_stage (h : w.Serving e.catalog) (hw : e.writer = some w) {w1 : Writer}
    {m : Manifest} (hstage : { e with decider := d }.stage w changes = (.ok (w1, m), e1)) :
    Makes d changes e (e.act (.commit d changes)) m := by
  have hsingle := h.inMemory.tallied.single
  obtain ⟨data, s, hs, he1⟩ :=
    stages_of_stage (e := { e with decider := d }) hsingle h.continues.depot hstage
  have hwrote := hs.wrote
  have hcatalog : e1.catalog = e.catalog.retried.setStoreOf 0 s := by
    rw [he1]
    rfl
  obtain ⟨files, hfiles, hm⟩ := hs.manifest
  rw [hs.writer] at hfiles hm
  dsimp only at hfiles
  rw [show ({ e with decider := d } : Engine).catalog = e.catalog from rfl,
    h.inMemory.retried_eq] at hwrote hfiles
  rw [h.inMemory.retried_eq] at hcatalog
  have hwritten : e1.catalog.InMemory := hcatalog ▸ h.inMemory.write hwrote
  have hnode : (e1.catalog.store 0).medium.node? m.name = some (.file data) := by
    rw [hcatalog, hsingle.store_setStoreOf]
    exact hwrote.there (m.name, data) (List.mem_append_right _ (List.mem_singleton.mpr rfl))
  have hlength : e1.catalog.commits.length = e.catalog.commits.length := by
    rw [hcatalog]
    rfl
  -- once the commit has joined, the policy can only delete commits
  have hprunes := register_prunes (e := e1) (m := m) (hs.depot.trans h.continues.depot)
  rw [(act_commit_of_some d changes hw).2, commitWith_of_ok hstage]
  have hsame := hprunes.sameCommits
  refine
    { joins := ?_
      files := ?_
      ascending := ?_
      numbers := ?_
      time := ?_
      written := ⟨w, w1, e1, hw, hstage, readsAs_of_node hwritten hs.encoded hnode⟩
      stays := fun hkept => ?_ }
  · rw [hsame.manifests, Catalog.manifests_adopt, hcatalog]
    rfl
  · rw [commits_of_writer hw, ← Changes.toFinset_apply hfiles, hm]
    rfl
  · rw [hm]
    exact (Changes.pairwise_of_apply hfiles).imp Bytes.ofText_lt_ofText
  · rw [hs.numbers.1, hs.numbers.2]
    exact h.numbers
  · rw [hm, ← h.time]
    rfl
  · -- the policy has left the manifest alone, with all that it lists
    have hadopted := hwritten.adopt m
    rw [← hlength] at hkept
    refine readsAs_of_node (hadopted.prunes hprunes) hs.encoded ?_
    rw [node_name_of_register hadopted.tallied (hs.depot.trans h.continues.depot) hkept,
      Catalog.store_congr (hwritten.tallied.single.stores_adopt m) 0]
    exact hnode

/-- A commit over a store in memory that never fails reaches the policy exactly if its change set is
acceptable, and then makes the commit that the change set asks for. -/
theorem committed_iff_acceptable (h : Serves s e) (hmemory : ∃ table, s.medium = .memory table)
    (hnever : s.faults = .never) (hnext : e.Unhindered (.commit d changes)) :
    (e.shows (.commit d changes) ≠ [] ↔
        changes.Acceptable (baseFiles e.commits e.catalog) (e.catalog.retried.store 0)) ∧
      (e.shows (.commit d changes) ≠ [] →
        ∃ m, Makes d changes e (e.act (.commit d changes)) m) := by
  obtain ⟨w, hw, hserving⟩ := h.serving hmemory hnever
  have hsingle := hserving.inMemory.tallied.single
  have hstaged : e.shows (.commit d changes) ≠ [] ↔
      ∃ p, ({ e with decider := d }.stage w changes).1 = .ok p := by
    constructor
    · intro hne
      rw [(act_commit_of_some d changes hw).1] at hne
      unfold committed at hne
      split at hne
      next => exact absurd rfl hne
      next hstage => exact ⟨_, congrArg Prod.fst hstage⟩
    · rintro ⟨⟨w1, m⟩, hok⟩
      rw [(decided_of_stage hw hsingle hserving.continues.depot (Prod.ext hok rfl) hnext).1]
      exact List.append_ne_nil_of_right_ne_nil _ (List.cons_ne_nil _ _)
  refine ⟨?_, fun hne => ?_⟩
  · rw [hstaged, stage_ok_iff (e := { e with decider := d }) hserving, commits_of_writer hw,
      hserving.inMemory.retried_eq]
    rfl
  · obtain ⟨⟨w1, m⟩, hok⟩ := hstaged.mp hne
    exact ⟨m, makes_of_stage hserving hw (Prod.ext hok rfl)⟩

/-- A writer that has made a commit of two files. -/
def firstMade : Engine :=
  opened.act (.commit (.stock .keepOnlyLast) ⟨[("b", [1]), ("a", [2])], [], 9⟩)

/-- The second commit takes the place of one file and of the first commit. -/
theorem committed_iff_acceptable_second :
    firstMade.shows (.commit (.stock .keepOnlyLast) ⟨[("c", [3])], ["a"], 5⟩) = [0, 1] ∧
      Changes.Acceptable ⟨[("c", [3])], ["a"], 5⟩ (baseFiles firstMade.commits firstMade.catalog)
        (firstMade.catalog.retried.store 0) ∧
        ∃ m, Makes (.stock .keepOnlyLast) ⟨[("c", [3])], ["a"], 5⟩ firstMade
          (firstMade.act (.commit (.stock .keepOnlyLast) ⟨[("c", [3])], ["a"], 5⟩)) m := by
  have hopened : Serves .empty opened :=
    .opened (show (fresh 0 true true (.stock .keepOnlyLast) .empty).openWriter 0 true =
      (.ok (), opened) from Prod.ext (by decide +kernel) rfl)
  have hwriter : opened.writer = some ⟨0, [], ⟨1⟩, ⟨1⟩, 0, true⟩ := by decide +kernel
  have hwriter' : firstMade.writer = some ⟨0, [0], ⟨2⟩, ⟨2⟩, 9, true⟩ := by decide +kernel
  have hmade : Serves .empty firstMade := .commit _ _ hopened fun w hw => by
    obtain rfl := Option.some.inj (hwriter.symm.trans hw)
    decide +kernel
  have hshows : firstMade.shows (.commit (.stock .keepOnlyLast) ⟨[("c", [3])], ["a"], 5⟩) =
      [0, 1] := by decide +kernel
  have hnext : firstMade.Unhindered (.commit (.stock .keepOnlyLast) ⟨[("c", [3])], ["a"], 5⟩) :=
    fun w hw => by
      obtain rfl := Option.some.inj (hwriter'.symm.trans hw)
      decide +kernel
  obtain ⟨hiff, hmakes⟩ := committed_iff_acceptable hmade ⟨Table.empty, rfl⟩ rfl hnext
  have hne : firstMade.shows (.commit (.stock .keepOnlyLast) ⟨[("c", [3])], ["a"], 5⟩) ≠ [] := by
    rw [hshows]
    exact List.cons_ne_nil _ _
  exact ⟨hshows, hiff.mp hne, hmakes hne⟩

end Engine

end SnapshotRetention
