import SnapshotRetention.Proofs.Writer.Vacant

/-!
# What opening a writer cleans up

Opening a writer over a history ends in one of three ways if the policy is bare (`Engine.Ends`): a
stray cannot be deleted, the numbers of the newest manifest cannot be followed, or the history is
shown to the policy, which may fail to delete something in turn.

However it ends, what the policy leaves of the history is still there, and nothing has come
(`Ends.erodes`). If no deletion fails, that is all that is there (`Ends.cleansed`); and none fails in
a store that refuses nothing, unless there is something to clean up that cannot be deleted
(`Ends.unstopped_of_never`).
-/

namespace SnapshotRetention

open Catalog (Tallied Prunes Recounts)
open Store (Erodes Cleared)

variable {p : Primary} {s s' : Store} {f : Engine} {ms : List Manifest} {w : Writer}
  {c : Catalog} {sync : Bool} {result : Except Error Unit} {q : String}

/-! ## Sweeping -/

/-- Sweeping leaves what the manifests list. -/
theorem Catalog.Recounts.erodes_sweep {ns : List Nat}
    (h : Recounts ms ((Catalog.ofStore s).addDepot 0) ns c) :
    Erodes (ms.flatMap Manifest.fileNames) s (s.sweep (c.tracker 0).isReferenced).2 := by
  refine Store.erodes_sweep (fun q hq => ?_) s
  rw [← h.referenced_eq] at hq
  have hpos : (c.tracker 0).refCount q ≠ 0 :=
    fun hzero => (h.tallied.refCount_eq_zero_iff q).mp hzero hq
  exact decide_eq_true (Nat.pos_of_ne_zero hpos)

/-- What is not listed is no file any more once all strays are swept. -/
theorem Catalog.Tallied.ne_file_of_cleared (h : c.Tallied)
    (hcleared : Cleared (s.names.filter fun q => !(c.tracker 0).isReferenced q) [] s s')
    (hq : q ∉ c.referenced) (data : Bytes) : s'.medium.node? q ≠ some (.file data) := by
  rw [hcleared.node]
  split
  next => nofun
  next hnot => exact fun hfile => hnot ⟨h.mem_stray.mpr ⟨⟨data, hfile⟩, hq⟩, List.not_mem_nil⟩

/-- What is swept can be deleted. -/
theorem Catalog.Tallied.not_fixed_of_cleared (h : c.Tallied)
    (hcleared : Cleared (s.names.filter fun q => !(c.tracker 0).isReferenced q) [] s s')
    (hq : q ∉ c.referenced) (hname : q ∈ s.names) : ¬s.medium.Fixed q :=
  hcleared.cleared q (h.mem_stray.mpr ⟨(Store.mem_names_iff s q).mp hname, hq⟩) List.not_mem_nil

namespace Engine

/-- No deletion has failed: what stops a writer that opens over a readable store whose other accesses
are not refused is a deletion. -/
def Unstopped (result : Except Error Unit) : Prop := ∀ cause, result ≠ .error (.store cause)

/-- How opening a writer ends for a bare policy. -/
inductive Ends (p : Primary) (s : Store) (ms : List Manifest) (sync : Bool) (f : Engine) :
    Except Error Unit → Prop
  /-- A stray could not be deleted. -/
  | unswept (c : Catalog) (cause : StoreError)
      (recounts : Recounts ms ((Catalog.ofStore s).addDepot 0) (List.range ms.length) c)
      (failed : (s.sweep (c.tracker 0).isReferenced).1 = .error cause)
      (catalog : f.catalog = c.setStoreOf 0 (s.sweep (c.tracker 0).isReferenced).2) :
      Ends p s ms sync f (.error (.store cause))
  /-- There are no numbers after the last ones. -/
  | stuck (c : Catalog)
      (recounts : Recounts ms ((Catalog.ofStore s).addDepot 0) (List.range ms.length) c)
      (swept : (s.sweep (c.tracker 0).isReferenced).1 = .ok ())
      (last : Writer.canFollow ms = false)
      (catalog : f.catalog = c.setStoreOf 0 (s.sweep (c.tracker 0).isReferenced).2)
      (writer : f.writer = none) :
      Ends p s ms sync f (.error .counterOverflow)
  /-- The history was shown to the policy. -/
  | shown (w : Writer) (c : Catalog) (s' : Store) (result : Except Error Unit)
      (swept : Swept s ms sync w c s')
      (carried : carryOutAllBare (List.range ms.length) (p.requests (ms.map Manifest.shown))
        (c.setStoreOf 0 s') = (result, f.catalog))
      (writer : result = .ok () →
        f.writer = some { w with history := f.catalog.undeleted (List.range ms.length) }) :
      Ends p s ms sync f result

theorem carryOutAllBare_nil {rs : List Request} (hrs : ∀ r ∈ rs, ∃ i, r = .delete i) (c : Catalog) :
    carryOutAllBare [] rs c = (.ok (), c) := by
  induction rs with
  | nil => rfl
  | cons r rest ih =>
    obtain ⟨i, rfl⟩ := hrs r List.mem_cons_self
    rw [carryOutAllBare_cons_of_none rfl]
    exact ih fun r hr => hrs r (List.mem_cons_of_mem _ hr)

/-- Showing a history that may be empty. -/
theorem Swept.ends_presentHistory (h : Swept s ms sync w c s') (hms : s.readCommits = .ok ms) :
    Ends p s ms sync
      (((bare p s).dropWriter.setCatalog (c.setStoreOf 0 s')).presentHistory w).2
      (((bare p s).dropWriter.setCatalog (c.setStoreOf 0 s')).presentHistory w).1 := by
  have hhistory : w.history = List.range ms.length :=
    (version_lt_after h.after (Store.readCommits_ok hms).1).2.1
  by_cases hnil : w.history = []
  · obtain rfl : ms = [] := List.length_eq_zero_iff.mp (List.range_eq_nil.mp (hhistory ▸ hnil))
    rw [presentHistory_of_nil hnil]
    refine .shown w c s' _ h (carryOutAllBare_nil (fun r hr => Primary.eq_delete_of_mem hr) _)
      fun _ => congrArg some ?_
    obtain ⟨depot, history⟩ := w
    obtain rfl : history = [] := hnil
    rfl
  · rw [presentHistory_of_ne_nil hnil, hhistory,
      decide_bare (b := c.setStoreOf 0 s') rfl rfl rfl h.shown_eq]
    obtain ⟨result, d, hcarried⟩ : ∃ result d, carryOutAllBare (List.range ms.length)
        (p.requests (ms.map Manifest.shown)) (c.setStoreOf 0 s') = (result, d) := ⟨_, _, rfl⟩
    rw [hcarried]
    cases result with
    | error err => exact .shown w c s' _ h hcarried nofun
    | ok _ => exact .shown w c s' _ h hcarried fun _ => rfl

/-- Opening a writer over a history that can be read. -/
theorem ends_openWriter (hms : s.readCommits = .ok ms) (sync : Bool) :
    Ends p s ms sync ((bare p s).openWriter 0 sync).2 ((bare p s).openWriter 0 sync).1 := by
  obtain ⟨c, -, hall, hload⟩ := load_eq (e := bare p s) rfl hms sync
  rw [openWriter_eq_load]
  obtain ⟨r, f, hl⟩ : ∃ r f, (bare p s).load 0 sync = (r, f) := ⟨_, _, rfl⟩
  cases r with
  | ok w =>
    obtain ⟨c, s', hswept, rfl⟩ := swept_load (e := bare p s) rfl hms hl
    rw [hl]
    exact hswept.ends_presentHistory hms
  | error err =>
    rw [hl]
    obtain ⟨herr, rfl⟩ := Prod.mk.inj (hl.symm.trans hload)
    split at herr
    next cause hcause =>
      obtain rfl := Except.error.inj herr
      exact .unswept c cause hall hcause rfl
    next hok =>
      split at herr
      next hnone =>
        obtain rfl := Except.error.inj herr
        refine .stuck c hall hok ?_ rfl rfl
        rw [← Writer.isSome_after 0 (List.range ms.length) sync, hnone]
        rfl
      next => cases herr

/-! ## What is left -/

theorem prunes_of_carried {d : Catalog} {ns : List Nat} {rs : List Request}
    (h : carryOutAllBare ns rs c = (result, d)) : Prunes c d := by
  have hprunes := carryOutAllBare_prunes ns rs c
  rw [h] at hprunes
  exact hprunes

theorem asks_range_iff {count n : Nat} {rs : List Request} :
    Asks (List.range count) rs n ↔ n < count ∧ Request.delete n ∈ rs := by
  constructor
  · rintro ⟨i, hi, hn⟩
    obtain ⟨hlt, heq⟩ := List.getElem?_eq_some_iff.mp hn
    obtain rfl : i = n := by simpa using heq
    exact ⟨by simpa using hlt, hi⟩
  · rintro ⟨hlt, hn⟩
    exact ⟨n, hn, List.getElem?_range hlt⟩

section
variable {d : Catalog} {i : Nat} (h : Swept s ms sync w c s')
include h

theorem Swept.canFollow : Writer.canFollow ms = true := by
  rw [← Writer.isSome_after 0 (List.range ms.length) sync, h.after]
  rfl

theorem Swept.erodes : Erodes (ms.flatMap Manifest.fileNames) s s' :=
  h.store ▸ h.recounts.erodes_sweep

theorem Swept.tallied : (c.setStoreOf 0 s').Tallied := h.recounts.tallied.setStoreOf s'

theorem Swept.range : ∀ i ∈ List.range ms.length, i < (c.setStoreOf 0 s').commits.length :=
  fun _ hi => h.length.symm ▸ List.mem_range.mp hi

section
variable (hcarried : carryOutAllBare (List.range ms.length) (p.requests (ms.map Manifest.shown))
  (c.setStoreOf 0 s') = (result, d))
include hcarried

theorem Swept.manifest_eq (hi : i < ms.length) : (d.commit i).manifest = ms[i] := by
  rw [(prunes_of_carried hcarried).sameCommits.manifest, h.commit_eq hi]

theorem Swept.asked_of_isDeleted (hi : i < ms.length) (hgone : d.isDeleted i = true) :
    Request.delete i ∈ p.requests (ms.map Manifest.shown) := by
  have hd : (carryOutAllBare (List.range ms.length) (p.requests (ms.map Manifest.shown))
      (c.setStoreOf 0 s')).2.isDeleted i = true := by
    rw [hcarried]
    exact hgone
  rcases asks_of_isDeleted (fun _ hr => Primary.eq_delete_of_mem hr) hd with hbefore | hasks
  · unfold Catalog.isDeleted at hbefore
    rw [h.commit_eq hi] at hbefore
    cases hbefore
  · exact (asks_range_iff.mp hasks).2

/-- What is not asked for stays listed. -/
theorem Swept.listed (hq : q ∈ p.keeps ms) : q ∈ d.referenced := by
  obtain ⟨i, hi, hnot, hname⟩ := Primary.exists_of_mem_keeps h.canFollow hq
  refine Catalog.mem_referenced (n := i) ?_ ?_ ?_
  · rw [(prunes_of_carried hcarried).sameCommits.length, h.length]
    exact hi
  · exact Bool.eq_false_iff.mpr fun hgone => hnot (h.asked_of_isDeleted hcarried hi hgone)
  · rw [h.manifest_eq hcarried hi]
    exact hname

end

section
variable (hcarried : carryOutAllBare (List.range ms.length) (p.requests (ms.map Manifest.shown))
  (c.setStoreOf 0 s') = (.ok (), d))
include hcarried

theorem Swept.sheds : Catalog.Sheds (c.setStoreOf 0 s') d :=
  (shed_of_ok h.tallied h.range (fun _ hr => Primary.eq_delete_of_mem hr) hcarried).1

/-- All that is asked for goes, and nothing else. -/
theorem Swept.isDeleted_eq (hi : i < ms.length) : d.isDeleted i =
    (p.requests (ms.map Manifest.shown)).contains (.delete i) := by
  refine Bool.eq_iff_iff.mpr ⟨fun hgone => ?_, fun hasked => ?_⟩
  · exact List.contains_iff_mem.mpr (h.asked_of_isDeleted hcarried hi hgone)
  · exact (shed_of_ok h.tallied h.range (fun r hr => Primary.eq_delete_of_mem hr) hcarried).2 i
      (asks_range_iff.mpr ⟨hi, List.contains_iff_mem.mp hasked⟩)

theorem Swept.undeleted_eq_remaining :
    (d.undeleted (List.range ms.length)).map (fun n => (d.commit n).manifest) = p.remaining ms := by
  unfold Catalog.undeleted Primary.remaining
  rw [List.filter_congr fun i hi => congrArg (!·) (h.isDeleted_eq hcarried (List.mem_range.mp hi))]
  refine List.map_congr_left fun i hi => ?_
  have hi : i < ms.length := List.mem_range.mp (List.mem_filter.mp hi).1
  rw [h.manifest_eq hcarried hi, List.getD_eq_getElem?_getD, List.getElem?_eq_getElem hi]
  rfl

/-- What is asked for is not listed any more. -/
theorem Swept.keeps_of_listed (hq : q ∈ d.referenced) : q ∈ p.keeps ms := by
  obtain ⟨i, hi, hkept, hname⟩ := Catalog.exists_of_mem_referenced hq
  have hi : i < ms.length := by
    rw [(prunes_of_carried hcarried).sameCommits.length, h.length] at hi
    exact hi
  rw [h.isDeleted_eq hcarried hi] at hkept
  rw [h.manifest_eq hcarried hi] at hname
  refine List.mem_flatMap.mpr ⟨ms[i], ?_, hname⟩
  unfold Primary.recovered
  rw [if_pos h.canFollow]
  refine Primary.mem_remaining_iff.mpr ⟨i, List.getElem?_eq_getElem hi, ?_⟩
  exact fun hasked => Bool.eq_false_iff.mp hkept (List.contains_iff_mem.mpr hasked)

end

end

/-- What the policy leaves of the history is still there, and nothing has come. -/
theorem Ends.erodes (h : Ends p s ms sync f result) :
    Erodes (p.keeps ms) s (f.catalog.store 0) := by
  cases h with
  | unswept c cause recounts failed catalog =>
    rw [catalog, recounts.tallied.single.store_setStoreOf]
    exact recounts.erodes_sweep.mono fun q hq => Primary.mem_of_mem_keeps hq
  | stuck c recounts swept last catalog writer =>
    rw [catalog, recounts.tallied.single.store_setStoreOf]
    exact recounts.erodes_sweep.mono fun q hq => Primary.mem_of_mem_keeps hq
  | shown w c s' result swept carried writer =>
    have hafter := swept.tallied.erodes (prunes_of_carried carried)
    rw [swept.recounts.tallied.single.store_setStoreOf] at hafter
    exact (swept.erodes.mono fun q hq => Primary.mem_of_mem_keeps hq).trans
      (hafter.mono fun q hq => swept.listed carried hq)

/-- All that is to be cleaned up can be deleted. -/
def Deletable (p : Primary) (s : Store) (ms : List Manifest) : Prop :=
  ∀ q, q ∈ ms.flatMap Manifest.fileNames ∨ q ∈ s.names → q ∉ p.keeps ms → ¬s.medium.Fixed q

/-- What opening a writer leaves if no deletion fails: nothing but what is to be kept. -/
structure Cleansed (p : Primary) (s : Store) (ms : List Manifest) (result : Except Error Unit)
    (f : Engine) : Prop where
  result : result = if Writer.canFollow ms then .ok () else .error .counterOverflow
  manifests : f.manifests = if Writer.canFollow ms then p.remaining ms else []
  gone : ∀ q, q ∉ p.keeps ms → ∀ data,
    (f.catalog.store 0).medium.node? q ≠ some (.file data)
  deletable : Deletable p s ms

theorem Swept.cleansed (h : Swept s ms sync w c s')
    (hcarried : carryOutAllBare (List.range ms.length) (p.requests (ms.map Manifest.shown))
      (c.setStoreOf 0 s') = (.ok (), f.catalog))
    (hwriter : f.writer = some { w with history := f.catalog.undeleted (List.range ms.length) }) :
    Cleansed p s ms (.ok ()) f := by
  have htallied := h.recounts.tallied
  have hstore := htallied.single.store_setStoreOf s'
  have hreferenced : (c.setStoreOf 0 s').referenced = c.referenced :=
    htallied.single.referenced_setStoreOf s'
  have hsheds := h.sheds hcarried
  have hunlisted : ∀ q, q ∉ p.keeps ms → q ∉ f.catalog.referenced :=
    fun q hnot hlisted => hnot (h.keeps_of_listed hcarried hlisted)
  refine ⟨by rw [h.canFollow]; rfl, ?_, fun q hq data hfile => ?_, fun q hq hnot => ?_⟩
  · rw [h.canFollow, manifests_of_writer hwriter]
    unfold Writer.manifests
    dsimp only
    rw [Catalog.undeleted_undeleted]
    exact h.undeleted_eq_remaining hcarried
  · by_cases hbefore : q ∈ c.referenced
    · cases (hsheds.gone q (hreferenced ▸ hbefore) (hunlisted q hq)).2.symm.trans hfile
    · have herodes := h.tallied.erodes hsheds.prunes
      rw [hstore] at herodes
      exact htallied.ne_file_of_cleared h.cleared hbefore data (herodes.node_of_some hfile)
  · rw [← h.referenced_eq] at hq
    by_cases hbefore : q ∈ c.referenced
    · have hfree := (hsheds.gone q (hreferenced ▸ hbefore) (hunlisted q hnot)).1
      rw [hstore, h.cleared.alike.fixed_iff] at hfree
      exact hfree
    · exact htallied.not_fixed_of_cleared h.cleared hbefore (hq.resolve_left hbefore)

theorem Ends.cleansed (h : Ends p s ms sync f result) (hok : Unstopped result) :
    Cleansed p s ms result f := by
  cases h with
  | unswept c cause recounts failed catalog => exact absurd rfl (hok cause)
  | stuck c recounts swept last catalog writer =>
    have htallied := recounts.tallied
    have hcleared := Store.cleared_sweep swept
    -- the history was not shown, so all of it is to be kept
    have hkeeps : p.keeps ms = c.referenced := by
      rw [recounts.referenced_eq]
      unfold Primary.keeps Primary.recovered
      rw [last]
      rfl
    refine ⟨by rw [last]; rfl, ?_, fun q hq => ?_, fun q hq hnot => ?_⟩
    · rw [last]
      unfold Engine.manifests commits
      rw [writer]
      rfl
    · rw [catalog, htallied.single.store_setStoreOf]
      exact htallied.ne_file_of_cleared hcleared (hkeeps ▸ hq)
    · rw [← recounts.referenced_eq, ← hkeeps] at hq
      exact htallied.not_fixed_of_cleared hcleared (hkeeps ▸ hnot) (hq.resolve_left hnot)
  | shown w c s' result swept carried writer =>
    cases result with
    | error err =>
      obtain ⟨cause, rfl⟩ := exists_of_carryOutAllBare_error swept.tallied swept.range
        (fun _ hr => Primary.eq_delete_of_mem hr) (congrArg Prod.fst carried)
      exact absurd rfl (hok cause)
    | ok _ => exact swept.cleansed carried (writer rfl)

/-- Where nothing is refused, nothing fails if all that is not to be kept can be deleted. -/
theorem Ends.unstopped_of_never (h : Ends p s ms sync f result) (hnever : s.faults = .never)
    (hdeletable : Deletable p s ms) : Unstopped result := by
  cases h with
  | unswept c cause recounts failed catalog =>
    have hok : (s.sweep (c.tracker 0).isReferenced).1 = .ok () := by
      refine Store.sweep_of_never hnever fun q hq hnot => ?_
      have hstray := recounts.tallied.mem_stray.mp
        (List.mem_filter.mpr ⟨hq, by rw [hnot]; rfl⟩)
      rw [recounts.referenced_eq] at hstray
      exact hdeletable q (Or.inr hq) fun hkeep => hstray.2 (Primary.mem_of_mem_keeps hkeep)
    cases hok.symm.trans failed
  | stuck c recounts swept last catalog writer => nofun
  | shown w c s' result swept carried writer =>
    have hstore : (c.setStoreOf 0 s').store 0 = s' :=
      swept.recounts.tallied.single.store_setStoreOf s'
    have hnever' : ((c.setStoreOf 0 s').store 0).faults = .never := by
      rw [hstore]
      exact swept.cleared.faults.trans hnever
    have hok : (carryOutAllBare (List.range ms.length) (p.requests (ms.map Manifest.shown))
        (c.setStoreOf 0 s')).1 = .ok () := by
      refine carryOutAllBare_of_never swept.tallied swept.range
        (fun _ hr => Primary.eq_delete_of_mem hr) hnever' fun q hq hf => ?_
      have hlisted : q ∈ ms.flatMap Manifest.fileNames := by
        rw [← swept.referenced_eq, ← swept.recounts.tallied.single.referenced_setStoreOf s']
        exact hq
      rw [hstore, swept.cleared.alike.fixed_iff] at hf
      have hkeep : q ∈ p.keeps ms :=
        Classical.byContradiction fun hnot => hdeletable q (Or.inl hlisted) hnot hf
      obtain ⟨i, hi, hnot, hname⟩ := Primary.exists_of_mem_keeps swept.canFollow hkeep
      refine ⟨i, swept.range i (List.mem_range.mpr hi), ?_, ?_, ?_⟩
      · exact fun hasks => hnot (asks_range_iff.mp hasks).2
      · unfold Catalog.isDeleted
        rw [swept.commit_eq hi]
      · rw [swept.commit_eq hi]
        exact hname
    rw [carried] at hok
    obtain rfl : result = .ok () := hok
    nofun

end Engine

end SnapshotRetention
