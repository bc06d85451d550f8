import SnapshotRetention.Proofs.Keeper.Counted

/-!
# Taking and giving back snapshots

`Keeper.Sound` says that a keeper knows all guards in use and counts all holds. Taking a snapshot
puts a handle into a slot for the hold it takes, and giving one back takes the hold of the handle
off again: every operation of a consumer keeps `Sound`, and a release answers whether the handle was
still unreleased (`Keeper.releaseHandle_answer`, `Keeper.releaseInBundle_answer`,
`Keeper.releaseBundle_answer`).
-/

namespace SnapshotRetention.Keeper

variable {k k' : Keeper} {pins : List Version}

/-- All guards in use are known, and the holds are counted. -/
structure Sound (pins : List Version) (k : Keeper) : Prop where
  issued : Issued k
  counted : Counted pins k.heldVersions k.holds k.stats

theorem Sound.new (id : Nat) (reclaimOnRelease : Bool) (catalog : Catalog) :
    Sound [] (.new id reclaimOnRelease catalog) := by
  refine ⟨⟨?_, ?_, ?_⟩, Counted.empty⟩
  · intro h hh
    exact absurd hh List.not_mem_nil
  · intro live hl
    cases hl
  · intro s hs
    exact absurd hs List.not_mem_nil

/-! ## Handles in other slots -/

/-- Handles may move, disappear and appear as long as their guards are known. -/
theorem Issued.regive (h : Issued k) (hcatalog : k'.catalog = k.catalog)
    (hserials : k'.serials = k.serials) (hlive : k'.live = k.live) (hmarked : k'.marked = k.marked)
    (hgiven : ∀ x ∈ k'.given, k.Knows x.guard) : Issued k' := by
  have hknows : ∀ {g}, k.Knows g → k'.Knows g := by
    intro g hg
    exact ⟨hserials ▸ hg.serial, hcatalog ▸ hg.commit⟩
  refine ⟨fun x hx => hknows (hgiven x hx), ?_, ?_⟩
  · intro live hl g hg
    exact hknows (h.live live (hlive ▸ hl) g hg)
  · intro s hs
    rw [hserials]
    exact h.marked s (hmarked ▸ hs)

theorem heldVersions_perm {hs : List Handle} (hp : k'.given.Perm hs)
    (hcatalog : k'.catalog = k.catalog) : k'.heldVersions.Perm (k.heldBy hs) := by
  have hv : k'.heldBy = k.heldBy := by
    funext xs
    unfold heldBy version
    rw [hcatalog]
  unfold heldVersions
  rw [hv]
  exact heldBy_perm hp k

/-! ## Taking snapshots -/

theorem Sound.hold (h : Sound pins k) {g : Guard} (hg : k.Knows g) : Sound pins (k.hold g).2 := by
  have hperm : (k.hold g).2.given.Perm (⟨g, false⟩ :: k.given) :=
    addHandle_perm ⟨g, false⟩ (k.acquire (k.version g))
  refine ⟨h.issued.regive rfl rfl rfl rfl ?_, ?_⟩
  · intro x hx
    rcases List.mem_cons.mp (hperm.mem_iff.mp hx) with rfl | hx
    · exact hg
    · exact h.issued.given x hx
  · have hheld := heldVersions_perm (k := k) hperm rfl
    rw [heldBy_cons_unreleased rfl] at hheld
    exact (h.counted.acquire (k.version g)).perm hheld.symm

/-- Holding all commits of a list changes the hold table and the statistics and nothing else. -/
theorem acquireAll_eq (guards : List Guard) (k : Keeper) :
    guards.foldl (fun k g => k.acquire (k.version g)) k =
      { k with
        holds := (guards.foldl (fun k g => k.acquire (k.version g)) k).holds
        stats := (guards.foldl (fun k g => k.acquire (k.version g)) k).stats } := by
  induction guards generalizing k with
  | nil => rfl
  | cons g guards ih => exact ih _

theorem acquireAll_frame (guards : List Guard) (k : Keeper) :
    Frame k (guards.foldl (fun k g => k.acquire (k.version g)) k) := by
  rw [acquireAll_eq]
  exact ⟨rfl, rfl, rfl, rfl, rfl, rfl, .refl _⟩

theorem acquireAll_marked (guards : List Guard) (k : Keeper) :
    (guards.foldl (fun k g => k.acquire (k.version g)) k).marked = k.marked := by
  rw [acquireAll_eq]

theorem acquireAll_catalog (guards : List Guard) (k : Keeper) :
    (guards.foldl (fun k g => k.acquire (k.version g)) k).catalog = k.catalog := by
  rw [acquireAll_eq]

theorem Counted.acquireAll (guards : List Guard) {held : List Version}
    (h : Counted pins held k.holds k.stats) :
    Counted pins (guards.map k.version ++ held)
      (guards.foldl (fun k g => k.acquire (k.version g)) k).holds
      (guards.foldl (fun k g => k.acquire (k.version g)) k).stats := by
  induction guards generalizing k held with
  | nil => exact h
  | cons g guards ih =>
    have hrest := ih (h.acquire (k.version g))
    exact hrest.perm List.perm_middle

theorem Sound.snapshot (h : Sound pins k) : Sound pins k.snapshot.2 := by
  unfold Keeper.snapshot
  split
  next => exact h
  next live hlive =>
    have hf := acquireAll_frame live.guards k
    have hcat := acquireAll_catalog live.guards k
    have hperm := addBundle_perm ⟨live.generation, live.guards.map fun g => ⟨g, false⟩⟩
      (live.guards.foldl (fun k g => k.acquire (k.version g)) k)
    rw [hf.given] at hperm
    refine ⟨h.issued.regive hcat hf.serials hf.live (acquireAll_marked live.guards k)
      ?_, ?_⟩
    · intro x hx
      rcases List.mem_append.mp (hperm.mem_iff.mp hx) with hx | hx
      · obtain ⟨g, hg, rfl⟩ := List.mem_map.mp hx
        exact h.issued.live live hlive g hg
      · exact h.issued.given x hx
    · have hheld := heldVersions_perm (k := k) hperm hcat
      have hnew : k.heldBy (live.guards.map fun g => ⟨g, false⟩) = live.guards.map k.version := by
        unfold heldBy
        rw [List.filter_eq_self.mpr (by simp), List.map_map]
        rfl
      rw [heldBy_append, hnew] at hheld
      exact (h.counted.acquireAll live.guards).perm hheld.symm

theorem Sound.snapshotCurrent (h : Sound pins k) : Sound pins k.snapshotCurrent.2 := by
  unfold Keeper.snapshotCurrent
  split
  next => exact h
  next g hg =>
    obtain ⟨live, hlive, hlast⟩ := Option.bind_eq_some_iff.mp hg
    exact h.hold (h.issued.live live hlive g (List.mem_of_getLast? hlast))

theorem mem_of_liveGuard? {v : Version} {g : Guard} (h : k.liveGuard? v = some g) :
    ∃ live, k.live = some live ∧ g ∈ live.guards ∧ k.version g = v := by
  obtain ⟨live, hlive, hfind⟩ := Option.bind_eq_some_iff.mp h
  exact ⟨live, hlive, List.mem_of_find?_eq_some hfind, by simpa using List.find?_some hfind⟩

theorem Sound.snapshotCommit (h : Sound pins k) {g : Guard} (hg : k.Knows g) :
    Sound pins (k.snapshotCommit g).2 := by
  unfold Keeper.snapshotCommit
  split
  next => exact h
  next =>
    split
    next current hcurrent =>
      obtain ⟨live, hlive, hmem, -⟩ := mem_of_liveGuard? hcurrent
      exact h.hold (h.issued.live live hlive current hmem)
    next =>
      split
      next => exact h.hold hg
      next => exact h

/-! ## Giving snapshots back -/

/-- A handle after it was released. -/
def releasedHandle (h : Handle) : Handle := { h with released := true }

theorem releaseValue_frame (h : Handle) (k : Keeper) : Frame k (k.releaseValue h).2.2 := by
  unfold releaseValue
  split
  next => exact Frame.refl k
  next => exact release_frame _ k

theorem releaseValue_marked (h : Handle) (k : Keeper) :
    (k.releaseValue h).2.2.marked = k.marked := by
  unfold releaseValue
  split
  next => rfl
  next => exact release_marked _ k

theorem releaseValue_handle (h : Handle) (k : Keeper) :
    (k.releaseValue h).2.1 = releasedHandle h := by
  unfold releaseValue
  split
  next hr =>
    unfold releasedHandle
    rw [← hr]
  next => rfl

/-- Releasing a handle takes effect exactly if it was not released yet, and gives up what it
held. -/
theorem Counted.releaseValue {h : Handle} {held : List Version}
    (hc : Counted pins (k.heldBy [h] ++ held) k.holds k.stats) :
    (k.releaseValue h).1 = !h.released ∧
      Counted pins held (k.releaseValue h).2.2.holds (k.releaseValue h).2.2.stats := by
  unfold Keeper.releaseValue
  split
  next hr =>
    rw [heldBy_cons_released hr] at hc
    exact ⟨by simp [hr], hc⟩
  next hr =>
    have hr' : h.released = false := by simpa using hr
    rw [heldBy_cons_unreleased hr'] at hc
    obtain ⟨htook, hrest⟩ := Counted.release hc
    exact ⟨by rw [hr']; exact htook, hrest⟩

theorem releaseValues_frame (hs : List Handle) (k : Keeper) :
    Frame k (k.releaseValues hs).2.2 := by
  induction hs generalizing k with
  | nil => exact Frame.refl k
  | cons h hs ih => exact (releaseValue_frame h k).trans (ih _)

theorem releaseValues_marked (hs : List Handle) (k : Keeper) :
    (k.releaseValues hs).2.2.marked = k.marked := by
  induction hs generalizing k with
  | nil => rfl
  | cons h hs ih => exact (ih _).trans (releaseValue_marked h k)

theorem releaseValues_handles (hs : List Handle) (k : Keeper) :
    (k.releaseValues hs).2.1 = hs.map releasedHandle := by
  induction hs generalizing k with
  | nil => rfl
  | cons h hs ih =>
    show (k.releaseValue h).2.1 :: ((k.releaseValue h).2.2.releaseValues hs).2.1 = _
    rw [releaseValue_handle, ih, List.map_cons]

theorem Counted.releaseValues {hs : List Handle} {held : List Version}
    (hc : Counted pins (k.heldBy hs ++ held) k.holds k.stats) :
    (k.releaseValues hs).1 = hs.all (fun h => !h.released) ∧
      Counted pins held (k.releaseValues hs).2.2.holds (k.releaseValues hs).2.2.stats := by
  induction hs generalizing k with
  | nil => exact ⟨rfl, hc⟩
  | cons h hs ih =>
    have hsplit : k.heldBy (h :: hs) ++ held = k.heldBy [h] ++ (k.heldBy hs ++ held) := by
      rw [← List.append_assoc, ← heldBy_append, List.singleton_append]
    rw [hsplit] at hc
    obtain ⟨hfirst, hcounted⟩ := hc.releaseValue
    rw [← (releaseValue_frame h k).heldBy hs] at hcounted
    obtain ⟨hrest, hcounted⟩ := ih hcounted
    refine ⟨?_, hcounted⟩
    show ((k.releaseValue h).1 && ((k.releaseValue h).2.2.releaseValues hs).1) = _
    rw [hfirst, hrest, List.all_cons]

theorem heldBy_released (hs : List Handle) (k : Keeper) :
    k.heldBy (hs.map releasedHandle) = [] := by
  unfold heldBy
  rw [List.filter_eq_nil_iff.mpr, List.map_nil]
  intro h hh
  obtain ⟨h', -, rfl⟩ := List.mem_map.mp hh
  simp [releasedHandle]

/-! ## Loose handles -/

/-- A slot whose handle has given up its hold may be emptied or keep the handle. -/
theorem Sound.afterRelease (h : Sound pins k) {slot : Nat} {x : Handle}
    (hx : k.handle? slot = some x) {y : Option Handle}
    (hy : y = none ∨ y = some (releasedHandle x)) :
    (k.releaseValue x).1 = !x.released ∧
      Sound pins ((k.releaseValue x).2.2.setHandle slot y) := by
  have hf := releaseValue_frame x k
  have hx' : (k.releaseValue x).2.2.handle? slot = some x := by
    unfold handle?
    rw [hf.handles]
    exact hx
  obtain ⟨rest, hbefore, hafter⟩ := setHandle_perm hx'
  have hafter := hafter y
  rw [hf.given] at hbefore
  have hcounted : Counted pins (k.heldBy [x] ++ k.heldBy rest) k.holds k.stats := by
    refine h.counted.perm ?_
    rw [← heldBy_append]
    exact heldBy_perm hbefore k
  obtain ⟨htook, hcounted⟩ := hcounted.releaseValue
  have hissued := h.issued.frame hf fun s hs => Or.inl (releaseValue_marked x k ▸ hs)
  refine ⟨htook, hissued.regive rfl rfl rfl rfl ?_, hcounted.perm ?_⟩
  · intro z hz
    have hmem : ∀ w ∈ x :: rest, (k.releaseValue x).2.2.Knows w.guard :=
      fun w hw => hf.knows (h.issued.given w (hbefore.mem_iff.mpr hw))
    rcases List.mem_append.mp (hafter.mem_iff.mp hz) with hz | hz
    · rcases hy with rfl | rfl
      · cases hz
      · obtain rfl : z = releasedHandle x := by simpa using hz
        exact hmem x List.mem_cons_self
    · exact hmem z (List.mem_cons_of_mem _ hz)
  · have hheld := heldVersions_perm (k := (k.releaseValue x).2.2) hafter rfl
    rw [heldBy_append, hf.heldBy, hf.heldBy] at hheld
    rcases hy with rfl | rfl
    · exact hheld.symm
    · rw [show (some (releasedHandle x)).toList = [x].map releasedHandle from rfl,
        heldBy_released] at hheld
      exact hheld.symm

/-- The release of a handle takes effect exactly if it was not released yet. -/
theorem releaseHandle_answer (h : Sound pins k) {slot : Nat} {x : Handle}
    (hx : k.handle? slot = some x) : (k.releaseHandle slot).1 = some (!x.released) := by
  unfold releaseHandle
  rw [hx]
  exact congrArg some (h.afterRelease hx (Or.inl rfl)).1

theorem Sound.releaseHandle (h : Sound pins k) (slot : Nat) :
    Sound pins (k.releaseHandle slot).2 := by
  unfold Keeper.releaseHandle
  split
  next => exact h
  next x hx => exact (h.afterRelease hx (Or.inr (congrArg some (releaseValue_handle x k)))).2

theorem Sound.dropHandle (h : Sound pins k) (slot : Nat) : Sound pins (k.dropHandle slot).2 := by
  unfold Keeper.dropHandle
  split
  next => exact h
  next x hx => exact (h.afterRelease hx (Or.inl rfl)).2

/-! ## Bundles -/

/-- A bundle some of whose handles have given up their holds may keep these handles or go. -/
theorem Sound.afterReleases (h : Sound pins k) {slot : Nat} {b : Bundle}
    (hb : k.bundle? slot = some b) {k' : Keeper} (hf : Frame k k') (hmarked : k'.marked = k.marked)
    {y : Option Bundle}
    (hcounted : ∀ {held}, Counted pins (k.heldBy b.handles ++ held) k.holds k.stats →
      Counted pins (k.heldBy (Bundle.contents y) ++ held) k'.holds k'.stats)
    (hy : ∀ z ∈ Bundle.contents y, ∃ x ∈ b.handles, x.guard = z.guard) :
    Sound pins (k'.setBundle slot y) := by
  have hb' : k'.bundle? slot = some b := by
    unfold bundle?
    rw [hf.bundles]
    exact hb
  obtain ⟨rest, hbefore, hafter⟩ := setBundle_perm hb'
  have hafter := hafter y
  rw [hf.given] at hbefore
  have hissued := h.issued.frame hf fun s hs => Or.inl (hmarked ▸ hs)
  refine ⟨hissued.regive rfl rfl rfl rfl ?_, ?_⟩
  · intro z hz
    have hmem : ∀ w ∈ b.handles ++ rest, k'.Knows w.guard :=
      fun w hw => hf.knows (h.issued.given w (hbefore.mem_iff.mpr hw))
    rcases List.mem_append.mp (hafter.mem_iff.mp hz) with hz | hz
    · obtain ⟨x, hx, heq⟩ := hy z hz
      exact heq ▸ hmem x (List.mem_append_left _ hx)
    · exact hmem z (List.mem_append_right _ hz)
  · have hall : k.heldVersions.Perm (k.heldBy b.handles ++ k.heldBy rest) := by
      rw [← heldBy_append]
      exact heldBy_perm hbefore k
    have hheld := heldVersions_perm (k := k') hafter rfl
    rw [heldBy_append, hf.heldBy, hf.heldBy] at hheld
    exact (hcounted (h.counted.perm hall)).perm hheld.symm

/-- The release of a bundle takes effect exactly if none of its handles was released yet. -/
theorem releaseBundle_answer (h : Sound pins k) {slot : Nat} {b : Bundle}
    (hb : k.bundle? slot = some b) :
    (k.releaseBundle slot).1 = some (b.handles.all fun x => !x.released) := by
  unfold releaseBundle
  rw [hb]
  obtain ⟨rest, hbefore, -⟩ := setBundle_perm hb
  have hall : k.heldVersions.Perm (k.heldBy b.handles ++ k.heldBy rest) := by
    rw [← heldBy_append]
    exact heldBy_perm hbefore k
  exact congrArg some (h.counted.perm hall).releaseValues.1

theorem Sound.releaseBundle (h : Sound pins k) (slot : Nat) :
    Sound pins (k.releaseBundle slot).2 := by
  unfold Keeper.releaseBundle
  split
  next => exact h
  next b hb =>
    refine h.afterReleases (y := some { b with handles := (k.releaseValues b.handles).2.1 }) hb
      (releaseValues_frame b.handles k) (releaseValues_marked b.handles k) ?_
      ?_
    · intro held hc
      rw [show Bundle.contents (some _) = (k.releaseValues b.handles).2.1 from rfl,
        releaseValues_handles, heldBy_released]
      exact hc.releaseValues.2
    · intro z hz
      rw [show Bundle.contents (some _) = (k.releaseValues b.handles).2.1 from rfl,
        releaseValues_handles] at hz
      obtain ⟨x, hx, rfl⟩ := List.mem_map.mp hz
      exact ⟨x, hx, rfl⟩

theorem Sound.dropBundle (h : Sound pins k) (slot : Nat) : Sound pins (k.dropBundle slot).2 := by
  unfold Keeper.dropBundle
  split
  next => exact h
  next b hb =>
    exact h.afterReleases (y := none) hb (releaseValues_frame b.handles k)
      (releaseValues_marked b.handles k) (fun hc => hc.releaseValues.2) fun z hz => by cases hz

/-- Replacing one handle of a bundle by what a release makes of it gives up what it held. -/
theorem heldBy_set_released {hs : List Handle} {index : Nat} {x : Handle}
    (hx : hs[index]? = some x) (k : Keeper) :
    (k.heldBy hs).Perm (k.heldBy [x] ++ k.heldBy (hs.set index (releasedHandle x))) := by
  obtain ⟨rest, hbefore, hafter⟩ := flatMap_set_perm (fun x : Handle => [x]) hx
  simp only [List.flatMap_singleton'] at hbefore hafter
  have hset := heldBy_perm (hafter (releasedHandle x)) k
  rw [List.singleton_append, heldBy_cons_released rfl] at hset
  have hall := heldBy_perm hbefore k
  rw [heldBy_append] at hall
  exact hall.trans (hset.symm.append_left _)

/-- The release of a handle in a bundle takes effect exactly if it was not released yet. -/
theorem releaseInBundle_answer (h : Sound pins k) {slot index : Nat} {b : Bundle} {x : Handle}
    (hb : k.bundle? slot = some b) (hx : b.handles[index]? = some x) :
    (k.releaseInBundle slot index).1 = some (!x.released) := by
  unfold releaseInBundle
  simp only [hb, hx]
  obtain ⟨rest, hbefore, -⟩ := setBundle_perm hb
  have hall : k.heldVersions.Perm (k.heldBy [x] ++
      (k.heldBy (b.handles.set index (releasedHandle x)) ++ k.heldBy rest)) := by
    rw [← List.append_assoc]
    refine (heldBy_perm hbefore k).trans ?_
    rw [heldBy_append]
    exact (heldBy_set_released hx k).append_right _
  exact congrArg some (h.counted.perm hall).releaseValue.1

theorem Sound.releaseInBundle (h : Sound pins k) (slot index : Nat) :
    Sound pins (k.releaseInBundle slot index).2 := by
  unfold Keeper.releaseInBundle
  split
  next => exact h
  next b hb =>
    split
    next => exact h
    next x hx =>
      show Sound pins ((k.releaseValue x).2.2.setBundle slot
        (some { b with handles := b.handles.set index (k.releaseValue x).2.1 }))
      rw [releaseValue_handle]
      refine h.afterReleases
        (y := some { b with handles := b.handles.set index (releasedHandle x) })
        hb (releaseValue_frame x k) (releaseValue_marked x k) ?_ ?_
      · intro held hc
        refine (Counted.releaseValue (h := x) (hc.perm ?_)).2
        rw [← List.append_assoc]
        exact (heldBy_set_released hx k).append_right _
      · intro z hz
        rcases List.mem_or_eq_of_mem_set hz with hz | rfl
        · exact ⟨z, hz, rfl⟩
        · exact ⟨x, List.mem_of_getElem? hx, rfl⟩

theorem Sound.openBundle (h : Sound pins k) (slot : Nat) : Sound pins (k.openBundle slot).2 := by
  have hperm := openBundle_perm slot k
  have hsame : (k.openBundle slot).2.catalog = k.catalog ∧
      (k.openBundle slot).2.serials = k.serials ∧ (k.openBundle slot).2.live = k.live ∧
      (k.openBundle slot).2.marked = k.marked ∧ (k.openBundle slot).2.holds = k.holds ∧
      (k.openBundle slot).2.stats = k.stats := by
    unfold Keeper.openBundle
    split
    next => exact ⟨rfl, rfl, rfl, rfl, rfl, rfl⟩
    next => exact ⟨rfl, rfl, rfl, rfl, rfl, rfl⟩
  obtain ⟨hcatalog, hserials, hlive, hmarked, hholds, hstats⟩ := hsame
  refine ⟨h.issued.regive hcatalog hserials hlive hmarked
    fun x hx => h.issued.given x (hperm.mem_iff.mp hx), ?_⟩
  rw [hholds, hstats]
  exact h.counted.perm (heldVersions_perm hperm hcatalog).symm

end SnapshotRetention.Keeper
