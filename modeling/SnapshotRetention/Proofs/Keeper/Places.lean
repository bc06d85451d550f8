import SnapshotRetention.Proofs.Keeper.Run

/-!
# One handle along a run

A handle is found again by its place: the slot it is in, or the bundle and the position in it. No
place is used twice, and a handle changes its place only when its bundle is taken apart
(`Keeper.move`). `Keeper.Traced` follows one handle from the snapshot that gave it out and notes
whether it was asked to release itself since then.

Main statement: `Traced.released` — a handle is released exactly if that has happened. It rests on
`step_at`, which says for each event where the handle at a place comes from, and on
`move_injective`, by which it can only be the handle that was followed.
-/

namespace SnapshotRetention

/-- Where a handle can be. -/
inductive Place where
  | loose (slot : Nat)
  | bundled (slot index : Nat)
  deriving DecidableEq

/-- Whether a request of a primary policy releases the handle at a place. -/
def Request.releases (r : Request) (p : Place) : Bool :=
  match r, p with
  | .release slot, .loose slot' => slot == slot'
  | _, _ => false

/-- Whether a consumer's step releases the handle at a place. -/
def Use.releases (u : Use) (p : Place) : Bool :=
  match u, p with
  | .release slot, .loose slot' => slot == slot'
  | .releaseBundle slot, .bundled slot' _ => slot == slot'
  | .releaseInBundle slot index, .bundled slot' index' => slot == slot' && index == index'
  | _, _ => false

/-- Whether an event gives out handles. -/
def Event.Takes : Event → Prop
  | .use .snapshot | .use .current | .use (.commit _) => True
  | _ => False

namespace Keeper

variable {k k' : Keeper} {p : Place} {x : Handle}

/-- The handle at a place. -/
def at? (k : Keeper) : Place → Option Handle
  | .loose slot => k.handle? slot
  | .bundled slot index => (k.bundle? slot).bind fun b => b.handles[index]?

/-- Releases the handle at a place. -/
def releaseAt (p : Place) (k : Keeper) : Option Bool × Keeper :=
  match p with
  | .loose slot => k.releaseHandle slot
  | .bundled slot index => k.releaseInBundle slot index

/-- A place in a slot that was filled at some time. -/
def Allocated (k : Keeper) : Place → Prop
  | .loose slot => slot < k.handles.length
  | .bundled slot _ => slot < k.bundles.length

/-- Whether an event releases the handle at a place. -/
def releases (e : Event) (k : Keeper) (p : Place) : Bool :=
  match e with
  | .use u => u.releases p
  | .delete _ => false
  | .cycle commits requests =>
    match commits.getLast? with
    | none => false
    | some newest =>
      ((k.presented commits newest).carriedOut (k.guardAll commits).1 requests).any
        fun r => r.releases p
  | .world _ => false

/-- The place of a handle after an event. -/
def move (e : Event) (k : Keeper) (p : Place) : Place :=
  match e, p with
  | .use (.openBundle slot), .bundled slot' index =>
    if slot = slot' then .loose (k.handles.length + index) else p
  | _, _ => p

/-- `Traced k p called`: in a run that led to `k`, the handle at `p` was given out, and `called`
tells whether it was asked to release itself since then. The place is empty if the last event
dropped the handle. -/
inductive Traced : Keeper → Place → Bool → Prop where
  | taken {k : Keeper} {e : Event} {p : Place} {x : Handle} : Reachable k → k.Allows e → e.Takes →
    ¬k.Allocated p → (k.step e).at? p = some x → Traced (k.step e) p false
  | step {k : Keeper} {p : Place} {called : Bool} {x : Handle} (e : Event) : Traced k p called →
    k.at? p = some x → k.Allows e → Traced (k.step e) (k.move e p) (called || k.releases e p)

/-! ## Events that keep every handle in its place -/

/-- Each handle is where it was, and was released if `called` says so; some may be gone. -/
def Kept (called : Place → Bool) (k k' : Keeper) : Prop :=
  ∀ p x', k'.at? p = some x' → ∃ x, k.at? p = some x ∧ x'.released = (x.released || called p)

theorem at?_congr (hhandles : k'.handles = k.handles) (hbundles : k'.bundles = k.bundles)
    (p : Place) : k'.at? p = k.at? p := by
  cases p with
  | loose slot =>
    unfold at? handle?
    rw [hhandles]
  | bundled slot index =>
    unfold at? bundle?
    rw [hbundles]

theorem Kept.of_slots (hhandles : k'.handles = k.handles) (hbundles : k'.bundles = k.bundles) :
    Kept (fun _ => false) k k' := by
  intro p x' hx'
  rw [at?_congr hhandles hbundles] at hx'
  exact ⟨x', hx', (Bool.or_false _).symm⟩

theorem Frame.kept (h : Frame k k') : Kept (fun _ => false) k k' :=
  Kept.of_slots h.handles h.bundles

theorem Kept.trans {called called' : Place → Bool} {k'' : Keeper} (h : Kept called k k')
    (h' : Kept called' k' k'') : Kept (fun p => called p || called' p) k k'' := by
  intro p x'' hx''
  obtain ⟨x', hx', hreleased'⟩ := h' p x'' hx''
  obtain ⟨x, hx, hreleased⟩ := h p x' hx'
  exact ⟨x, hx, by rw [hreleased', hreleased, Bool.or_assoc]⟩

theorem Kept.congr {called called' : Place → Bool} (h : Kept called k k')
    (hcalled : ∀ p, called p = called' p) : Kept called' k k' := by
  intro p x' hx'
  obtain ⟨x, hx, hreleased⟩ := h p x' hx'
  exact ⟨x, hx, hcalled p ▸ hreleased⟩

theorem handle?_setHandle (slot : Nat) (y : Option Handle) (k : Keeper) (slot' : Nat) :
    (k.setHandle slot y).handle? slot' =
      if slot = slot' ∧ slot < k.handles.length then y else k.handle? slot' := by
  unfold setHandle handle?
  rw [List.getElem?_set]
  by_cases hs : slot = slot'
  · subst hs
    by_cases hlt : slot < k.handles.length
    · simp [hlt]
    · simp [hlt]
  · simp [hs]

theorem bundle?_setBundle (slot : Nat) (y : Option Bundle) (k : Keeper) (slot' : Nat) :
    (k.setBundle slot y).bundle? slot' =
      if slot = slot' ∧ slot < k.bundles.length then y else k.bundle? slot' := by
  unfold setBundle bundle?
  rw [List.getElem?_set]
  by_cases hs : slot = slot'
  · subst hs
    by_cases hlt : slot < k.bundles.length
    · simp [hlt]
    · simp [hlt]
  · simp [hs]

theorem lt_of_handle? {slot : Nat} (h : k.handle? slot = some x) : slot < k.handles.length :=
  (List.getElem?_eq_some_iff.mp (Option.join_eq_some_iff.mp h)).1

theorem lt_of_bundle? {slot : Nat} {b : Bundle} (h : k.bundle? slot = some b) :
    slot < k.bundles.length :=
  (List.getElem?_eq_some_iff.mp (Option.join_eq_some_iff.mp h)).1

theorem allocated_of_at? (h : k.at? p = some x) : k.Allocated p := by
  cases p with
  | loose slot => exact lt_of_handle? h
  | bundled slot index =>
    obtain ⟨b, hb, -⟩ := Option.bind_eq_some_iff.mp h
    exact lt_of_bundle? hb

theorem Kept.refl {called : Place → Bool} (h : ∀ p x, k.at? p = some x → called p = false) :
    Kept called k k := by
  intro p x hx
  exact ⟨x, hx, by rw [h p x hx, Bool.or_false]⟩

/-- A slot keeps its handle, released or not, or is emptied. -/
theorem kept_setHandle {called : Place → Bool} {slot : Nat} {y : Option Handle}
    (hx : k.handle? slot = some x)
    (hy : ∀ z, y = some z → z.released = (x.released || called (.loose slot)))
    (hcalled : ∀ p, p ≠ .loose slot → called p = false) : Kept called k (k.setHandle slot y) := by
  intro p x' hx'
  by_cases hp : p = .loose slot
  · subst hp
    have hat : (k.setHandle slot y).handle? slot = some x' := hx'
    rw [handle?_setHandle, if_pos ⟨rfl, lt_of_handle? hx⟩] at hat
    exact ⟨x, hx, hy x' hat⟩
  · refine ⟨x', ?_, by rw [hcalled p hp, Bool.or_false]⟩
    rw [← hx']
    cases p with
    | loose slot' =>
      have hne : ¬(slot = slot' ∧ slot < k.handles.length) := fun h => hp (h.1 ▸ rfl)
      show k.handle? slot' = (k.setHandle slot y).handle? slot'
      rw [handle?_setHandle, if_neg hne]
    | bundled slot' index => rfl

/-- A slot keeps its bundle, some of its handles released, or is emptied. -/
theorem kept_setBundle {called : Place → Bool} {slot : Nat} {b : Bundle} {y : Option Bundle}
    (hb : k.bundle? slot = some b)
    (hy : ∀ index z, (Bundle.contents y)[index]? = some z →
      ∃ x, b.handles[index]? = some x ∧
        z.released = (x.released || called (.bundled slot index)))
    (hcalled : ∀ p, (∀ index, p ≠ .bundled slot index) → called p = false) :
    Kept called k (k.setBundle slot y) := by
  intro p x' hx'
  by_cases hp : ∃ index, p = .bundled slot index
  · obtain ⟨index, rfl⟩ := hp
    have hat : ((k.setBundle slot y).bundle? slot).bind (fun b => b.handles[index]?) = some x' :=
      hx'
    rw [bundle?_setBundle, if_pos ⟨rfl, lt_of_bundle? hb⟩] at hat
    obtain ⟨b', hb', hat⟩ := Option.bind_eq_some_iff.mp hat
    obtain ⟨x, hx, hreleased⟩ := hy index x' (by rw [hb']; exact hat)
    exact ⟨x, Option.bind_eq_some_iff.mpr ⟨b, hb, hx⟩, hreleased⟩
  · have hne : ∀ index, p ≠ .bundled slot index := fun index h => hp ⟨index, h⟩
    refine ⟨x', ?_, by rw [hcalled p hne, Bool.or_false]⟩
    rw [← hx']
    cases p with
    | loose slot' => rfl
    | bundled slot' index =>
      have hne' : ¬(slot = slot' ∧ slot < k.bundles.length) := fun h => hne index (h.1 ▸ rfl)
      show (k.bundle? slot').bind _ = ((k.setBundle slot y).bundle? slot').bind _
      rw [bundle?_setBundle, if_neg hne']

/-! ## Giving back -/

theorem kept_releaseHandle (slot : Nat) (k : Keeper) :
    Kept (Use.release slot).releases k (k.releaseHandle slot).2 := by
  unfold releaseHandle
  split
  next hnone =>
    refine Kept.refl ?_
    intro p x hx
    cases p with
    | loose slot' =>
      have hne : slot ≠ slot' := by
        rintro rfl
        rw [show k.handle? slot = some x from hx] at hnone
        cases hnone
      simpa [Use.releases] using hne
    | bundled slot' index => rfl
  next x hx =>
    have hf := releaseValue_frame x k
    refine hf.kept.trans (kept_setHandle (x := x) ?_ ?_ ?_)
    · unfold handle?
      rw [hf.handles]
      exact hx
    · intro z hz
      rw [← Option.some.inj hz, releaseValue_handle]
      simp [releasedHandle]
    · intro p hp
      cases p with
      | loose slot' =>
        have hne : slot ≠ slot' := fun h => hp (h ▸ rfl)
        simpa [Use.releases] using hne
      | bundled slot' index => rfl

theorem kept_dropHandle (slot : Nat) (k : Keeper) :
    Kept (fun _ => false) k (k.dropHandle slot).2 := by
  unfold dropHandle
  split
  next => exact Frame.kept (.refl k)
  next x hx =>
    have hf := releaseValue_frame x k
    refine hf.kept.trans (kept_setHandle (x := x) ?_ (fun z hz => by cases hz) fun _ _ => rfl)
    unfold handle?
    rw [hf.handles]
    exact hx

theorem kept_releaseBundle (slot : Nat) (k : Keeper) :
    Kept (Use.releaseBundle slot).releases k (k.releaseBundle slot).2 := by
  unfold releaseBundle
  split
  next hnone =>
    refine Kept.refl ?_
    intro p x hx
    cases p with
    | loose slot' => rfl
    | bundled slot' index =>
      have hne : slot ≠ slot' := by
        rintro rfl
        obtain ⟨b, hb, -⟩ := Option.bind_eq_some_iff.mp hx
        rw [hb] at hnone
        cases hnone
      simpa [Use.releases] using hne
  next b hb =>
    have hf := releaseValues_frame b.handles k
    refine hf.kept.trans (kept_setBundle (b := b) ?_ ?_ ?_)
    · unfold bundle?
      rw [hf.bundles]
      exact hb
    · intro index z hz
      have hz' : ((k.releaseValues b.handles).2.1)[index]? = some z := hz
      rw [releaseValues_handles, List.getElem?_map] at hz'
      obtain ⟨x, hx, rfl⟩ := Option.map_eq_some_iff.mp hz'
      exact ⟨x, hx, by simp [releasedHandle]⟩
    · intro p hp
      cases p with
      | loose slot' => rfl
      | bundled slot' index =>
        have hne : slot ≠ slot' := fun h => hp index (h ▸ rfl)
        simpa [Use.releases] using hne

theorem kept_releaseInBundle (slot index : Nat) (k : Keeper) :
    Kept (Use.releaseInBundle slot index).releases k (k.releaseInBundle slot index).2 := by
  unfold releaseInBundle
  split
  next hnone =>
    refine Kept.refl ?_
    intro p x hx
    cases p with
    | loose slot' => rfl
    | bundled slot' index' =>
      have hne : slot ≠ slot' := by
        rintro rfl
        obtain ⟨b, hb, -⟩ := Option.bind_eq_some_iff.mp hx
        rw [hb] at hnone
        cases hnone
      simp [Use.releases, hne]
  next b hb =>
    split
    next hnone =>
      refine Kept.refl ?_
      intro p x hx
      cases p with
      | loose slot' => rfl
      | bundled slot' index' =>
        have hne : ¬(slot = slot' ∧ index = index') := by
          rintro ⟨rfl, rfl⟩
          have hat : (k.bundle? slot).bind (fun b => b.handles[index]?) = some x := hx
          rw [hb, Option.bind_some, hnone] at hat
          cases hat
        simpa [Use.releases] using hne
    next x hx =>
      have hf := releaseValue_frame x k
      refine hf.kept.trans (kept_setBundle (b := b) ?_ ?_ ?_)
      · unfold bundle?
        rw [hf.bundles]
        exact hb
      · intro index' z hz
        have hz' : (b.handles.set index (k.releaseValue x).2.1)[index']? = some z := hz
        rw [releaseValue_handle, List.getElem?_set] at hz'
        by_cases hi : index = index'
        · subst hi
          rw [if_pos rfl, if_pos (List.getElem?_eq_some_iff.mp hx).1] at hz'
          exact ⟨x, hx, by simp [← Option.some.inj hz', releasedHandle]⟩
        · rw [if_neg hi] at hz'
          exact ⟨z, hz', by simp [hi]⟩
      · intro p hp
        cases p with
        | loose slot' => rfl
        | bundled slot' index' =>
          have hne : slot ≠ slot' := fun h => hp index' (h ▸ rfl)
          simp [hne]

theorem kept_dropBundle (slot : Nat) (k : Keeper) :
    Kept (fun _ => false) k (k.dropBundle slot).2 := by
  unfold dropBundle
  split
  next => exact Frame.kept (.refl k)
  next b hb =>
    have hf := releaseValues_frame b.handles k
    refine hf.kept.trans (kept_setBundle (b := b) ?_ (fun index z hz => by cases hz) fun _ _ => rfl)
    unfold bundle?
    rw [hf.bundles]
    exact hb

/-! ## Cycles -/

theorem kept_carryOut (shown : List Guard) (r : Request) (k : Keeper) :
    Kept r.releases k (k.carryOut shown r).2 := by
  unfold carryOut
  split
  next =>
    split
    next => exact Frame.kept (.refl k)
    next g _ => exact (deleteGuard_frame g k).kept
  next =>
    split
    next => exact Frame.kept (.refl k)
    next g _ => exact (deleteGuard_frame g k).kept
  next slot =>
    refine (kept_releaseHandle slot k).congr ?_
    intro p
    cases p <;> rfl
  next slot => exact kept_dropHandle slot k
  next => exact Frame.kept (.refl k)

theorem kept_carryOutAll (shown : List Guard) (requests : List Request) (k : Keeper) :
    Kept (fun p => (k.carriedOut shown requests).any fun r => r.releases p) k
      (k.carryOutAll shown requests).2 := by
  -- only what is carried out can release, so the induction is on that
  rw [carryOutAll_state]
  generalize k.carriedOut shown requests = carried
  induction carried generalizing k with
  | nil => exact Frame.kept (.refl k)
  | cons r rest ih =>
    simp only [List.any_cons]
    exact (kept_carryOut shown r k).trans (ih _)

/-- What comes after the requests of the primary policy leaves the slots alone. -/
theorem kept_conclude (shown : List Guard) (newest : Nat) (decided : Except Error Unit)
    (k : Keeper) : Kept (fun _ => false) k (k.conclude shown newest decided).2 := by
  have hpublish : ∀ (generation : Nat) (guards : List Guard) (k : Keeper),
      Kept (fun _ => false) k (k.publish generation guards) := by
    intro generation guards k
    have hf := clearPending_frame guards k
    exact Kept.of_slots hf.handles hf.bundles
  unfold conclude concludeWithout
  dsimp only
  split
  next =>
    split
    next => exact Kept.of_slots rfl rfl
    next => exact hpublish _ _ _
  next =>
    have hf := reclaimNewest_frame (k.unhold (k.catalog.version newest)).1
      (k.unhold (k.catalog.version newest)).2.sweep
    have hslots : Kept (fun _ => false) k (k.unhold (k.catalog.version newest)).2.sweep :=
      Kept.of_slots rfl rfl
    exact (hslots.trans hf.kept).trans (hpublish _ _ _)

theorem kept_cycle (commits : List Nat) (requests : List Request) (k : Keeper) :
    Kept (k.releases (.cycle commits requests)) k (k.cycle commits requests).2 := by
  cases hlast : commits.getLast? with
  | none =>
    rw [cycle_of_none hlast]
    refine Kept.refl ?_
    intro p x _
    simp only [releases, hlast]
  | some newest =>
    rw [cycle_of_newest hlast]
    have hpresented : Kept (fun _ => false) k (k.presented commits newest) := Kept.of_slots rfl rfl
    have hdecided := kept_carryOutAll (k.guardAll commits).1 requests (k.presented commits newest)
    refine ((hpresented.trans hdecided).trans (kept_conclude _ newest _ _)).congr ?_
    intro p
    simp only [releases, hlast, Bool.false_or, Bool.or_false]

/-! ## Taking -/

/-- New places are filled with unreleased handles, and all else stays. -/
def Filled (k k' : Keeper) : Prop :=
  ∀ p x', k'.at? p = some x' → k.at? p = some x' ∨ ¬k.Allocated p ∧ x'.released = false

theorem Frame.filled (h : Frame k k') : Filled k k' := by
  intro p x' hx'
  rw [at?_congr h.handles h.bundles] at hx'
  exact Or.inl hx'

theorem filled_hold (g : Guard) (k : Keeper) : Filled k (k.hold g).2 := by
  intro p x' hx'
  cases p with
  | bundled slot index => exact Or.inl hx'
  | loose slot =>
    have hat : ((k.handles ++ [some ⟨g, false⟩])[slot]?).join = some x' := hx'
    rw [List.getElem?_append] at hat
    split at hat
    next => exact Or.inl hat
    next hge =>
      refine Or.inr ⟨hge, ?_⟩
      have hmem := List.mem_of_getElem? (Option.join_eq_some_iff.mp hat)
      obtain rfl : x' = ⟨g, false⟩ := by simpa using hmem
      rfl

theorem filled_snapshot (k : Keeper) : Filled k k.snapshot.2 := by
  unfold snapshot
  split
  next => exact Frame.filled (.refl k)
  next live _ =>
    have hf := acquireAll_frame live.guards k
    intro p x' hx'
    cases p with
    | loose slot =>
      rw [← at?_congr hf.handles hf.bundles]
      exact Or.inl hx'
    | bundled slot index =>
      have hat : (((live.guards.foldl (fun k g => k.acquire (k.version g)) k).bundles ++
          [some ⟨live.generation, live.guards.map fun g => ⟨g, false⟩⟩])[slot]?).join.bind
            (fun b : Bundle => b.handles[index]?) = some x' := hx'
      rw [hf.bundles, List.getElem?_append] at hat
      split at hat
      next => exact Or.inl hat
      next hge =>
        refine Or.inr ⟨hge, ?_⟩
        obtain ⟨b, hb, hat⟩ := Option.bind_eq_some_iff.mp hat
        have hmem := List.mem_of_getElem? (Option.join_eq_some_iff.mp hb)
        obtain rfl : b = ⟨live.generation, live.guards.map fun g => ⟨g, false⟩⟩ := by
          simpa using hmem
        obtain ⟨g, -, rfl⟩ := List.mem_map.mp (List.mem_of_getElem? hat)
        rfl

theorem filled_snapshotCurrent (k : Keeper) : Filled k k.snapshotCurrent.2 := by
  unfold snapshotCurrent
  split
  next => exact Frame.filled (.refl k)
  next g _ => exact filled_hold g k

theorem filled_snapshotCommit (g : Guard) (k : Keeper) : Filled k (k.snapshotCommit g).2 := by
  unfold snapshotCommit
  split
  next => exact Frame.filled (.refl k)
  next =>
    split
    next current _ => exact filled_hold current k
    next =>
      split
      next => exact filled_hold g k
      next => exact Frame.filled (.refl k)

/-! ## Following a handle -/

theorem move_of_ne {e : Event} (h : ∀ slot, e ≠ .use (.openBundle slot)) (k : Keeper) (p : Place) :
    k.move e p = p := by
  unfold move
  split
  next slot _ _ => exact absurd rfl (h slot)
  next => rfl

theorem move_of_takes {e : Event} (h : e.Takes) (k : Keeper) (p : Place) : k.move e p = p := by
  refine move_of_ne ?_ k p
  intro slot he
  rw [he] at h
  exact h

/-- Taking a bundle apart moves its handles behind the loose ones, in their order. -/
theorem openBundle_at? {slot : Nat} {p' : Place} {x' : Handle}
    (h : (k.openBundle slot).2.at? p' = some x') :
    ∃ p, k.at? p = some x' ∧ k.move (.use (.openBundle slot)) p = p' := by
  unfold openBundle at h
  split at h
  next hnone =>
    refine ⟨p', h, ?_⟩
    cases p' with
    | loose slot' => rfl
    | bundled slot' index =>
      have hne : slot ≠ slot' := by
        rintro rfl
        obtain ⟨b, hb, -⟩ := Option.bind_eq_some_iff.mp h
        rw [hb] at hnone
        cases hnone
      exact if_neg hne
  next b hb =>
    cases p' with
    | loose slot' =>
      have hat : ((k.handles ++ b.handles.map some)[slot']?).join = some x' := h
      rw [List.getElem?_append] at hat
      split at hat
      next => exact ⟨.loose slot', hat, rfl⟩
      next hge =>
        rw [List.getElem?_map] at hat
        obtain ⟨x, hx, hsome⟩ := Option.map_eq_some_iff.mp (Option.join_eq_some_iff.mp hat)
        obtain rfl := Option.some.inj hsome
        refine ⟨.bundled slot (slot' - k.handles.length),
          Option.bind_eq_some_iff.mpr ⟨b, hb, hx⟩, ?_⟩
        show (if slot = slot then
          Place.loose (k.handles.length + (slot' - k.handles.length)) else _) = _
        rw [if_pos rfl]
        congr 1
        omega
    | bundled slot' index =>
      have hat : ((k.setBundle slot none).bundle? slot').bind (fun b => b.handles[index]?) =
          some x' := h
      rw [bundle?_setBundle] at hat
      split at hat
      next => cases hat
      next hne =>
        refine ⟨.bundled slot' index, hat, if_neg ?_⟩
        intro hs
        exact hne ⟨hs, lt_of_bundle? hb⟩

/-- A handle after an event was there before, perhaps elsewhere, or was given out. -/
theorem step_at {e : Event} {p' : Place} {x' : Handle} (h : (k.step e).at? p' = some x') :
    (e.Takes ∧ ¬k.Allocated p' ∧ x'.released = false) ∨
      ∃ p x, k.at? p = some x ∧ k.move e p = p' ∧
        x'.released = (x.released || k.releases e p) := by
  -- only taking a bundle apart moves handles, and only snapshots give them out
  have hkept : (∀ slot, e ≠ .use (.openBundle slot)) → Kept (k.releases e) k (k.step e) →
      ∃ p x, k.at? p = some x ∧ k.move e p = p' ∧
        x'.released = (x.released || k.releases e p) := by
    intro hne hkept
    obtain ⟨x, hx, hreleased⟩ := hkept p' x' h
    exact ⟨p', x, hx, move_of_ne hne k p', hreleased⟩
  have hfilled : e.Takes → (∀ p, k.releases e p = false) → Filled k (k.step e) →
      (e.Takes ∧ ¬k.Allocated p' ∧ x'.released = false) ∨
        ∃ p x, k.at? p = some x ∧ k.move e p = p' ∧
          x'.released = (x.released || k.releases e p) := by
    intro htakes hreleases hfilled
    rcases hfilled p' x' h with hx | hnew
    · exact Or.inr ⟨p', x', hx, move_of_takes htakes k p', by rw [hreleases, Bool.or_false]⟩
    · exact Or.inl ⟨htakes, hnew⟩
  cases e with
  | use u =>
    cases u with
    | snapshot => exact hfilled trivial (fun _ => rfl) (filled_snapshot k)
    | current => exact hfilled trivial (fun _ => rfl) (filled_snapshotCurrent k)
    | commit g => exact hfilled trivial (fun _ => rfl) (filled_snapshotCommit g k)
    | release slot => exact Or.inr (hkept nofun (kept_releaseHandle slot k))
    | drop slot => exact Or.inr (hkept nofun (kept_dropHandle slot k))
    | releaseBundle slot => exact Or.inr (hkept nofun (kept_releaseBundle slot k))
    | releaseInBundle slot index => exact Or.inr (hkept nofun (kept_releaseInBundle slot index k))
    | dropBundle slot => exact Or.inr (hkept nofun (kept_dropBundle slot k))
    | openBundle slot =>
      obtain ⟨p, hx, hmove⟩ := openBundle_at? h
      exact Or.inr ⟨p, x', hx, hmove, (Bool.or_false _).symm⟩
  | delete g => exact Or.inr (hkept nofun (deleteGuard_frame g k).kept)
  | cycle commits requests => exact Or.inr (hkept nofun (kept_cycle commits requests k))
  | world c => exact Or.inr (hkept nofun (Kept.of_slots rfl rfl))

/-- Two handles never meet in one place. -/
theorem move_injective {e : Event} {p q : Place} {x y : Handle} (hp : k.at? p = some x)
    (hq : k.at? q = some y) (h : k.move e p = k.move e q) : p = q := by
  -- the handles of a bundle move behind the loose ones, where no handle was
  by_cases he : ∃ slot, e = .use (.openBundle slot)
  · obtain ⟨slot, rfl⟩ := he
    have hlt : ∀ {slot' : Nat} {x : Handle}, k.at? (.loose slot') = some x →
        slot' < k.handles.length := fun hx => lt_of_handle? hx
    cases p with
    | loose i =>
      cases q with
      | loose j => exact h
      | bundled t j =>
        have hi := hlt hp
        have h' : Place.loose i =
          if slot = t then .loose (k.handles.length + j) else .bundled t j := h
        split at h'
        next => injection h' with h'; omega
        next => cases h'
    | bundled s i =>
      cases q with
      | loose j =>
        have hj := hlt hq
        have h' :
          (if slot = s then .loose (k.handles.length + i) else .bundled s i) = Place.loose j :=
          h
        split at h'
        next => injection h' with h'; omega
        next => cases h'
      | bundled t j =>
        have h' : (if slot = s then Place.loose (k.handles.length + i) else .bundled s i) =
            if slot = t then .loose (k.handles.length + j) else .bundled t j := h
        split at h'
        next hs =>
          split at h'
          next ht =>
            injection h' with h'
            rw [← hs, ← ht, Nat.add_left_cancel h']
          next => cases h'
        next =>
          split at h'
          next => cases h'
          next => exact h'
  · have hne : ∀ slot, e ≠ .use (.openBundle slot) := fun slot hslot => he ⟨slot, hslot⟩
    rwa [move_of_ne hne, move_of_ne hne] at h

/-- A handle is released exactly if it was asked to release itself since it was given out. -/
theorem Traced.released {called : Bool} (h : Traced k p called) (hx : k.at? p = some x) :
    x.released = called := by
  induction h generalizing x with
  | @taken k e p y _ _ htakes hnew _ =>
    rcases step_at hx with ⟨-, -, hfresh⟩ | ⟨q, y, hy, hmove, -⟩
    · exact hfresh
    · -- a new place held no handle before
      rw [move_of_takes htakes] at hmove
      exact absurd (allocated_of_at? (hmove ▸ hy)) hnew
  | @step k p called y e _ hy _ ih =>
    rcases step_at hx with ⟨htakes, hnew, -⟩ | ⟨q, z, hz, hmove, hreleased⟩
    · rw [move_of_takes htakes] at hnew
      exact absurd (allocated_of_at? hy) hnew
    · obtain rfl := move_injective hz hy hmove
      rw [hreleased, ih hz]

/-- Every handle was given out by some snapshot and can be followed from there. -/
theorem Reachable.traced (h : Reachable k) (hx : k.at? p = some x) :
    ∃ called, Traced k p called := by
  induction h generalizing p x with
  | new id reclaimOnRelease catalog =>
    cases p with
    | loose slot => cases hx
    | bundled slot index => cases hx
  | step e hreach hallows ih =>
    rcases step_at hx with ⟨htakes, hnew, -⟩ | ⟨q, y, hy, hmove, -⟩
    · exact ⟨false, Traced.taken hreach hallows htakes hnew hx⟩
    · obtain ⟨called, htraced⟩ := ih hy
      exact ⟨_, hmove ▸ htraced.step e hy hallows⟩

end Keeper

end SnapshotRetention
