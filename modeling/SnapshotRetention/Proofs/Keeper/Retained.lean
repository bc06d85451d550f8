import SnapshotRetention.Proofs.Keeper.Waits

/-!
# What a keeper retains

Over commits of distinct versions that all have artifacts, no commit whose version is live or held
is deleted, and a deletion is pending on a version exactly if it is held and not live
(`Keeper.Retained`). Each hold that a consumer takes or gives back keeps that (`Retained.acquire`,
`Retained.releaseValue`), and so do commits that are added (`Retained.world`).

Conversely an undeleted commit is live or held (`Keeper.Exact`) after a cycle. Until the next one
consumers keep this too if deletions that wait are carried out with the last release (`Exact.use`);
otherwise a commit may be left that nothing holds any more. Only the commits up to a bound are
meant: one that no policy has been shown has no reason to be kept yet.
-/

namespace SnapshotRetention.Keeper

variable {k k' : Keeper} {bound n : Nat} {v : Version}

/-- Whether a version is in the published list. -/
def IsLive (v : Version) (k : Keeper) : Prop :=
  ∃ live, k.live = some live ∧ ∃ g ∈ live.guards, k.version g = v

/-- What has been shown to the policy is what the published list comes from: there is a list as soon
as anything has been shown, and it names nothing else. -/
structure Listed (seen : List Nat) (k : Keeper) : Prop where
  published : seen ≠ [] → k.live ≠ none
  shown : ∀ live, k.live = some live → ∀ g ∈ live.guards, g.commit ∈ seen

/-- Nothing live or held is deleted, and what is held but not live waits for its deletion. -/
structure Retained (k : Keeper) : Prop where
  waits : Waits (fun v => k.IsLive v) (fun _ => False) k
  distinct : k.catalog.Distinct
  artifacts : ∀ n, n < k.catalog.commits.length → (k.catalog.commit n).backing = .artifacts 0
  live : ∀ n, n < k.catalog.commits.length → k.IsLive (k.catalog.version n) →
    k.catalog.isDeleted n = false

/-- Nothing is kept without a reason: every undeleted commit below the bound is live or held. -/
def Exact (bound : Nat) (k : Keeper) : Prop :=
  ∀ n, n < bound → n < k.catalog.commits.length → k.catalog.isDeleted n = false →
    k.IsLive (k.catalog.version n) ∨ 0 < k.holds.count (k.catalog.version n)

theorem Retained.new (id : Nat) (reclaimOnRelease : Bool) {c : Catalog} (hc : c.Distinct)
    (hartifacts : ∀ n, n < c.commits.length → (c.commit n).backing = .artifacts 0) :
    Retained (.new id reclaimOnRelease c) := by
  refine
    { waits := ⟨HoldTable.positive_empty, ?_, ?_, ?_, ?_⟩
      distinct := hc
      artifacts := hartifacts
      live := fun n _ ⟨live, hlive, _⟩ => by cases hlive }
  · exact fun n _ hheld => absurd hheld (Nat.lt_irrefl 0)
  · exact fun v n hp => by cases hp
  · exact fun v hheld => absurd hheld (Nat.lt_irrefl 0)
  · exact fun n _ hdoomed => hdoomed.elim

theorem Retained.safe (h : Retained k) (hn : n < k.catalog.commits.length)
    (hkept : k.IsLive (k.catalog.version n) ∨ 0 < k.holds.count (k.catalog.version n)) :
    k.catalog.isDeleted n = false :=
  hkept.elim (h.live n hn) (h.waits.safe n hn)

/-- A pending deletion is one of a commit of the version, which is not live. -/
theorem Retained.pending (h : Retained k) (hp : k.holds.pending? v = some n) :
    n < k.catalog.commits.length ∧ k.catalog.version n = v ∧ ¬k.IsLive v :=
  h.waits.pending v n hp

/-- A deletion is pending on a version exactly if the version is held and not live. -/
theorem Retained.hasPending_iff (h : Retained k) (v : Version) :
    k.holds.hasPending v = true ↔ 0 < k.holds.count v ∧ ¬k.IsLive v := by
  rw [HoldTable.hasPending_eq, Option.isSome_iff_exists]
  constructor
  · rintro ⟨n, hn⟩
    exact ⟨h.waits.positive.count_pos_of_pending? hn, (h.pending hn).2.2⟩
  · rintro ⟨hheld, hnot⟩
    exact h.waits.waiting v hheld hnot

/-- A version that is held is the version of a commit. -/
theorem Retained.exists_of_held (h : Retained k) (hk : Issued k) (hheld : 0 < k.holds.count v) :
    ∃ n, n < k.catalog.commits.length ∧ k.catalog.version n = v := by
  by_cases hlive : k.IsLive v
  · obtain ⟨live, hlive, g, hg, hv⟩ := hlive
    exact ⟨g.commit, (hk.live live hlive g hg).commit, hv⟩
  · obtain ⟨n, hn⟩ := h.waits.waiting v hheld hlive
    exact ⟨n, (h.pending hn).1, (h.pending hn).2.1⟩

/-! ## Slots do not matter -/

theorem SameHolds.isLive (h : SameHolds k k') : k'.IsLive v ↔ k.IsLive v := by
  unfold IsLive version
  rw [h.live, h.catalog]

theorem SameHolds.retained (h : SameHolds k k') (hk : Retained k) : Retained k' := by
  refine ⟨?_, ?_, ?_, ?_⟩
  · exact (h.waits hk.waits).congr (fun v => h.isLive) fun n => Iff.rfl
  · rw [h.catalog]
    exact hk.distinct
  · rw [h.catalog]
    exact hk.artifacts
  · simp only [h.catalog, h.isLive]
    exact hk.live

theorem SameHolds.exact (h : SameHolds k k') (hk : Exact bound k) : Exact bound k' := by
  unfold Exact
  simp only [h.catalog, h.holds, h.isLive]
  exact hk

/-! ## Taking -/

/-- A version may be held if it is live or held already. -/
theorem Retained.acquire (h : Retained k) (hv : k.IsLive v ∨ 0 < k.holds.count v) :
    Retained (k.acquire v) := by
  have hcount : ∀ w, 0 < (k.acquire v).holds.count w → k.IsLive w ∨ 0 < k.holds.count w := by
    intro w hw
    have hacquire := HoldTable.count_acquire k.holds v w
    by_cases hwv : w = v
    · rw [hwv]
      exact hv
    · rw [if_neg hwv] at hacquire
      have hw' : 0 < (k.holds.acquire v).count w := hw
      exact Or.inr (by omega)
  have hpending : ∀ w, (k.acquire v).holds.pending? w = k.holds.pending? w :=
    HoldTable.pending?_acquire k.holds v
  refine
    { waits := ⟨h.waits.positive.acquire v, fun n hn hn' => h.safe hn (hcount _ hn'),
        fun w n hp => h.waits.pending w n (hpending w ▸ hp), ?_,
        fun n _ hdoomed => hdoomed.elim⟩
      distinct := h.distinct
      artifacts := h.artifacts
      live := h.live }
  intro w hw hnot
  rw [hpending]
  rcases hcount w hw with hl | hheld
  · exact absurd hl hnot
  · exact h.waits.waiting w hheld hnot

theorem Exact.acquire (h : Exact bound k) (v : Version) : Exact bound (k.acquire v) := by
  intro n hb hn hkept
  refine (h n hb hn hkept).imp (fun hlive => hlive) ?_
  intro hheld
  have hacquire := HoldTable.count_acquire k.holds v (k.catalog.version n)
  show 0 < (k.holds.acquire v).count (k.catalog.version n)
  omega

/-! ## Giving back -/

theorem isLive_sameCommits {c : Catalog} (hc : k.catalog.SameCommits c) (v : Version) :
    IsLive v { k with catalog := c } ↔ k.IsLive v := by
  unfold IsLive version
  simp only [hc.version]

theorem Retained.fewer (h : Retained k) (hheld : 0 < k.holds.count v) :
    Retained { k with holds := (k.holds.release v).2 } :=
  ⟨h.waits.fewer hheld, h.distinct, h.artifacts, h.live⟩

/-- A commit that is neither live nor held may be deleted. -/
theorem Retained.delete (h : Retained k) (hn : n < k.catalog.commits.length)
    (hnone : k.holds.count (k.catalog.version n) = 0) (hnot : ¬k.IsLive (k.catalog.version n)) :
    Retained { k with catalog := (k.catalog.delete n).2 } := by
  have hframe := Catalog.sameCommits_delete n k.catalog
  refine
    { waits := (h.waits.delete hnone).congr (isLive_sameCommits hframe) fun _ => Iff.rfl
      distinct := hframe.distinct h.distinct
      artifacts := ?_
      live := ?_ }
  · intro m hm
    exact (Catalog.backing_delete (h.artifacts n hn) m).trans (h.artifacts m (hframe.length ▸ hm))
  · intro m hm hlive
    rw [isLive_sameCommits hframe] at hlive
    have hbefore : k.IsLive (k.catalog.version m) := hframe.version m ▸ hlive
    have hne : m ≠ n := by
      rintro rfl
      exact hnot hbefore
    show (k.catalog.delete n).2.isDeleted m = false
    rw [Catalog.isDeleted_delete_of_ne hne]
    exact h.live m (hframe.length ▸ hm) hbefore

theorem Retained.release (h : Retained k) (v : Version) : Retained (k.release v).2 := by
  cases released_release h.waits.positive v with
  | unheld hnone hsame => exact hsame.retained h
  | fewer hheld _ hsame => exact hsame.retained (h.fewer hheld)
  | reclaimed n hone hn hsame =>
    obtain ⟨hlt, hv, hnot⟩ := h.pending hn
    refine hsame.retained ((h.fewer (by omega)).delete hlt (h.waits.count_reclaimed hone hn) ?_)
    intro hlive
    exact hnot (hv ▸ hlive)

/-- With deletions carried out on release, a commit that nothing holds any more goes or is live. -/
theorem Exact.release (h : Exact bound k) (hk : Retained k) (hon : k.reclaimOnRelease = true)
    (v : Version) : Exact bound (k.release v).2 := by
  cases released_release hk.waits.positive v with
  | unheld hnone hsame => exact hsame.exact h
  | fewer hheld hlast hsame =>
    refine hsame.exact ?_
    intro n hb hn hkept
    have hcount := HoldTable.count_release hheld (k.catalog.version n)
    rcases h n hb hn hkept with hlive | hold
    · exact Or.inl hlive
    · by_cases hlastOne : k.catalog.version n = v ∧ k.holds.count v = 1
      · -- nothing waited for this hold, so the version is live
        obtain ⟨rfl, hone⟩ := hlastOne
        have hnone := hlast hone hon
        refine Or.inl (Classical.byContradiction ?_)
        intro hnotLive
        obtain ⟨m, hm⟩ := hk.waits.waiting _ hheld hnotLive
        exact absurd (hnone.symm.trans hm) nofun
      · refine Or.inr ?_
        show 0 < (k.holds.release v).2.count (k.catalog.version n)
        split at hcount
        next hv =>
          have hmore : k.holds.count v ≠ 1 := fun hone => hlastOne ⟨hv, hone⟩
          rw [hv] at hcount ⊢
          omega
        next => omega
  | reclaimed n hone hn hsame =>
    obtain ⟨hlt, hversion, -⟩ := hk.pending hn
    have hframe := Catalog.sameCommits_delete n k.catalog
    refine hsame.exact ?_
    intro m hb hm hkept
    have hm : m < k.catalog.commits.length := hframe.length ▸ hm
    have hkept : (k.catalog.delete n).2.isDeleted m = false := hkept
    have hne : m ≠ n := by
      rintro rfl
      rw [Catalog.isDeleted_delete_self hlt (hk.artifacts m hlt)] at hkept
      cases hkept
    rw [Catalog.isDeleted_delete_of_ne hne] at hkept
    have hcount := HoldTable.count_release (t := k.holds) (v := v) (by omega) (k.catalog.version m)
    have hother : k.catalog.version m ≠ v :=
      fun hv => hne (hk.distinct m n hm hlt (hv.trans hversion.symm))
    rw [if_neg hother] at hcount
    rw [isLive_sameCommits (k := { k with holds := (k.holds.release v).2 }) hframe]
    show k.IsLive ((k.catalog.delete n).2.version m) ∨
      0 < (k.holds.release v).2.count ((k.catalog.delete n).2.version m)
    rw [hframe.version]
    exact (h m hb hm hkept).imp (fun hlive => hlive) fun hheld => by omega

/-! ## Consumers -/

theorem Retained.releaseValue (h : Retained k) (x : Handle) : Retained (k.releaseValue x).2.2 := by
  unfold Keeper.releaseValue
  split
  next => exact h
  next => exact h.release _

theorem Exact.releaseValue (h : Exact bound k) (hk : Retained k) (hon : k.reclaimOnRelease = true)
    (x : Handle) : Exact bound (k.releaseValue x).2.2 := by
  unfold Keeper.releaseValue
  split
  next => exact h
  next => exact h.release hk hon _

/-- Releases of several handles keep what one release keeps. -/
theorem releaseValues_induct {P : Keeper → Prop} (hstep : ∀ x k, P k → P (k.releaseValue x).2.2)
    (hs : List Handle) (h : P k) : P (k.releaseValues hs).2.2 := by
  induction hs generalizing k with
  | nil => exact h
  | cons x hs ih => exact ih (hstep x k h)

/-- What each hold of a live version keeps, holding the versions of several guards keeps. -/
theorem acquireEach_induct {P : Keeper → Prop}
    (hstep : ∀ {k : Keeper} {v : Version}, k.IsLive v → P k → P (k.acquire v))
    (guards : List Guard) (hlive : ∀ g ∈ guards, k.IsLive (k.version g)) (h : P k) :
    P (guards.foldl (fun k g => k.acquire (k.version g)) k) := by
  induction guards generalizing k with
  | nil => exact h
  | cons g guards ih =>
    exact ih (fun g' hg' => hlive g' (List.mem_cons_of_mem _ hg'))
      (hstep (hlive g List.mem_cons_self) h)

section
variable {P : Keeper → Prop} (hsame : ∀ {k k' : Keeper}, SameHolds k k' → P k → P k')
include hsame

/-! What a keeper keeps when a hold is taken, it keeps when a snapshot is taken. -/

section
variable (hacquire : ∀ {k : Keeper} {v : Version}, k.IsLive v ∨ 0 < k.holds.count v → P k →
  P (k.acquire v))
include hacquire

theorem hold_induct {g : Guard} (hg : k.IsLive (k.version g) ∨ 0 < k.holds.count (k.version g))
    (h : P k) : P (k.hold g).2 := by
  refine hsame ?_ (hacquire hg h)
  exact ⟨rfl, rfl, rfl, rfl, rfl, rfl⟩

theorem snapshot_induct (h : P k) : P k.snapshot.2 := by
  unfold snapshot
  split
  next => exact h
  next live hlive =>
    have hall := acquireEach_induct (P := P) (fun hv hk => hacquire (Or.inl hv) hk) live.guards
      (fun g hg => ⟨live, hlive, g, hg, rfl⟩) h
    refine hsame ?_ hall
    exact ⟨rfl, rfl, rfl, rfl, rfl, rfl⟩

theorem snapshotCurrent_induct (h : P k) : P k.snapshotCurrent.2 := by
  unfold snapshotCurrent
  split
  next => exact h
  next g hg =>
    obtain ⟨live, hlive, hlast⟩ := Option.bind_eq_some_iff.mp hg
    exact hold_induct hsame hacquire
      (Or.inl ⟨live, hlive, g, List.mem_of_getLast? hlast, rfl⟩) h

theorem snapshotCommit_induct (g : Guard) (h : P k) : P (k.snapshotCommit g).2 := by
  unfold snapshotCommit
  split
  next => exact h
  next =>
    split
    next current hcurrent =>
      obtain ⟨live, hlive, hmem, -⟩ := mem_of_liveGuard? hcurrent
      exact hold_induct hsame hacquire (Or.inl ⟨live, hlive, current, hmem, rfl⟩) h
    next =>
      split
      next hheld =>
        exact hold_induct hsame hacquire (Or.inr ((HoldTable.isHeld_iff _ _).mp hheld)) h
      next => exact h

end

/-! What it keeps when a handle is released, it keeps whatever is given back. -/

section
variable (hrelease : ∀ {k : Keeper} (x : Handle), P k → P (k.releaseValue x).2.2)
include hrelease

theorem releaseHandle_induct (slot : Nat) (h : P k) : P (k.releaseHandle slot).2 := by
  unfold releaseHandle
  split
  next => exact h
  next x _ =>
    refine hsame ?_ (hrelease x h)
    exact ⟨rfl, rfl, rfl, rfl, rfl, rfl⟩

theorem dropHandle_induct (slot : Nat) (h : P k) : P (k.dropHandle slot).2 := by
  unfold dropHandle
  split
  next => exact h
  next x _ =>
    refine hsame ?_ (hrelease x h)
    exact ⟨rfl, rfl, rfl, rfl, rfl, rfl⟩

theorem releaseBundle_induct (slot : Nat) (h : P k) : P (k.releaseBundle slot).2 := by
  unfold releaseBundle
  split
  next => exact h
  next b _ =>
    have hall := releaseValues_induct (fun x _ => hrelease x) b.handles h
    refine hsame ?_ hall
    exact ⟨rfl, rfl, rfl, rfl, rfl, rfl⟩

theorem dropBundle_induct (slot : Nat) (h : P k) : P (k.dropBundle slot).2 := by
  unfold dropBundle
  split
  next => exact h
  next b _ =>
    have hall := releaseValues_induct (fun x _ => hrelease x) b.handles h
    refine hsame ?_ hall
    exact ⟨rfl, rfl, rfl, rfl, rfl, rfl⟩

theorem releaseInBundle_induct (slot index : Nat) (h : P k) :
    P (k.releaseInBundle slot index).2 := by
  unfold releaseInBundle
  split
  next => exact h
  next b _ =>
    split
    next => exact h
    next x _ =>
      refine hsame ?_ (hrelease x h)
      exact ⟨rfl, rfl, rfl, rfl, rfl, rfl⟩

end

theorem openBundle_induct (slot : Nat) (h : P k) : P (k.openBundle slot).2 := by
  unfold openBundle
  split
  next => exact h
  next =>
    refine hsame ?_ h
    exact ⟨rfl, rfl, rfl, rfl, rfl, rfl⟩

/-- What every hold of a live or held version and every release keeps, all consumers keep. -/
theorem use_induct
    (hacquire : ∀ {k : Keeper} {v : Version}, k.IsLive v ∨ 0 < k.holds.count v → P k →
      P (k.acquire v))
    (hrelease : ∀ {k : Keeper} (x : Handle), P k → P (k.releaseValue x).2.2)
    (u : Use) (h : P k) : P (k.use u) := by
  cases u with
  | snapshot => exact snapshot_induct hsame hacquire h
  | current => exact snapshotCurrent_induct hsame hacquire h
  | commit g => exact snapshotCommit_induct hsame hacquire g h
  | release slot => exact releaseHandle_induct hsame hrelease slot h
  | drop slot => exact dropHandle_induct hsame hrelease slot h
  | releaseBundle slot => exact releaseBundle_induct hsame hrelease slot h
  | releaseInBundle slot index => exact releaseInBundle_induct hsame hrelease slot index h
  | dropBundle slot => exact dropBundle_induct hsame hrelease slot h
  | openBundle slot => exact openBundle_induct hsame slot h

end

theorem releaseValue_reclaimOnRelease (x : Handle) (k : Keeper) :
    (k.releaseValue x).2.2.reclaimOnRelease = k.reclaimOnRelease :=
  (releaseValue_frame x k).reclaimOnRelease

theorem use_reclaimOnRelease (u : Use) (k : Keeper) :
    (k.use u).reclaimOnRelease = k.reclaimOnRelease :=
  use_induct (P := fun k' => k'.reclaimOnRelease = k.reclaimOnRelease)
    (fun hsame hk => hsame.reclaimOnRelease.trans hk) (fun _ hk => hk)
    (fun x hk => (releaseValue_reclaimOnRelease x _).trans hk) u rfl

/-- Consumers see the published list and leave it as it is. -/
theorem use_live (u : Use) (k : Keeper) : (k.use u).live = k.live :=
  use_induct (P := fun k' => k'.live = k.live) (fun hsame hk => hsame.live.trans hk)
    (fun _ hk => hk) (fun x hk => (releaseValue_frame x _).live.trans hk) u rfl

theorem Retained.use (h : Retained k) (u : Use) : Retained (k.use u) :=
  use_induct (fun hsame hk => hsame.retained hk) (fun hv hk => hk.acquire hv)
    (fun x hk => hk.releaseValue x) u h

theorem Exact.use (h : Exact bound k) (hk : Retained k) (hon : k.reclaimOnRelease = true)
    (u : Use) : Exact bound (k.use u) := by
  have hall : Exact bound (k.use u) ∧ Retained (k.use u) ∧ (k.use u).reclaimOnRelease = true := by
    refine use_induct (P := fun k => Exact bound k ∧ Retained k ∧ k.reclaimOnRelease = true)
      ?_ ?_ ?_ u ⟨h, hk, hon⟩
    · intro k1 k2 hsame hk
      exact ⟨hsame.exact hk.1, hsame.retained hk.2.1, hsame.reclaimOnRelease.trans hk.2.2⟩
    · intro k1 v hv hk
      exact ⟨hk.1.acquire _, hk.2.1.acquire hv, hk.2.2⟩
    · intro k1 x hk
      exact ⟨hk.1.releaseValue hk.2.1 hk.2.2 x, hk.2.1.releaseValue x,
        (releaseValue_reclaimOnRelease x _).trans hk.2.2⟩
  exact hall.1

/-! ## The world -/

theorem isLive_world (hk : Issued k) {c : Catalog} (hc : k.catalog.Extends c) (v : Version) :
    IsLive v { k with catalog := c } ↔ k.IsLive v := by
  have hversion : ∀ live, k.live = some live → ∀ g ∈ live.guards,
      c.version g.commit = k.catalog.version g.commit :=
    fun live hlive g hg => hc.version (hk.live live hlive g hg).commit
  constructor
  · rintro ⟨live, hlive, g, hg, hv⟩
    exact ⟨live, hlive, g, hg, (hversion live hlive g hg).symm.trans hv⟩
  · rintro ⟨live, hlive, g, hg, hv⟩
    exact ⟨live, hlive, g, hg, (hversion live hlive g hg).trans hv⟩

/-- Commits may be added, and nothing else may happen to a commit behind the keeper's back. -/
theorem Retained.world (h : Retained k) (hk : Issued k) {c : Catalog} (hc : k.catalog.Extends c)
    (hdistinct : c.Distinct)
    (hartifacts : ∀ n, n < c.commits.length → (c.commit n).backing = .artifacts 0)
    (hold : ∀ n, n < k.catalog.commits.length → c.isDeleted n = k.catalog.isDeleted n)
    (hnew : ∀ n, k.catalog.commits.length ≤ n → n < c.commits.length → c.isDeleted n = false) :
    Retained { k with catalog := c } := by
  have hlive := isLive_world hk hc
  have hkept : ∀ n, n < c.commits.length → (n < k.catalog.commits.length →
      c.version n = k.catalog.version n → k.catalog.isDeleted n = false) →
        c.isDeleted n = false := by
    intro n hn hold'
    rcases Nat.lt_or_ge n k.catalog.commits.length with hlt | hge
    · exact (hold n hlt).trans (hold' hlt (hc.version hlt))
    · exact hnew n hge hn
  refine
    { waits := ⟨h.waits.positive, ?_, ?_, ?_,
        fun n _ hdoomed => hdoomed.elim⟩
      distinct := hdistinct
      artifacts := hartifacts
      live := ?_ }
  · intro n hn hheld
    exact hkept n hn fun hlt hv => h.waits.safe n hlt (hv ▸ hheld)
  · intro v n hp
    obtain ⟨hn, hv, hnot⟩ := h.pending hp
    exact ⟨Nat.lt_of_lt_of_le hn hc.length, (hc.version hn).trans hv,
      fun hl => hnot ((hlive v).mp hl)⟩
  · intro v hv hnot
    exact h.waits.waiting v hv fun hl => hnot ((hlive v).mpr hl)
  · intro n hn hl
    rw [hlive] at hl
    exact hkept n hn fun hlt hv => h.live n hlt (hv ▸ hl)

theorem Exact.world (h : Exact bound k) (hk : Issued k) {c : Catalog} (hc : k.catalog.Extends c)
    (hbound : bound ≤ k.catalog.commits.length)
    (hold : ∀ n, n < k.catalog.commits.length → c.isDeleted n = k.catalog.isDeleted n) :
    Exact bound { k with catalog := c } := by
  intro n hb hn hkept
  have hlt : n < k.catalog.commits.length := Nat.lt_of_lt_of_le hb hbound
  rw [isLive_world hk hc]
  show k.IsLive (c.version n) ∨ 0 < k.holds.count (c.version n)
  rw [hc.version hlt]
  exact h n hb hlt ((hold n hlt).symm.trans hkept)

end SnapshotRetention.Keeper
