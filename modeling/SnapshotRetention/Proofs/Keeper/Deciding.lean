import SnapshotRetention.Proofs.Keeper.Prunes

/-!
# While a primary policy decides

A writer offers all undeleted commits to a cycle, the newest of which nothing holds yet
(`Keeper.Offers`). From then on until the pin of the newest is gone the keeper is `Keeper.Deciding`:
a live version may lose its commit, so the live versions and the newest are merely spared from
having a deletion pending, and the commits that the policy asks for are doomed (`Keeper.Doomed`).

This holds whatever the policy does: it may ask for any of the commits, and it may give up holds of
its own while it decides (`CarriedOut`). Only a policy that gives up a hold of a commit it has just
asked for, with deletions not carried out on release, leaves a doomed commit behind that waits for
nothing; otherwise each doomed commit is gone or held (`Keeper.Prompt`).
-/

namespace SnapshotRetention.Keeper

variable {k k' d : Keeper} {commits : List Nat} {newest n : Nat} {shown : List Guard} {r : Request}
  {requests : List Request} {v : Version} {spared : Version → Prop} {doomed : Nat → Prop}

/-! ## Prompt deletions -/

/-- Whatever is doomed is gone or held. -/
def Prompt (doomed : Nat → Prop) (k : Keeper) : Prop :=
  ∀ n, n < k.catalog.commits.length → doomed n →
    k.catalog.isDeleted n = true ∨ 0 < k.holds.count (k.catalog.version n)

theorem SameHolds.prompt (hs : SameHolds k k') (h : Prompt doomed k) : Prompt doomed k' := by
  unfold Prompt
  rw [hs.catalog, hs.holds]
  exact h

theorem Prompt.deleteGuard (h : Prompt doomed k) {g : Guard}
    (hg : g.commit < k.catalog.commits.length)
    (hbacking : (k.catalog.commit g.commit).backing = .artifacts 0) :
    Prompt (fun n => n = g.commit ∨ doomed n) (k.deleteGuard g).2 := by
  have hf := deleteGuard_frame g k
  intro n hn hdoomed
  rw [deleteGuard_count, hf.commits.version]
  rcases Nat.eq_zero_or_pos (k.holds.count (k.version g)) with hnone | hheld
  · rw [deleteGuard_of_not_held hnone]
    rcases hdoomed with rfl | hdoomed
    · exact Or.inl (Catalog.isDeleted_delete_self hg hbacking)
    · exact (h n (hf.commits.length ▸ hn) hdoomed).imp_left
        (Catalog.isDeleted_delete_of_isDeleted g.commit)
  · rw [deleteGuard_of_held hheld]
    rcases hdoomed with rfl | hdoomed
    · exact Or.inr hheld
    · exact h n (hf.commits.length ▸ hn) hdoomed

/-- A release that frees a doomed commit deletes it, if deletions are carried out on release. -/
theorem Prompt.release (h : Prompt doomed k) (hw : Waits spared doomed k)
    (hartifacts : ∀ n, n < k.catalog.commits.length → (k.catalog.commit n).backing = .artifacts 0)
    (hon : k.reclaimOnRelease = true) (v : Version) : Prompt doomed (k.release v).2 := by
  cases released_release hw.positive v with
  | unheld hnone hsame => exact hsame.prompt h
  | fewer hheld hlast hsame =>
    refine hsame.prompt ?_
    intro n hn hdoomed
    have hcount := HoldTable.count_release hheld (k.catalog.version n)
    rcases hw.settled n hn hdoomed with hdeleted | hnone | hpending
    · exact Or.inl hdeleted
    · exact (h n hn hdoomed).imp_right fun hpos => absurd hnone (Nat.ne_of_gt hpos)
    · refine Or.inr ?_
      show 0 < (k.holds.release v).2.count (k.catalog.version n)
      have hpos := hw.positive.count_pos_of_pending? hpending
      split at hcount
      next hv =>
        -- with the last hold the deletion would have been carried out
        have hmore : k.holds.count v ≠ 1 := by
          intro hone
          rw [hv, hlast hone hon] at hpending
          cases hpending
        rw [hv] at hcount hpos ⊢
        omega
      next => omega
  | reclaimed m hone hm hsame =>
    obtain ⟨hlt, hversion, -⟩ := hw.pending v m hm
    have hframe := Catalog.sameCommits_delete m k.catalog
    refine hsame.prompt ?_
    intro n hn hdoomed
    have hn : n < k.catalog.commits.length := hframe.length ▸ hn
    have hcount := HoldTable.count_release (t := k.holds) (v := v) (by omega) (k.catalog.version n)
    show (k.catalog.delete m).2.isDeleted n = true ∨
      0 < (k.holds.release v).2.count ((k.catalog.delete m).2.version n)
    rw [hframe.version]
    rcases hw.settled n hn hdoomed with hdeleted | hnone | hpending
    · exact Or.inl (Catalog.isDeleted_delete_of_isDeleted m hdeleted)
    · refine (h n hn hdoomed).imp (Catalog.isDeleted_delete_of_isDeleted m) ?_
      intro hpos
      exact absurd hnone (Nat.ne_of_gt hpos)
    · -- only one commit can wait for a version
      by_cases hv : k.catalog.version n = v
      · rw [hv, hm] at hpending
        obtain rfl := Option.some.inj hpending
        exact Or.inl (Catalog.isDeleted_delete_self hlt (hartifacts m hlt))
      · have hpos := hw.positive.count_pos_of_pending? hpending
        rw [if_neg hv] at hcount
        exact Or.inr (by omega)

/-! ## All requests -/

/-- Whether a commit was asked for through one of some guards. -/
def Doomed (shown : List Guard) (k : Keeper) (n : Nat) : Prop :=
  ∃ g ∈ shown, g.serial ∈ k.marked ∧ g.commit = n

/-- The commits that a writer offers to a cycle: all that are not deleted, the newest of which
nothing holds. -/
structure Offers (k : Keeper) (commits : List Nat) (newest : Nat) : Prop where
  last : commits.getLast? = some newest
  nodup : commits.Nodup
  range : ∀ n ∈ commits, n < k.catalog.commits.length
  complete : ∀ n, n < k.catalog.commits.length → k.catalog.isDeleted n = false → n ∈ commits
  undeleted : k.catalog.isDeleted newest = false
  unheld : k.holds.count (k.catalog.version newest) = 0

/-- The versions on which no deletion may be pending while a policy decides, unless it asks for one.
-/
def Spared (newest : Nat) (k : Keeper) (v : Version) : Prop :=
  k.IsLive v ∨ v = k.catalog.version newest

/-- The keeper while the primary policy decides about offered commits. -/
structure Deciding (k : Keeper) (commits : List Nat) (newest : Nat) (d : Keeper) : Prop where
  carried : Carried (k.presented commits newest) d
  waits : Waits (Spared newest k) (Doomed (k.guardAll commits).1 d) d
  prunes : Catalog.Prunes k.catalog d.catalog

theorem Offers.newest_mem (h : Offers k commits newest) : newest ∈ commits :=
  List.mem_of_getLast? h.last

theorem Offers.deciding (h : Offers k commits newest) (hk : Issued k) (hr : Retained k) :
    Deciding k commits newest (k.presented commits newest) := by
  have hcount : ∀ v, (k.presented commits newest).holds.count v =
      k.holds.count v + if v = k.catalog.version newest then 1 else 0 :=
    HoldTable.count_acquire k.holds _
  have hpending : ∀ v, (k.presented commits newest).holds.pending? v = k.holds.pending? v :=
    HoldTable.pending?_acquire k.holds _
  have hlt := h.range newest h.newest_mem
  refine
    { carried := .refl _
      waits :=
        { positive := hr.waits.positive.acquire _
          safe := ?_
          pending := ?_
          waiting := ?_
          settled := ?_ }
      prunes := .refl _ }
  · -- the pin is a hold of the newest alone, which is not deleted
    intro n hn hheld
    rw [hcount] at hheld
    split at hheld
    next hv =>
      have heq : n = newest := hr.distinct n newest hn hlt hv
      exact heq ▸ h.undeleted
    next => exact hr.waits.safe n hn hheld
  · intro v n hp
    rw [hpending] at hp
    obtain ⟨hn, hv, hnot⟩ := hr.pending hp
    -- nothing waits for the newest, since nothing held it before
    refine ⟨hn, hv, fun hspared => (hspared.elim hnot ?_).elim⟩
    intro hnewest
    have hpos := hr.waits.positive.count_pos_of_pending? hp
    rw [hnewest, h.unheld] at hpos
    exact Nat.lt_irrefl 0 hpos
  · intro v hheld hnot
    have hne : v ≠ k.catalog.version newest := fun hv => hnot (Or.inr hv)
    rw [hcount, if_neg hne] at hheld
    rw [hpending]
    exact hr.waits.waiting v hheld fun hlive => hnot (Or.inl hlive)
  · intro n hn hdoomed
    -- the guards are new, so none of them has been asked yet
    obtain ⟨g, hg, hmarked, -⟩ := hdoomed
    obtain ⟨i, -, hs⟩ := mem_guardAll hg
    have := hk.marked g.serial hmarked
    omega

section
variable (h : Deciding k commits newest d)
include h

theorem Deciding.length : d.catalog.commits.length = k.catalog.commits.length :=
  h.carried.commits.length

theorem Deciding.version (n : Nat) : d.catalog.version n = k.catalog.version n :=
  h.carried.commits.version n

theorem Deciding.distinct (hr : Retained k) : d.catalog.Distinct :=
  h.carried.commits.distinct hr.distinct

theorem Deciding.artifacts (hr : Retained k) :
    ∀ n, n < d.catalog.commits.length → (d.catalog.commit n).backing = .artifacts 0 :=
  h.prunes.artifacts hr.artifacts

end

theorem doomed_deleteGuard {g : Guard} (hg : g ∈ (k.guardAll commits).1) (n : Nat) :
    Doomed (k.guardAll commits).1 (d.deleteGuard g).2 n ↔
      n = g.commit ∨ Doomed (k.guardAll commits).1 d n := by
  unfold Doomed
  rw [deleteGuard_marked]
  constructor
  · rintro ⟨g', hg', hmarked, rfl⟩
    rcases List.mem_cons.mp hmarked with hs | hmarked
    · exact Or.inl (commit_eq_of_serial_eq hg' hg hs)
    · exact Or.inr ⟨g', hg', hmarked, rfl⟩
  · rintro (rfl | ⟨g', hg', hmarked, rfl⟩)
    · exact ⟨g, hg, List.mem_cons_self, rfl⟩
    · exact ⟨g', hg', List.mem_cons_of_mem _ hmarked, rfl⟩

/-- A guard that was shown stands for a commit that exists. -/
theorem Offers.commit_lt (h : Offers k commits newest) (hd : Deciding k commits newest d)
    {g : Guard} (hg : g ∈ (k.guardAll commits).1) : g.commit < d.catalog.commits.length := by
  obtain ⟨i, hi, -⟩ := mem_guardAll hg
  rw [hd.length]
  exact h.range g.commit (List.mem_of_getElem? hi)

theorem SameHolds.doomed_iff (hs : SameHolds d k') (n : Nat) :
    Doomed shown k' n ↔ Doomed shown d n := by
  unfold Doomed
  rw [hs.marked]

/-- One request leaves the keeper deciding. -/
theorem Deciding.carryOut (hd : Deciding k commits newest d) (h : Offers k commits newest)
    (hr : Retained k) (r : Request) :
    Deciding k commits newest (d.carryOut (k.guardAll commits).1 r).2 := by
  have hcarried := carryOut_carried (k.guardAll commits).1 r d
  have hprunes := carryOut_prunes (k.guardAll commits).1 r d
  have hcase := carriedOut_carryOut (k.guardAll commits).1 r d
  generalize (d.carryOut (k.guardAll commits).1 r).2 = d' at hcarried hprunes hcase ⊢
  refine ⟨hd.carried.trans hcarried, ?_, hd.prunes.trans hprunes⟩
  cases hcase with
  | nothing hsame => exact (hsame.waits hd.waits).congr (fun v => Iff.rfl) hsame.doomed_iff
  | asked g hg heq =>
    have hlt := h.commit_lt hd hg
    rw [heq]
    exact (hd.waits.deleteGuard (hd.distinct hr) hlt (hd.artifacts hr g.commit hlt)).congr
      (fun v => Iff.rfl) (doomed_deleteGuard hg)
  | released v _ hsame =>
    refine (hsame.waits (hd.waits.release v)).congr (fun v => Iff.rfl) ?_
    intro n
    rw [hsame.doomed_iff]
    unfold Doomed
    rw [release_marked]

/-- What is doomed goes promptly if deletions are carried out on release, or if the policy gives up
no hold. -/
theorem Deciding.prompt_carryOut (hd : Deciding k commits newest d) (h : Offers k commits newest)
    (hr : Retained k) (hp : Prompt (Doomed (k.guardAll commits).1 d) d)
    (hone : k.reclaimOnRelease = true ∨ r.Deletes) :
    Prompt (Doomed (k.guardAll commits).1 (d.carryOut (k.guardAll commits).1 r).2)
      (d.carryOut (k.guardAll commits).1 r).2 := by
  have hcase := carriedOut_carryOut (k.guardAll commits).1 r d
  generalize (d.carryOut (k.guardAll commits).1 r).2 = d' at hcase ⊢
  cases hcase with
  | nothing hsame =>
    rw [show Doomed (k.guardAll commits).1 d' = Doomed (k.guardAll commits).1 d from
      funext fun n => propext (hsame.doomed_iff n)]
    exact hsame.prompt hp
  | asked g hg heq =>
    have hlt := h.commit_lt hd hg
    rw [heq, show Doomed (k.guardAll commits).1 (d.deleteGuard g).2 = _ from
      funext fun n => propext (doomed_deleteGuard hg n)]
    exact hp.deleteGuard hlt (hd.artifacts hr g.commit hlt)
  | released v hnot hsame =>
    have hon : d.reclaimOnRelease = true :=
      hd.carried.reclaimOnRelease.trans (hone.resolve_right hnot)
    have hmarked : d'.marked = d.marked := hsame.marked.trans (release_marked v d)
    have hreleased := hsame.prompt (hp.release hd.waits (hd.artifacts hr) hon v)
    unfold Doomed at hreleased ⊢
    rw [hmarked]
    exact hreleased

/-- The keeper decides until the last request. -/
theorem Deciding.carryOutAll (hd : Deciding k commits newest d) (h : Offers k commits newest)
    (hr : Retained k) (requests : List Request) :
    Deciding k commits newest (d.carryOutAll (k.guardAll commits).1 requests).2 := by
  rw [carryOutAll_state]
  generalize d.carriedOut (k.guardAll commits).1 requests = carried
  induction carried generalizing d with
  | nil => exact hd
  | cons r rest ih => exact ih (hd.carryOut h hr r)

theorem Deciding.prompt_carryOutAll (hd : Deciding k commits newest d)
    (h : Offers k commits newest) (hr : Retained k)
    (hp : Prompt (Doomed (k.guardAll commits).1 d) d)
    (hall : k.reclaimOnRelease = true ∨ ∀ r ∈ requests, r.Deletes) :
    Prompt (Doomed (k.guardAll commits).1 (d.carryOutAll (k.guardAll commits).1 requests).2)
      (d.carryOutAll (k.guardAll commits).1 requests).2 := by
  rw [carryOutAll_state]
  have hcarried : ∀ r ∈ d.carriedOut (k.guardAll commits).1 requests,
      k.reclaimOnRelease = true ∨ r.Deletes :=
    fun r hmem => hall.imp_right fun hdeletes => hdeletes r (mem_carriedOut hmem)
  -- the requests that are carried out depend on the keeper, which varies in the induction
  revert hcarried
  generalize d.carriedOut (k.guardAll commits).1 requests = carried
  intro hcarried
  induction carried generalizing d with
  | nil => exact hp
  | cons r rest ih =>
    exact ih (hd.carryOut h hr r) (hd.prompt_carryOut h hr hp (hcarried r List.mem_cons_self))
      fun r' hr' => hcarried r' (List.mem_cons_of_mem _ hr')

end SnapshotRetention.Keeper
