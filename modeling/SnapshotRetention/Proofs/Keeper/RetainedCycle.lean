import SnapshotRetention.Proofs.Keeper.Deciding

/-!
# Cycles retain what is live or held

A cycle to which all undeleted commits are offered retains what is live or held, whatever the
primary policy does (`Offers.retained`), and leaves nothing else undeleted if the policy gives up no
hold or if deletions are carried out on release (`Offers.exact`).

The argument goes backwards from the publication. A published commit is not deleted, and an
undeleted commit that is not published was asked for (`Publishes`); so it waits for its holds if it
has any. Both ends of a cycle come down to this: the one that publishes the survivors, after the
newest has gone if only its pin kept it (`Deciding.concludeWith`), and the one that has to publish
the newest because nothing else is left (`Deciding.concludeWithout`).
-/

namespace SnapshotRetention.Keeper

variable {k d u : Keeper} {commits : List Nat} {newest n bound generation : Nat}
  {requests : List Request} {guards shown : List Guard} {v : Version} {spared : Version → Prop}
  {doomed : Nat → Prop} {decided : Except Error Unit}

/-! ## Publication -/

theorem isLive_publish (generation : Nat) (guards : List Guard) (u : Keeper) (v : Version) :
    (u.publish generation guards).IsLive v ↔ ∃ g ∈ guards, u.version g = v := by
  have hversion : ∀ g, (u.publish generation guards).version g = u.version g :=
    (clearPending_frame guards u).version
  constructor
  · rintro ⟨live, hlive, g, hg, hv⟩
    obtain rfl := Option.some.inj hlive
    exact ⟨g, hg, (hversion g).symm.trans hv⟩
  · rintro ⟨g, hg, hv⟩
    exact ⟨_, rfl, g, hg, (hversion g).trans hv⟩

theorem publish_positive (h : u.holds.Positive) (generation : Nat) (guards : List Guard) :
    (u.publish generation guards).holds.Positive := by
  show (u.clearPending guards).holds.Positive
  induction guards generalizing u with
  | nil => exact h
  | cons g guards ih =>
    exact ih (u := { u with holds := u.holds.clearPending (u.version g) }) (h.clearPending _)

/-- A keeper at the end of a cycle, and the guards that it is about to publish. -/
structure Publishes (spared : Version → Prop) (doomed : Nat → Prop) (guards : List Guard)
    (u : Keeper) : Prop where
  waits : Waits spared doomed u
  range : ∀ g ∈ guards, g.commit < u.catalog.commits.length
  undeleted : ∀ g ∈ guards, u.catalog.isDeleted g.commit = false
  /-- What is not published has been asked for. -/
  rest : ∀ n, n < u.catalog.commits.length → u.catalog.isDeleted n = false →
    (∃ g ∈ guards, g.commit = n) ∨ doomed n
  known : ∀ v, spared v → ∃ n, n < u.catalog.commits.length ∧ u.catalog.version n = v

/-- What was spared so far and is held, waits for its deletion unless it is published. -/
theorem Publishes.pending_of_held (h : Publishes spared doomed guards u)
    (hheld : 0 < u.holds.count v) (hnot : ¬∃ g ∈ guards, u.version g = v) :
    ∃ n, u.holds.pending? v = some n := by
  by_cases hspared : spared v
  · obtain ⟨n, hn, rfl⟩ := h.known v hspared
    have hkept := h.waits.safe n hn hheld
    have hdoomed : doomed n := by
      refine (h.rest n hn hkept).resolve_left ?_
      rintro ⟨g, hg, rfl⟩
      exact hnot ⟨g, hg, rfl⟩
    rcases h.waits.settled n hn hdoomed with hdeleted | hnone | hpending
    · rw [hkept] at hdeleted
      cases hdeleted
    · omega
    · exact ⟨n, hpending⟩
  · exact h.waits.waiting v hheld hspared

theorem Publishes.retained (h : Publishes spared doomed guards u) (hdistinct : u.catalog.Distinct)
    (hartifacts : ∀ n, n < u.catalog.commits.length → (u.catalog.commit n).backing = .artifacts 0)
    (generation : Nat) : Retained (u.publish generation guards) := by
  have hcatalog := publish_catalog generation guards u
  have hpending := publish_pending generation guards u
  refine
    { waits := ⟨publish_positive h.waits.positive generation guards, ?_, ?_, ?_,
        fun n _ hdoomed => hdoomed.elim⟩
      distinct := hcatalog ▸ hdistinct
      artifacts := hcatalog ▸ hartifacts
      live := ?_ }
  · rw [hcatalog]
    intro n hn hheld
    rw [publish_count] at hheld
    exact h.waits.safe n hn hheld
  · rw [hcatalog]
    intro v n hp
    rw [hpending] at hp
    split at hp
    next => cases hp
    next hnot =>
      obtain ⟨hn, hv, -⟩ := h.waits.pending v n hp
      refine ⟨hn, hv, fun hlive => hnot ?_⟩
      obtain ⟨g, hg, hgv⟩ := (isLive_publish generation guards u v).mp hlive
      exact List.mem_map.mpr ⟨g, hg, hgv⟩
  · intro v hheld hlive
    rw [publish_count] at hheld
    rw [isLive_publish] at hlive
    have hno : v ∉ guards.map u.version := fun hmem => hlive (List.mem_map.mp hmem)
    rw [hpending, if_neg hno]
    exact h.pending_of_held hheld hlive
  · rw [hcatalog]
    intro n hn hlive
    obtain ⟨g, hg, hv⟩ := (isLive_publish generation guards u _).mp hlive
    obtain rfl := hdistinct g.commit n (h.range g hg) hn hv
    exact h.undeleted g hg

/-- If what was asked for is gone, published after all or held, nothing is kept without a reason. -/
theorem Publishes.exact (h : Publishes spared doomed guards u)
    (hprompt : ∀ n, n < u.catalog.commits.length → doomed n → u.catalog.isDeleted n = false →
      (∃ g ∈ guards, g.commit = n) ∨ 0 < u.holds.count (u.catalog.version n))
    (bound generation : Nat) : Exact bound (u.publish generation guards) := by
  unfold Exact
  rw [publish_catalog]
  intro n _ hn hkept
  rw [isLive_publish, publish_count]
  have hreason : (∃ g ∈ guards, g.commit = n) ∨ 0 < u.holds.count (u.catalog.version n) :=
    (h.rest n hn hkept).elim Or.inl fun hdoomed => hprompt n hn hdoomed hkept
  refine hreason.imp_left ?_
  rintro ⟨g, hg, rfl⟩
  exact ⟨g, hg, rfl⟩

/-! ## The end of a cycle -/

theorem mem_survivors {g : Guard} : g ∈ u.survivors shown ↔
    g ∈ shown ∧ g.serial ∉ u.marked ∧ u.catalog.isDeleted g.commit = false := by
  unfold survivors isDeleted isMarked
  simp

/-- What a cycle has come to when it publishes some guards. -/
structure Concludes (k : Keeper) (commits : List Nat) (newest : Nat) (d : Keeper)
    (guards : List Guard) (u : Keeper) : Prop where
  publishes : Publishes (Spared newest k) (Doomed (k.guardAll commits).1 d) guards u
  offered : ∀ g ∈ guards, g.commit ∈ commits
  prunes : Catalog.Prunes k.catalog u.catalog
  prompt : Prompt (Doomed (k.guardAll commits).1 d) d → ∀ n, n < u.catalog.commits.length →
    Doomed (k.guardAll commits).1 d n → u.catalog.isDeleted n = false →
      (∃ g ∈ guards, g.commit = n) ∨ 0 < u.holds.count (u.catalog.version n)

theorem Offers.exists_of_spared (h : Offers k commits newest) (hk : Issued k)
    (hv : Spared newest k v) : ∃ n, n < k.catalog.commits.length ∧ k.catalog.version n = v := by
  rcases hv with ⟨live, hlive, g, hg, hv⟩ | rfl
  · exact ⟨g.commit, (hk.live live hlive g hg).commit, hv⟩
  · exact ⟨newest, h.range newest h.newest_mem, rfl⟩

section
variable (hd : Deciding k commits newest d) (h : Offers k commits newest)
include hd h

/-- What is undeleted after the decision survives or was asked for. -/
theorem Deciding.survives_or_doomed (hn : n < d.catalog.commits.length)
    (hkept : d.catalog.isDeleted n = false) :
    (∃ g ∈ d.survivors (k.guardAll commits).1, g.commit = n) ∨
      Doomed (k.guardAll commits).1 d n := by
  have hlt : n < k.catalog.commits.length := hd.length ▸ hn
  have hbefore : k.catalog.isDeleted n = false := by
    cases hdeleted : k.catalog.isDeleted n with
    | false => rfl
    | true =>
      rw [hd.prunes.isDeleted hdeleted] at hkept
      cases hkept
  -- all undeleted commits were shown, so there is a guard of this one
  have hmem := h.complete n hlt hbefore
  rw [← map_commit_guardAll commits k] at hmem
  obtain ⟨g, hg, rfl⟩ := List.mem_map.mp hmem
  by_cases hmarked : g.serial ∈ d.marked
  · exact Or.inr ⟨g, hg, hmarked, rfl⟩
  · exact Or.inl ⟨g, mem_survivors.mpr ⟨hg, hmarked, hkept⟩, rfl⟩

theorem Deciding.newest_lt : newest < d.catalog.commits.length := by
  rw [hd.length]
  exact h.range newest h.newest_mem

variable (hpin : 0 < d.holds.count (k.catalog.version newest))
include hpin

/-- The pin keeps the newest, whatever the policy asks for. -/
theorem Deciding.isDeleted_newest : d.catalog.isDeleted newest = false := by
  refine hd.waits.safe newest (hd.newest_lt h) ?_
  rw [hd.version]
  exact hpin

/-- The pin is the last hold of the newest exactly if nothing else holds it. If the newest was asked
for as well it goes now, and otherwise nothing does. -/
theorem Deciding.reclaimNewest (hr : Retained k) :
    (Doomed (k.guardAll commits).1 d newest ∧
      (d.holds.release (k.catalog.version newest)).2.count (k.catalog.version newest) = 0 ∧
        ((d.unhold (k.catalog.version newest)).2.reclaimNewest
          (d.unhold (k.catalog.version newest)).1).2 =
            { d with
              holds := (d.holds.release (k.catalog.version newest)).2
              catalog := (d.catalog.delete newest).2 }) ∨
    ((Doomed (k.guardAll commits).1 d newest →
      0 < (d.holds.release (k.catalog.version newest)).2.count (k.catalog.version newest)) ∧
        ((d.unhold (k.catalog.version newest)).2.reclaimNewest
          (d.unhold (k.catalog.version newest)).1).2 =
            (d.unhold (k.catalog.version newest)).2) := by
  have hlt := hd.newest_lt h
  have hcount := HoldTable.count_release hpin (k.catalog.version newest)
  rw [if_pos rfl] at hcount
  by_cases hone : d.holds.count (k.catalog.version newest) = 1
  · cases hp : d.holds.pending? (k.catalog.version newest) with
    | none =>
      refine Or.inr ⟨?_, ?_⟩
      · intro hdoomed
        -- what was asked for and is held waits
        have hsettled := hd.waits.settled newest hlt hdoomed
        rw [hd.version, hp, hone, hd.isDeleted_newest h hpin] at hsettled
        simp at hsettled
      · unfold unhold
        rw [HoldTable.release_last hone, hp]
        rfl
    | some m =>
      obtain ⟨hm, hv, hdoomed⟩ := hd.waits.pending _ m hp
      obtain rfl : m = newest := hd.distinct hr m newest hm hlt (hv.trans (hd.version newest).symm)
      refine Or.inl ⟨hdoomed (Or.inr rfl), by omega, ?_⟩
      unfold unhold
      rw [HoldTable.release_last hone, hp]
      rfl
  · refine Or.inr ⟨fun _ => by omega, ?_⟩
    obtain ⟨c, hc⟩ : ∃ c, d.holds.count (k.catalog.version newest) = c + 2 :=
      ⟨d.holds.count (k.catalog.version newest) - 2, by omega⟩
    unfold unhold
    rw [HoldTable.release_more hc]
    rfl

/-- Without the pin the other versions are held as before. -/
theorem Deciding.count_release_of_ne (hr : Retained k) (hn : n < d.catalog.commits.length)
    (hne : n ≠ newest) :
    (d.holds.release (k.catalog.version newest)).2.count (d.catalog.version n) =
      d.holds.count (d.catalog.version n) := by
  have hcount := HoldTable.count_release hpin (d.catalog.version n)
  have hlt := hd.newest_lt h
  have hv : d.catalog.version n ≠ k.catalog.version newest := by
    rw [← hd.version newest]
    exact fun hv => hne (hd.distinct hr n newest hn hlt hv)
  rwa [if_neg hv] at hcount

omit hpin in
/-- What was spared so far is still the version of a commit. -/
theorem Deciding.known (hk : Issued k) (hv : Spared newest k v) :
    ∃ n, n < d.catalog.commits.length ∧ d.catalog.version n = v := by
  obtain ⟨n, hn, hv⟩ := h.exists_of_spared hk hv
  exact ⟨n, hd.length.symm ▸ hn, (hd.version n).trans hv⟩

omit hpin in
/-- A commit that survives was shown. -/
theorem Deciding.survivor {g : Guard} (hg : g ∈ d.survivors (k.guardAll commits).1) :
    g.commit < d.catalog.commits.length ∧ g.commit ∈ commits := by
  have hshown := (mem_survivors.mp hg).1
  refine ⟨h.commit_lt hd hshown, ?_⟩
  rw [← map_commit_guardAll commits k]
  exact List.mem_map_of_mem hshown

/-- What was asked for and is not gone, the newest apart, is held by others than the pin. -/
theorem Deciding.held_of_prompt (hr : Retained k)
    (hprompt : Prompt (Doomed (k.guardAll commits).1 d) d) (hn : n < d.catalog.commits.length)
    (hdoomed : Doomed (k.guardAll commits).1 d n) (hkept : d.catalog.isDeleted n = false)
    (hne : n ≠ newest) :
    0 < (d.holds.release (k.catalog.version newest)).2.count (d.catalog.version n) := by
  rw [hd.count_release_of_ne h hpin hr hn hne]
  refine (hprompt n hn hdoomed).resolve_left ?_
  rw [hkept]
  exact Bool.false_ne_true

/-- The end of a cycle that some commits survive, if the newest was asked for and only its pin kept
it: it goes as well. -/
theorem Deciding.concludes_reclaimed (hk : Issued k) (hr : Retained k)
    (hdoomed : Doomed (k.guardAll commits).1 d newest)
    (hnone : (d.holds.release (k.catalog.version newest)).2.count (k.catalog.version newest) = 0) :
    Concludes k commits newest d (d.survivors (k.guardAll commits).1)
      { d with
        holds := (d.holds.release (k.catalog.version newest)).2
        catalog := (d.catalog.delete newest).2 } := by
  have hlt := hd.newest_lt h
  have hframe := Catalog.sameCommits_delete newest d.catalog
  have hother : ∀ n, (d.catalog.delete newest).2.isDeleted n = false → n ≠ newest := by
    rintro n hkept rfl
    rw [Catalog.isDeleted_delete_self hlt (hd.artifacts hr n hlt)] at hkept
    cases hkept
  have hbefore : ∀ n, (d.catalog.delete newest).2.isDeleted n = false →
      d.catalog.isDeleted n = false := by
    intro n hkept
    rwa [Catalog.isDeleted_delete_of_ne (hother n hkept)] at hkept
  refine
    { publishes :=
        { waits := (hd.waits.fewer hpin).delete ?_
          range := fun g hg => hframe.length.symm ▸ (hd.survivor h hg).1
          undeleted := ?_
          rest := fun n hn hkept =>
            hd.survives_or_doomed h (hframe.length ▸ hn) (hbefore n hkept)
          known := ?_ }
      offered := fun g hg => (hd.survivor h hg).2
      prunes := hd.prunes.trans (.delete newest d.catalog)
      prompt := fun hprompt n hn hdoomed hkept => Or.inr ?_ }
  · show (d.holds.release (k.catalog.version newest)).2.count (d.catalog.version newest) = 0
    rw [hd.version]
    exact hnone
  · intro g hg
    obtain ⟨hshown, hunmarked, hkept⟩ := mem_survivors.mp hg
    obtain ⟨g', hg', hmarked, hcommit⟩ := hdoomed
    have hne : g.commit ≠ newest := by
      intro hnewest
      have hserial := serial_eq_of_commit_eq h.nodup hshown hg' (hnewest.trans hcommit.symm)
      exact hunmarked (hserial ▸ hmarked)
    exact (Catalog.isDeleted_delete_of_ne hne _).trans hkept
  · intro v hv
    obtain ⟨n, hn, hv⟩ := hd.known h hk hv
    exact ⟨n, hframe.length.symm ▸ hn, (hframe.version n).trans hv⟩
  · show 0 < (d.holds.release (k.catalog.version newest)).2.count
      ((d.catalog.delete newest).2.version n)
    rw [hframe.version]
    exact hd.held_of_prompt h hpin hr hprompt (hframe.length ▸ hn) hdoomed (hbefore n hkept)
      (hother n hkept)

/-- The end of a cycle that some commits survive, if the newest was not asked for or something else
holds it: nothing more goes. -/
theorem Deciding.concludes_held (hk : Issued k) (hr : Retained k)
    (hheld : Doomed (k.guardAll commits).1 d newest →
      0 < (d.holds.release (k.catalog.version newest)).2.count (k.catalog.version newest)) :
    Concludes k commits newest d (d.survivors (k.guardAll commits).1)
      (d.unhold (k.catalog.version newest)).2 := by
  refine
    { publishes :=
        { waits := hd.waits.fewer hpin
          range := fun g hg => (hd.survivor h hg).1
          undeleted := fun g hg => (mem_survivors.mp hg).2.2
          rest := fun n hn hkept => hd.survives_or_doomed h hn hkept
          known := fun v hv => hd.known h hk hv }
      offered := fun g hg => (hd.survivor h hg).2
      prunes := hd.prunes
      prompt := fun hprompt n hn hdoomed hkept => Or.inr ?_ }
  show 0 < (d.holds.release (k.catalog.version newest)).2.count (d.catalog.version n)
  by_cases hne : n = newest
  · obtain rfl := hne
    rw [hd.version]
    exact hheld hdoomed
  · exact hd.held_of_prompt h hpin hr hprompt hn hdoomed hkept hne

/-- The end of a cycle that some commits survive. -/
theorem Deciding.concludeWith (hk : Issued k) (hr : Retained k) :
    Concludes k commits newest d (d.survivors (k.guardAll commits).1)
      ((d.unhold (k.catalog.version newest)).2.reclaimNewest
        (d.unhold (k.catalog.version newest)).1).2 := by
  rcases hd.reclaimNewest h hpin hr with ⟨hdoomed, hnone, heq⟩ | ⟨hheld, heq⟩
  · rw [heq]
    exact hd.concludes_reclaimed h hpin hk hr hdoomed hnone
  · rw [heq]
    exact hd.concludes_held h hpin hk hr hheld

/-- The end of a cycle that no commit survives. -/
theorem Deciding.concludeWithout (hk : Issued k) (hr : Retained k)
    (hnone : d.survivors (k.guardAll commits).1 = []) :
    Concludes k commits newest d [((d.unhold (k.catalog.version newest)).2.guard newest).1]
      ((d.unhold (k.catalog.version newest)).2.guard newest).2 := by
  have hwaits := hd.waits.fewer hpin
  refine
    { publishes :=
        { waits := ⟨hwaits.positive, hwaits.safe, hwaits.pending, hwaits.waiting, hwaits.settled⟩
          range := ?_
          undeleted := ?_
          rest := fun n hn hkept => Or.inr ?_
          known := fun v hv => hd.known h hk hv }
      offered := ?_
      prunes := hd.prunes
      prompt := ?_ }
  · intro g hg
    rw [List.mem_singleton.mp hg]
    exact hd.newest_lt h
  · intro g hg
    rw [List.mem_singleton.mp hg]
    exact hd.isDeleted_newest h hpin
  · refine (hd.survives_or_doomed h hn hkept).resolve_left ?_
    rw [hnone]
    rintro ⟨g, hg, -⟩
    exact List.not_mem_nil hg
  · intro g hg
    rw [List.mem_singleton.mp hg]
    exact h.newest_mem
  · intro hprompt n hn hdoomed hkept
    by_cases hne : n = newest
    · exact Or.inl ⟨_, List.mem_singleton.mpr rfl, hne.symm⟩
    · exact Or.inr (hd.held_of_prompt h hpin hr hprompt hn hdoomed hkept hne)

theorem Deciding.conclude (hk : Issued k) (hr : Retained k) (decided : Except Error Unit) :
    ∃ guards u generation, (d.conclude (k.guardAll commits).1 newest decided).2 =
      u.publish generation guards ∧ Concludes k commits newest d guards u := by
  have hpositive := (hd.waits.fewer hpin).positive
  have hkept := hd.isDeleted_newest h hpin
  have hsweep : (d.unhold (k.catalog.version newest)).2.sweep =
      (d.unhold (k.catalog.version newest)).2 := sweep_eq_self hpositive
  unfold Keeper.conclude
  dsimp only
  rw [hd.version, hsweep]
  split
  next hnone =>
    refine ⟨_, _, ((d.unhold (k.catalog.version newest)).2.guard newest).2.nextGeneration, ?_,
      hd.concludeWithout h hpin hk hr hnone⟩
    unfold Keeper.concludeWithout
    rw [if_neg (by rw [show (d.unhold _).2.catalog.isDeleted newest = false from hkept]; decide)]
  next => exact ⟨_, _, _, rfl, hd.concludeWith h hpin hk hr⟩

end

/-! ## Cycles -/

section
variable (h : Offers k commits newest) (hk : Sound [] k) (hr : Retained k)
include h hk hr

/-- A cycle publishes from what the primary policy has left. -/
theorem Offers.concludes (requests : List Request) : ∃ guards u generation,
    (k.cycle commits requests).2 = u.publish generation guards ∧
      Concludes k commits newest ((k.presented commits newest).carryOutAll
        (k.guardAll commits).1 requests).2 guards u := by
  have hshown : ∀ g ∈ (k.guardAll commits).1, (k.presented commits newest).Knows g :=
    fun g hg => (pin_frame _ _).knows (knows_guardAll h.range g hg)
  have hsound := (hk.presented commits newest).carryOutAll hshown requests
  have hd := (h.deciding hk.issued hr).carryOutAll h hr requests
  rw [cycle_of_newest h.last]
  exact hd.conclude h hsound.counted.pinned_pos hk.issued hr _

/-- Whatever the primary policy does, a cycle retains what is live or held. -/
theorem Offers.retained (requests : List Request) : Retained (k.cycle commits requests).2 := by
  obtain ⟨guards, u, generation, heq, hu⟩ := h.concludes hk hr requests
  rw [heq]
  exact hu.publishes.retained (hu.prunes.sameCommits.distinct hr.distinct)
    (hu.prunes.artifacts hr.artifacts) generation

/-- A cycle publishes some of the commits that it is offered. -/
theorem Offers.listed (requests : List Request) (seen : List Nat) :
    Listed (commits ++ seen) (k.cycle commits requests).2 := by
  obtain ⟨guards, u, generation, heq, hu⟩ := h.concludes hk hr requests
  rw [heq]
  refine ⟨fun _ => nofun, ?_⟩
  intro live hlive
  obtain rfl := Option.some.inj hlive
  exact fun g hg => List.mem_append_left _ (hu.offered g hg)

/-- A cycle leaves nothing undeleted that is neither live nor held, if deletions are carried out on
release or the primary policy gives up no hold. -/
theorem Offers.exact (hall : k.reclaimOnRelease = true ∨ ∀ r ∈ requests, r.Deletes) (bound : Nat) :
    Exact bound (k.cycle commits requests).2 := by
  obtain ⟨guards, u, generation, heq, hu⟩ := h.concludes hk hr requests
  have hbefore : Prompt (Doomed (k.guardAll commits).1 (k.presented commits newest))
      (k.presented commits newest) := by
    rintro n - ⟨g, hg, hmarked, -⟩
    -- no guard has been asked yet
    obtain ⟨i, -, hs⟩ := mem_guardAll hg
    have := hk.issued.marked g.serial hmarked
    omega
  rw [heq]
  exact hu.publishes.exact (hu.prompt ((h.deciding hk.issued hr).prompt_carryOutAll h hr hbefore
    hall)) bound generation

end

end SnapshotRetention.Keeper
