import SnapshotRetention.Proofs.Spared
import SnapshotRetention.Proofs.Writer.Commit

/-!
# Engines that run

`Engine.Running bound` is the invariant of an engine with a guarded writer: the keeper is safe, and
the writer, if there still is one, fits it or is stuck. The bound is the number of commits that
cycles have been offered: all of them, unless the writer is stuck with one more.

`Engine.Advances` is what every step of a run does: it keeps the engine running, leads to a later
catalog, and leaves nothing undeleted without a reason if it shows a history to the policy or if
deletions are carried out on release. The steps are commits (`Running.commit`), what consumers do
(`Running.use`) and changes of the faults of the store (`Running.refuse`).
-/

namespace SnapshotRetention

open Keeper

/-- Whether a decider only ever asks for deletions. -/
def Decider.Deletes (d : Decider) : Prop := ∀ history, ∀ r ∈ d.requests history, r.Deletes

/-- The stock policies only ask for deletions. -/
theorem Decider.deletes_stock (primary : Primary) : (Decider.stock primary).Deletes := by
  intro history r hr
  obtain ⟨i, rfl⟩ := Primary.eq_delete_of_mem hr
  trivial

namespace Engine

variable {e e' e1 : Engine} {w w1 : Writer} {m : Manifest} {bound bound' n : Nat}
  {shown : List Nat} {changes : Changes} {d : Decider}

/-- An engine in a run, whose cycles have been offered a number of commits. -/
structure Running (bound : Nat) (e : Engine) : Prop where
  guarded : e.guarded = true
  safe : e.keeper.Safe
  range : bound ≤ e.catalog.commits.length
  writer : ∀ w, e.writer = some w →
    (w.Fits e.keeper ∧ bound = e.catalog.commits.length) ∨ w.Stuck bound e.keeper

/-- What a step of a run does, which shows some commits to the primary policy. -/
structure Advances (bound bound' : Nat) (shown : List Nat) (e e' : Engine) : Prop where
  running : Running bound' e'
  later : e.catalog.Later e'.catalog
  grows : bound ≤ bound'
  below : ∀ n ∈ shown, n < bound'
  reclaimOnRelease : e'.keeper.reclaimOnRelease = e.keeper.reclaimOnRelease
  listed : ∀ seen, Listed seen e.keeper → Listed (shown ++ seen) e'.keeper
  exact : e.keeper.reclaimOnRelease = true → Exact bound e.keeper → Exact bound' e'.keeper
  exact_of_shown : shown ≠ [] → e.keeper.reclaimOnRelease = true ∨ e'.decider.Deletes →
    Exact bound' e'.keeper

/-- A step that shows nothing to the policy changes nothing for commits that are not deleted. -/
theorem Advances.silent (hrunning : Running bound e') (hlater : e.catalog.Later e'.catalog)
    (hsetting : e'.keeper.reclaimOnRelease = e.keeper.reclaimOnRelease)
    (hlive : e'.keeper.live = e.keeper.live)
    (hexact : e.keeper.reclaimOnRelease = true → Exact bound e.keeper → Exact bound e'.keeper) :
    Advances bound bound [] e e' :=
  { running := hrunning
    later := hlater
    grows := Nat.le_refl _
    below := fun _ hn => absurd hn List.not_mem_nil
    reclaimOnRelease := hsetting
    listed := fun _ hlisted => ⟨hlive ▸ hlisted.published, hlive ▸ hlisted.shown⟩
    exact := hexact
    exact_of_shown := fun hne => absurd rfl hne }

/-- The policy may be another one in each cycle. -/
theorem Running.withDecider (h : Running bound e) (d : Decider) :
    Advances bound bound [] e { e with decider := d } :=
  .silent ⟨h.guarded, h.safe, h.range, h.writer⟩ (.refl _) rfl rfl
    fun _ hexact => hexact

/-! ## Consumers and the store -/

theorem Running.use (h : Running bound e) {u : Use} (hu : e.keeper.AllowsUse u) :
    Advances bound bound [] e { e with keeper := e.keeper.use u } := by
  obtain ⟨hsafe, hlater, hsame⟩ := h.safe.use hu
  refine .silent ⟨h.guarded, hsafe, hsame.length.symm ▸ h.range, ?_⟩ hlater
    (use_reclaimOnRelease u e.keeper) (use_live u e.keeper)
    fun hon hexact => hexact.use h.safe.retained hon u
  intro w hw
  refine (h.writer w hw).imp ?_ fun hstuck => hstuck.use hu
  intro hfits
  exact ⟨hfits.1.later hlater hsame.length hsafe, hfits.2.trans hsame.length.symm⟩

/-- What is behind the commits may change, as long as the catalog stays backed. -/
theorem Running.setCatalog (h : Running bound e) {c : Catalog}
    (hcommits : c.commits = e.catalog.commits) (hbacked : c.Backed)
    (hlater : e.catalog.Later c) : Advances bound bound [] e (e.setCatalog c) := by
  have hsafe := h.safe.setCatalog hcommits hbacked hlater
  have hlength : c.commits.length = e.catalog.commits.length := congrArg List.length hcommits
  refine .silent ⟨h.guarded, hsafe, hlength.symm ▸ h.range, ?_⟩ hlater rfl rfl
    ?_
  · intro w hw
    refine (h.writer w hw).imp ?_ fun hstuck =>
      hstuck.setCatalog hcommits hbacked hlater
    intro hfits
    exact ⟨hfits.1.later hlater hlength hsafe, hfits.2.trans hlength.symm⟩
  · intro _ hexact
    exact hexact.world h.safe.sound.issued hlater.describes h.range
      fun n _ => Catalog.isDeleted_congr hcommits n

/-- Which accesses fail may change. -/
theorem Running.refuse (h : Running bound e) (faults : Store.FaultPlan) :
    Advances bound bound [] e
      (e.setCatalog (e.catalog.setStoreOf 0 { e.catalog.store 0 with faults })) := by
  have hholds : (e.catalog.store 0).Holds { e.catalog.store 0 with faults } := fun _ _ hq => hq
  obtain ⟨hbacked, hlater⟩ := h.safe.backed.setStoreOf hholds
  exact h.setCatalog rfl hbacked hlater

/-! ## Commits -/

/-- Writing a commit shows nothing to the policy. -/
theorem Running.staged (h : Running bound e) (hw : e.writer = some w) (hs : Staged w e e1) :
    Advances bound bound [] e e1 := by
  have hadvances := h.setCatalog hs.commits hs.backed hs.later
  have hkeeper : (e.setCatalog e1.catalog).keeper = e1.keeper := hs.keeper.symm
  have hrunning := hadvances.running
  refine .silent
    ⟨hs.guarded.trans h.guarded, hkeeper ▸ hrunning.safe, hrunning.range, ?_⟩
    hs.later (hkeeper ▸ rfl) (hkeeper ▸ rfl) (hkeeper ▸ hadvances.exact)
  intro w' hw'
  obtain rfl := Option.some.inj (hs.writer.symm.trans hw')
  -- writing has deleted no commit, so the writer's history is the same
  have hundeleted : e.catalog.undeleted w.history = e1.catalog.undeleted w.history :=
    (Catalog.undeleted_congr hs.commits _).symm
  rcases hrunning.writer w hw with ⟨hfits, hbound⟩ | hstuck
  · refine Or.inl ⟨?_, hbound⟩
    rw [hundeleted, ← hkeeper]
    exact hfits.prune
  · rw [hkeeper] at hstuck
    exact Or.inr ⟨hstuck.safe, hstuck.depot, hstuck.range, hstuck.generation, hstuck.aside⟩

/-- A stuck writer finds the name of the next manifest taken. -/
theorem stage_of_stuck (h : w.Stuck n e.keeper) {w1 : Writer} :
    e.stage w changes ≠ (.ok (w1, m), e1) := by
  intro hstage
  have hwritten := written_stage h.safe.backed h.depot hstage
  -- the commit that was set aside is undeleted, so its manifest is in the way
  refine hwritten.free (Catalog.mem_referenced h.range h.aside.kept ?_)
  have hname : m.name = (e.catalog.commit n).manifest.name := by
    unfold Manifest.name
    rw [hwritten.generation, ← h.generation]
    rfl
  rw [hname]
  exact List.mem_append_right _ (List.mem_singleton.mpr rfl)

theorem advance_eq_some {timestamp : Timestamp} (h : advance w timestamp = some w1) :
    w1.depot = w.depot ∧ w1.history = w.history ∧ w.nextVersion < w1.nextVersion := by
  unfold advance at h
  split at h
  next version generation hversion _ =>
    obtain rfl := Option.some.inj h
    exact ⟨rfl, rfl, Version.lt_of_next? hversion⟩
  next => cases h

/-- A guarded policy is shown the commits in a cycle of the keeper. -/
theorem decide_eq_cycle (hg : e.guarded = true) (commits : List Nat) : e.decide commits =
    ((e.keeper.cycle commits (e.decider.requests (e.catalog.shown commits))).1,
      { e with
        keeper := (e.keeper.cycle commits (e.decider.requests (e.catalog.shown commits))).2 }) := by
  unfold decide
  dsimp only
  rw [if_pos hg]

theorem decide_of_guarded (hg : e.guarded = true) (commits : List Nat) :
    ∃ requests, (e.decider.Deletes → ∀ r ∈ requests, r.Deletes) ∧
      e.decide commits = ((e.keeper.cycle commits requests).1,
        { e with keeper := (e.keeper.cycle commits requests).2 }) :=
  ⟨_, fun hd r hr => hd _ r hr, decide_eq_cycle hg commits⟩

/-- A commit that is registered joins the history, which is shown to the policy. -/
theorem register_of_some (hg : e.guarded = true)
    (hsome : advance { w with history := w.history ++ [e.catalog.commits.length] } m.timestamp =
      some w1) :
    ∃ requests k, (e.decider.Deletes → ∀ r ∈ requests, r.Deletes) ∧
      k = (Keeper.cycle w1.history requests
        { e.keeper with catalog := (e.catalog.adopt w.depot m).2 }).2 ∧
      (e.register w m).2 = { e with
        keeper := k
        writer := some { w1 with history := k.catalog.undeleted w1.history } } := by
  obtain ⟨requests, hdeletes, hdecide⟩ :=
    decide_of_guarded (e := e.withCommit w m) hg w1.history
  refine ⟨requests, _, hdeletes, rfl, ?_⟩
  rw [register_of_advance hsome, hdecide]
  rfl

/-- A commit that has joined the history is offered to a cycle with the commits before it. -/
theorem offers_of_advance (hfits : w.Fits e.keeper) (hversion : m.version = w.nextVersion)
    (hpresent : ∀ name ∈ m.fileNames, ((e.catalog.store 0).data? name).isSome)
    (hsome : advance { w with history := w.history ++ [e.catalog.commits.length] } m.timestamp =
      some w1) :
    w1.Fits { e.keeper with catalog := (e.catalog.adopt 0 m).2 } ∧
      Offers { e.keeper with catalog := (e.catalog.adopt 0 m).2 } w1.history
        e.catalog.commits.length := by
  obtain ⟨hdepot, hhistory, hnext⟩ := advance_eq_some hsome
  have haside := hfits.aside_adopt hversion hpresent
  have hfits1 := hfits.adopt hversion hpresent (hversion ▸ hnext) (hdepot.trans hfits.depot)
    hhistory rfl
  have hlast : w1.history.getLast? = some e.catalog.commits.length := by
    rw [hhistory]
    exact List.getLast?_concat
  exact ⟨hfits1, hfits1.offers hlast haside.kept haside.unheld⟩

section
variable (h : Running bound e) (hfits : w.Fits e.keeper) (hbound : bound = e.catalog.commits.length)
  (hversion : m.version = w.nextVersion)
  (hpresent : ∀ name ∈ m.fileNames, ((e.catalog.store 0).data? name).isSome)
include h hfits hbound hversion hpresent

/-- A writer whose numbers cannot be followed is stuck with its last commit. -/
theorem Running.register_of_none (hgeneration : m.generation = w.nextGeneration)
    (hnone : advance { w with history := w.history ++ [e.catalog.commits.length] } m.timestamp =
      none) : Advances bound bound [] e (e.register w m).2 := by
  obtain ⟨hsafe, hlater, -⟩ := hfits.safe_adopt hversion hpresent
  have haside := hfits.aside_adopt hversion hpresent
  have hlength := Catalog.length_adopt 0 m e.catalog
  rw [Engine.register_of_none hnone]
  unfold withCommit
  rw [hfits.depot]
  refine .silent ⟨h.guarded, hsafe, ?_, ?_⟩ hlater rfl rfl
    ?_
  · show bound ≤ (e.catalog.adopt 0 m).2.commits.length
    omega
  · intro w' hw'
    obtain rfl := Option.some.inj hw'
    subst hbound
    refine Or.inr ⟨hsafe, rfl, ?_, ?_, haside⟩
    · show e.catalog.commits.length < (e.catalog.adopt 0 m).2.commits.length
      omega
    · show ((e.catalog.adopt 0 m).2.commit e.catalog.commits.length).manifest.generation = _
      rw [Catalog.commit_adopt_self]
      exact hgeneration
  · intro _ hexact
    refine hexact.world h.safe.sound.issued hlater.describes h.range ?_
    intro n hn
    exact congrArg Commit.deleted (Catalog.commit_adopt_of_lt hn)

/-- A registered commit and the commits before it are offered to a cycle. -/
theorem Running.register_of_some
    (hsome : advance { w with history := w.history ++ [e.catalog.commits.length] } m.timestamp =
      some w1) : Advances bound (bound + 1) w1.history e (e.register w m).2 := by
  obtain ⟨-, hlater, -⟩ := hfits.safe_adopt hversion hpresent
  have hlength := Catalog.length_adopt 0 m e.catalog
  obtain ⟨hfits1, hoffers⟩ := offers_of_advance hfits hversion hpresent hsome
  obtain ⟨requests, k, hdeletes, hk, heq⟩ := Engine.register_of_some (m := m) h.guarded hsome
  rw [hfits.depot] at hk
  -- the cycle starts from the keeper that has just adopted the commit
  have hcycle : w1.Cycled requests { e.keeper with catalog := (e.catalog.adopt 0 m).2 } k := by
    rw [hk]
    exact hfits1.cycle hoffers requests
  have hlengthCycle : k.catalog.commits.length = bound + 1 := by
    rw [hcycle.length, hbound]
    exact hlength
  rw [heq]
  refine
    { running := ⟨h.guarded, hcycle.fits.safe, Nat.le_of_eq hlengthCycle.symm, ?_⟩
      later := hlater.trans hcycle.later
      grows := Nat.le_succ _
      below := ?_
      reclaimOnRelease := hcycle.reclaimOnRelease
      listed := fun seen _ => hcycle.listed seen
      exact := fun hon _ => hcycle.exact (Or.inl hon) _
      exact_of_shown := fun _ hall => hcycle.exact (hall.imp_right hdeletes) _ }
  · intro w' hw'
    obtain rfl := Option.some.inj hw'
    exact Or.inl ⟨hcycle.fits.prune, hlengthCycle.symm⟩
  · intro n hn
    rw [← hlengthCycle]
    exact hcycle.fits.range n hn

end

theorem Running.register (h : Running bound e) (hfits : w.Fits e.keeper)
    (hbound : bound = e.catalog.commits.length) (hversion : m.version = w.nextVersion)
    (hgeneration : m.generation = w.nextGeneration)
    (hpresent : ∀ name ∈ m.fileNames, ((e.catalog.store 0).data? name).isSome) :
    ∃ bound', Advances bound bound' (e.registered w m) e (e.register w m).2 := by
  unfold registered
  split
  next hnone =>
    exact ⟨bound, h.register_of_none hfits hbound hversion hpresent hgeneration hnone⟩
  next w1 hsome => exact ⟨bound + 1, h.register_of_some hfits hbound hversion hpresent hsome⟩

/-- Two steps of which the first shows nothing to the policy. -/
theorem Advances.trans (h : Advances bound bound [] e e1) (h' : Advances bound bound' shown e1 e') :
    Advances bound bound' shown e e' :=
  { running := h'.running
    later := h.later.trans h'.later
    grows := h'.grows
    below := h'.below
    reclaimOnRelease := h'.reclaimOnRelease.trans h.reclaimOnRelease
    listed := fun seen hlisted => h'.listed seen (h.listed seen hlisted)
    exact := fun hon hexact => h'.exact (h.reclaimOnRelease.trans hon) (h.exact hon hexact)
    exact_of_shown := fun hne hall =>
      h'.exact_of_shown hne (hall.imp_left h.reclaimOnRelease.trans) }

theorem Running.depot (h : Running bound e) (hw : e.writer = some w) : w.depot = 0 :=
  (h.writer w hw).elim (fun hfits => hfits.1.depot) Writer.Stuck.depot

/-- A writer that has written a manifest is not stuck, and may register it. -/
theorem Running.written (h : Running bound e) (hw : e.writer = some w)
    (hstage : e.stage w changes = (.ok (w1, m), e1)) :
    w1.Fits e1.keeper ∧ bound = e1.catalog.commits.length ∧ m.version = w1.nextVersion ∧
      m.generation = w1.nextGeneration ∧
        ∀ name ∈ m.fileNames, ((e1.catalog.store 0).data? name).isSome := by
  have hstaged := staged_stage h.safe.backed (h.depot hw) changes
  have hadvances := h.staged hw hstaged
  have hcommits := hstaged.commits
  have hwriter := hstaged.writer
  have hwritten := written_stage h.safe.backed (h.depot hw) hstage
  rw [hstage] at hadvances hcommits hwriter
  rw [← hwritten.writer] at hwriter
  rcases h.writer w hw with ⟨hfits, hbound⟩ | hstuck
  · rcases hadvances.running.writer w1 hwriter with ⟨hfits1, hbound1⟩ | hstuck1
    · exact ⟨hfits1, hbound1, hwritten.version.trans (hwritten.writer ▸ rfl),
        hwritten.generation.trans (hwritten.writer ▸ rfl), hwritten.present hfits.range⟩
    · have hrange : bound < e1.catalog.commits.length := hstuck1.range
      rw [hcommits, hbound] at hrange
      exact absurd hrange (Nat.lt_irrefl _)
  · -- a stuck writer writes nothing
    exact absurd hstage (stage_of_stuck hstuck)

/-- A commit, whether it fails or not, and wherever. -/
theorem Running.commit (h : Running bound e) (hw : e.writer = some w) (changes : Changes) :
    ∃ bound', Advances bound bound' (e.committed w changes) e (e.commitWith w changes).2 := by
  have hstaged := h.staged hw (staged_stage h.safe.backed (h.depot hw) changes)
  unfold committed
  rcases e.commitWith_cases w changes with ⟨err, e1, hstage, hcommit⟩ | ⟨w1, m, e1, hstage, hcommit⟩
  · rw [hstage, hcommit]
    rw [hstage] at hstaged
    exact ⟨bound, hstaged⟩
  · rw [hstage, hcommit]
    rw [hstage] at hstaged
    obtain ⟨hfits, hbound, hversion, hgeneration, hpresent⟩ := h.written hw hstage
    obtain ⟨bound', hregister⟩ :=
      hstaged.running.register hfits hbound hversion hgeneration hpresent
    exact ⟨bound', hstaged.trans hregister⟩

end Engine

end SnapshotRetention
