import SnapshotRetention.Proofs.Writer.Opening

/-!
# Runs of a writer

A run begins when a writer opens over a store and goes on with commits of any changes, with whatever
consumers do, and with changes of the faults of the store, in any order. Each commit may come with
another primary policy, which stands for a policy that remembers what it has seen. Opening may end
with an error of the policy; then there is no writer, but the consumers go on.

`Engine.Run` are the states of all runs, with the commits that cycles have been shown so far and
those that the last step has shown; what a commit shows is what the policy is called with
(`shows_commit`). Every state of a run is that of a running engine (`Run.running`), and what comes
later in a run is later (`Leads.later`). Statements about runs in which only some steps happen are
about `Engine.Follows`.
-/

namespace SnapshotRetention

open Keeper

/-- What happens to an engine in one step of a run. -/
inductive Act where
  /-- A commit, with the policy that is shown the history afterwards. -/
  | commit (d : Decider) (changes : Changes)
  | use (u : Use)
  /-- From now on other accesses of the store fail. -/
  | refuse (faults : Store.FaultPlan)

namespace Engine

variable {e e' : Engine} {s : Store} {seen last : List Nat} {bound : Nat}

/-- The engine after a step. -/
def act (a : Act) (e : Engine) : Engine :=
  match a with
  | .commit d changes => ({ e with decider := d }.commit? changes).2
  | .use u => { e with keeper := e.keeper.use u }
  | .refuse faults => e.setCatalog (e.catalog.setStoreOf 0 { e.catalog.store 0 with faults })

/-- The commits that a step shows to the primary policy. -/
def shows (a : Act) (e : Engine) : List Nat :=
  match a with
  | .commit d changes =>
    match e.writer with
    | none => []
    | some w => { e with decider := d }.committed w changes
  | .use _ | .refuse _ => []

/-- A guard is used only if the keeper can have made it. -/
def Permits (e : Engine) : Act → Prop
  | .use u => e.keeper.AllowsUse u
  | .commit _ _ | .refuse _ => True

/-- The later states of a run. -/
inductive Leads (e : Engine) : Engine → Prop where
  | refl : Leads e e
  | act {e' : Engine} (a : Act) : Leads e e' → e'.Permits a → Leads e (e'.act a)

/-- The states of all runs over a store, with the commits that have been shown to the policy so far
and those that the last step has shown. -/
inductive Run (s : Store) : Engine → List Nat → List Nat → Prop where
  /-- The manifests can be read and everything they list is in the store. -/
  | opened {id : Nat} {reclaimOnRelease sync : Bool} {d : Decider} {ms : List Manifest} {w : Writer}
    (hms : s.readCommits = .ok ms)
    (hpresent : ∀ m ∈ ms, ∀ name ∈ m.files, (s.data? name).isSome)
    (hload : ((onStore id reclaimOnRelease d s).load 0 sync).1 = .ok w) :
    Run s ((onStore id reclaimOnRelease d s).openWriter 0 sync).2 w.history w.history
  | act {e : Engine} {seen last : List Nat} (a : Act) : Run s e seen last → e.Permits a →
    Run s (e.act a) (e.shows a ++ seen) (e.shows a)

/-- Without a writer no commit is made. -/
theorem act_commit_of_none (d : Decider) (changes : Changes) (h : e.writer = none) :
    e.shows (.commit d changes) = [] ∧ e.act (.commit d changes) = { e with decider := d } := by
  unfold shows act commit?
  simp only [h, and_self]

theorem act_commit_of_some {w : Writer} (d : Decider) (changes : Changes) (h : e.writer = some w) :
    e.shows (.commit d changes) = { e with decider := d }.committed w changes ∧
      e.act (.commit d changes) = ({ e with decider := d }.commitWith w changes).2 := by
  unfold shows act commit?
  simp only [h, and_self]

/-- A commit shows to the policy exactly what that is called with before the commit returns. -/
theorem shows_commit {w : Writer} (d : Decider) (changes : Changes) (h : e.writer = some w) :
    ∃ result, { e with decider := d }.commit? changes =
        (some result, e.act (.commit d changes)) ∧
      CommitShows w changes { e with decider := d } (e.shows (.commit d changes))
        (result, e.act (.commit d changes)) := by
  obtain ⟨hshows, hact⟩ := act_commit_of_some d changes h
  rw [hshows, hact]
  exact ⟨_, commit?_of_writer (e := { e with decider := d }) h changes, commitShows w changes _⟩

/-- One step of a run. -/
theorem Running.act (h : Running bound e) {a : Act} (ha : e.Permits a) :
    ∃ bound', Advances bound bound' (e.shows a) e (e.act a) := by
  cases a with
  | commit d changes =>
    have hd := h.withDecider d
    cases hw : e.writer with
    | none =>
      obtain ⟨hshows, hact⟩ := act_commit_of_none d changes hw
      rw [hshows, hact]
      exact ⟨bound, hd⟩
    | some w =>
      obtain ⟨hshows, hact⟩ := act_commit_of_some d changes hw
      obtain ⟨bound', hcommit⟩ := hd.running.commit hw changes
      rw [hshows, hact]
      exact ⟨bound', hd.trans hcommit⟩
  | use u => exact ⟨bound, h.use ha⟩
  | refuse faults => exact ⟨bound, h.refuse faults⟩

/-- A state of a run: what has been shown to the policy is below the bound, the published list comes
from it, and up to the bound nothing is kept without a reason, if deletions are carried out on
release or the last step has shown the history to a policy that only deletes. -/
theorem Run.running (h : Run s e seen last) : ∃ bound, Running bound e ∧ (∀ n ∈ seen, n < bound) ∧
    Listed seen e.keeper ∧
    (e.keeper.reclaimOnRelease = true ∨ last ≠ [] ∧ e.decider.Deletes → Exact bound e.keeper) := by
  induction h with
  | @opened id reclaimOnRelease sync d ms w hms hpresent hload =>
    obtain ⟨e, hload⟩ : ∃ e, (onStore id reclaimOnRelease d s).load 0 sync = (.ok w, e) :=
      ⟨_, Prod.ext hload rfl⟩
    -- before the first cycle nothing has been shown and nothing is published
    have hunlisted := (loaded_load hms hpresent hload).unlisted
    have hloaded := (loaded_load hms hpresent hload).present
    rw [openWriter_of_load hload]
    refine ⟨_, hloaded.running, hloaded.below, ?_, ?_⟩
    · have hlisted := hloaded.listed [] ⟨fun hne => absurd rfl hne, fun live hlive => ?_⟩
      · rwa [List.append_nil] at hlisted
      · cases hunlisted.symm.trans hlive
    intro hc
    rcases hc with hon | ⟨hne, hdeletes⟩
    · refine hloaded.exact (hloaded.reclaimOnRelease.symm.trans hon) ?_
      intro n hn
      exact absurd hn (Nat.not_lt_zero n)
    · exact hloaded.exact_of_shown hne (Or.inr hdeletes)
  | act a _ ha ih =>
    obtain ⟨bound, hrunning, hseen, hlisted, hexact⟩ := ih
    obtain ⟨bound', hstep⟩ := hrunning.act ha
    refine ⟨bound', hstep.running, ?_, hstep.listed _ hlisted, ?_⟩
    · intro n hn
      rcases List.mem_append.mp hn with hn | hn
      · exact hstep.below n hn
      · exact Nat.lt_of_lt_of_le (hseen n hn) hstep.grows
    · intro hc
      rcases hc with hon | ⟨hne, hdeletes⟩
      · have hbefore := hstep.reclaimOnRelease.symm.trans hon
        exact hstep.exact hbefore (hexact (Or.inl hbefore))
      · exact hstep.exact_of_shown hne (Or.inr hdeletes)

/-- What comes later in a run is a running engine with a later catalog. -/
theorem Leads.later (h : Leads e e') (hrunning : Running bound e) :
    (∃ bound', Running bound' e') ∧ e.catalog.Later e'.catalog := by
  induction h with
  | refl => exact ⟨⟨bound, hrunning⟩, .refl _⟩
  | act a _ ha ih =>
    obtain ⟨⟨bound1, hrunning1⟩, hlater⟩ := ih
    obtain ⟨bound2, hstep⟩ := hrunning1.act ha
    exact ⟨⟨bound2, hstep.running⟩, hlater.trans hstep.later⟩

/-! ## Runs that allow some steps only -/

/-- The states that steps of some kind lead to. -/
inductive Follows (allowed : Engine → Act → Prop) (e : Engine) : Engine → Prop where
  | refl : Follows allowed e e
  | act {e' : Engine} (a : Act) : Follows allowed e e' → e'.Permits a → allowed e' a →
    Follows allowed e (e'.act a)

/-- What the steps of a kind keep of a running engine, they keep along a run. -/
theorem Follows.induct {allowed : Engine → Act → Prop} {P : Engine → Prop}
    (h : Follows allowed e e') (hrunning : Running bound e) (he : P e)
    (hstep : ∀ (e : Engine) (bound : Nat) (a : Act), Running bound e → e.Permits a → allowed e a →
      P e → P (e.act a)) : (∃ bound', Running bound' e') ∧ P e' := by
  induction h with
  | refl => exact ⟨⟨bound, hrunning⟩, he⟩
  | act a _ hpermits hallowed ih =>
    obtain ⟨⟨bound1, hrunning1⟩, he1⟩ := ih
    obtain ⟨bound2, hadvances⟩ := hrunning1.act hpermits
    exact ⟨⟨bound2, hadvances.running⟩, hstep _ bound1 a hrunning1 hpermits hallowed he1⟩

/-! ## A run over the empty store -/

/-- An engine that opened over the empty store, with a policy that keeps the newest commit only. -/
def opened : Engine := ((onStore 0 true (.stock .keepOnlyLast) .empty).openWriter 0 true).2

/-- A snapshot of the first commit has been taken. -/
def snapshotted : Engine :=
  (opened.act (.commit (.stock .keepOnlyLast) ⟨[("a", [1])], [], 0⟩)).act (.use .current)

/-- The second commit has replaced the first, while deletions fail. -/
def replaced : Engine :=
  (snapshotted.act (.refuse (.switches false true))).act
    (.commit (.stock .keepOnlyLast) ⟨[("b", [2])], ["a"], 0⟩)

theorem run_snapshotted : Run .empty snapshotted [0] [] := by
  have hms : Store.empty.readCommits = .ok [] := by decide +kernel
  have hload : ((onStore 0 true (.stock .keepOnlyLast) .empty).load 0 true).1 =
      .ok ⟨0, [], ⟨1⟩, ⟨1⟩, 0, true⟩ := by decide +kernel
  have hopened : Run .empty opened [] [] :=
    .opened hms (fun m hm => absurd hm List.not_mem_nil) hload
  have hshows : opened.shows (.commit (.stock .keepOnlyLast) ⟨[("a", [1])], [], 0⟩) = [0] := by
    decide +kernel
  have hcommitted := hopened.act (.commit (.stock .keepOnlyLast) ⟨[("a", [1])], [], 0⟩) trivial
  rw [hshows] at hcommitted
  exact hcommitted.act (.use .current) trivial

theorem leads_replaced : Leads snapshotted replaced :=
  .act _ (.act _ .refl trivial) trivial

theorem run_replaced : Run .empty replaced [0, 1, 0] [0, 1] := by
  have hrefused := run_snapshotted.act (.refuse (.switches false true)) trivial
  have hshows : (snapshotted.act (.refuse (.switches false true))).shows
      (.commit (.stock .keepOnlyLast) ⟨[("b", [2])], ["a"], 0⟩) = [0, 1] := by
    decide +kernel
  have hcommitted :=
    hrefused.act (.commit (.stock .keepOnlyLast) ⟨[("b", [2])], ["a"], 0⟩) trivial
  rw [hshows] at hcommitted
  exact hcommitted

end Engine

end SnapshotRetention
