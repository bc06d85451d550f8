import SnapshotRetention.Proofs.Keeper.Within
import SnapshotRetention.Proofs.Writer.Rejected

/-!
# The course of a writer

A writer whose commits are backed by its depot, under versions that ascend, is on its course
(`Writer.Course`), wherever else the keeper has commits. An engine with such a writer and a policy
that only deletes (`Engine.Ordered`) goes on in order when it makes a commit, whether that fails or
not (`Ordered.commitWith`): the handles that were given out stay where they are and go on referring
to undeleted commits (`Goes`).
-/

namespace SnapshotRetention

open Keeper

namespace Catalog

variable {c d : Catalog}

/-- What is in the stores and what is queued may differ, but nothing else. -/
structure Refilled (c d : Catalog) : Prop where
  commits : d.commits = c.commits
  length : d.depots.length = c.depots.length
  store : ∀ k, (d.depot k).store = (c.depot k).store
  counted : ∀ k q, (d.tracker k).refCount q = (c.tracker k).refCount q

theorem Refilled.trans {e : Catalog} (h : Refilled c d) (h' : Refilled d e) : Refilled c e :=
  ⟨h'.commits.trans h.commits, h'.length.trans h.length, fun k => (h'.store k).trans (h.store k),
    fun k q => (h'.counted k q).trans (h.counted k q)⟩

theorem refilled_setStore (n : Nat) (s : Store) (c : Catalog) : Refilled c (c.setStore n s) :=
  ⟨rfl, rfl, fun _ => rfl, fun _ _ => rfl⟩

theorem refilled_retryDepot (n : Nat) (c : Catalog) : Refilled c (c.retryDepot n) :=
  ⟨rfl, List.length_set .., store_depot_onDepot _ n c, c.refCount_retryDepot n⟩

theorem Refilled.sameDepots (h : Refilled c d) : SameDepots c d :=
  ⟨Nat.le_of_eq h.length.symm, fun k _ => h.store k⟩

theorem Refilled.shelved (h : Refilled c d) (hc : c.Shelved) : d.Shelved :=
  hc.congr h.commits (Nat.le_of_eq h.length.symm) h.counted

theorem Refilled.extends (h : Refilled c d) : Extends c d :=
  (SameCommits.of_commits h.commits).extends

end Catalog

open Catalog (Refilled)

namespace Writer

variable {w w' : Writer} {c d : Catalog} {m : Manifest}

/-- The commits of a writer are backed by its depot. As long as its numbers can be followed, their
versions differ and come before the next. -/
structure Course (w : Writer) (c : Catalog) : Prop where
  backed : ∀ n ∈ w.history, n < c.commits.length ∧ (c.commit n).backing = .artifacts w.depot
  versions : w.nextVersion.next?.isSome → w.nextGeneration.next?.isSome →
    (w.history.map c.version).Nodup ∧ ∀ n ∈ w.history, c.version n < w.nextVersion

theorem Course.later (h : w.Course c) (hc : c.Extends d) (hbacking : ∀ n, n < c.commits.length →
    (d.commit n).backing = (c.commit n).backing) : w.Course d := by
  refine ⟨fun n hn => ?_, fun hv hg => ?_⟩
  · obtain ⟨hlt, hb⟩ := h.backed n hn
    exact ⟨Nat.lt_of_lt_of_le hlt hc.length, (hbacking n hlt).trans hb⟩
  · obtain ⟨hnodup, hlater⟩ := h.versions hv hg
    have hsame : ∀ n ∈ w.history, d.version n = c.version n :=
      fun n hn => hc.version (h.backed n hn).1
    rw [List.map_congr_left hsame]
    exact ⟨hnodup, fun n hn => hsame n hn ▸ hlater n hn⟩

/-- Commits may leave the history. -/
theorem Course.prune (h : w.Course c) {history : List Nat} (hsub : history.Sublist w.history) :
    Course { w with history := history } c := by
  refine ⟨fun n hn => h.backed n (hsub.subset hn), fun hv hg => ?_⟩
  obtain ⟨hnodup, hlater⟩ := h.versions hv hg
  exact ⟨hnodup.sublist (hsub.map _), fun n hn => hlater n (hsub.subset hn)⟩

/-- The history with a commit of the next version, as long as it is that. -/
theorem Course.join (h : w.Course c) (hversion : m.version = w.nextVersion) :
    (∀ n ∈ w.history ++ [c.commits.length], n < (c.adopt w.depot m).2.commits.length ∧
      ((c.adopt w.depot m).2.commit n).backing = .artifacts w.depot) ∧
    (w.nextVersion.next?.isSome → w.nextGeneration.next?.isSome →
      ((w.history ++ [c.commits.length]).map (c.adopt w.depot m).2.version).Nodup ∧
        ∀ n ∈ w.history ++ [c.commits.length],
          (c.adopt w.depot m).2.version n = w.nextVersion ∨
            (c.adopt w.depot m).2.version n < w.nextVersion) := by
  have hself : (c.adopt w.depot m).2.commit c.commits.length = ⟨m, .artifacts w.depot, false⟩ :=
    Catalog.commit_adopt_self w.depot m c
  have hnew : (c.adopt w.depot m).2.version c.commits.length = w.nextVersion := by
    unfold Catalog.version
    rw [hself]
    exact hversion
  have hold : ∀ n ∈ w.history, (c.adopt w.depot m).2.version n = c.version n := fun n hn =>
    congrArg Commit.version (Catalog.commit_adopt_of_lt (h.backed n hn).1)
  refine ⟨fun n hn => ?_, fun hv hg => ?_⟩
  · rw [Catalog.length_adopt]
    rcases List.mem_append.mp hn with hn | hn
    · obtain ⟨hlt, hb⟩ := h.backed n hn
      rw [Catalog.commit_adopt_of_lt hlt]
      exact ⟨Nat.lt_succ_of_lt hlt, hb⟩
    · rw [List.mem_singleton.mp hn, hself]
      exact ⟨Nat.lt_succ_self _, rfl⟩
  · obtain ⟨hnodup, hlater⟩ := h.versions hv hg
    refine ⟨?_, fun n hn => ?_⟩
    · rw [List.map_append, List.map_congr_left hold]
      refine List.nodup_append.mpr ⟨hnodup, List.nodup_singleton _, ?_⟩
      intro v hv v' hv'
      obtain ⟨n, hn, rfl⟩ := List.mem_map.mp hv
      rw [List.map_singleton, hnew] at hv'
      rw [List.mem_singleton.mp hv']
      exact KeyOrder.ne_of_lt (hlater n hn)
    · rcases List.mem_append.mp hn with hn | hn
      · exact Or.inr (hold n hn ▸ hlater n hn)
      · exact Or.inl (List.mem_singleton.mp hn ▸ hnew)

end Writer

namespace Engine

variable {e e' e'' : Engine} {D : Nat → Prop} {w w1 : Writer} {m : Manifest} {c : Catalog}
  {changes : Changes}

/-- An engine whose keeper is within some depots, with a policy that only deletes and a writer, if
there is one, that is on its course in one of them. -/
structure Ordered (D : Nat → Prop) (e : Engine) : Prop where
  guarded : e.guarded = true
  deletes : e.decider.Deletes
  within : Within D e.keeper
  writer : ∀ w, e.writer = some w → D w.depot ∧ w.Course e.catalog

/-- What an engine does without the consumers: it keeps its settings, and the handles stay where
they are. -/
structure Resumes (e e' : Engine) : Prop where
  guarded : e'.guarded = e.guarded
  decider : e'.decider = e.decider
  reclaimOnRelease : e'.keeper.reclaimOnRelease = e.keeper.reclaimOnRelease
  given : e'.keeper.given = e.keeper.given
  reachable : Reachable e.keeper → Reachable e'.keeper

theorem Resumes.refl (e : Engine) : Resumes e e := ⟨rfl, rfl, rfl, rfl, fun h => h⟩

theorem Resumes.trans (h : Resumes e e') (h' : Resumes e' e'') : Resumes e e'' :=
  { guarded := h'.guarded.trans h.guarded
    decider := h'.decider.trans h.decider
    reclaimOnRelease := h'.reclaimOnRelease.trans h.reclaimOnRelease
    given := h'.given.trans h.given
    reachable := fun hr => h'.reachable (h.reachable hr) }

theorem Resumes.withWriter (h : Resumes e e') (writer : Option Writer) :
    Resumes e { e' with writer } :=
  ⟨h.guarded, h.decider, h.reclaimOnRelease, h.given, h.reachable⟩

theorem resumes_world (hc : e.catalog.Extends c) : Resumes e (e.setCatalog c) :=
  ⟨rfl, rfl, rfl, rfl, fun hr => hr.step (.world c) hc⟩

/-- An engine that stays in order as it goes on. -/
structure Goes (D : Nat → Prop) (e e' : Engine) : Prop where
  ordered : Ordered D e'
  resumes : Resumes e e'
  lasting : e.keeper.Lasting → e'.keeper.Lasting
  keepsHeld : e.keeper.KeepsHeld → e'.keeper.KeepsHeld

theorem Goes.trans (h : Goes D e e') (h' : Goes D e' e'') : Goes D e e'' :=
  { ordered := h'.ordered
    resumes := h.resumes.trans h'.resumes
    lasting := fun hl => h'.lasting (h.lasting hl)
    keepsHeld := fun hk => h'.keepsHeld (h.keepsHeld hk) }

/-- Another writer may take the place of the present one. -/
theorem Ordered.withWriter (h : Ordered D e) {writer : Option Writer}
    (hw : ∀ w, writer = some w → D w.depot ∧ w.Course e.catalog) :
    Goes D e { e with writer } :=
  ⟨⟨h.guarded, h.deletes, h.within, hw⟩, (Resumes.refl e).withWriter writer, fun h => h, fun h => h⟩

/-- What is behind the commits may change, and commits may join. -/
theorem Ordered.world (h : Ordered D e) (hc : e.catalog.Extends c)
    (hdepots : Catalog.SameDepots e.catalog c) (hshelved : c.Shelved)
    (hsame : ∀ n, n < e.catalog.commits.length → c.commit n = e.catalog.commit n) :
    Goes D e (e.setCatalog c) := by
  have hbacking := fun n hn => congrArg Commit.backing (hsame n hn)
  have hdeleted := fun n hn => congrArg Commit.deleted (hsame n hn)
  have hissued := h.within.sound.issued
  exact
    { ordered := ⟨h.guarded, h.deletes, h.within.world hc hdepots hshelved hbacking,
        fun w hw => ⟨(h.writer w hw).1, (h.writer w hw).2.later hc hbacking⟩⟩
      resumes := resumes_world hc
      lasting := fun hl => hl.world hissued hc hdeleted
      keepsHeld := fun hk => hk.world hissued hdeleted }

theorem Ordered.refill (h : Ordered D e) (hc : Refilled e.catalog c) : Goes D e (e.setCatalog c) :=
  h.world hc.extends hc.sameDepots (hc.shelved h.within.shelved) fun n _ =>
    Catalog.commit_congr hc.commits n

/-- The history of the writer is shown to the policy, and what is left of it stays its history. -/
theorem Ordered.decide (h : Ordered D e) (hw : e.writer = some w) {newest : Nat}
    (hlast : w.history.getLast? = some newest) (hkept : e.catalog.isDeleted newest = false)
    (hdistinct : (w.history.map e.catalog.version).Nodup) :
    Goes D e (e.decide w.history).2 ∧ (e.decide w.history).2.writer = some w ∧
      (e.decide w.history).2.keeper.Lasting := by
  obtain ⟨requests, hdeletes, hdecide⟩ := decide_of_guarded h.guarded w.history
  obtain ⟨hdepot, hcourse⟩ := h.writer w hw
  have hpresents : Presents e.keeper w.history newest requests :=
    ⟨hlast, hdistinct, hkept, hdeletes h.deletes⟩
  have hcommits := fun n hn => (hcourse.backed n hn).imp_right fun hb =>
    (⟨w.depot, hdepot, hb⟩ : ∃ i, D i ∧ (e.catalog.commit n).backing = .artifacts i)
  have hrange := fun n hn => (hcourse.backed n hn).1
  have hsound := h.within.sound
  have hspec := hpresents.cycle_spec hsound
  have hmoves := hpresents.moves hsound hrange
  have hsame := hmoves.sameCommits
  have hlasting := hpresents.lasting hsound
  have hcourse' : w.Course (e.keeper.cycle w.history requests).2.catalog := by
    obtain ⟨ns, hns, -⟩ := hmoves.deleted
    refine hcourse.later hsame.extends fun n _ => ?_
    rw [hns]
    exact h.within.shelved.backing_deleteEach ns n
  rw [hdecide]
  refine ⟨?_, hw, hlasting⟩
  exact
    { ordered := ⟨h.guarded, h.deletes, h.within.cycle hpresents hcommits, fun w' hw' => by
        obtain rfl := Option.some.inj (hw.symm.trans hw')
        exact ⟨hdepot, hcourse'⟩⟩
      resumes := ⟨rfl, rfl, hspec.reclaimOnRelease, hspec.given,
        fun hr => hr.step (.cycle w.history requests) hrange⟩
      lasting := fun _ => hlasting
      keepsHeld := hmoves.keepsHeld (hsound.cycle hrange requests) }

/-! ## Commits -/

/-- An attempt to write a commit changes what is behind the commits and drops deleted ones from the
history. -/
theorem Ordered.attempted (h : Ordered D e) (hw : e.writer = some w) (hc : Refilled e.catalog c) :
    Goes D e (e.attempted w c) := by
  obtain ⟨hdepot, hcourse⟩ := h.writer w hw
  have hrefilled := h.refill hc
  refine hrefilled.trans (hrefilled.ordered.withWriter fun w' hw' => ?_)
  obtain rfl := Option.some.inj hw'
  refine ⟨hdepot, (hcourse.later hc.extends fun n _ => ?_).prune List.filter_sublist⟩
  rw [Catalog.commit_congr hc.commits]

/-- The numbers of a writer that moves on could be followed. -/
theorem isSome_of_advance {timestamp : Timestamp} (h : advance w timestamp = some w1) :
    w.nextVersion.next?.isSome ∧ w.nextGeneration.next?.isSome := by
  unfold advance at h
  split at h
  next hv hg => exact ⟨hv ▸ rfl, hg ▸ rfl⟩
  next => cases h

theorem isSome_of_not_advance {timestamp : Timestamp} (h : advance w timestamp = none)
    (hv : w.nextVersion.next?.isSome) : ¬w.nextGeneration.next?.isSome := by
  intro hg
  obtain ⟨v, hv⟩ := Option.isSome_iff_exists.mp hv
  obtain ⟨g, hg⟩ := Option.isSome_iff_exists.mp hg
  unfold advance at h
  rw [hv, hg] at h
  cases h

/-- A commit that has joined is shown to the policy with the history before it. -/
theorem register_eq_decide (hg : e.guarded = true)
    (h : advance { w with history := w.history ++ [e.catalog.commits.length] } m.timestamp =
      some w1) {e1 : Engine}
    (he1 : e1 = { e.setCatalog (e.catalog.adopt w.depot m).2 with writer := some w1 }) :
    (e.register w m).2 = { (e1.decide w1.history).2 with
      writer := some { w1 with
        history := (e1.decide w1.history).2.catalog.undeleted w1.history } } := by
  have hdecide := decide_eq_cycle (e := e.withCommit w m) hg w1.history
  have hdecide1 := decide_eq_cycle (e := e1) (by rw [he1]; exact hg) w1.history
  rw [register_of_advance h, hdecide, hdecide1, he1]
  rfl

/-- A commit that has been written joins the history, and the policy decides. -/
theorem Ordered.register (h : Ordered D e) (hw : e.writer = some w)
    (hversion : m.version = w.nextVersion) :
    Goes D e (e.register w m).2 ∧ (e.register w m).2.writer.isSome := by
  obtain ⟨hdepot, hcourse⟩ := h.writer w hw
  obtain ⟨hbacked, hversions⟩ := hcourse.join (m := m) hversion
  have hjoined : Goes D e (e.setCatalog (e.catalog.adopt w.depot m).2) := by
    refine h.world ?_ ?_ (h.within.shelved.adopt (h.within.depots _ hdepot) m) fun n hn =>
      Catalog.commit_adopt_of_lt hn
    · refine ⟨?_, fun n hn => congrArg Commit.manifest (Catalog.commit_adopt_of_lt hn)⟩
      rw [Catalog.length_adopt]
      exact Nat.le_succ _
    · exact ⟨Nat.le_of_eq (List.length_set ..).symm,
        fun k _ => Catalog.store_depot_setTracker w.depot _ (e.catalog.addCommit _) k⟩
  cases hadvance : advance { w with history := w.history ++ [e.catalog.commits.length] }
      m.timestamp with
  | none =>
    rw [Engine.register_of_none hadvance]
    refine ⟨hjoined.trans (hjoined.ordered.withWriter fun w' hw' => ?_), rfl⟩
    obtain rfl := Option.some.inj hw'
    exact ⟨hdepot, hbacked, fun hv hg => absurd hg (isSome_of_not_advance hadvance hv)⟩
  | some w1 =>
    obtain ⟨hdepot1, hhistory, hnext⟩ := advance_eq_some hadvance
    obtain ⟨hv, hg⟩ := isSome_of_advance hadvance
    obtain ⟨hdistinct, hbefore⟩ := hversions hv hg
    have hcourse1 : w1.Course (e.catalog.adopt w.depot m).2 := by
      refine ⟨fun n hn => ?_, fun _ _ => ?_⟩
      · rw [hhistory] at hn
        rw [hdepot1]
        exact hbacked n hn
      · rw [hhistory]
        refine ⟨hdistinct, fun n hn => ?_⟩
        rcases hbefore n hn with heq | hlt
        · rw [heq]
          exact hnext
        · exact KeyOrder.lt_trans hlt hnext
    have hinstalled :
        Goes D e { e.setCatalog (e.catalog.adopt w.depot m).2 with writer := some w1 } :=
      hjoined.trans (hjoined.ordered.withWriter fun w' hw' => by
        obtain rfl := Option.some.inj hw'
        exact ⟨hdepot1 ▸ hdepot, hcourse1⟩)
    have hlast : w1.history.getLast? = some e.catalog.commits.length := by
      rw [hhistory]
      exact List.getLast?_concat
    have hkept : (e.catalog.adopt w.depot m).2.isDeleted e.catalog.commits.length = false :=
      congrArg Commit.deleted (Catalog.commit_adopt_self w.depot m e.catalog)
    obtain ⟨hdecided, hwriter, -⟩ := hinstalled.ordered.decide rfl hlast hkept
      (by rw [hhistory]; exact hdistinct)
    rw [register_eq_decide h.guarded hadvance rfl]
    refine ⟨(hinstalled.trans hdecided).trans (hdecided.ordered.withWriter fun w' hw' => ?_), rfl⟩
    obtain rfl := Option.some.inj hw'
    obtain ⟨hdepot', hcourse'⟩ := hdecided.ordered.writer w1 hwriter
    exact ⟨hdepot', hcourse'.prune List.filter_sublist⟩

/-- A commit, wherever it ends. -/
theorem Ordered.commitWith (h : Ordered D e) (hw : e.writer = some w) (changes : Changes) :
    Goes D e (e.commitWith w changes).2 ∧ (e.commitWith w changes).2.writer.isSome := by
  have hretried := Catalog.refilled_retryDepot w.depot e.catalog
  have hwritten : ∀ s, Refilled e.catalog
      ((e.catalog.retryDepot w.depot).setStoreOf w.depot s) := fun s =>
    hretried.trans (Catalog.refilled_setStore _ s _)
  rcases e.commitWith_cases w changes with ⟨err, e1, hstage, heq⟩ | ⟨w1, m, e1, hstage, heq⟩
  · rw [heq]
    rcases stage_error hstage with ⟨cause, -, -, rfl⟩ | ⟨files, s, -, -, rfl⟩
    · exact ⟨h.attempted hw hretried, rfl⟩
    · exact ⟨h.attempted hw (hwritten s), rfl⟩
  · obtain ⟨rfl, files, s, -, rfl, -, rfl⟩ := stage_ok hstage
    have hattempted := h.attempted hw (hwritten s)
    obtain ⟨hregister, hsome⟩ := hattempted.ordered.register rfl
      (m := nextManifest w changes.timestamp files) rfl
    rw [heq]
    exact ⟨hattempted.trans hregister, hsome⟩

end Engine

end SnapshotRetention
