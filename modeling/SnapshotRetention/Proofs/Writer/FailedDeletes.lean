import SnapshotRetention.Proofs.Writer.Loading

/-!
# Deletions that fail

A deletion that fails is made up for later. In every state of a run whose commits all reach the
policy, each artifact is counted as often as the undeleted commits list it, and the artifacts in the
store are those that the undeleted commits list and those that wait in the queue, which are none of
the first and wait once (`Catalog.Accounts`). A commit during which no deletion is refused leaves
nothing in the queue (`Catalog.Emptied`).

Main statement: `failed_deletes_accounted`. Each deletion, wherever it happens, clears its names or
queues them (`Tidy.prunes`), and each commit tries the whole queue again before it writes
(`Housed.queue_retried`).
-/

namespace SnapshotRetention

open Catalog (Prunes Tidy Housed Undisturbed)
open Store (Node)

namespace Catalog

/-- Each artifact is listed or waits, and is counted as often as it is listed. -/
structure Accounts (c : Catalog) : Prop where
  counted : ∀ name, (c.tracker 0).refCount name = c.referenced.count name
  stored : ∀ name, name ∈ (c.store 0).names ↔
    name ∈ c.referenced ∨ name ∈ (c.tracker 0).queue
  disjoint : ∀ name ∈ (c.tracker 0).queue, name ∉ c.referenced
  once : (c.tracker 0).queue.Nodup

/-- Nothing waits, and the artifacts are those that are listed. -/
structure Emptied (c : Catalog) : Prop where
  queue : (c.tracker 0).queue = []
  stored : ∀ name, name ∈ (c.store 0).names ↔ name ∈ c.referenced

variable {base : String → Option Node} {c : Catalog}

theorem Tidy.accounts (h : Tidy base c) (hh : c.Housed)
    (hbase : ∀ q data, base q ≠ some (.file data)) : c.Accounts :=
  ⟨h.tallied.counted, h.mem_names_iff hh hbase, h.tallied.loose, h.tallied.nodup⟩

theorem Accounts.emptied (h : c.Accounts) (hqueue : (c.tracker 0).queue = []) : c.Emptied := by
  refine ⟨hqueue, fun name => ?_⟩
  rw [h.stored, hqueue]
  exact ⟨fun hor => hor.resolve_right List.not_mem_nil, Or.inl⟩

end Catalog

namespace Engine

variable {base : String → Option Node} {e : Engine} {s : Store} {ms : List Manifest} {w : Writer}
  {id bound : Nat} {reclaimOnRelease sync : Bool} {d d' : Decider} {changes : Changes}

/-- A commit that gets as far as the policy. -/
def Decides (e : Engine) : Act → Prop
  | .commit d changes => e.shows (.commit d changes) ≠ []
  | .use _ | .refuse _ => True

/-- A commit that gets as far as the policy leaves each name accounted for, and nothing waiting if
no deletion was refused. -/
theorem commit_accounted (h : Running bound e) (ht : Tidy base e.catalog) (hh : Housed e.catalog)
    (hne : e.shows (.commit d changes) ≠ []) :
    Tidy base (e.act (.commit d changes)).catalog ∧ Housed (e.act (.commit d changes)).catalog ∧
      (((e.act (.commit d changes)).catalog.store 0).failedDeletes =
        (e.catalog.store 0).failedDeletes →
          ((e.act (.commit d changes)).catalog.tracker 0).queue = []) := by
  obtain ⟨w, w1, m, data, s, hw, hfits, hstages, hprunes⟩ := act_commit_prunes h hne
  obtain ⟨kept, hd⟩ := ht.tallied.retried
  have hretry := hh.undisturbed hd
  have hretried := ht.disposed hh.answers hd
  -- the new commit consists of files listed before and of files just written
  have hfiles : ∀ q ∈ m.fileNames, q ∈ e.catalog.retried.referenced ∨
      q ∈ (changes.add ++ [(m.name, data)]).map Prod.fst :=
    fun q hq => hstages.listed_or_written ht.tallied.single hfits.range hq
  have hsingle := hretried.tallied.single
  have hadopted := hretried.adopt hstages.wrote (fun q hq => hstages.mem_fileNames hq) hfiles
  have hhoused := hretry.housed.adopt hsingle hstages.wrote hfiles
  have hpruned := hhoused.prunes hadopted.tallied hprunes
  refine ⟨hadopted.prunes hhoused.answers hprunes, hpruned.housed, fun hfailed => ?_⟩
  have hle := hretry.failedDeletes
  have hle' := hpruned.failedDeletes
  have hqueue := hpruned.queue
  rw [hsingle.store_written, hstages.wrote.failedDeletes] at hle' hqueue
  rw [hsingle.queue_written] at hqueue
  have hempty := hh.queue_retried ht.tallied (by omega)
  rw [hempty] at hqueue
  exact List.eq_nil_of_subset_nil (hqueue (by omega))

/-- One step of a run whose commits reach the policy. -/
theorem act_accounted (h : Running bound e) {a : Act} (ha : e.Decides a)
    (ht : Tidy base e.catalog) (hh : Housed e.catalog) :
    Tidy base (e.act a).catalog ∧ Housed (e.act a).catalog := by
  cases a with
  | commit d changes =>
    obtain ⟨htidy, hhoused, -⟩ := commit_accounted h ht hh ha
    exact ⟨htidy, hhoused⟩
  | use u =>
    have hprunes : Prunes e.catalog (e.act (.use u)).catalog := Keeper.use_prunes u e.keeper
    exact ⟨ht.prunes hh.answers hprunes, (hh.prunes ht.tallied hprunes).housed⟩
  | refuse faults =>
    have hmedium : { e.catalog.store 0 with faults }.medium = (e.catalog.store 0).medium := rfl
    exact ⟨ht.refuse hmedium, hh.refuse ht.tallied.single hmedium⟩

/-- However deletions fail, no artifact is lost track of, and a commit during which none fails
clears what has been left over. -/
theorem failed_deletes_accounted (hms : s.readCommits = .ok ms)
    (hpresent : ∀ m ∈ ms, ∀ name ∈ m.files, s.exists? name = .ok true)
    (hload : ((onStore id reclaimOnRelease d s).load 0 sync).1 = .ok w)
    (h : Follows Decides ((onStore id reclaimOnRelease d s).openWriter 0 sync).2 e) :
    e.catalog.Accounts ∧ ∀ d' changes, e.shows (.commit d' changes) ≠ [] →
      ((e.act (.commit d' changes)).catalog.store 0).failedDeletes =
        (e.catalog.store 0).failedDeletes →
          (e.act (.commit d' changes)).catalog.Emptied := by
  obtain ⟨e1, hload⟩ : ∃ e1, (onStore id reclaimOnRelease d s).load 0 sync = (.ok w, e1) :=
    ⟨_, Prod.ext hload rfl⟩
  have hthere : ∀ m ∈ ms, ∀ name ∈ m.files, (s.data? name).isSome :=
    fun m hm name hname => Store.isSome_of_exists (hpresent m hm name hname)
  have hpresented := (loaded_load hms hthere hload).present
  obtain ⟨c, s', hswept, rfl⟩ := swept_load rfl hms hload
  obtain ⟨base, hbase, htidy⟩ := hswept.tidy
  have hhoused := hswept.housed hms hpresent
  rw [openWriter_of_load hload] at h
  -- the first cycle deletes commits only
  have hprunes := presentHistory_prunes w ((onStore id reclaimOnRelease d s).setCatalog
    (c.setStoreOf 0 s'))
  obtain ⟨⟨bound, hrunning⟩, htidy, hhoused⟩ := h.induct
    (P := fun e => Tidy base e.catalog ∧ Housed e.catalog) hpresented.running
    ⟨htidy.prunes hhoused.answers hprunes, (hhoused.prunes htidy.tallied hprunes).housed⟩
    fun e bound a hrunning _ ha he => act_accounted hrunning ha he.1 he.2
  refine ⟨htidy.accounts hhoused hbase, fun d' changes hne hfailed => ?_⟩
  obtain ⟨htidy', hhoused', hqueue⟩ := commit_accounted hrunning htidy hhoused hne
  exact (htidy'.accounts hhoused' hbase).emptied (hqueue hfailed)

/-! ## A deletion that fails and is made up for -/

/-- The last snapshot of the first commit is released while deletions fail, so that its artifacts
wait. -/
def leftover : Engine := replaced.act (.use (.release 0))

/-- Deletions work again. -/
def recovered : Engine := leftover.act (.refuse .never)

/-- The artifacts of the first commit wait, and the next commit clears them. -/
theorem failed_deletes_accounted_recovered :
    (recovered.catalog.tracker 0).queue = ["a", "commit_1"] ∧ recovered.catalog.Accounts ∧
      (recovered.act (.commit (.stock .keepAll) ⟨[("a", [3])], [], 0⟩)).catalog.Emptied := by
  have hms : Store.empty.readCommits = .ok [] := by decide +kernel
  have hload : ((onStore 0 true (.stock .keepOnlyLast) .empty).load 0 true).1 =
      .ok ⟨0, [], ⟨1⟩, ⟨1⟩, 0, true⟩ := by decide +kernel
  have hfirst : opened.Decides (.commit (.stock .keepOnlyLast) ⟨[("a", [1])], [], 0⟩) := by
    unfold Decides
    decide +kernel
  have hsecond : (snapshotted.act (.refuse (.switches false true))).Decides
      (.commit (.stock .keepOnlyLast) ⟨[("b", [2])], ["a"], 0⟩) := by
    unfold Decides
    decide +kernel
  have hrun : Follows Decides opened recovered :=
    .act _ (.act _ (.act _ (.act _ (.act _ (.act _ .refl trivial hfirst) trivial trivial) trivial
      trivial) trivial hsecond) trivial trivial) trivial trivial
  obtain ⟨haccounts, hemptied⟩ :=
    failed_deletes_accounted hms (fun m hm => absurd hm List.not_mem_nil) hload hrun
  exact ⟨by decide +kernel, haccounts, hemptied _ _ (by decide +kernel) (by decide +kernel)⟩

end Engine

end SnapshotRetention
