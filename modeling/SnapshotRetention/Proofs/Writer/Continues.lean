import Mathlib.Data.List.Sort
import SnapshotRetention.Proofs.Catalog.Backed
import SnapshotRetention.Proofs.Keeper.Waits
import SnapshotRetention.Writer.Engine

/-!
# A writer that goes on

A writer fits the commits of a catalog if versions ascend with the numbers of the commits, its next
version is above them all, and its history misses no undeleted commit (`Writer.Continues`). It does
so whatever is behind the commits: commits may be deleted (`Continues.later`, `Continues.prune`) and
one of the next version may join (`Continues.adopt`).
-/

namespace SnapshotRetention

/-- A later commit has a later version. -/
def Catalog.Ascending (c : Catalog) : Prop :=
  ∀ n m, n < m → m < c.commits.length → c.version n < c.version m

theorem Catalog.Ascending.distinct {c : Catalog} (h : c.Ascending) : c.Distinct := by
  intro n m hn hm heq
  rcases Nat.lt_trichotomy n m with hlt | rfl | hlt
  · exact absurd heq (KeyOrder.ne_of_lt (h n m hlt hm))
  · rfl
  · exact absurd heq.symm (KeyOrder.ne_of_lt (h m n hlt hn))

/-- Versions stay ascending if a commit of a later version is adopted. -/
theorem Catalog.Ascending.adopt {c : Catalog} (h : c.Ascending) (depot : Nat) {m : Manifest}
    (hm : ∀ n, n < c.commits.length → c.version n < m.version) : (c.adopt depot m).2.Ascending := by
  have hold : ∀ n, n < c.commits.length → (c.adopt depot m).2.version n = c.version n := by
    intro n hn
    unfold version
    rw [commit_adopt_of_lt hn]
  have hnew : (c.adopt depot m).2.version c.commits.length = m.version := by
    unfold version
    rw [commit_adopt_self]
    rfl
  intro i j hij hj
  rw [length_adopt] at hj
  have hi : i < c.commits.length := by omega
  rw [hold i hi]
  rcases Nat.lt_succ_iff_lt_or_eq.mp hj with hj | rfl
  · rw [hold j hj]
    exact h i j hij hj
  · rw [hnew]
    exact hm i hi

/-- The versions of commits in their order differ. -/
theorem Catalog.Ascending.nodup_versions {c : Catalog} (h : c.Ascending) {ns : List Nat}
    (hsorted : ns.Pairwise (· < ·)) (hrange : ∀ n ∈ ns, n < c.commits.length) :
    (ns.map c.version).Nodup := by
  refine List.pairwise_map.mpr (hsorted.imp_of_mem ?_)
  intro n n' _ hn' hlt
  exact KeyOrder.ne_of_lt (h n n' hlt (hrange n' hn'))

namespace Writer

variable {w w' : Writer} {c d : Catalog} {m : Manifest}

/-- A writer whose next commit comes after all commits of a catalog, and whose history misses no
undeleted one. -/
structure Continues (w : Writer) (c : Catalog) : Prop where
  depot : w.depot = 0
  ascending : c.Ascending
  /-- The next version has not been used. -/
  next : ∀ n, n < c.commits.length → c.version n < w.nextVersion
  sorted : w.history.Pairwise (· < ·)
  range : ∀ n ∈ w.history, n < c.commits.length
  /-- The history misses no undeleted commit. -/
  complete : ∀ n, n < c.commits.length → c.isDeleted n = false → n ∈ w.history

/-- The undeleted commits of the history are all undeleted commits, in their order. -/
theorem Continues.undeleted_history (h : w.Continues c) :
    c.undeleted w.history = c.undeleted (List.range c.commits.length) := by
  have hsorted : (c.undeleted w.history).Pairwise (· < ·) := h.sorted.filter _
  have hall : (c.undeleted (List.range c.commits.length)).Pairwise (· < ·) :=
    List.pairwise_lt_range.filter _
  refine hsorted.eq_of_mem_iff hall fun n => ?_
  unfold Catalog.undeleted
  rw [List.mem_filter, List.mem_filter, List.mem_range]
  refine and_congr_left fun hkept => ⟨h.range n, fun hn => h.complete n hn ?_⟩
  simpa using hkept

/-- Deleted commits may leave the history. -/
theorem Continues.prune (h : w.Continues c) :
    Continues { w with history := c.undeleted w.history } c := by
  refine
    { depot := h.depot
      ascending := h.ascending
      next := h.next
      sorted := h.sorted.filter _
      range := fun n hn => h.range n (List.mem_filter.mp hn).1
      complete := ?_ }
  intro n hn hkept
  exact List.mem_filter.mpr ⟨h.complete n hn hkept, by simp [hkept]⟩

/-- The commits may be deleted, and what is behind them may change. -/
theorem Continues.later (h : w.Continues c) (hextends : c.Extends d)
    (hlength : d.commits.length = c.commits.length)
    (hdeleted : ∀ n, n < c.commits.length → c.isDeleted n = true → d.isDeleted n = true) :
    w.Continues d := by
  have hversion : ∀ n, n < c.commits.length → d.version n = c.version n :=
    fun n hn => hextends.version hn
  refine
    { depot := h.depot
      ascending := ?_
      next := ?_
      sorted := h.sorted
      range := fun n hn => hlength.symm ▸ h.range n hn
      complete := ?_ }
  · intro n m hnm hm
    rw [hlength] at hm
    rw [hversion n (Nat.lt_trans hnm hm), hversion m hm]
    exact h.ascending n m hnm hm
  · intro n hn
    rw [hlength] at hn
    rw [hversion n hn]
    exact h.next n hn
  · intro n hn hkept
    rw [hlength] at hn
    refine h.complete n hn (Bool.eq_false_iff.mpr fun hgone => ?_)
    rw [hdeleted n hn hgone] at hkept
    cases hkept

theorem Continues.prunes (h : w.Continues c) (hp : c.Prunes d) : w.Continues d :=
  h.later hp.sameCommits.extends hp.sameCommits.length fun _ _ => hp.isDeleted

/-- What is behind the commits may change. -/
theorem Continues.congr (h : w.Continues c) (hcommits : d.commits = c.commits) :
    w.Continues d := by
  have hsame : c.SameCommits d := .of_commits hcommits
  exact h.later hsame.extends hsame.length
    fun n _ hdeleted => (Catalog.isDeleted_congr hcommits n).trans hdeleted

/-- A commit of the next version joins, and the writer goes on with a later one. -/
theorem Continues.adopt (h : w.Continues c) (hversion : m.version = w.nextVersion)
    (hnext : m.version < w'.nextVersion) (hdepot : w'.depot = 0)
    (hhistory : w'.history = w.history ++ [c.commits.length]) :
    w'.Continues (c.adopt 0 m).2 := by
  have hlength := Catalog.length_adopt 0 m c
  refine
    { depot := hdepot
      ascending := h.ascending.adopt 0 fun n hn => hversion ▸ h.next n hn
      next := ?_
      sorted := ?_
      range := ?_
      complete := ?_ }
  · intro n hn
    have hn : n < c.commits.length + 1 := hlength ▸ hn
    unfold Catalog.version
    rcases Nat.lt_succ_iff_lt_or_eq.mp hn with hn | rfl
    · rw [Catalog.commit_adopt_of_lt hn]
      exact KeyOrder.lt_trans (hversion ▸ h.next n hn) hnext
    · rw [Catalog.commit_adopt_self]
      exact hnext
  · rw [hhistory, List.pairwise_append]
    refine ⟨h.sorted, List.pairwise_singleton _ _, ?_⟩
    intro n hn n' hn'
    obtain rfl := List.mem_singleton.mp hn'
    exact h.range n hn
  · intro n hn
    rw [hlength]
    rw [hhistory] at hn
    rcases List.mem_append.mp hn with hn | hn
    · exact Nat.lt_succ_of_lt (h.range n hn)
    · exact List.mem_singleton.mp hn ▸ Nat.lt_succ_self _
  · intro n hn hkept
    have hn : n < c.commits.length + 1 := hlength ▸ hn
    rw [hhistory]
    rcases Nat.lt_succ_iff_lt_or_eq.mp hn with hn | rfl
    · unfold Catalog.isDeleted at hkept
      rw [Catalog.commit_adopt_of_lt hn] at hkept
      exact List.mem_append_left _ (h.complete n hn hkept)
    · exact List.mem_append_right _ (List.mem_singleton.mpr rfl)

end Writer

end SnapshotRetention
