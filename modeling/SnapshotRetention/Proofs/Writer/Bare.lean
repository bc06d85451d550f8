import SnapshotRetention.Proofs.Catalog.Lodged
import SnapshotRetention.Proofs.Writer.Eroded

/-!
# Bare policies that only delete

What carrying out the requests of a bare policy does that only asks for deletions and stops at the
first that fails: nothing goes that was not asked for (`asks_of_isDeleted`), and if none of them
fails, all that was asked for goes, with the files that nothing else lists (`shed_of_ok`). The only
failures are those of the store (`exists_of_carryOutAllBare_error`). If the store refuses nothing,
there are none unless a file that nothing can delete is among those that should go
(`carryOutAllBare_of_never`).

A bare policy does the same to a catalog behind another one (`carryOutAllBare_lodge`).
-/

namespace SnapshotRetention

open Catalog (Prunes Disposed Tallied)

/-! ## Failures -/

namespace Tracker

variable {name : String} {t : Tracker} {s : Store} {e : Error}

theorem exists_of_deleteOne_error (h : (deleteOne name t s).1 = .error e) :
    ∃ err, e = .store err := by
  unfold deleteOne at h
  split at h
  next => cases h
  next => cases h
  next err s' _ _ => exact ⟨err, (Except.error.inj h).symm⟩

theorem exists_of_deleteAll_error {names : List String} (h : (deleteAll names t s).1 = .error e) :
    ∃ err, e = .store err := by
  induction names generalizing t s with
  | nil => cases h
  | cons name names ih =>
    have hfirst : firstFailure (deleteOne name t s).1
        (deleteAll names (deleteOne name t s).2.1 (deleteOne name t s).2.2).1 = .error e := h
    unfold firstFailure at hfirst
    split at hfirst
    next e' he' => exact exists_of_deleteOne_error (he'.trans hfirst)
    next => exact ih hfirst

end Tracker

namespace Catalog

variable {c d e : Catalog} {n : Nat} {q : String}

/-- A commit that cannot be deleted has an artifact that the store keeps. -/
theorem Tallied.exists_of_delete_error (h : c.Tallied) (hn : n < c.commits.length) {err : Error}
    (herr : (c.delete n).1 = .error err) : ∃ cause, err = .store cause := by
  cases hdeleted : c.isDeleted n with
  | true =>
    rw [delete_of_isDeleted (h.artifacts n hn) hdeleted] at herr
    cases herr
  | false =>
    rw [h.single.delete hdeleted (h.artifacts n hn)] at herr
    exact Tracker.exists_of_deleteAll_error herr

/-! ## Shedding files -/

/-- Commits have been deleted, and what nothing lists any more has gone. -/
structure Sheds (c d : Catalog) : Prop where
  prunes : Prunes c d
  gone : ∀ q ∈ c.referenced, q ∉ d.referenced →
    ¬(c.store 0).medium.Fixed q ∧ (d.store 0).medium.node? q = none

theorem Sheds.refl (c : Catalog) : Sheds c c := ⟨.refl c, fun _ hq hnot => absurd hq hnot⟩

theorem Sheds.trans (h : Sheds c d) (h' : Sheds d e) (hc : c.Tallied) : Sheds c e := by
  have hd := hc.prunes h.prunes
  refine ⟨h.prunes.trans h'.prunes, fun q hq hnot => ?_⟩
  by_cases hlisted : q ∈ d.referenced
  · obtain ⟨hfixed, hnone⟩ := h'.gone q hlisted hnot
    exact ⟨fun hf => hfixed (((hc.erodes h.prunes).alike.fixed_iff q).mpr hf), hnone⟩
  · obtain ⟨hfixed, hnone⟩ := h.gone q hq hlisted
    refine ⟨hfixed, ?_⟩
    rcases (hd.erodes h'.prunes).node q with hsame | hgone
    · exact hsame.trans hnone
    · exact hgone

/-- A commit whose deletion does not fail sheds what it alone lists. -/
theorem Tallied.sheds_delete (h : c.Tallied) (hn : n < c.commits.length)
    (hok : (c.delete n).1 = .ok ()) : Sheds c (c.delete n).2 := by
  obtain ⟨names, kept, hd, hresult⟩ := h.delete hn
  obtain rfl := hresult.mp hok
  refine ⟨.delete n c, fun q hq hnot => ?_⟩
  have hname : q ∈ names := by
    rcases (hd.covers q).mp (Or.inl hq) with hlisted | hwaits | hname
    · exact absurd hlisted hnot
    · exact absurd hq (h.loose q hwaits)
    · exact hname
  refine ⟨hd.cleared.cleared q hname List.not_mem_nil, (hd.cleared.node q).trans ?_⟩
  exact if_pos ⟨hname, List.not_mem_nil⟩

/-- Where nothing is refused, a commit can be deleted if nothing that it alone lists is fixed. -/
theorem Tallied.delete_of_never (h : c.Tallied) (hn : n < c.commits.length)
    (hnever : (c.store 0).faults = .never)
    (hfixed : ∀ q ∈ c.referenced, (c.store 0).medium.Fixed q → q ∈ (c.delete n).2.referenced) :
    (c.delete n).1 = .ok () := by
  obtain ⟨names, kept, hd, hresult⟩ := h.delete hn
  refine hresult.mpr (List.eq_nil_iff_forall_not_mem.mpr fun q hq => ?_)
  obtain ⟨hnot, hwaits⟩ := hd.loose q (hd.sublist.subset hq)
  have hlisted : q ∈ c.referenced :=
    ((hd.covers q).mpr (Or.inr (Or.inr (hd.sublist.subset hq)))).resolve_right hwaits
  exact hnot (hfixed q hlisted (hd.cleared.fixed (hd.cleared.never hnever) q hq))

theorem Tallied.faults_prunes (h : c.Tallied) (hp : Prunes c d) :
    (d.store 0).faults = (c.store 0).faults :=
  h.induct_prunes hp (P := fun d => (d.store 0).faults = (c.store 0).faults) rfl
    fun hd _ _ hfaults => hd.cleared.faults.trans hfaults

end Catalog

/-! ## Carrying out requests -/

namespace Engine

open Catalog

variable {c d : Catalog} {ns : List Nat} {rs rest : List Request} {i n : Nat}

/-- Some requests ask for a commit. -/
def Asks (ns : List Nat) (rs : List Request) (n : Nat) : Prop :=
  ∃ i, Request.delete i ∈ rs ∧ ns[i]? = some n

theorem carryOutAllBare_cons_of_none (h : ns[i]? = none) (c : Catalog) :
    carryOutAllBare ns (.delete i :: rest) c = carryOutAllBare ns rest c := by
  rw [carryOutAllBare, carryOutBare, h]

theorem carryOutAllBare_cons_of_some (h : ns[i]? = some n) (c : Catalog) :
    carryOutAllBare ns (.delete i :: rest) c =
      match c.delete n with
      | (.error e, c) => (.error e, c)
      | (.ok (), c) => carryOutAllBare ns rest c := by
  have hstep : carryOutBare ns (.delete i) c = c.delete n := by
    rw [carryOutBare, h]
  show (match carryOutBare ns (.delete i) c with
    | (Except.error e, c) => (Except.error e, c)
    | (Except.ok (), c) => carryOutAllBare ns rest c) = _
  rw [hstep]

/-- Nothing goes that was not asked for. -/
theorem asks_of_isDeleted (hrs : ∀ r ∈ rs, ∃ i, r = .delete i)
    (h : (carryOutAllBare ns rs c).2.isDeleted n = true) : c.isDeleted n = true ∨ Asks ns rs n := by
  induction rs generalizing c with
  | nil => exact Or.inl h
  | cons r rest ih =>
    obtain ⟨i, rfl⟩ := hrs r List.mem_cons_self
    have hrest := fun c => ih (c := c) fun r hr => hrs r (List.mem_cons_of_mem _ hr)
    have hmore : Asks ns rest n → Asks ns (.delete i :: rest) n :=
      fun ⟨j, hj, hn⟩ => ⟨j, List.mem_cons_of_mem _ hj, hn⟩
    cases hi : ns[i]? with
    | none =>
      rw [carryOutAllBare_cons_of_none hi] at h
      exact (hrest c h).imp_right hmore
    | some m =>
      by_cases hm : n = m
      · exact Or.inr ⟨i, List.mem_cons_self, hm ▸ hi⟩
      · have hsame := isDeleted_delete_of_ne hm c
        rw [carryOutAllBare_cons_of_some hi] at h
        split at h
        next heq =>
          rw [heq] at hsame
          exact Or.inl (hsame ▸ h)
        next c1 heq =>
          rw [heq] at hsame
          exact (hrest c1 h).imp (fun hdeleted => hsame ▸ hdeleted) hmore

theorem exists_of_carryOutAllBare_error (h : c.Tallied) (hns : ∀ n ∈ ns, n < c.commits.length)
    (hrs : ∀ r ∈ rs, ∃ i, r = .delete i) {e : Error} (herr : (carryOutAllBare ns rs c).1 = .error e) :
    ∃ err, e = .store err := by
  induction rs generalizing c with
  | nil => cases herr
  | cons r rest ih =>
    obtain ⟨i, rfl⟩ := hrs r List.mem_cons_self
    have hrest : ∀ r ∈ rest, ∃ i, r = .delete i := fun r hr => hrs r (List.mem_cons_of_mem _ hr)
    cases hi : ns[i]? with
    | none =>
      rw [carryOutAllBare_cons_of_none hi] at herr
      exact ih h hns hrest herr
    | some m =>
      have hm := hns m (List.mem_of_getElem? hi)
      have hfailed : ∀ err, (c.delete m).1 = .error err → ∃ cause, err = .store cause :=
        fun err => h.exists_of_delete_error hm
      have htallied := h.prunes (.delete m c)
      have hlength := (sameCommits_delete m c).length
      rw [carryOutAllBare_cons_of_some hi] at herr
      split at herr
      next e' c1 heq =>
        rw [heq] at hfailed
        obtain rfl := Except.error.inj herr
        exact hfailed _ rfl
      next c1 heq =>
        rw [heq] at htallied hlength
        exact ih htallied (hlength ▸ hns) hrest herr

/-- If nothing fails, all that was asked for goes, with what nothing else lists. -/
theorem shed_of_ok (h : c.Tallied) (hns : ∀ n ∈ ns, n < c.commits.length)
    (hrs : ∀ r ∈ rs, ∃ i, r = .delete i) (hok : carryOutAllBare ns rs c = (.ok (), d)) :
    Sheds c d ∧ ∀ n, Asks ns rs n → d.isDeleted n = true := by
  induction rs generalizing c with
  | nil =>
    obtain ⟨-, rfl⟩ := Prod.mk.inj hok
    exact ⟨.refl c, fun n ⟨i, hi, _⟩ => absurd hi List.not_mem_nil⟩
  | cons r rest ih =>
    obtain ⟨i, rfl⟩ := hrs r List.mem_cons_self
    have hrest : ∀ r ∈ rest, ∃ i, r = .delete i := fun r hr => hrs r (List.mem_cons_of_mem _ hr)
    cases hi : ns[i]? with
    | none =>
      rw [carryOutAllBare_cons_of_none hi] at hok
      obtain ⟨hsheds, hall⟩ := ih h hns hrest hok
      refine ⟨hsheds, fun n => ?_⟩
      rintro ⟨j, hj, hn⟩
      rcases List.mem_cons.mp hj with heq | hj
      · obtain rfl := Request.delete.inj heq
        cases hi.symm.trans hn
      · exact hall n ⟨j, hj, hn⟩
    | some m =>
      have hm := hns m (List.mem_of_getElem? hi)
      have htallied := h.prunes (.delete m c)
      have hlength := (sameCommits_delete m c).length
      have hsheds := h.sheds_delete hm
      have hgone := isDeleted_delete_self hm (h.artifacts m hm)
      rw [carryOutAllBare_cons_of_some hi] at hok
      split at hok
      next => cases (Prod.mk.inj hok).1
      next c1 heq =>
        rw [heq] at htallied hlength hsheds hgone
        obtain ⟨hsheds', hall⟩ := ih htallied (hlength ▸ hns) hrest hok
        refine ⟨(hsheds rfl).trans hsheds' h, fun n => ?_⟩
        rintro ⟨j, hj, hn⟩
        rcases List.mem_cons.mp hj with heq' | hj
        · obtain rfl := Request.delete.inj heq'
          obtain rfl := Option.some.inj (hi.symm.trans hn)
          exact hsheds'.prunes.isDeleted hgone
        · exact hall n ⟨j, hj, hn⟩

/-- If the store refuses nothing, nothing fails as long as each file that cannot be deleted belongs to
a commit that is not asked for. -/
theorem carryOutAllBare_of_never (h : c.Tallied) (hns : ∀ n ∈ ns, n < c.commits.length)
    (hrs : ∀ r ∈ rs, ∃ i, r = .delete i) (hnever : (c.store 0).faults = .never)
    (hfixed : ∀ q ∈ c.referenced, (c.store 0).medium.Fixed q → ∃ n, n < c.commits.length ∧
      ¬Asks ns rs n ∧ c.isDeleted n = false ∧ q ∈ (c.commit n).manifest.fileNames) :
    (carryOutAllBare ns rs c).1 = .ok () := by
  induction rs generalizing c with
  | nil => rfl
  | cons r rest ih =>
    obtain ⟨i, rfl⟩ := hrs r List.mem_cons_self
    have hrest : ∀ r ∈ rest, ∃ i, r = .delete i := fun r hr => hrs r (List.mem_cons_of_mem _ hr)
    have hfewer : ∀ n, ¬Asks ns (.delete i :: rest) n → ¬Asks ns rest n :=
      fun n hnot ⟨j, hj, hn⟩ => hnot ⟨j, List.mem_cons_of_mem _ hj, hn⟩
    cases hi : ns[i]? with
    | none =>
      rw [carryOutAllBare_cons_of_none hi]
      refine ih h hns hrest hnever fun q hq hf => ?_
      obtain ⟨n, hn, hnot, hleft⟩ := hfixed q hq hf
      exact ⟨n, hn, hfewer n hnot, hleft⟩
    | some m =>
      have hm := hns m (List.mem_of_getElem? hi)
      have hprunes : Prunes c (c.delete m).2 := .delete m c
      have hsame := sameCommits_delete m c
      -- what keeps a fixed file is another commit, so it outlives this deletion
      have hleft : ∀ q ∈ c.referenced, (c.store 0).medium.Fixed q →
          ∃ n, n < (c.delete m).2.commits.length ∧ ¬Asks ns rest n ∧
            (c.delete m).2.isDeleted n = false ∧
              q ∈ ((c.delete m).2.commit n).manifest.fileNames := by
        intro q hq hf
        obtain ⟨n, hn, hnot, hkept, hname⟩ := hfixed q hq hf
        have hne : n ≠ m := by
          rintro rfl
          exact hnot ⟨i, List.mem_cons_self, hi⟩
        refine ⟨n, hsame.length.symm ▸ hn, hfewer n hnot, ?_, ?_⟩
        · rw [isDeleted_delete_of_ne hne]
          exact hkept
        · rw [hsame.manifest]
          exact hname
      have hok := h.delete_of_never hm hnever fun q hq hf => by
        obtain ⟨n, hn, -, hkept, hname⟩ := hleft q hq hf
        exact mem_referenced hn hkept hname
      have heq : c.delete m = (.ok (), (c.delete m).2) := Prod.ext hok rfl
      have herodes := h.erodes hprunes
      obtain ⟨names, kept, hd, -⟩ := h.delete hm
      rw [carryOutAllBare_cons_of_some hi, heq]
      refine ih (h.prunes hprunes) (hsame.length.symm ▸ hns) hrest
        ((h.faults_prunes hprunes).trans hnever) fun q hq hf => ?_
      exact hleft q (hd.shrinks q hq) ((herodes.alike.fixed_iff q).mp hf)

/-! ## Behind another catalog -/

section
variable {b : Catalog} {old : List Commit} {olds : List Depot}

theorem carryOutBare_lodge (h : b.Tallied) (hns : ∀ i ∈ ns, i < b.commits.length) (r : Request) :
    carryOutBare (ns.map (old.length + ·)) r (b.lodge old olds) =
      ((carryOutBare ns r b).1, (carryOutBare ns r b).2.lodge old olds) := by
  have hdelete : ∀ {position n : Nat}, ns[position]? = some n →
      (b.lodge old olds).delete (old.length + n) =
        ((b.delete n).1, (b.delete n).2.lodge old olds) :=
    fun hn => h.delete_lodge (hns _ (List.mem_of_getElem? hn))
  cases r with
  | delete position =>
    unfold carryOutBare
    dsimp only
    rw [List.getElem?_map]
    cases hn : ns[position]? with
    | none => rfl
    | some n => exact hdelete hn
  | attempt position =>
    unfold carryOutBare
    dsimp only
    rw [List.getElem?_map]
    cases hn : ns[position]? with
    | none => rfl
    | some n =>
      show (Except.ok (), ((b.lodge old olds).delete (old.length + n)).2) = _
      rw [hdelete hn]
  | release slot => rfl
  | drop slot => rfl
  | fail error => rfl

/-- A bare policy may be shown the commits of a writer under any numbers. -/
theorem carryOutAllBare_lodge (old : List Commit) (olds : List Depot) (h : b.Tallied)
    (hns : ∀ i ∈ ns, i < b.commits.length) (rs : List Request) :
    carryOutAllBare (ns.map (old.length + ·)) rs (b.lodge old olds) =
      ((carryOutAllBare ns rs b).1, (carryOutAllBare ns rs b).2.lodge old olds) := by
  induction rs generalizing b with
  | nil => rfl
  | cons r rest ih =>
    have hprunes := carryOutBare_prunes ns r b
    unfold carryOutAllBare
    rw [carryOutBare_lodge h hns]
    generalize carryOutBare ns r b = carried at hprunes ⊢
    obtain ⟨result, b1⟩ := carried
    cases result with
    | error err => rfl
    | ok _ => exact ih (h.prunes hprunes) (hprunes.sameCommits.length.symm ▸ hns)

end

end Engine

end SnapshotRetention
