import SnapshotRetention.Proofs.Catalog.Depots

/-!
# Counting references for any caller

A tracker may be called in any order, with names that repeat, that are not tracked, or whose
deletion still waits (`Call`, `Run`). What its callers have done to a name is entered into a ledger:
how often the name was taken up, and how often of that it was given back (`Ledger`). Giving back
what is not tracked does not count.

A call first settles the counts (`Call.Prepares`) and then attempts the deletions that are due, all
of them whatever fails (`Attempts`, `deleteAll_eq`). So the counts are what the ledgers say, and a
name that is not referenced any more is gone or queued (`Accounted`). Each call keeps this
(`Accounted.act`): one that takes a queued name up again does, since giving the name back makes it
due again. It holds throughout every run (`references_accounted`).
-/

namespace SnapshotRetention.Tracker

variable {t t' t₁ : Tracker} {s s' s₀ : Store} {q : String} {names due : List String}

/-! ## Attempts -/

/-- Why a deletion failed, if it did; a name that is gone already counts as deleted. -/
def failure? : Except StoreError Unit → Option StoreError
  | .ok () => none
  | .error (.notFound _) => none
  | .error e => some e

/-- What a store answers when names are deleted in order, and the store after it. -/
def attempt : List String → Store → List (String × Except StoreError Unit) × Store
  | [], s => ([], s)
  | name :: names, s =>
    ((name, (s.delete name).1) :: (attempt names (s.delete name).2).1,
      (attempt names (s.delete name).2).2)

/-- The names whose deletion failed. -/
def failed (answers : List (String × Except StoreError Unit)) : List String :=
  (answers.filter fun a => (failure? a.2).isSome).map Prod.fst

/-- The first failure. -/
def outcome (answers : List (String × Except StoreError Unit)) : Except Error Unit :=
  match answers.findSome? fun a => failure? a.2 with
  | none => .ok ()
  | some e => .error (.store e)

theorem deleteOne_eq (name : String) (t : Tracker) (s : Store) : deleteOne name t s =
    (outcome [(name, (s.delete name).1)],
      { t with queue := t.queue ++ failed [(name, (s.delete name).1)] }, (s.delete name).2) := by
  unfold deleteOne
  split
  next s' hd =>
    rw [hd]
    simp [outcome, failed, failure?]
  next n s' hd =>
    rw [hd]
    simp [outcome, failed, failure?]
  next e s' hfound hd =>
    have hfails : failure? (.error e) = some e := by
      cases e with
      | notFound n => exact absurd rfl (hfound n)
      | _ => rfl
    rw [hd]
    simp [outcome, failed, hfails, enqueue]

theorem failed_cons (a : String × Except StoreError Unit)
    (answers : List (String × Except StoreError Unit)) :
    failed (a :: answers) = failed [a] ++ failed answers := by
  unfold failed
  rw [← List.map_append, ← List.filter_append, List.singleton_append]

theorem outcome_cons (a : String × Except StoreError Unit)
    (answers : List (String × Except StoreError Unit)) :
    outcome (a :: answers) = firstFailure (outcome [a]) (outcome answers) := by
  unfold outcome
  rw [List.findSome?_cons, List.findSome?_cons, List.findSome?_nil]
  cases failure? a.2 with
  | none => rfl
  | some e => rfl

/-- All deletions are attempted, whatever fails. Those that fail are queued in order, and the first
failure is reported. -/
theorem deleteAll_eq (names : List String) (t : Tracker) (s : Store) : deleteAll names t s =
    (outcome (attempt names s).1, { t with queue := t.queue ++ failed (attempt names s).1 },
      (attempt names s).2) := by
  induction names generalizing t s with
  | nil =>
    show (_, t, s) = (_, ({ t with queue := t.queue ++ [] } : Tracker), s)
    rw [List.append_nil]
    rfl
  | cons name names ih =>
    have hcons : deleteAll (name :: names) t s =
        (firstFailure (deleteOne name t s).1
            (deleteAll names (deleteOne name t s).2.1 (deleteOne name t s).2.2).1,
          (deleteAll names (deleteOne name t s).2.1 (deleteOne name t s).2.2).2) := rfl
    rw [hcons, ih, deleteOne_eq]
    dsimp only [attempt]
    rw [List.append_assoc, ← failed_cons, ← outcome_cons]

theorem node_attempt (names : List String) (s : Store) (q : String) :
    (attempt names s).2.medium.node? q = s.medium.node? q ∨
      q ∈ names ∧ (attempt names s).2.medium.node? q = none := by
  have hdelete := node_deleteAll names empty s q
  rwa [deleteAll_eq] at hdelete

/-- A deletion that does not fail leaves nothing under its name. -/
theorem node_delete_of_succeeds {name : String} (h : failure? (s.delete name).1 = none) :
    (s.delete name).2.medium.node? name = none := by
  have hcleared : Store.Cleared [name] [] s (s.delete name).2 := by
    refine Store.cleared_delete ?_
    cases hanswer : (s.delete name).1 with
    | ok u => exact Or.inl (Prod.ext hanswer rfl)
    | error e =>
      rw [hanswer] at h
      cases e with
      | notFound n => exact Or.inr ⟨n, Prod.ext hanswer rfl⟩
      | _ => cases h
  rw [hcleared.node]
  exact if_pos ⟨List.mem_cons_self, List.not_mem_nil⟩

/-- What is attempted is gone afterwards or has failed, also if it is attempted more than once. -/
theorem gone_or_failed (h : q ∈ names) (s : Store) :
    (attempt names s).2.medium.node? q = none ∨ q ∈ failed (attempt names s).1 := by
  induction names generalizing s with
  | nil => exact absurd h List.not_mem_nil
  | cons name names ih =>
    dsimp only [attempt]
    rw [failed_cons, List.mem_append]
    rcases List.mem_cons.mp h with rfl | hmem
    · cases hfails : failure? (s.delete q).1 with
      | none =>
        refine Or.inl ?_
        rcases node_attempt names (s.delete q).2 q with hsame | ⟨-, hgone⟩
        · exact hsame.trans (node_delete_of_succeeds hfails)
        · exact hgone
      | some e =>
        refine Or.inr (Or.inl ?_)
        simp [failed, hfails]
    · exact (ih hmem (s.delete name).2).imp_right Or.inr

theorem mem_of_failed (h : q ∈ failed (attempt names s).1) : q ∈ names := by
  induction names generalizing s with
  | nil => exact h
  | cons name names ih =>
    dsimp only [attempt] at h
    rw [failed_cons] at h
    rcases List.mem_append.mp h with hfirst | hrest
    · obtain ⟨a, ha, rfl⟩ := List.mem_map.mp hfirst
      rw [List.mem_singleton.mp (List.mem_of_mem_filter ha)]
      exact List.mem_cons_self
    · exact List.mem_cons_of_mem _ (ih hrest)

/-! ## Calls -/

/-- A call of a tracker. -/
inductive Call where
  | incref (names : List String)
  | decref (names : List String)
  | retry

/-- What a call returns, and the tracker and the store after it. -/
def Call.act (call : Call) (t : Tracker) (s : Store) : Except Error Unit × Tracker × Store :=
  match call with
  | .incref names => (.ok (), t.incref names, s)
  | .decref names => Tracker.decref names t s
  | .retry => Tracker.retry t s

/-- The runs of a new tracker over a store, with any calls. Between them anything about the store
may change but the artifacts, so that any deletions may fail. -/
inductive Run (s₀ : Store) : List Call → Tracker → Store → Prop where
  | start : Run s₀ [] .empty s₀
  | call {calls : List Call} {t : Tracker} {s : Store} (h : Run s₀ calls t s) (call : Call) :
    Run s₀ (calls ++ [call]) (call.act t s).2.1 (call.act t s).2.2
  | idle {calls : List Call} {t : Tracker} {s s' : Store} (h : Run s₀ calls t s)
    (hmedium : s'.medium = s.medium) : Run s₀ calls t s'

/-! ## Ledgers -/

/-- How often a name was taken up, and how often of that it was given back. -/
structure Ledger where
  taken : Nat
  returned : Nat

/-- A name is given back only while it was taken up more often than given back. -/
def Ledger.giveBack (l : Ledger) : Ledger :=
  if l.returned < l.taken then { l with returned := l.returned + 1 } else l

/-- Enters a call into the ledger of a name. -/
def Call.enter (q : String) (l : Ledger) : Call → Ledger
  | .incref names => { l with taken := l.taken + names.count q }
  | .decref names => names.foldl (fun l name => if name = q then l.giveBack else l) l
  | .retry => l

/-- The ledger of a name after some calls. -/
def ledger (q : String) (calls : List Call) : Ledger := calls.foldl (Call.enter q) ⟨0, 0⟩

theorem ledger_append (q : String) (calls : List Call) (call : Call) :
    ledger q (calls ++ [call]) = call.enter q (ledger q calls) :=
  List.foldl_append

theorem taken_giveBack (l : Ledger) : l.giveBack.taken = l.taken := by
  unfold Ledger.giveBack
  split
  next => rfl
  next => rfl

/-- Giving back leaves what was taken up alone, and stops when nothing is left. -/
theorem enter_decref (names : List String) (q : String) {l : Ledger} {n : Nat}
    (h : n + l.returned = l.taken) :
    ((Call.decref names).enter q l).taken = l.taken ∧
      n - names.count q + ((Call.decref names).enter q l).returned = l.taken := by
  induction names generalizing n l with
  | nil => exact ⟨rfl, h⟩
  | cons name names ih =>
    have hcons : (Call.decref (name :: names)).enter q l =
        (Call.decref names).enter q (if name = q then l.giveBack else l) := rfl
    rw [hcons]
    by_cases hq : name = q
    · have hback : n - 1 + l.giveBack.returned = l.giveBack.taken := by
        rw [taken_giveBack]
        unfold Ledger.giveBack
        split
        next =>
          dsimp only
          omega
        next => omega
      obtain ⟨htaken, hreturned⟩ := ih hback
      rw [taken_giveBack] at htaken hreturned
      rw [if_pos hq, hq, List.count_cons_self]
      refine ⟨htaken, ?_⟩
      rwa [Nat.sub_sub, Nat.add_comm 1] at hreturned
    · rw [if_neg hq, List.count_cons_of_ne hq]
      exact ih h

/-! ## What a call leaves to delete -/

variable {calls : List Call} {call : Call}

/-- Taking references back dooms each name once that loses its last one. -/
structure Dooms (names : List String) (t : Tracker) (due : List String) (t₁ : Tracker) : Prop where
  nodup : due.Nodup
  sublist : due.Sublist names
  due_iff : ∀ q, q ∈ due ↔ 0 < t.refCount q ∧ t₁.refCount q = 0
  refCount : ∀ q, t₁.refCount q = t.refCount q - names.count q
  queue : t₁.queue = t.queue

/-- The deletions that are due once a call has settled the counts, and the tracker before them. -/
def Call.Prepares (t : Tracker) (due : List String) (t₁ : Tracker) : Call → Prop
  | .incref names => due = [] ∧ t₁ = t.incref names
  | .decref names => Dooms names t due t₁
  | .retry => due = t.queue.filter (fun q => t.refCount q = 0) ∧ t₁ = { t with queue := [] }

/-- No count is kept of what is not referenced. -/
def Positive (t : Tracker) : Prop := ∀ q, t.counts.get? q ≠ some 0

theorem Positive.increment (h : t.Positive) (name : String) : (t.increment name).Positive := by
  intro q
  unfold Tracker.increment
  rw [Table.get?_insert]
  split
  next => exact fun heq => Nat.succ_ne_zero _ (Option.some.inj heq)
  next => exact h q

theorem Positive.incref (h : t.Positive) (names : List String) : (t.incref names).Positive := by
  induction names generalizing t with
  | nil => exact h
  | cons name names ih => exact ih (h.increment name)

theorem Positive.decrement (h : t.Positive) (name : String) : (t.decrement name).Positive := by
  intro q
  unfold Tracker.decrement
  split
  next => exact h q
  next count hcount =>
    split
    next hmore =>
      rw [Table.get?_insert]
      split
      next =>
        intro heq
        have hzero := Option.some.inj heq
        omega
      next => exact h q
    next =>
      rw [Table.get?_erase]
      split
      next => exact (Option.some_ne_none 0).symm
      next => exact h q

theorem Positive.discount (h : t.Positive) (names : List String) :
    (Tracker.discount names t).2.Positive := by
  induction names generalizing t with
  | nil => exact h
  | cons name names ih => exact ih (h.decrement name)

theorem Positive.dooms (h : t.Positive) (names : List String) :
    Dooms names t (Tracker.discount names t).1 (Tracker.discount names t).2 := by
  refine ⟨nodup_doomed names t, sublist_doomed names t, fun q => ⟨fun hdue => ⟨?_, ?_⟩, ?_⟩,
    fun q => refCount_discount names q t, queue_discount names t⟩
  · cases hget : t.counts.get? q with
    | none => exact absurd hdue (not_mem_doomed hget names)
    | some count =>
      refine Nat.pos_of_ne_zero fun hzero => h q ?_
      rw [hget, ← refCount_of_tracked hget, hzero]
  · exact refCount_of_doomed hdue
  · rintro ⟨hpos, hzero⟩
    exact (mem_doomed hpos).mpr hzero

/-- A call settles the counts and then attempts what is due. -/
theorem Positive.act (h : t.Positive) (call : Call) : ∃ due t₁, call.Prepares t due t₁ ∧
    t₁.Positive ∧ ∀ s, call.act t s = deleteAll due t₁ s := by
  cases call with
  | incref names => exact ⟨[], t.incref names, ⟨rfl, rfl⟩, h.incref names, fun _ => rfl⟩
  | decref names => exact ⟨_, _, h.dooms names, h.discount names, fun _ => rfl⟩
  | retry =>
    refine ⟨_, { t with queue := [] }, ⟨rfl, rfl⟩, h, fun s => ?_⟩
    have hfree : (t.queue.filter fun q => !t.isReferenced q) =
        t.queue.filter fun q => t.refCount q = 0 := by
      refine List.filter_congr fun q _ => ?_
      rcases Nat.eq_zero_or_pos (t.refCount q) with hzero | hpos
      · simp [isReferenced, hzero]
      · simp [isReferenced, hpos, Nat.ne_of_gt hpos]
    show deleteAll (t.queue.filter fun q => !t.isReferenced q) _ s = _
    rw [hfree]

/-- Settling the counts queues nothing. -/
theorem Call.Prepares.queue_subset (h : call.Prepares t due t₁) :
    t₁.queue ⊆ t.queue := by
  cases call with
  | incref names =>
    rw [h.2, queue_incref]
    exact List.Subset.refl _
  | decref names =>
    rw [Dooms.queue h]
    exact List.Subset.refl _
  | retry =>
    rw [h.2]
    exact List.nil_subset _

/-- What is due is not referenced any more. -/
theorem Call.Prepares.refCount_of_due (h : call.Prepares t due t₁) (hq : q ∈ due) :
    t₁.refCount q = 0 := by
  cases call with
  | incref names =>
    obtain ⟨rfl, -⟩ := h
    exact absurd hq List.not_mem_nil
  | decref names => exact ((Dooms.due_iff h q).mp hq).2
  | retry =>
    obtain ⟨rfl, rfl⟩ := h
    exact of_decide_eq_true (List.mem_filter.mp hq).2

/-- Attempting what is due: every deletion is attempted, those that fail are queued, and the first
failure is what the call returns. Nothing else is deleted, and nothing that is due is referenced at
any moment until all are done. -/
structure Attempts (due : List String) (t : Tracker) (s : Store)
    (out : Except Error Unit × Tracker × Store) : Prop where
  deletes : out = deleteAll due t s
  store : out.2.2 = (attempt due s).2
  queue : out.2.1.queue = t.queue ++ failed (attempt due s).1
  result : out.1 = outcome (attempt due s).1
  node : ∀ q, out.2.2.medium.node? q = s.medium.node? q ∨
    q ∈ due ∧ out.2.2.medium.node? q = none
  free : ∀ q ∈ due, ∀ done, done <+: due → (deleteAll done t s).2.1.refCount q = 0

theorem attempts_deleteAll (hfree : ∀ q ∈ due, t.refCount q = 0) (s : Store) :
    Attempts due t s (deleteAll due t s) where
  deletes := rfl
  store := by rw [deleteAll_eq]
  queue := by rw [deleteAll_eq]
  result := by rw [deleteAll_eq]
  node := node_deleteAll due t s
  free q hq done _ := (refCount_deleteAll done t s q).trans (hfree q hq)

/-! ## What a tracker accounts for -/

/-- The counts are what the ledgers say, and what was taken up and is not referenced any more is
gone or waits. -/
structure Accounted (calls : List Call) (t : Tracker) (s : Store) : Prop where
  counted : ∀ q, t.refCount q + (ledger q calls).returned = (ledger q calls).taken
  gone : ∀ q, 0 < (ledger q calls).taken → t.refCount q = 0 →
    s.medium.node? q = none ∨ q ∈ t.queue
  queued : ∀ q ∈ t.queue, 0 < (ledger q calls).taken
  positive : t.Positive

theorem accounted_empty (s : Store) : Accounted [] empty s where
  counted _ := rfl
  gone _ htaken _ := absurd htaken (Nat.lt_irrefl 0)
  queued _ hq := absurd hq List.not_mem_nil
  positive _ := nofun

namespace Accounted

theorem idle (h : Accounted calls t s) (hmedium : s'.medium = s.medium) : Accounted calls t s' :=
  { h with gone := fun q htaken hfree => hmedium ▸ h.gone q htaken hfree }

/-- What is due was taken up. -/
theorem taken_of_due (h : Accounted calls t s) (hp : call.Prepares t due t₁) (hq : q ∈ due) :
    0 < (ledger q calls).taken := by
  cases call with
  | incref names =>
    obtain ⟨rfl, -⟩ := hp
    exact absurd hq List.not_mem_nil
  | decref names =>
    have hcounted := h.counted q
    have hpos := ((hp.due_iff q).mp hq).1
    omega
  | retry =>
    obtain ⟨rfl, -⟩ := hp
    exact h.queued q (List.mem_of_mem_filter hq)

/-- Settling the counts enters the call into the ledgers. -/
theorem settles (h : Accounted calls t s) (hp : call.Prepares t due t₁) (q : String) :
    t₁.refCount q + (ledger q (calls ++ [call])).returned = (ledger q (calls ++ [call])).taken := by
  have hcounted := h.counted q
  rw [ledger_append]
  cases call with
  | incref names =>
    obtain ⟨-, rfl⟩ := hp
    rw [refCount_incref]
    dsimp only [Call.enter]
    omega
  | decref names =>
    obtain ⟨htaken, hreturned⟩ := enter_decref names q hcounted
    rw [hp.refCount, htaken]
    exact hreturned
  | retry =>
    obtain ⟨-, rfl⟩ := hp
    exact hcounted

/-- A name that is neither referenced any more nor due was gone or queued before, and stays so. -/
theorem gone_or_queued (h : Accounted calls t s) (hp : call.Prepares t due t₁) (hq : q ∉ due)
    (htaken : 0 < (ledger q (calls ++ [call])).taken) (hfree : t₁.refCount q = 0) :
    s.medium.node? q = none ∨ q ∈ t₁.queue := by
  rw [ledger_append] at htaken
  cases call with
  | incref names =>
    obtain ⟨-, rfl⟩ := hp
    rw [refCount_incref] at hfree
    rw [queue_incref]
    dsimp only [Call.enter] at htaken
    exact h.gone q (by omega) (by omega)
  | decref names =>
    rw [(enter_decref names q (h.counted q)).1] at htaken
    rw [hp.queue]
    refine h.gone q htaken (Nat.eq_zero_of_not_pos fun hpos => hq ?_)
    exact (hp.due_iff q).mpr ⟨hpos, hfree⟩
  | retry =>
    -- the names that leave the queue without being due are referenced again, so `q` is none of them
    obtain ⟨rfl, rfl⟩ := hp
    refine (h.gone q htaken hfree).imp_right fun hqueued => absurd ?_ hq
    exact List.mem_filter.mpr ⟨hqueued, decide_eq_true hfree⟩

/-- The ledger never loses what was taken up. -/
theorem taken_le (h : Accounted calls t s) (q : String) (call : Call) :
    (ledger q calls).taken ≤ (ledger q (calls ++ [call])).taken := by
  rw [ledger_append]
  cases call with
  | incref names => exact Nat.le_add_right _ _
  | decref names => exact Nat.le_of_eq (enter_decref names q (h.counted q)).1.symm
  | retry => exact Nat.le_refl _

theorem act (h : Accounted calls t s) (call : Call) :
    Accounted (calls ++ [call]) (call.act t s).2.1 (call.act t s).2.2 := by
  obtain ⟨due, t₁, hp, hpositive, hact⟩ := h.positive.act call
  rw [hact, deleteAll_eq]
  have hsettles := h.settles hp
  refine ⟨hsettles, fun q htaken hfree => ?_, fun q hq => ?_, hpositive⟩
  · dsimp only
    rw [List.mem_append]
    by_cases hdue : q ∈ due
    · exact (gone_or_failed hdue s).imp_right Or.inr
    -- what is not due is as before, and no attempt brings it back
    · rcases h.gone_or_queued hp hdue htaken hfree with hgone | hqueued
      · rcases node_attempt due s q with hsame | ⟨hmem, -⟩
        · exact Or.inl (hsame.trans hgone)
        · exact absurd hmem hdue
      · exact Or.inr (Or.inl hqueued)
  · have hbefore : 0 < (ledger q calls).taken := by
      rcases List.mem_append.mp hq with hwaits | hfailed
      · exact h.queued q (hp.queue_subset hwaits)
      · exact h.taken_of_due hp (mem_of_failed hfailed)
    exact Nat.lt_of_lt_of_le hbefore (h.taken_le q call)

end Accounted

theorem accounted_of_run (h : Run s₀ calls t s) : Accounted calls t s := by
  induction h with
  | start => exact accounted_empty s₀
  | call _ call ih => exact ih.act call
  | idle _ hmedium ih => exact ih.idle hmedium

/-- Whatever a tracker is called for, and whichever deletions fail, a name is referenced as often as
it was taken up and not given back, and is gone or queued once it is not referenced any more. A call
attempts all that is due, which was taken up and is not referenced, deletes nothing else and returns
the first failure. Where no deletion fails, trying the queue again empties it and leaves nothing
that was taken up and is not referenced. -/
theorem references_accounted (h : Run s₀ calls t s) :
    (∀ q, t.refCount q + (ledger q calls).returned = (ledger q calls).taken ∧
      (0 < (ledger q calls).taken → t.refCount q = 0 →
        s.medium.node? q = none ∨ q ∈ t.queue)) ∧
    (∀ call : Call, ∃ due t₁, call.Prepares t due t₁ ∧ Attempts due t₁ s (call.act t s) ∧
      ∀ q ∈ due, 0 < (ledger q calls).taken) ∧
    ((∀ a ∈ (attempt (t.queue.filter fun q => t.refCount q = 0) s).1, failure? a.2 = none) →
      (retry t s).2.1.queue = [] ∧
      ∀ q, 0 < (ledger q calls).taken → t.refCount q = 0 →
        (retry t s).2.2.medium.node? q = none) := by
  have haccounted := accounted_of_run h
  refine ⟨fun q => ⟨haccounted.counted q, haccounted.gone q⟩, fun call => ?_, fun hsucceeds => ?_⟩
  · obtain ⟨due, t₁, hp, -, hact⟩ := haccounted.positive.act call
    refine ⟨due, t₁, hp, ?_, fun q hq => haccounted.taken_of_due hp hq⟩
    rw [hact]
    exact attempts_deleteAll (fun q hq => hp.refCount_of_due hq) s
  · obtain ⟨due, t₁, ⟨rfl, rfl⟩, -, hact⟩ := haccounted.positive.act .retry
    have hfailed : failed (attempt (t.queue.filter fun q => t.refCount q = 0) s).1 = [] := by
      refine List.map_eq_nil_iff.mpr (List.filter_eq_nil_iff.mpr fun a ha => ?_)
      rw [hsucceeds a ha]
      exact Bool.false_ne_true
    have hqueue : (retry t s).2.1.queue = [] := by
      have hafter := congrArg (fun out => out.2.1.queue) (hact s)
      rw [deleteAll_eq] at hafter
      exact hafter.trans hfailed
    refine ⟨hqueue, fun q htaken hfree => ?_⟩
    have hafter := haccounted.act .retry
    rcases hafter.gone q (Nat.lt_of_lt_of_le htaken (haccounted.taken_le q .retry))
      ((refCount_retry t s q).trans hfree) with hgone | hqueued
    · exact hgone
    · have hqueued : q ∈ (retry t s).2.1.queue := hqueued
      rw [hqueue] at hqueued
      exact absurd hqueued List.not_mem_nil

/-- Two artifacts that cannot be deleted yet. -/
def stuck : Store :=
  .ofMedium (.memory (Table.ofList [("a", [1]), ("b", [2])])) (.switches false true)

/-- Both names are given back in vain, one of them more often than it was taken up. The other is
taken up and given back again once deletions succeed, so that it is gone already when the queue is
tried. -/
theorem references_accounted_requeued :
    ∃ t s,
      Run stuck [.incref ["a", "b"], .decref ["a", "a", "b"], .incref ["b"], .decref ["b"]] t s ∧
      t.queue = ["a", "b"] ∧ s.medium.node? "b" = none ∧ s.medium.node? "a" ≠ none ∧
      (retry t s).2.1.queue = [] ∧ ∀ q ∈ ["a", "b"], (retry t s).2.2.medium.node? q = none := by
  have hlost := ((Run.start : Run stuck [] .empty stuck).call (.incref ["a", "b"])).call
    (.decref ["a", "a", "b"])
  have hworks : Run stuck _ _ { stuck with faults := .never } :=
    (hlost.call (.incref ["b"])).idle rfl
  have hrun := hworks.call (.decref ["b"])
  obtain ⟨-, -, hretry⟩ := references_accounted hrun
  obtain ⟨hqueue, hgone⟩ := hretry (by decide +kernel)
  refine ⟨_, _, hrun, by decide +kernel, by decide +kernel, by decide +kernel, hqueue, ?_⟩
  intro q hq
  refine hgone q ?_ ?_
  · revert q hq
    decide +kernel
  · revert q hq
    decide +kernel

end SnapshotRetention.Tracker
