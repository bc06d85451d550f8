import SnapshotRetention.Proofs.Writer.Complaints
import SnapshotRetention.Proofs.Writer.Rejected
import SnapshotRetention.Proofs.Writer.Sweeping

/-!
# The numbers of commits

A writer counts versions and generations with 64 bits, from the newest manifest that it finds. A
manifest in a store may have any number, also the last one, and no number follows that.

The program stops while it opens a writer exactly if the newest manifest has the last number of a
counter (`openWriter_overflow_iff`), and in a commit exactly if it is the one with that number,
which has then been made (`commit_overflow_iff`). `Writes` has the states of a writer from its
opening on, and `Writes.numbered` what its next numbers are there. `numbers_rise_to_the_end` is what
follows for the manifests that it writes.
-/

namespace SnapshotRetention

variable {ms found made written written' : List Manifest} {m : Manifest}

/-! ## The end of a counter -/

/-- No access of a store, no manifest and no cycle says that a number is missing. -/
theorem foreign_counterOverflow : Error.Foreign (· = .counterOverflow) :=
  ⟨nofun, nofun, nofun, nofun, nofun⟩

theorem next?_eq_none_iff (m : Manifest) :
    (m.version.next? = none ∨ m.generation.next? = none) ↔
      m.version.number.toNat = UInt64.size - 1 ∨ m.generation.number.toNat = UInt64.size - 1 := by
  unfold Version.next? Generation.next?
  rw [Option.map_eq_none_iff, Option.map_eq_none_iff, succ?_eq_none_iff, succ?_eq_none_iff]

/-- A counter of the newest of some manifests, nothing if there is none. -/
def newest (counter : Manifest → UInt64) (ms : List Manifest) : Nat :=
  (ms.getLast?.map fun m => (counter m).toNat).getD 0

/-- Whether a counter of the newest of some manifests is at its end. -/
def AtEnd (ms : List Manifest) : Prop :=
  newest (fun m => m.version.number) ms = UInt64.size - 1 ∨
    newest (fun m => m.generation.number) ms = UInt64.size - 1

theorem canFollow_eq_false_iff : Writer.canFollow ms = false ↔ AtEnd ms := by
  unfold Writer.canFollow Writer.after AtEnd newest
  cases ms.getLast? with
  | none => simp
  | some last =>
    dsimp only [Option.map_some, Option.getD_some]
    rw [← next?_eq_none_iff]
    cases last.version.next? with
    | none => simp
    | some version =>
      cases last.generation.next? with
      | none => simp
      | some generation => simp

namespace Engine

variable {e e' : Engine} {w : Writer} {changes : Changes} {store : Nat} {v v' : Version}
  {g g' : Generation}

/-! ## Opening -/

/-- The program stops while it opens a writer exactly if the manifests can be read and the sweep
succeeds, but a counter of the newest manifest is at its end. -/
theorem openWriter_overflow_iff (hd : e.decider.Avoids (· = .counterOverflow)) (store : Nat)
    (sync : Bool) : (e.openWriter store sync).1 = .error .counterOverflow ↔
      ∃ ms, (e.catalog.store store).readCommits = .ok ms ∧
        ((e.catalog.store store).sweep (ms.flatMap Manifest.fileNames).contains).1 = .ok () ∧
          AtEnd ms := by
  cases hread : (e.catalog.store store).readCommits with
  | error err =>
    rw [openWriter_of_error hread]
    have hne := Store.avoids_readCommits foreign_counterOverflow _ err hread
    exact ⟨fun h => absurd (Except.error.inj h) hne, fun ⟨ms, hms, _⟩ => nomatch hms⟩
  | ok ms =>
    obtain ⟨ns, c, -, hopen⟩ := openWriter_eq_swept hread sync
    rw [hopen]
    obtain ⟨result, s, hswept⟩ : ∃ result s,
        (e.catalog.store store).sweep (ms.flatMap Manifest.fileNames).contains = (result, s) :=
      ⟨_, _, rfl⟩
    have hfollow := Writer.isSome_after e.catalog.depots.length ns sync ms
    rw [hswept]
    cases result with
    | error cause =>
      refine ⟨nofun, fun ⟨ms', hms', hok, _⟩ => ?_⟩
      obtain rfl := Except.ok.inj hms'
      rw [hswept] at hok
      cases hok
    | ok _ =>
      dsimp only
      cases hafter : Writer.after e.catalog.depots.length ns sync ms with
      | none =>
        rw [hafter] at hfollow
        exact ⟨fun _ => ⟨ms, rfl, congrArg Prod.fst hswept, canFollow_eq_false_iff.mp hfollow.symm⟩,
          fun _ => rfl⟩
      | some w =>
        -- the numbers are there, and the policy does not say that they are missing
        have hpresent := avoids_presentHistory foreign_counterOverflow
          (e := e.dropWriter.setCatalog (c.setStore store s)) hd w
        rw [hafter] at hfollow
        refine ⟨fun h => absurd rfl (hpresent _ h), fun ⟨ms', hms', _, hend⟩ => ?_⟩
        obtain rfl := Except.ok.inj hms'
        cases hfollow.trans (canFollow_eq_false_iff.mpr hend)

/-! ## What a commit writes -/

/-- The manifest of the commit that a call makes, if it makes one. -/
def made? (w : Writer) (changes : Changes) (e : Engine) : Option Manifest :=
  (e.stage w changes).1.toOption.map Prod.snd

/-- The manifest that a call writes, whether it can be synchronised afterwards or not. -/
def wrote? (w : Writer) (changes : Changes) (e : Engine) : Option Manifest :=
  e.made? { w with syncOnCommit := false } changes

theorem made?_eq (w : Writer) (changes : Changes) (e : Engine) : e.made? w changes =
    match changes.apply (baseFiles (e.catalog.undeleted w.history) e.catalog) with
    | .error _ => none
    | .ok files =>
      match (writeOut changes.add (nextManifest w changes.timestamp files) w.syncOnCommit
        ((e.catalog.retryDepot w.depot).storeOf w.depot)).1 with
      | .error _ => none
      | .ok () => some (nextManifest w changes.timestamp files) := by
  unfold made? stage
  rw [prepare_retryDepot]
  dsimp only
  have hcatalog : ({ e with
      keeper := { e.keeper with catalog := e.catalog.retryDepot w.depot }
      writer := some { w with history := e.catalog.undeleted w.history } } : Engine).catalog =
        e.catalog.retryDepot w.depot := rfl
  have hbase : baseFiles (e.catalog.undeleted w.history) (e.catalog.retryDepot w.depot) =
      baseFiles (e.catalog.undeleted w.history) e.catalog := rfl
  rw [hcatalog, hbase]
  cases changes.apply (baseFiles (e.catalog.undeleted w.history) e.catalog) with
  | error cause => rfl
  | ok files =>
    dsimp only
    rw [show nextManifest { w with history := e.catalog.undeleted w.history } changes.timestamp
      files = nextManifest w changes.timestamp files from rfl]
    cases (writeOut changes.add (nextManifest w changes.timestamp files) w.syncOnCommit
      ((e.catalog.retryDepot w.depot).storeOf w.depot)).1 with
    | error err => rfl
    | ok _ => rfl

/-- A manifest has the next numbers of the writer. -/
theorem numbers_of_made (h : e.made? w changes = some m) :
    m.version = w.nextVersion ∧ m.generation = w.nextGeneration := by
  rw [made?_eq] at h
  split at h
  next => cases h
  next =>
    split at h
    next => cases h
    next =>
      obtain rfl := Option.some.inj h
      exact ⟨rfl, rfl⟩

theorem numbers_of_wrote (h : e.wrote? w changes = some m) :
    m.version = w.nextVersion ∧ m.generation = w.nextGeneration :=
  numbers_of_made (w := { w with syncOnCommit := false }) h

/-- What is synchronised afterwards has been written. -/
theorem writeOut_unsynced {add : List (String × Bytes)} {sync : Bool} {s : Store}
    (h : (writeOut add m sync s).1 = .ok ()) : (writeOut add m false s).1 = .ok () := by
  unfold writeOut at h ⊢
  split at h
  next => cases h
  next =>
    split at h
    next => cases h
    next =>
      split at h
      next => cases h
      next => rfl

theorem wrote_of_made (h : e.made? w changes = some m) : e.wrote? w changes = some m := by
  unfold wrote?
  rw [made?_eq] at h ⊢
  split at h
  next => cases h
  next files hfiles =>
    split at h
    next => cases h
    next hwritten =>
      dsimp only
      rw [hfiles]
      dsimp only
      rw [show nextManifest { w with syncOnCommit := false } changes.timestamp files =
        nextManifest w changes.timestamp files from rfl, writeOut_unsynced hwritten]
      exact h

/-! ## Making a commit -/

/-- A call that makes no commit leaves the numbers of the writer as they are. -/
theorem commit_of_not_made (h : e.made? w changes = none) :
    (∃ err, (e.commitWith w changes).1 = .error err ∧ err ≠ .counterOverflow) ∧
      ∃ w', (e.commitWith w changes).2.writer = some w' ∧ w'.nextVersion = w.nextVersion ∧
        w'.nextGeneration = w.nextGeneration := by
  rcases e.commitWith_cases w changes with ⟨err, e1, hstage, heq⟩ | ⟨w1, m, e1, hstage, -⟩
  · rw [heq]
    rcases stage_error hstage with ⟨cause, -, rfl, rfl⟩ | ⟨files, s, -, hwritten, rfl⟩
    · exact ⟨⟨_, rfl, nofun⟩, _, rfl, rfl, rfl⟩
    · have hne := avoids_writeOut foreign_counterOverflow _ _ _ _ err (congrArg Prod.fst hwritten)
      exact ⟨⟨err, rfl, hne⟩, _, rfl, rfl, rfl⟩
  · unfold made? at h
    rw [hstage] at h
    cases h

/-- A call that makes a commit registers its manifest. -/
theorem commit_of_made (h : e.made? w changes = some m) : ∃ (w1 : Writer) (e1 : Engine),
    w1 = { w with history := e.catalog.undeleted w.history } ∧ e1.decider = e.decider ∧
      e.commitWith w changes = e1.register w1 m := by
  rcases e.commitWith_cases w changes with ⟨err, e1, hstage, -⟩ | ⟨w1, m', e1, hstage, heq⟩
  · unfold made? at h
    rw [hstage] at h
    cases h
  · unfold made? at h
    rw [hstage] at h
    obtain rfl : m' = m := Option.some.inj h
    obtain ⟨rfl, files, s, -, -, -, rfl⟩ := stage_ok hstage
    exact ⟨_, e.attempted w _, rfl, rfl, heq⟩

theorem advance_eq_none_iff {timestamp : Timestamp} (history : List Nat) :
    advance { w with history := history } timestamp = none ↔
      w.nextVersion.next? = none ∨ w.nextGeneration.next? = none := by
  unfold advance
  dsimp only
  cases w.nextVersion.next? with
  | none => simp
  | some version =>
    cases w.nextGeneration.next? with
    | none => simp
    | some generation => simp

theorem register_overflow (h : w.nextVersion.next? = none ∨ w.nextGeneration.next? = none) :
    (e.register w m).1 = .error .counterOverflow := by
  have hnone : advance { w with history := w.history ++ [e.catalog.commits.length] }
      m.timestamp = none := (advance_eq_none_iff _).mpr h
  rw [register_of_none hnone]

/-- A commit that is registered stops the program exactly if a counter is at its end. -/
theorem register_overflow_iff (hd : e.decider.Avoids (· = .counterOverflow)) :
    (e.register w m).1 = .error .counterOverflow ↔
      w.nextVersion.next? = none ∨ w.nextGeneration.next? = none := by
  refine ⟨fun h => ?_, register_overflow⟩
  cases hadvance : advance { w with history := w.history ++ [e.catalog.commits.length] }
      m.timestamp with
  | none => exact (advance_eq_none_iff _).mp hadvance
  | some w1 =>
    have hdecide := avoids_decide foreign_counterOverflow (e := e.withCommit w m) hd w1.history
    rw [register_of_advance hadvance] at h
    cases hdecided : ((e.withCommit w m).decide w1.history).1 with
    | error err =>
      rw [hdecided] at h
      exact absurd (Except.error.inj h) (hdecide err hdecided)
    | ok _ =>
      rw [hdecided] at h
      cases h

/-- The program stops in a call exactly if this has written a manifest with the last number there
is. -/
theorem commit_overflow_iff (hw : e.writer = some w)
    (hd : e.decider.Avoids (· = .counterOverflow)) :
    (e.commit? changes).1 = some (.error .counterOverflow) ↔
      ∃ m, e.made? w changes = some m ∧ AtEnd [m] := by
  rw [commit?_of_writer hw]
  cases hmade : e.made? w changes with
  | none =>
    obtain ⟨⟨err, herr, hne⟩, -⟩ := commit_of_not_made hmade
    rw [herr]
    exact ⟨fun h => absurd (Except.error.inj (Option.some.inj h)) hne, fun ⟨_, h, _⟩ => nomatch h⟩
  | some m =>
    obtain ⟨w1, e1, rfl, hdecider, heq⟩ := commit_of_made hmade
    obtain ⟨hversion, hgeneration⟩ := numbers_of_made hmade
    have hend : AtEnd [m] ↔ w.nextVersion.next? = none ∨ w.nextGeneration.next? = none := by
      rw [← hversion, ← hgeneration, next?_eq_none_iff]
      rfl
    have hiff := register_overflow_iff (w := { w with history := e.catalog.undeleted w.history })
      (m := m) (hdecider ▸ hd)
    rw [heq]
    constructor
    · exact fun h => ⟨m, rfl, hend.mpr (hiff.mp (Option.some.inj h))⟩
    · rintro ⟨m', hm', hlast⟩
      obtain rfl := Option.some.inj hm'
      exact congrArg some (hiff.mpr (hend.mp hlast))

/-- A call that makes a commit and does not stop the program moves both numbers on. -/
theorem writer_of_made (hw : e.writer = some w) (hmade : e.made? w changes = some m)
    (h : (e.commit? changes).1 ≠ some (.error .counterOverflow)) :
    ∃ v g w', w.nextVersion.next? = some v ∧ w.nextGeneration.next? = some g ∧
      (e.commit? changes).2.writer = some w' ∧ w'.nextVersion = v ∧ w'.nextGeneration = g := by
  obtain ⟨w1, e1, rfl, -, heq⟩ := commit_of_made hmade
  rw [commit?_of_writer hw, heq] at h ⊢
  have hfollow : ¬(w.nextVersion.next? = none ∨ w.nextGeneration.next? = none) :=
    fun hnone => h (congrArg some (register_overflow hnone))
  rw [not_or] at hfollow
  obtain ⟨v, hv⟩ := Option.ne_none_iff_exists'.mp hfollow.1
  obtain ⟨g, hg⟩ := Option.ne_none_iff_exists'.mp hfollow.2
  exact ⟨v, g, _, hv, hg, register_writer hv hg, rfl, rfl⟩

/-! ## Runs -/

/-- What the next numbers of a writer are: as many after those of the newest manifest that was found
as commits have been made since, and one more. They come after those of all commits; a manifest that
was written by a call that made no commit may have the same. -/
structure Numbered (found made written : List Manifest) (v : Version) (g : Generation) : Prop where
  version : v.number.toNat = newest (fun m => m.version.number) found + made.length + 1
  generation : g.number.toNat = newest (fun m => m.generation.number) found + made.length + 1
  before : ∀ m ∈ found ++ made, m.version < v ∧ m.generation.number < g.number
  upTo : ∀ m ∈ written, (m.version < v ∧ m.generation.number < g.number) ∨
    m.version = v ∧ m.generation = g

theorem numbered_after {depot : Nat} {history : List Nat} {sync : Bool} {s : Store}
    (hread : s.readCommits = .ok found)
    (h : Writer.after depot history sync found = some w) :
    Numbered found [] [] w.nextVersion w.nextGeneration := by
  obtain ⟨-, -, hversions⟩ := version_lt_after h (Store.readCommits_ok hread).1
  have hgenerations := generation_lt_after h
    (Store.readCommits_generations hread ▸ Store.pairwise_generationsOf s.names)
  have hnumbers : w.nextVersion.number.toNat = newest (fun m => m.version.number) found + 1 ∧
      w.nextGeneration.number.toNat = newest (fun m => m.generation.number) found + 1 := by
    unfold newest
    unfold Writer.after at h
    split at h
    next hnone =>
      obtain rfl := Option.some.inj h
      rw [hnone]
      exact ⟨rfl, rfl⟩
    next last hlast =>
      split at h
      next version generation hv hg =>
        obtain rfl := Option.some.inj h
        obtain ⟨n, hn, rfl⟩ := Option.map_eq_some_iff.mp hv
        obtain ⟨k, hk, rfl⟩ := Option.map_eq_some_iff.mp hg
        rw [hlast]
        exact ⟨toNat_of_succ? hn, toNat_of_succ? hk⟩
      next => cases h
  refine ⟨hnumbers.1, hnumbers.2, fun m hm => ?_, fun m hm => absurd hm List.not_mem_nil⟩
  rw [List.append_nil] at hm
  exact ⟨hversions m hm, hgenerations m hm⟩

/-- A writer that has opened goes on after the newest manifest. -/
theorem after_of_openWriter {sync : Bool} (hread : (e.catalog.store store).readCommits = .ok ms)
    (hopen : e.openWriter store sync = (.ok (), e')) : ∃ (w : Writer) (e1 : Engine),
      Writer.after w.depot w.history sync ms = some w ∧ e1.presentHistory w = (.ok (), e') := by
  obtain ⟨ns, c, -, hopens⟩ := openWriter_eq_swept hread sync
  rw [hopen] at hopens
  split at hopens
  next => cases (Prod.mk.inj hopens).1
  next s _ =>
    split at hopens
    next => cases (Prod.mk.inj hopens).1
    next w hafter =>
      obtain ⟨hdepot, hhistory, -⟩ := version_lt_after hafter (Store.readCommits_ok hread).1
      exact ⟨w, _, by rw [hdepot, hhistory]; exact hafter, hopens.symm⟩

/-- A manifest that is written by a call that makes no commit has the next numbers. -/
theorem Numbered.leave (h : Numbered found made written v g)
    (hm : ∀ m' ∈ written', m'.version = v ∧ m'.generation = g) :
    Numbered found made (written ++ written') v g := by
  refine ⟨h.version, h.generation, h.before, fun m' hm' => ?_⟩
  rcases List.mem_append.mp hm' with hm' | hm'
  · exact h.upTo m' hm'
  · exact Or.inr (hm m' hm')

/-- The numbers that follow come after those of the commit that is made. -/
theorem Numbered.next (h : Numbered found made written v g) (hv : v.next? = some v')
    (hg : g.next? = some g') (hversion : m.version = v) (hgeneration : m.generation = g) :
    Numbered found (made ++ [m]) (written ++ [m]) v' g' := by
  have hlater : v < v' ∧ g.number < g'.number := by
    refine ⟨Version.lt_of_next? hv, ?_⟩
    obtain ⟨n, hn, rfl⟩ := Option.map_eq_some_iff.mp hg
    refine UInt64.lt_iff_toNat_lt.mpr ?_
    rw [toNat_of_succ? hn]
    exact Nat.lt_succ_self _
  have hself : m.version < v' ∧ m.generation.number < g'.number := by
    rw [hversion, hgeneration]
    exact hlater
  have hrise : ∀ m' : Manifest, m'.version < v ∧ m'.generation.number < g.number →
      m'.version < v' ∧ m'.generation.number < g'.number := fun m' hm' =>
    ⟨UInt64.lt_trans hm'.1 hlater.1, UInt64.lt_trans hm'.2 hlater.2⟩
  refine ⟨?_, ?_, fun m' hm' => ?_, fun m' hm' => Or.inl ?_⟩
  · obtain ⟨n, hn, rfl⟩ := Option.map_eq_some_iff.mp hv
    rw [List.length_append, List.length_singleton, toNat_of_succ? hn, h.version]
    omega
  · obtain ⟨n, hn, rfl⟩ := Option.map_eq_some_iff.mp hg
    rw [List.length_append, List.length_singleton, toNat_of_succ? hn, h.generation]
    omega
  · rw [← List.append_assoc] at hm'
    rcases List.mem_append.mp hm' with hm' | hm'
    · exact hrise m' (h.before m' hm')
    · rw [List.mem_singleton.mp hm']
      exact hself
  · rcases List.mem_append.mp hm' with hm' | hm'
    · rcases h.upTo m' hm' with hlt | ⟨rfl, rfl⟩
      · exact hrise m' hlt
      · exact hlater
    · rw [List.mem_singleton.mp hm']
      exact hself

/-- The states of a writer from its opening on, with the manifests of the commits that it has made
and those that it has written. Between its calls, none of which has stopped the program, anything
may happen that leaves the writer itself alone. -/
inductive Writes (found : List Manifest) : List Manifest → List Manifest → Engine → Prop where
  | opened {e0 e : Engine} {store : Nat} {sync : Bool}
    (hread : (e0.catalog.store store).readCommits = .ok found)
    (hopen : e0.openWriter store sync = (.ok (), e)) : Writes found [] [] e
  | commit {made written : List Manifest} {e : Engine} {w : Writer} (changes : Changes)
    (h : Writes found made written e) (hw : e.writer = some w)
    (hgoes : (e.commit? changes).1 ≠ some (.error .counterOverflow)) :
    Writes found (made ++ (e.made? w changes).toList) (written ++ (e.wrote? w changes).toList)
      (e.commit? changes).2
  | others {made written : List Manifest} {e e' : Engine} (h : Writes found made written e)
    (hwriter : e'.writer = e.writer) : Writes found made written e'

/-- A call leaves the numbers to the next one, or takes them for the commit that it makes. -/
theorem numbered_commit (hw : e.writer = some w)
    (h : Numbered found made written w.nextVersion w.nextGeneration)
    (hgoes : (e.commit? changes).1 ≠ some (.error .counterOverflow)) :
    ∃ w', (e.commit? changes).2.writer = some w' ∧
      Numbered found (made ++ (e.made? w changes).toList)
        (written ++ (e.wrote? w changes).toList) w'.nextVersion w'.nextGeneration := by
  cases hmade : e.made? w changes with
  | none =>
    -- its manifest may have been written, but then the next call has to do with the same numbers
    obtain ⟨-, w', hw', hversion, hgeneration⟩ := commit_of_not_made hmade
    rw [commit?_of_writer hw, Option.toList_none, List.append_nil]
    refine ⟨w', hw', hversion ▸ hgeneration ▸ h.leave fun m hm => ?_⟩
    exact numbers_of_wrote (Option.mem_toList.mp hm)
  | some m =>
    obtain ⟨v, g, w', hv, hg, hw', rfl, rfl⟩ := writer_of_made hw hmade hgoes
    obtain ⟨hversion, hgeneration⟩ := numbers_of_made hmade
    rw [wrote_of_made hmade]
    exact ⟨w', hw', h.next hv hg hversion hgeneration⟩

theorem Writes.numbered (h : Writes found made written e) :
    ∃ w, e.writer = some w ∧ Numbered found made written w.nextVersion w.nextGeneration := by
  induction h with
  | opened hread hopen =>
    obtain ⟨w, e1, hafter, hpresented⟩ := after_of_openWriter hread hopen
    have hnumbered := numbered_after hread hafter
    exact ⟨_, writer_of_presentHistory hpresented, hnumbered⟩
  | commit changes h hw hgoes ih =>
    obtain ⟨w, hw', hnumbered⟩ := ih
    obtain rfl := Option.some.inj (hw.symm.trans hw')
    exact numbered_commit hw hnumbered hgoes
  | others h hwriter ih =>
    obtain ⟨w, hw, hnumbered⟩ := ih
    exact ⟨w, hwriter.trans hw, hnumbered⟩

/-- Whatever a store holds, and whatever happens to it between the calls of a writer, the manifests
that are written have numbers after those of every commit that was found or has been made: as many
after the newest that was found as commits have been made since, and one more. Only a manifest that
was written by a call that made no commit can have the same. The program stops when there is no
number to go on with, and only then: when it opens a writer over a store whose newest manifest has
the last number of a counter, or in the call that makes the commit with that number. -/
theorem numbers_rise_to_the_end (e : Engine) :
    (∀ store sync, e.decider.Avoids (· = .counterOverflow) →
      ((e.openWriter store sync).1 = .error .counterOverflow ↔
        ∃ ms, (e.catalog.store store).readCommits = .ok ms ∧
          ((e.catalog.store store).sweep (ms.flatMap Manifest.fileNames).contains).1 = .ok () ∧
            AtEnd ms)) ∧
    ∀ found made written, Writes found made written e → ∃ w, e.writer = some w ∧ ∀ changes,
      (∀ m, e.wrote? w changes = some m →
        (∀ p ∈ found ++ made, p.version < m.version ∧
          p.generation.number < m.generation.number) ∧
        (∀ p ∈ written, (p.version < m.version ∧ p.generation.number < m.generation.number) ∨
          p ∉ made ∧ p.version = m.version ∧ p.generation = m.generation) ∧
        m.version.number.toNat = newest (fun m => m.version.number) found + made.length + 1 ∧
        m.generation.number.toNat =
          newest (fun m => m.generation.number) found + made.length + 1) ∧
      (e.decider.Avoids (· = .counterOverflow) →
        ((e.commit? changes).1 = some (.error .counterOverflow) ↔
          (e.made? w changes).isSome ∧
            (newest (fun m => m.version.number) found + made.length + 1 = UInt64.size - 1 ∨
              newest (fun m => m.generation.number) found + made.length + 1 =
                UInt64.size - 1))) := by
  refine ⟨fun store sync hd => openWriter_overflow_iff hd store sync, ?_⟩
  intro found made written h
  obtain ⟨w, hw, hnumbered⟩ := h.numbered
  refine ⟨w, hw, fun changes => ⟨fun m hm => ?_, fun hd => ?_⟩⟩
  · obtain ⟨hversion, hgeneration⟩ := numbers_of_wrote hm
    rw [hversion, hgeneration]
    refine ⟨hnumbered.before, fun p hp => ?_, hnumbered.version, hnumbered.generation⟩
    refine (hnumbered.upTo p hp).imp_right fun heq => ⟨fun hmade => ?_, heq⟩
    have hlt := (hnumbered.before p (List.mem_append_right _ hmade)).1
    rw [heq.1] at hlt
    exact UInt64.lt_irrefl _ hlt
  · rw [commit_overflow_iff hw hd, ← hnumbered.version, ← hnumbered.generation]
    cases hmade : e.made? w changes with
    | none => simp
    | some m =>
      obtain ⟨hversion, hgeneration⟩ := numbers_of_made hmade
      rw [← hversion, ← hgeneration]
      simp [AtEnd, newest]

/-! ## Stores with large numbers -/

/-- The manifest of a commit of a number, without data artifacts. -/
def numbered (n : UInt64) : Manifest := ⟨⟨n⟩, ⟨n⟩, 0, []⟩

/-- A store of the manifest of a single commit. -/
def holding (n : UInt64) : Store :=
  .ofMedium (.memory (Table.ofList
    [((numbered n).name, (numbered n).encode.toOption.getD [])])) .never

theorem readCommits_holding (n : UInt64) : (holding n).readCommits = .ok [numbered n] := by
  have hdata : (numbered n).encode = .ok ((numbered n).encode.toOption.getD []) := rfl
  have hnode : ∀ q, (holding n).medium.node? q = if q = (numbered n).name then
      some (.file ((numbered n).encode.toOption.getD [])) else none := by
    intro q
    show ((Table.empty.insert _ _).get? q).map Store.Node.file = _
    rw [Table.get?_insert]
    split
    next => rfl
    next => rfl
  have hdescribes : (holding n).Describes [numbered n] := by
    refine ⟨fun m hm => ?_, fun q hq _ => ?_, List.pairwise_singleton _ _,
      List.pairwise_singleton _ _⟩
    · rw [List.mem_singleton.mp hm]
      exact ⟨_, hdata, (hnode _).trans (if_pos rfl), id⟩
    · obtain ⟨data, hfile⟩ := (Store.mem_names_iff _ q).mp hq
      rw [hnode] at hfile
      split at hfile
      next heq => exact ⟨_, List.mem_singleton.mpr rfl, heq.symm⟩
      next => cases hfile
  exact hdescribes.readCommits rfl

/-- A writer that opens over such a store. -/
def openedOver (n : UInt64) : Except Error Unit × Engine :=
  (fresh 0 true true (.stock .keepAll) (holding n)).openWriter 0 true

/-- The commit after that of number 7 has number 8, and over one of the last number the program
stops. -/
theorem numbers_rise_to_the_end_holding :
    (∃ w m, (openedOver 7).2.writer = some w ∧
      (openedOver 7).2.wrote? w ⟨[("a", [1])], [], 0⟩ = some m ∧ m.version.number.toNat = 8 ∧
        m.generation.number.toNat = 8) ∧
      (openedOver 18446744073709551615).1 = .error .counterOverflow := by
  have hd : Decider.Avoids (· = .counterOverflow) (.stock .keepAll) := Decider.avoids_stock _ _
  have hopen : (openedOver 7).1 = .ok () ∧
      (openedOver 7).2.writer = some ⟨0, [0], ⟨8⟩, ⟨8⟩, 0, true⟩ ∧
        ((openedOver 7).2.wrote? ⟨0, [0], ⟨8⟩, ⟨8⟩, 0, true⟩ ⟨[("a", [1])], [], 0⟩).isSome := by
    unfold openedOver openWriter
    dsimp only
    have hread : ((fresh 0 true true (.stock .keepAll) (holding 7)).dropWriter.catalog.store
      0).readCommits = .ok [numbered 7] := readCommits_holding 7
    rw [hread]
    decide +kernel
  obtain ⟨hopened, hwriter, hwrote⟩ := hopen
  obtain ⟨-, hrises⟩ := numbers_rise_to_the_end (openedOver 7).2
  obtain ⟨hend, -⟩ := numbers_rise_to_the_end
    (fresh 0 true true (.stock .keepAll) (holding 18446744073709551615))
  constructor
  · have hread : ((fresh 0 true true (.stock .keepAll) (holding 7)).catalog.store 0).readCommits =
      .ok [numbered 7] := readCommits_holding 7
    have hwrites : Writes [numbered 7] [] [] (openedOver 7).2 :=
      .opened hread (Prod.ext hopened rfl)
    obtain ⟨w, hw, hcalls⟩ := hrises _ _ _ hwrites
    obtain rfl := Option.some.inj (hwriter.symm.trans hw)
    obtain ⟨m, hm⟩ := Option.isSome_iff_exists.mp hwrote
    obtain ⟨-, -, hversion, hgeneration⟩ := (hcalls _).1 m hm
    exact ⟨_, m, hw, hm, hversion, hgeneration⟩
  · refine (hend 0 true hd).mpr ⟨_, readCommits_holding _, ?_, Or.inl rfl⟩
    decide +kernel

/-- A writer over a commit of the last number stops the program, and over the one before it the next
commit does, after it has been made. -/
theorem overflow_of_stored_numbers :
    (openedOver 18446744073709551615).1 = .error .counterOverflow ∧
      (openedOver 18446744073709551614).1 = .ok () ∧
        ((openedOver 18446744073709551614).2.commit? ⟨[], [], 0⟩).1 =
          some (.error .counterOverflow) ∧
        (((openedOver 18446744073709551614).2.commit? ⟨[], [], 0⟩).2.catalog.store 0).names =
          ["commit_18446744073709551614", "commit_18446744073709551615"] ∧
        ((openedOver 18446744073709551614).2.commit? ⟨[], [], 0⟩).2.commits = [0, 1] := by
  unfold openedOver openWriter
  dsimp only
  have hread : ∀ n, ((fresh 0 true true (.stock .keepAll) (holding n)).dropWriter.catalog.store
      0).readCommits = .ok [numbered n] := readCommits_holding
  rw [hread, hread]
  decide +kernel

end Engine

end SnapshotRetention
