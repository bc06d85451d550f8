import SnapshotRetention.Proofs.Store.Directories

/-!
# Memory and directory compared

A store that begins empty answers a sequence of calls (`Call`, `run`) in memory as it does in a
directory, as far as both check the names. They differ in calls that do not write: memory looks an
invalid name up and misses it, a directory refuses it (`Call.Unchecked`). A directory can also be so
deep that it does not reach a name that memory takes (`Call.Unreached`).

What stands in a directory mirrors what is in memory (`Mirrors`), and each call that both stores
treat alike keeps it so (`Mirrors.agrees`). So the answers to a sequence of calls are the same
exactly if no call is of the two kinds, and if all names are reached, they differ at the calls of
the first kind alone (`answers_agree_but_unchecked`).
-/

namespace SnapshotRetention.Store

/-! ## Calls -/

/-- A call of a store. -/
inductive Call where
  | write (name : String) (data : Bytes)
  | read (name : String)
  | delete (name : String)
  | has (name : String)
  | list
  | sync
  deriving DecidableEq

/-- What a call that does not fail comes to. -/
inductive Returned where
  | done
  | data (data : Bytes)
  | found (found : Bool)
  | names (names : List String)
  deriving DecidableEq

/-- What a store answers to a call. -/
def Call.answer (call : Call) (s : Store) : Except StoreError Returned × Store :=
  match call with
  | .write name data => ((s.write name data).1.map fun _ => .done, (s.write name data).2)
  | .read name => ((s.read name).map .data, s)
  | .delete name => ((s.delete name).1.map fun _ => .done, (s.delete name).2)
  | .has name => ((s.exists? name).map .found, s)
  | .list => (s.list.map .names, s)
  | .sync => (s.sync.1.map fun _ => .done, s.sync.2)

/-- The answers to a sequence of calls, and the store after them. -/
def run : List Call → Store → List (Except StoreError Returned) × Store
  | [], s => ([], s)
  | call :: rest, s =>
    ((call.answer s).1 :: (run rest (call.answer s).2).1, (run rest (call.answer s).2).2)

/-- A store over an empty directory. -/
def emptyDirectory (path : String) : Store := ofMedium (.directory path .empty) .never

namespace Call

/-- The name that a call is about. -/
def name? : Call → Option String
  | .write name _ | .read name | .delete name | .has name => some name
  | .list | .sync => none

/-- Whether memory does not check the name of a call, which is invalid. -/
def Unchecked : Call → Prop
  | .read name | .delete name | .has name => isValidName name = false
  | .write .. | .list | .sync => False

/-- Whether a directory fails to reach the valid name of a call. -/
def Unreached (path : String) : Call → Prop
  | .write name _ | .read name | .delete name =>
    isValidName name = true ∧ Directory.reaches path name = false
  | .has _ | .list | .sync => False

instance (call : Call) : Decidable call.Unchecked :=
  match call with
  | .read _ | .delete _ | .has _ => inferInstanceAs (Decidable (_ = _))
  | .write .. | .list | .sync => inferInstanceAs (Decidable False)

/-- What memory and a directory answer to a call. -/
inductive Compares : Call → Except StoreError Returned → Except StoreError Returned → Prop where
  | same {call : Call} (h : ¬call.Unchecked) (a : Except StoreError Returned) : Compares call a a
  | read {name : String} (h : isValidName name = false) :
    Compares (.read name) (.error (.notFound name)) (.error (.invalidName name))
  | delete {name : String} (h : isValidName name = false) :
    Compares (.delete name) (.error (.notFound name)) (.error (.invalidName name))
  | has {name : String} (h : isValidName name = false) :
    Compares (.has name) (.ok (.found false)) (.error (.invalidName name))

end Call

/-! ## Mirrors -/

/-- A store in memory and one in the directory at a path that hold the same, all of it under names
that the directory takes. -/
structure Mirrors (path : String) (s d : Store) : Prop where
  memory : ∃ table, s.medium = .memory table
  never : s.faults = .never
  directory : InDirectory path d
  same : ∀ q, d.medium.node? q = s.medium.node? q
  taken : ∀ q, s.medium.node? q ≠ none → Directory.checkName path q = .ok ()

variable {path name q : String} {s s' d d' : Store} {call : Call} {calls : List Call}
  {data : Bytes}

theorem mirrors_empty (path : String) : Mirrors path .empty (emptyDirectory path) :=
  ⟨⟨_, rfl⟩, rfl, ⟨⟨_, rfl⟩, rfl⟩, fun _ => rfl, fun _ h => absurd rfl h⟩

namespace Mirrors

/-- In memory nothing is fixed, and there are only files. -/
theorem not_fixed (h : Mirrors path s d) (q : String) : ¬s.medium.Fixed q := by
  obtain ⟨table, htable⟩ := h.memory
  rw [htable]
  exact fun hf => hf.elim

theorem cases_node (h : Mirrors path s d) (q : String) :
    s.medium.node? q = none ∨ ∃ data, s.medium.node? q = some (.file data) := by
  obtain ⟨table, htable⟩ := h.memory
  rw [htable, Medium.node?_memory]
  cases table.get? q with
  | none => exact Or.inl rfl
  | some data => exact Or.inr ⟨data, rfl⟩

theorem free (h : Mirrors path s d) (hname : Directory.checkName path q ≠ .ok ()) :
    s.medium.node? q = none :=
  Classical.byContradiction fun hnode => hname (h.taken q hnode)

/-- The directory does not fix a name that it takes, either. -/
theorem directory_not_fixed (h : Mirrors path s d)
    (hname : Directory.checkName path q = .ok ()) : ¬d.medium.Fixed q := by
  refine h.directory.not_fixed hname ?_
  rw [h.same]
  rcases h.cases_node q with hnone | ⟨data, hdata⟩
  · rw [hnone]
    exact nofun
  · rw [hdata]
    exact nofun

/-- The stores stay mirrors if the same happens to their nodes under a name that is taken. -/
theorem step (h : Mirrors path s d) (hs : Medium.Alike s.medium s'.medium)
    (hsFaults : s'.faults = s.faults) (hd : Medium.Alike d.medium d'.medium)
    (hdFaults : d'.faults = d.faults) (hsame : ∀ q, d'.medium.node? q = s'.medium.node? q)
    (htaken : ∀ q, s'.medium.node? q ≠ none → Directory.checkName path q = .ok ()) :
    Mirrors path s' d' := by
  refine ⟨?_, hsFaults.trans h.never, h.directory.alike hd hdFaults, hsame, htaken⟩
  obtain ⟨table, htable⟩ := h.memory
  have hplace := hs.place
  rw [htable] at hplace
  cases hmedium : s'.medium with
  | memory table' => exact ⟨table', rfl⟩
  | directory path' dir' =>
    rw [hmedium] at hplace
    exact hplace.elim

theorem tick (h : Mirrors path s d) : Mirrors path s.tick d.tick :=
  h.step (.refl _) rfl (.refl _) rfl h.same h.taken

/-! ## Calls that agree -/

theorem read_eq (h : Mirrors path s d) (hname : Directory.checkName path name = .ok ()) :
    d.read name = s.read name := by
  rw [read_of_never h.never, read_of_never h.directory.never]
  have hsame := h.same name
  rcases h.cases_node name with hnone | ⟨data, hdata⟩
  · rw [(Medium.notFound_of_free hnone (h.not_fixed name)).1,
      (Medium.notFound_of_free (hsame.trans hnone) (h.directory_not_fixed hname)).1]
  · rw [Medium.read_of_node hdata (h.not_fixed name),
      Medium.read_of_node (hsame.trans hdata) (h.directory_not_fixed hname)]

/-- Memory says that an artifact exists if there is one. -/
theorem exists_memory (h : Mirrors path s d) (name : String) :
    s.exists? name = .ok ((s.medium.node? name).bind Node.data?).isSome := by
  obtain ⟨table, htable⟩ := h.memory
  rw [exists_of_never h.never, htable]
  simp only [Medium.exists?, Medium.node?_memory, Table.contains]
  cases table.get? name with
  | none => rfl
  | some data => rfl

/-- A valid name that is not reached stands for nothing in either store. -/
theorem exists_eq (h : Mirrors path s d) (hvalid : isValidName name = true) :
    d.exists? name = s.exists? name := by
  rw [h.directory.exists_eq hvalid, h.exists_memory, h.same]
  cases hreaches : Directory.reaches path name with
  | true => rfl
  | false =>
    have hnone : s.medium.node? name = none := h.free fun hname => by
      have hreached := ((Directory.checkName_ok_iff path name).mp hname).2
      rw [hreaches] at hreached
      cases hreached
    rw [hnone]
    rfl

theorem list_eq (h : Mirrors path s d) : d.list = s.list := by
  rw [list_of_never h.never, list_of_never h.directory.never]
  refine congrArg (fun files : List (String × Bytes) => Except.ok (files.map Prod.fst)) ?_
  refine Medium.artifacts_congr fun q data => ?_
  rw [h.same]

theorem sync_eq (h : Mirrors path s d) :
    d.sync = (.ok (), d.tick) ∧ s.sync = (.ok (), s.tick) :=
  ⟨sync_of_works (works_of_never h.directory.never), sync_of_works (works_of_never h.never)⟩

theorem write_eq (h : Mirrors path s d) (hname : Directory.checkName path name = .ok ())
    (data : Bytes) : (d.write name data).1 = (s.write name data).1 ∧
      Mirrors path (s.write name data).2 (d.write name data).2 := by
  have hvalid := ((Directory.checkName_ok_iff path name).mp hname).1
  have haccepts : s.medium.Accepts name := by
    obtain ⟨table, htable⟩ := h.memory
    rw [htable]
    exact hvalid
  have haccepts' := (h.directory.accepts_iff name).mpr hname
  have hsame := h.same name
  by_cases hfree : s.medium.node? name = none
  · obtain ⟨s', hs⟩ := exists_write (works_of_never h.never) haccepts hfree data
    obtain ⟨d', hd⟩ := exists_write (works_of_never h.directory.never) haccepts'
      (hsame.trans hfree) data
    have hws := wrote_write hs
    have hwd := wrote_write hd
    rw [hs, hd]
    refine ⟨rfl, h.step hws.alike hws.faults hwd.alike hwd.faults ?_ ?_⟩
    · intro q
      by_cases hq : q = name
      · have hmem : (name, data) ∈ [(name, data)] := List.mem_cons_self
        rw [hq, hwd.there _ hmem, hws.there _ hmem]
      · have hother : q ∉ [(name, data)].map Prod.fst := fun hmem => hq (List.mem_singleton.mp hmem)
        rw [hwd.other q hother, hws.other q hother, h.same]
    · intro q hq
      by_cases heq : q = name
      · exact heq ▸ hname
      · have hother : q ∉ [(name, data)].map Prod.fst :=
          fun hmem => heq (List.mem_singleton.mp hmem)
        rw [hws.other q hother] at hq
        exact h.taken q hq
  · have hs := Medium.write_of_taken haccepts hfree data
    have hd := Medium.write_of_taken haccepts' (by rw [hsame]; exact hfree) data
    rw [write_of_never_error h.never hs, write_of_never_error h.directory.never hd]
    exact ⟨rfl, h.tick⟩

theorem delete_eq (h : Mirrors path s d) (hname : Directory.checkName path name = .ok ()) :
    (d.delete name).1 = (s.delete name).1 ∧ Mirrors path (s.delete name).2 (d.delete name).2 := by
  have hfixed := h.not_fixed name
  have hfixed' := h.directory_not_fixed hname
  have hsame := h.same name
  rcases h.cases_node name with hnone | ⟨data, hdata⟩
  · have hs := (Medium.notFound_of_free hnone hfixed).2
    have hd := (Medium.notFound_of_free (hsame.trans hnone) hfixed').2
    rw [delete_of_never_error h.never hs, delete_of_never_error h.directory.never hd]
    exact ⟨rfl, h.tick⟩
  · obtain ⟨s', hs⟩ := delete_of_node h.never hdata hfixed
    obtain ⟨d', hd⟩ := delete_of_node h.directory.never (hsame.trans hdata) hfixed'
    have hcs := cleared_delete (Or.inl hs)
    have hcd := cleared_delete (Or.inl hd)
    rw [hs, hd]
    refine ⟨rfl, h.step hcs.alike hcs.faults hcd.alike hcd.faults ?_ ?_⟩
    · intro q
      rw [hcs.node, hcd.node, h.same]
    · intro q hq
      rw [hcs.node] at hq
      refine h.taken q fun hnone => hq ?_
      rw [hnone, ite_self]

/-- Both stores refuse to write under an invalid name. -/
theorem write_invalid (h : Mirrors path s d) (hinvalid : isValidName name = false) (data : Bytes) :
    s.write name data = (.error (.invalidName name), s.tick) ∧
      d.write name data = (.error (.invalidName name), d.tick) := by
  obtain ⟨table, htable⟩ := h.memory
  obtain ⟨dir, hdir⟩ := h.directory.directory
  refine ⟨write_of_never_error h.never ?_, write_of_never_error h.directory.never ?_⟩
  · rw [htable]
    simp only [Medium.write, hinvalid]
    rfl
  · rw [hdir]
    simp only [Medium.write, Directory.write, Directory.checkName_of_invalid hinvalid]
    rfl

/-- A call of a name that memory checks and the directory reaches has the same answer in both
stores, and they stay mirrors. -/
theorem agrees (h : Mirrors path s d) (hchecked : ¬call.Unchecked)
    (hreached : ¬call.Unreached path) : (call.answer d).1 = (call.answer s).1 ∧
      Mirrors path (call.answer s).2 (call.answer d).2 := by
  have hname : ∀ {name}, isValidName name = true →
      ¬(isValidName name = true ∧ Directory.reaches path name = false) →
      Directory.checkName path name = .ok () := by
    intro name hvalid hnot
    refine (Directory.checkName_ok_iff path name).mpr ⟨hvalid, ?_⟩
    exact (Bool.not_eq_false _).mp fun hfar => hnot ⟨hvalid, hfar⟩
  cases call with
  | write name data =>
    unfold Call.answer
    dsimp only
    cases hvalid : isValidName name with
    | false =>
      obtain ⟨hs, hd⟩ := h.write_invalid hvalid data
      rw [hs, hd]
      exact ⟨rfl, h.tick⟩
    | true =>
      obtain ⟨heq, hafter⟩ := h.write_eq (hname hvalid hreached) data
      rw [heq]
      exact ⟨rfl, hafter⟩
  | read name =>
    unfold Call.answer
    dsimp only
    rw [h.read_eq (hname ((Bool.not_eq_false _).mp hchecked) hreached)]
    exact ⟨rfl, h⟩
  | delete name =>
    obtain ⟨heq, hafter⟩ := h.delete_eq (hname ((Bool.not_eq_false _).mp hchecked) hreached)
    unfold Call.answer
    dsimp only
    rw [heq]
    exact ⟨rfl, hafter⟩
  | has name =>
    unfold Call.answer
    dsimp only
    rw [h.exists_eq ((Bool.not_eq_false _).mp hchecked)]
    exact ⟨rfl, h⟩
  | list =>
    unfold Call.answer
    dsimp only
    rw [h.list_eq]
    exact ⟨rfl, h⟩
  | sync =>
    obtain ⟨hd, hs⟩ := h.sync_eq
    unfold Call.answer
    dsimp only
    rw [hd, hs]
    exact ⟨rfl, h.tick⟩

/-! ## Calls that differ -/

/-- In memory a name that the directory does not take is merely missing. -/
theorem missing (h : Mirrors path s d) (hname : Directory.checkName path name ≠ .ok ()) :
    s.read name = .error (.notFound name) ∧ s.delete name = (.error (.notFound name), s.tick) ∧
      s.exists? name = .ok false := by
  have hnone := h.free hname
  obtain ⟨hread, hdelete⟩ := Medium.notFound_of_free hnone (h.not_fixed name)
  refine ⟨?_, delete_of_never_error h.never hdelete, ?_⟩
  · rw [read_of_never h.never, hread]
  · rw [h.exists_memory, hnone]
    rfl

/-- Memory misses an invalid name that the directory refuses. -/
theorem unchecked (h : Mirrors path s d) (hunchecked : call.Unchecked) :
    call.Compares (call.answer s).1 (call.answer d).1 ∧
      Mirrors path (call.answer s).2 (call.answer d).2 := by
  have hrefused : ∀ {name}, isValidName name = false →
      Directory.checkName path name ≠ .ok () ∧ Refused d name (.invalidName name) := by
    intro name hinvalid
    have hname : Directory.checkName path name = .error (.invalidName name) :=
      Directory.checkName_of_invalid hinvalid
    refine ⟨fun hok => ?_, h.directory.refused hname⟩
    cases hname.symm.trans hok
  cases call with
  | write name data => exact hunchecked.elim
  | read name =>
    obtain ⟨hname, hd⟩ := hrefused hunchecked
    unfold Call.answer
    dsimp only
    rw [(h.missing hname).1, hd.read]
    exact ⟨.read hunchecked, h⟩
  | delete name =>
    obtain ⟨hname, hd⟩ := hrefused hunchecked
    unfold Call.answer
    dsimp only
    rw [(h.missing hname).2.1, hd.delete]
    exact ⟨.delete hunchecked, h.tick⟩
  | has name =>
    obtain ⟨hname, -⟩ := hrefused hunchecked
    unfold Call.answer
    dsimp only
    rw [(h.missing hname).2.2, h.directory.exists_of_invalid hunchecked]
    exact ⟨.has hunchecked, h⟩
  | list => exact hunchecked.elim
  | sync => exact hunchecked.elim

/-- Memory takes a valid name that the directory does not reach. -/
theorem unreached (h : Mirrors path s d) (hunreached : call.Unreached path) :
    (call.answer d).1 ≠ (call.answer s).1 := by
  have hrefused : ∀ {name}, isValidName name = true ∧ Directory.reaches path name = false →
      Directory.checkName path name = .error (.io (.system .nameTooLong)) :=
    fun hname => Directory.checkName_of_unreached hname.1 hname.2
  have hnot : ∀ {name}, isValidName name = true ∧ Directory.reaches path name = false →
      Directory.checkName path name ≠ .ok () :=
    fun hname hok => by cases (hrefused hname).symm.trans hok
  cases call with
  | write name data =>
    obtain ⟨table, htable⟩ := h.memory
    obtain ⟨dir, hdir⟩ := h.directory.directory
    have haccepts : s.medium.Accepts name := by
      rw [htable]
      exact hunreached.1
    have hfree := h.free (hnot hunreached)
    obtain ⟨s', hs⟩ := exists_write (works_of_never h.never) haccepts hfree data
    have hd : d.write name data = (.error (.io (.system .nameTooLong)), d.tick) := by
      refine write_of_never_error h.directory.never ?_
      rw [hdir]
      simp only [Medium.write, Directory.write, hrefused hunreached]
      rfl
    unfold Call.answer
    dsimp only
    rw [hs, hd]
    intro heq
    cases heq
  | read name =>
    unfold Call.answer
    dsimp only
    rw [(h.missing (hnot hunreached)).1, (h.directory.refused (hrefused hunreached)).read]
    intro heq
    cases heq
  | delete name =>
    unfold Call.answer
    dsimp only
    rw [(h.missing (hnot hunreached)).2.1, (h.directory.refused (hrefused hunreached)).delete]
    intro heq
    cases heq
  | has name => exact hunreached.elim
  | list => exact hunreached.elim
  | sync => exact hunreached.elim

end Mirrors

theorem Call.Compares.ne {a b : Except StoreError Returned} (h : call.Compares a b)
    (hunchecked : call.Unchecked) : b ≠ a := by
  cases h with
  | same hnot => exact absurd hunchecked hnot
  | read => exact nofun
  | delete => exact nofun
  | has => exact nofun

/-! ## Sequences of calls -/

/-- The answers are the same exactly if no call is one in which the stores differ. -/
theorem Mirrors.run_eq_iff (h : Mirrors path s d) (calls : List Call) :
    (run calls d).1 = (run calls s).1 ↔
      ∀ call ∈ calls, ¬call.Unchecked ∧ ¬call.Unreached path := by
  induction calls generalizing s d with
  | nil => exact ⟨fun _ call hcall => absurd hcall List.not_mem_nil, fun _ => rfl⟩
  | cons call rest ih =>
    rw [List.forall_mem_cons]
    unfold run
    rw [List.cons.injEq]
    by_cases hunchecked : call.Unchecked
    · exact ⟨fun heq => absurd heq.1 ((h.unchecked hunchecked).1.ne hunchecked),
        fun hall => absurd hunchecked hall.1.1⟩
    · by_cases hunreached : call.Unreached path
      · exact ⟨fun heq => absurd heq.1 (h.unreached hunreached),
          fun hall => absurd hunreached hall.1.2⟩
      · obtain ⟨hsame, hafter⟩ := h.agrees hunchecked hunreached
        rw [ih hafter]
        exact ⟨fun hrest => ⟨⟨hunchecked, hunreached⟩, hrest.2⟩, fun hall => ⟨hsame, hall.2⟩⟩

/-- If all names are reached, the stores stay mirrors, and each call compares. -/
theorem Mirrors.run_compares (h : Mirrors path s d)
    (hreached : ∀ call ∈ calls, ¬call.Unreached path) :
    (∀ (i : Nat) (call : Call), calls[i]? = some call → ∃ a b, (run calls s).1[i]? = some a ∧
      (run calls d).1[i]? = some b ∧ call.Compares a b) ∧
      Mirrors path (run calls s).2 (run calls d).2 := by
  induction calls generalizing s d with
  | nil => exact ⟨fun i call hcall => (nomatch hcall), h⟩
  | cons call rest ih =>
    have hfirst : call.Compares (call.answer s).1 (call.answer d).1 ∧
        Mirrors path (call.answer s).2 (call.answer d).2 := by
      by_cases hunchecked : call.Unchecked
      · exact h.unchecked hunchecked
      · obtain ⟨hsame, hafter⟩ := h.agrees hunchecked (hreached call List.mem_cons_self)
        rw [hsame]
        exact ⟨.same hunchecked _, hafter⟩
    obtain ⟨hrest, hafter⟩ := ih hfirst.2 fun c hc => hreached c (List.mem_cons_of_mem _ hc)
    refine ⟨fun i c hc => ?_, hafter⟩
    cases i with
    | zero =>
      obtain rfl := Option.some.inj hc
      exact ⟨_, _, rfl, rfl, hfirst.1⟩
    | succ i => exact hrest i c hc

/-! ## Room for names -/

theorem utf8ByteSize_join_le (path name : String) :
    (Path.join path name).utf8ByteSize ≤ path.utf8ByteSize + 1 + name.utf8ByteSize := by
  have hslash : ("/" : String).utf8ByteSize = 1 := rfl
  unfold Path.join
  split
  next => omega
  next =>
    split
    next =>
      rw [String.utf8ByteSize_append]
      omega
    next =>
      rw [String.utf8ByteSize_append, String.utf8ByteSize_append]
      omega

/-- A path with room for the longest names reaches all of them. -/
theorem reaches_of_room (hroom : path.utf8ByteSize + 1 + Path.maxNameBytes ≤ Path.maxBytes)
    (hname : name.utf8ByteSize ≤ Path.maxNameBytes) : Directory.reaches path name = true := by
  have hjoin := utf8ByteSize_join_le path name
  unfold Directory.reaches Path.fits
  rw [Bool.and_eq_true_iff]
  exact ⟨decide_eq_true hname, decide_eq_true (by omega)⟩

theorem Call.reached_of_room (hroom : path.utf8ByteSize + 1 + Path.maxNameBytes ≤ Path.maxBytes)
    (hname : ∀ name ∈ call.name?, name.utf8ByteSize ≤ Path.maxNameBytes) :
    ¬call.Unreached path := by
  have hreaches : ∀ name, call.name? = some name → Directory.reaches path name = true :=
    fun name h => reaches_of_room hroom (hname name h)
  cases call with
  | write name data => exact fun h => by cases (hreaches name rfl).symm.trans h.2
  | read name => exact fun h => by cases (hreaches name rfl).symm.trans h.2
  | delete name => exact fun h => by cases (hreaches name rfl).symm.trans h.2
  | has name => exact id
  | list => exact id
  | sync => exact id

/-! ## Agreement -/

/-- Memory and an empty directory give the same answers exactly if no call but a write has an
invalid name and no name is out of reach. As long as the path has room for the names, the answers
only differ to calls other than writes with invalid names, which memory misses and the directory
refuses, and both stores end with the same artifacts. -/
theorem answers_agree_but_unchecked (path : String) (calls : List Call) :
    ((run calls (emptyDirectory path)).1 = (run calls .empty).1 ↔
      ∀ call ∈ calls, ¬call.Unchecked ∧ ¬call.Unreached path) ∧
    (path.utf8ByteSize + 1 + Path.maxNameBytes ≤ Path.maxBytes →
      (∀ call ∈ calls, ∀ name ∈ call.name?, name.utf8ByteSize ≤ Path.maxNameBytes) →
      (∀ (i : Nat) (call : Call), calls[i]? = some call → ∃ a b, (run calls .empty).1[i]? = some a ∧
        (run calls (emptyDirectory path)).1[i]? = some b ∧ call.Compares a b) ∧
      (run calls (emptyDirectory path)).2.medium.artifacts =
        (run calls .empty).2.medium.artifacts) := by
  refine ⟨(mirrors_empty path).run_eq_iff calls, fun hroom hnames => ?_⟩
  obtain ⟨hcompares, hafter⟩ := (mirrors_empty path).run_compares fun call hcall =>
    Call.reached_of_room hroom (hnames call hcall)
  refine ⟨hcompares, Medium.artifacts_congr fun q data => ?_⟩
  rw [hafter.same]

/-- Of four calls one is answered differently. -/
theorem answers_agree_but_unchecked_mixed :
    let calls : List Call := [.write "a" [1], .write "a/b" [2], .read "a/b", .list]
    "store".utf8ByteSize + 1 + Path.maxNameBytes ≤ Path.maxBytes ∧
    (∀ (i : Nat) (call : Call), calls[i]? = some call → ∃ a b, (run calls .empty).1[i]? = some a ∧
      (run calls (emptyDirectory "store")).1[i]? = some b ∧ call.Compares a b) ∧
    (run calls (emptyDirectory "store")).1 =
      [.ok .done, .error (.invalidName "a/b"), .error (.invalidName "a/b"),
        .ok (.names ["a"])] := by
  intro calls
  have hroom : "store".utf8ByteSize + 1 + Path.maxNameBytes ≤ Path.maxBytes := by decide +kernel
  have hnames : ∀ call ∈ calls, ∀ name ∈ call.name?, name.utf8ByteSize ≤ Path.maxNameBytes := by
    decide +kernel
  exact ⟨hroom, ((answers_agree_but_unchecked "store" calls).2 hroom hnames).1, by decide +kernel⟩

/-- An invalid name, under which nothing can be written, is not found in memory but refused by a
directory. -/
theorem answers_differ :
    (run [.read "a/b"] .empty).1 = [.error (.notFound "a/b")] ∧
      (run [.read "a/b"] (emptyDirectory "store")).1 = [.error (.invalidName "a/b")] := by
  decide +kernel

end SnapshotRetention.Store
