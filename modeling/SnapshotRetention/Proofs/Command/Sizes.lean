import Mathlib.Algebra.BigOperators.Group.List.Basic
import SnapshotRetention.Proofs.Command.Inspect
import SnapshotRetention.Proofs.Writer.Strays

/-!
# What an inspection measures

An inspection measures an artifact by following the path of its name below the directory. A manifest
may list any names, and the path of a name that is not checked leads anywhere: out of the directory,
to the directory itself, or to a folder in it (`leadsElsewhere`). Such a name adds to the size of its
commit what its path leads to; any other name adds the length of its artifact, as long as the path is
short enough to be followed, or nothing if there is none (`artifactSize_eq`).

The main result, `measures_own_but_elsewhere`, says so of whole reports, and that reports on the same
artifacts are the same, in whatever file systems they lie, but for the sizes of commits that list such
names.
-/

namespace SnapshotRetention.Inspection

open Backup (storeAt)
open Store (Directory Medium Node SystemAllows)

variable {t t' : FileTree} {path q : String} {place place' : List String} {d d' : Directory}
  {i : Inspection} {ms : List Manifest} {data : Bytes}

/-! ## Names that lead elsewhere -/

/-- The artifacts of the directory at a path that their own paths reach. -/
def reachable (path : String) (d : Directory) : List (String × Bytes) :=
  d.artifacts.filter fun a => Directory.reaches path a.1

/-- The length of the artifact of a name, nothing if none is listed. -/
def listedSize (files : List (String × Bytes)) (name : String) : Nat :=
  ((Table.lookup name files).map List.length).getD 0

/-- Whether the path of a name below a directory leads elsewhere than to a file in it: the name has
a slash, or stands for the directory itself, the one above or a folder. -/
def leadsElsewhere (d : Directory) (name : String) : Bool :=
  name.toList.contains '/' || Path.stays name || decide (name = "..") ||
    decide (d.nodes.get? name = some .folder)

theorem leadsElsewhere_eq_false_iff : leadsElsewhere d q = false ↔
    '/' ∉ q.toList ∧ Path.stays q = false ∧ q ≠ ".." ∧ d.nodes.get? q ≠ some .folder := by
  unfold leadsElsewhere
  simp [and_assoc]

/-- What is listed and reached is the data of a file. -/
theorem lookup_reachable (path : String) (d : Directory) (q : String) :
    Table.lookup q (reachable path d) =
      if Directory.reaches path q then (d.nodes.get? q).bind Node.data? else none := by
  have hascending : (reachable path d).Pairwise fun a b => a.1 < b.1 :=
    (List.pairwise_map.mp (Medium.pairwise_names (.directory path d))).filter _
  have hmem : ∀ data, (q, data) ∈ reachable path d ↔
      d.nodes.get? q = some (.file data) ∧ Directory.reaches path q = true := fun data =>
    List.mem_filter.trans
      (and_congr_left fun _ => Medium.mem_artifacts_iff (.directory path d) q data)
  have hdata : ∀ data, (d.nodes.get? q).bind Node.data? = some data ↔
      d.nodes.get? q = some (.file data) := by
    intro data
    cases d.nodes.get? q with
    | none => simp
    | some node => cases node <;> simp [Node.data?]
  refine Option.ext fun data => ?_
  rw [Option.ite_none_right_eq_some, hdata, and_comm, ← hmem]
  exact ⟨Table.mem_of_lookup, Table.lookup_of_mem hascending⟩

/-- The names of artifacts do not lead elsewhere. -/
theorem leadsElsewhere_of_mem (hallowed : ∀ a ∈ d.artifacts, SystemAllows a.1)
    (hmem : (q, data) ∈ d.artifacts) : leadsElsewhere d q = false := by
  obtain ⟨hempty, hdot, hdots, hchars, -⟩ := hallowed (q, data) hmem
  refine leadsElsewhere_eq_false_iff.mpr ⟨fun hslash => (hchars '/' hslash).1 rfl, ?_, hdots, ?_⟩
  · unfold Path.stays
    rw [decide_eq_false hempty, decide_eq_false hdot]
    rfl
  · rw [show d.nodes.get? q = _ from (Medium.mem_artifacts_iff (.directory "" d) q data).mp hmem]
    exact nofun

theorem listedSize_of_elsewhere (hallowed : ∀ a ∈ d.artifacts, SystemAllows a.1)
    (helsewhere : leadsElsewhere d q = true) : listedSize (reachable path d) q = 0 := by
  have hnone : Table.lookup q (reachable path d) = none := by
    refine Option.eq_none_iff_forall_ne_some.mpr fun data hdata => ?_
    have hmem := (List.mem_filter.mp (Table.mem_of_lookup hdata)).1
    rw [leadsElsewhere_of_mem hallowed hmem] at helsewhere
    cases helsewhere
  unfold listedSize
  rw [hnone]
  rfl

/-! ## Following the path of a name -/

/-- What a name that does not lead elsewhere leads to. -/
theorem walk_of_here (hd : t.folder? place = some d) (hhere : leadsElsewhere d q = false) :
    t.walk place [q] =
      if Path.maxNameBytes < q.utf8ByteSize then .error .nameTooLong
      else
        match d.nodes.get? q with
        | some (.file data) => .ok (.file data)
        | some .device => .ok .device
        | some .folder | none => .error .missing := by
  obtain ⟨-, hstays, hdots, hnode⟩ := leadsElsewhere_eq_false_iff.mp hhere
  unfold FileTree.walk
  rw [if_neg (Bool.eq_false_iff.mp hstays), if_neg hdots, FileTree.node?_of_folder hd]
  cases hget : d.nodes.get? q with
  | none => rfl
  | some node =>
    cases node with
    | folder => exact absurd hget hnode
    | device => rfl
    | file data => rfl

/-- A name that does not lead elsewhere measures its artifact. -/
theorem artifactSize_of_here (hfolder : t.folderAt? path = some (place, d))
    (hhere : leadsElsewhere d q = false) :
    artifactSize t path q = listedSize (reachable path d) q := by
  obtain ⟨hlook, hd⟩ := FileTree.folderAt?_eq_some.mp hfolder
  obtain ⟨hslash, -, -, hnode⟩ := leadsElsewhere_eq_false_iff.mp hhere
  unfold artifactSize FileTree.sizeAt listedSize
  rw [FileTree.look_join hlook hslash, walk_of_here hd hhere, lookup_reachable]
  cases hreaches : Directory.reaches path q with
  | true =>
    obtain ⟨hshort, hfits⟩ := Bool.and_eq_true_iff.mp hreaches
    rw [if_pos hfits, if_neg (Nat.not_lt.mpr (of_decide_eq_true hshort)), if_pos rfl]
    cases hget : d.nodes.get? q with
    | none => rfl
    | some node =>
      cases node with
      | folder => exact absurd hget hnode
      | device => rfl
      | file data => rfl
  | false =>
    rcases (Bool.and_eq_false_iff.mp hreaches).symm with hlong | hlong
    · rw [hlong]
      rfl
    · rw [if_pos (Nat.lt_of_not_le (of_decide_eq_false hlong)), ite_self]
      rfl

/-- Any other name measures what its path leads to, and has no artifact. -/
theorem artifactSize_eq (hfolder : t.folderAt? path = some (place, d))
    (hallowed : ∀ a ∈ d.artifacts, SystemAllows a.1) (q : String) :
    artifactSize t path q = listedSize (reachable path d) q +
      if leadsElsewhere d q = true then artifactSize t path q else 0 := by
  split
  next helsewhere => rw [listedSize_of_elsewhere hallowed helsewhere, Nat.zero_add]
  next hhere => exact artifactSize_of_here hfolder (Bool.eq_false_iff.mpr hhere)

/-! ## Sums -/

/-- What is left out of a sum counts as nothing in it. -/
theorem total_ite {α : Type} (p : α → Bool) (f : α → Nat) (l : List α) :
    total (l.map fun a => if p a = true then f a else 0) = total ((l.filter p).map f) := by
  induction l with
  | nil => rfl
  | cons a l ih =>
    rw [List.map_cons, List.filter_cons]
    split
    next => exact congrArg (f a + ·) ih
    next => exact (Nat.zero_add _).trans ih

/-- The listing of a directory measures its artifacts. -/
theorem total_listing (hfolder : t.folderAt? path = some (place, d))
    (hallowed : ∀ a ∈ d.artifacts, SystemAllows a.1) :
    total ((storeAt path d).names.map (artifactSize t path)) =
      total ((reachable path d).map fun a => a.2.length) := by
  unfold reachable
  rw [← total_ite]
  show total ((d.artifacts.map Prod.fst).map (artifactSize t path)) = _
  rw [List.map_map]
  refine congrArg total (List.map_congr_left fun a ha => ?_)
  have hnode := (Medium.mem_artifacts_iff (.directory path d) a.1 a.2).mp ha
  refine (artifactSize_of_here hfolder (leadsElsewhere_of_mem hallowed ha)).trans ?_
  unfold listedSize
  rw [lookup_reachable, show d.nodes.get? a.1 = _ from hnode]
  split
  next => rfl
  next => rfl

/-- A commit measures the artifacts that it lists, and what other names lead to. -/
theorem size_summarize (hfolder : t.folderAt? path = some (place, d))
    (hallowed : ∀ a ∈ d.artifacts, SystemAllows a.1) (m : Manifest) :
    (summarize t path m).size = total (m.files.map (listedSize (reachable path d))) +
      total ((m.files.filter (leadsElsewhere d)).map (artifactSize t path)) := by
  rw [← total_ite]
  refine Eq.trans (congrArg total (List.map_congr_left fun q _ =>
    artifactSize_eq hfolder hallowed q)) ?_
  exact List.sum_map_add

/-- A commit that lists no other names measures its artifacts only. -/
theorem summarize_of_here (hfolder : t.folderAt? path = some (place, d)) {m : Manifest}
    (hhere : ∀ q ∈ m.files, leadsElsewhere d q = false) :
    summarize t path m = ⟨m, total (m.files.map (listedSize (reachable path d)))⟩ := by
  unfold summarize
  rw [List.map_congr_left fun q hq => artifactSize_of_here hfolder (hhere q hq)]

/-! ## Reports -/

/-- What is told about the directory at a path, given its manifests. -/
def report (t : FileTree) (path : String) (d : Directory) (ms : List Manifest) : Inspection where
  path
  artifactCount := (storeAt path d).names.length
  totalSize := total ((storeAt path d).names.map (artifactSize t path))
  commits := ms.map (summarize t path)
  unreferenced := (storeAt path d).names.filter fun q =>
    !(ms.flatMap Manifest.fileNames).contains q

theorem ofPath_of_readCommits (hfolder : t.folderAt? path = some (place, d))
    (hms : (storeAt path d).readCommits = .ok ms) : ofPath path t = .ok (report t path d ms) := by
  unfold ofPath findFolder
  rw [hfolder]
  dsimp only
  rw [show (Store.ofMedium (.directory path d) .never).readCommits = _ from hms]
  rfl

theorem exists_report (hfolder : t.folderAt? path = some (place, d))
    (hi : ofPath path t = .ok i) :
    ∃ ms, (storeAt path d).readCommits = .ok ms ∧ i = report t path d ms := by
  have hms := (readCommits_of_ok hfolder hi).1
  exact ⟨_, hms, Except.ok.inj (hi.symm.trans (ofPath_of_readCommits hfolder hms))⟩

/-! ## Directories with the same artifacts -/

theorem names_of_artifacts (hsame : d'.artifacts = d.artifacts) (path : String) :
    (storeAt path d').names = (storeAt path d).names :=
  congrArg (List.map Prod.fst) hsame

theorem reachable_of_artifacts (hsame : d'.artifacts = d.artifacts) (path : String) :
    reachable path d' = reachable path d :=
  congrArg (List.filter _) hsame

/-- They are read as describing the same commits. -/
theorem readCommits_of_artifacts (hsame : d'.artifacts = d.artifacts)
    (hms : (storeAt path d).readCommits = .ok ms) : (storeAt path d').readCommits = .ok ms := by
  refine Store.readCommits_of_kept hms (List.Sublist.refl ms) (Store.list_of_never rfl) ?_ ?_
  · -- a manifest that could be read is an artifact
    intro m hm
    obtain ⟨data, -, hnode, hfixed⟩ := Store.readCommits_node hms m hm
    have hnode' : (storeAt path d').medium.node? m.name = some (.file data) := by
      refine (Medium.mem_artifacts_iff (.directory path d') m.name data).mp ?_
      rw [show (Medium.directory path d').artifacts = d.artifacts from hsame]
      exact (Medium.mem_artifacts_iff (.directory path d) m.name data).mpr hnode
    have hfixed' : ¬(storeAt path d').medium.Fixed m.name := by
      rintro (hrefused | hfolder)
      · exact hfixed (Or.inl hrefused)
      · cases hnode'.symm.trans hfolder
    rw [Store.read_of_never rfl, Store.read_of_never rfl, Medium.read_of_node hnode hfixed,
      Medium.read_of_node hnode' hfixed']
  · intro q hq hnamed
    exact Store.named_of_readCommits hms (names_of_artifacts hsame path ▸ hq) hnamed

/-- What two inspections report alike: everything but the sizes of the commits that list names which
lead elsewhere in one of the directories. -/
structure Agree (d d' : Directory) (i i' : Inspection) : Prop where
  rest : i' = { i with commits := i'.commits }
  commits : List.Forall₂ (fun c c' => c'.manifest = c.manifest ∧
    ((∀ q ∈ c.manifest.files, leadsElsewhere d q = false ∧ leadsElsewhere d' q = false) →
      c' = c)) i.commits i'.commits

section
variable (hfolder : t.folderAt? path = some (place, d))
  (hfolder' : t'.folderAt? path = some (place', d')) (hsame : d'.artifacts = d.artifacts)
include hfolder hfolder' hsame

theorem summarize_of_artifacts {m : Manifest}
    (hhere : ∀ q ∈ m.files, leadsElsewhere d q = false ∧ leadsElsewhere d' q = false) :
    summarize t' path m = summarize t path m := by
  rw [summarize_of_here hfolder' fun q hq => (hhere q hq).2,
    summarize_of_here hfolder fun q hq => (hhere q hq).1, reachable_of_artifacts hsame]

theorem agree_of_artifacts (hallowed : ∀ a ∈ d.artifacts, SystemAllows a.1)
    (ms : List Manifest) : Agree d d' (report t path d ms) (report t' path d' ms) := by
  have htotal : total ((storeAt path d').names.map (artifactSize t' path)) =
      total ((storeAt path d).names.map (artifactSize t path)) := by
    rw [total_listing hfolder' (hsame ▸ hallowed), total_listing hfolder hallowed,
      reachable_of_artifacts hsame]
  constructor
  · unfold report
    dsimp only
    rw [htotal, names_of_artifacts hsame]
  · refine List.forall₂_map_left_iff.mpr (List.forall₂_map_right_iff.mpr ?_)
    exact List.forall₂_same.mpr fun m _ =>
      ⟨rfl, summarize_of_artifacts hfolder hfolder' hsame⟩

end

/-- An inspection that succeeds measures the artifacts that are listed, as far as their paths can be
followed: the total size is that of the listing, and the size of a commit is that of the artifacts
which it lists, each as often as it is listed. Only a name that leads elsewhere adds the size of what
its path leads to. On a directory with the same artifacts an inspection succeeds, too, wherever the
directory is, and reports the same but for the sizes of commits that list such names. -/
theorem measures_own_but_elsewhere (hfolder : t.folderAt? path = some (place, d))
    (hallowed : ∀ a ∈ d.artifacts, SystemAllows a.1) (hi : ofPath path t = .ok i) :
    i.totalSize = total ((reachable path d).map fun a => a.2.length) ∧
    (∀ c ∈ i.commits, c.size = total (c.manifest.files.map (listedSize (reachable path d))) +
      total ((c.manifest.files.filter (leadsElsewhere d)).map (artifactSize t path))) ∧
    ∀ t' place' d', t'.folderAt? path = some (place', d') → d'.artifacts = d.artifacts →
      ∃ i', ofPath path t' = .ok i' ∧ Agree d d' i i' ∧
        ((∀ c ∈ i.commits, ∀ q ∈ c.manifest.files,
          leadsElsewhere d q = false ∧ leadsElsewhere d' q = false) → i' = i) := by
  obtain ⟨ms, hms, rfl⟩ := exists_report hfolder hi
  refine ⟨total_listing hfolder hallowed, fun c hc => ?_, fun t' place' d' hfolder' hsame => ?_⟩
  · obtain ⟨m, -, rfl⟩ := List.mem_map.mp hc
    exact size_summarize hfolder hallowed m
  · have hagree := agree_of_artifacts hfolder hfolder' hsame hallowed ms
    refine ⟨_, ofPath_of_readCommits hfolder' (readCommits_of_artifacts hsame hms), hagree,
      fun hhere => ?_⟩
    have hcommits : ms.map (summarize t' path) = ms.map (summarize t path) :=
      List.map_congr_left fun m hm => summarize_of_artifacts hfolder hfolder' hsame
        (hhere _ (List.mem_map_of_mem hm))
    exact hagree.rest.trans (congrArg (fun cs => { report t path d ms with commits := cs }) hcommits)

/-! ## A directory that lists a file of its neighbour -/

/-- A commit that lists an artifact twice, one that does not exist, a file of a neighbouring folder,
and a folder. -/
def prying : Manifest := ⟨⟨1⟩, ⟨1⟩, 0, ["a", "a", "gone", "../out/x", "sub"]⟩

/-- The directory of this commit. -/
def pryingDirectory : Directory :=
  ⟨.ofList [("a", .file [1, 2, 3]), ("commit_1", .file (Backup.manifestBytes prying)),
    ("sub", .folder)], []⟩

/-- The directory next to a folder with a file. -/
def neighbourly (data : Bytes) : FileTree where
  folders :=
    [([], ⟨.ofList [("w", .folder)], []⟩),
      (["w"], ⟨.ofList [("idx", .folder), ("out", .folder)], []⟩),
      (["w", "idx"], pryingDirectory), (["w", "idx", "sub"], .empty),
      (["w", "out"], ⟨.ofList [("x", .file data)], []⟩)]
  working := ["w"]

theorem folderAt?_neighbourly (data : Bytes) :
    (neighbourly data).folderAt? "idx" = some (["w", "idx"], pryingDirectory) := rfl

theorem readCommits_prying : (storeAt "idx" pryingDirectory).readCommits = .ok [prying] := by
  have hlist : (storeAt "idx" pryingDirectory).list = .ok ["a", "commit_1"] := by
    decide +kernel
  have hgenerations : Store.generationsOf ["a", "commit_1"] = [⟨1⟩] := by
    have hfound : ["a", "commit_1"].filterMap Manifest.generationOf? = [⟨1⟩] := by
      decide +kernel
    exact Store.generationsOf_eq (hfound ▸ .refl _) (by decide)
  unfold Store.readCommits
  rw [hlist]
  dsimp only
  rw [hgenerations]
  decide +kernel

/-- What is told about the directory if the commit is taken for so many bytes. -/
def toldOf (size : Nat) : Inspection := ⟨"idx", 2, 68, [⟨prying, size⟩], []⟩

theorem ofPath_neighbourly : ofPath "idx" (neighbourly [1]) = .ok (toldOf 47) ∧
    ofPath "idx" (neighbourly [1, 2]) = .ok (toldOf 48) := by
  rw [ofPath_of_readCommits (folderAt?_neighbourly [1]) readCommits_prying,
    ofPath_of_readCommits (folderAt?_neighbourly [1, 2]) readCommits_prying]
  decide +kernel

/-- Of the names that the commit lists, the one with a slash and the folder's lead elsewhere, and
what they lead to is measured beside its artifact, which counts twice. In the other file system the
same is reported but for the size of this commit. -/
theorem measures_own_but_elsewhere_prying :
    47 = total (prying.files.map (listedSize (reachable "idx" pryingDirectory))) +
      total (["../out/x", "sub"].map (artifactSize (neighbourly [1]) "idx")) ∧
    Agree pryingDirectory pryingDirectory (toldOf 47) (toldOf 48) := by
  have hallowed : ∀ a ∈ pryingDirectory.artifacts, SystemAllows a.1 := by decide +kernel
  obtain ⟨htold, htold'⟩ := ofPath_neighbourly
  obtain ⟨-, hsizes, hother⟩ :=
    measures_own_but_elsewhere (folderAt?_neighbourly [1]) hallowed htold
  obtain ⟨i', hi', hagree, -⟩ := hother _ _ _ (folderAt?_neighbourly [1, 2]) rfl
  obtain rfl := Except.ok.inj (htold'.symm.trans hi')
  refine ⟨(hsizes ⟨prying, 47⟩ List.mem_cons_self).trans ?_, hagree⟩
  rw [show prying.files.filter (leadsElsewhere pryingDirectory) = ["../out/x", "sub"] by
    decide +kernel]

/-- The artifacts that the commit lists have six bytes, but it is taken for more, and for how many
depends on the file of its neighbour. -/
theorem elsewhere_is_measured :
    (neighbourly [1, 2]).folderAt? "idx" = (neighbourly [1]).folderAt? "idx" ∧
      total (prying.files.map (listedSize pryingDirectory.artifacts)) = 6 ∧
      ofPath "idx" (neighbourly [1]) = .ok (toldOf 47) ∧
      ofPath "idx" (neighbourly [1, 2]) = .ok (toldOf 48) :=
  ⟨rfl, by decide +kernel, ofPath_neighbourly⟩

end SnapshotRetention.Inspection
