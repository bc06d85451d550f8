import Mathlib.Algebra.Ring.Nat
import SnapshotRetention.Command.Backup
import SnapshotRetention.Proofs.Command.Folders
import SnapshotRetention.Proofs.Writer.History

/-!
# Copying artifacts

Artifacts are copied one by one from the folder that one path leads to into the folder that another
one leads to (`Copies`, `copies_copyAll`). The source keeps what it has, even if both paths lead to
one folder.

A folder in which there were only folders before holds exactly what was copied, so that what was
copied for some of the manifests of a store is a store of its own: it is read as describing these
manifests, and no artifact in it is unreferenced (`Copies.mirrors`).
-/

namespace SnapshotRetention.Backup

open FileTree (Keeps)
open Store (Node)

variable {t t' t1 t2 : FileTree} {path output : String} {place landing : List String}
  {name : String} {data : Bytes} {copied : List String} {bytes : Nat} {d : Store.Directory}
  {ms ms' : List Manifest}

/-! ## Reading artifacts -/

theorem readArtifact_of_look (hlook : t.look path = .ok (.folder place))
    (hd : t.folder? place = some d) (name : String) :
    readArtifact path name t = d.file path name := by
  unfold readArtifact
  rw [FileTree.folderAt?_eq_some.mpr ⟨hlook, hd⟩]

/-- What is read depends on what stands under the name. -/
theorem readArtifact_congr (hs : t.Sound) (hs' : t'.Sound)
    (hlook : t.look path = .ok (.folder place)) (hlook' : t'.look path = .ok (.folder place))
    (hnode : t'.node? place name = t.node? place name) :
    readArtifact path name t' = readArtifact path name t := by
  obtain ⟨d, hd⟩ := Option.isSome_iff_exists.mp (hs.known_of_look hlook)
  obtain ⟨d', hd'⟩ := Option.isSome_iff_exists.mp (hs'.known_of_look hlook')
  rw [FileTree.node?_of_folder hd, FileTree.node?_of_folder hd'] at hnode
  rw [readArtifact_of_look hlook hd, readArtifact_of_look hlook' hd']
  unfold Store.Directory.file
  rw [hnode]

/-- What is read is a file, or it is a device, which reads as empty. -/
theorem readArtifact_ok (hs : t.Sound) (hlook : t.look path = .ok (.folder place))
    (h : readArtifact path name t = .ok data) : Store.isValidName name = true ∧
      (t.node? place name = some (.file data) ∨ t.node? place name = some .device) := by
  obtain ⟨d, hd⟩ := Option.isSome_iff_exists.mp (hs.known_of_look hlook)
  rw [readArtifact_of_look hlook hd] at h
  rw [FileTree.node?_of_folder hd]
  unfold Store.Directory.file at h
  split at h
  next => cases h
  next hname =>
    refine ⟨((Store.Directory.checkName_ok_iff path name).mp hname).1, ?_⟩
    split at h
    next => cases h
    next => cases h
    next hnode => exact Or.inr hnode
    next found hnode =>
      obtain rfl := Except.ok.inj h
      exact Or.inl hnode

/-! ## The loop -/

/-- The size of what can be read under a name. -/
def readSize (path : String) (t : FileTree) (name : String) : Nat :=
  match readArtifact path name t with
  | .error _ => 0
  | .ok data => data.length

theorem readSize_of_ok (h : readArtifact path name t = .ok data) :
    readSize path t name = data.length := by
  unfold readSize
  rw [h]

/-- What copying some artifacts, of a total size, leaves of the folder from which they were copied
and the folder into which they were copied. -/
structure Copies (path output : String) (place landing : List String) (copied : List String)
    (bytes : Nat) (t t' : FileTree) : Prop where
  keeps : Keeps t t'
  sound : t'.Sound
  source : ∀ q, t'.node? place q = t.node? place q
  nodup : copied.Nodup
  written : ∀ q ∈ copied, Store.isValidName q = true ∧
    Store.Directory.reaches output q = true ∧ ∃ data, readArtifact path q t = .ok data ∧
      (t.node? landing q ≠ some .device → t'.node? landing q = some (.file data))
  other : ∀ q, q ∉ copied → t'.node? landing q = t.node? landing q
  bytes : bytes = (copied.map (readSize path t)).sum

theorem Copies.refl (hs : t.Sound) : Copies path output place landing [] 0 t t :=
  ⟨.refl t, hs, fun _ => rfl, .nil, fun _ hq => absurd hq List.not_mem_nil, fun _ _ => rfl, rfl⟩

section
variable (hs : t.Sound) (hsource : t.look path = .ok (.folder place))
  (houtput : t.look output = .ok (.folder landing))
include hs hsource houtput

/-- One more artifact is copied. -/
theorem Copies.step (h : Copies path output place landing copied bytes t t1) (hnew : name ∉ copied)
    (hread : readArtifact path name t1 = .ok data)
    (hwrite : t1.writeFile (Path.join output name) data = (.ok (), t2)) :
    Copies path output place landing (name :: copied) (bytes + data.length) t t2 := by
  have hlanding1 : t1.Known landing := h.sound.known_of_look (h.keeps.look houtput)
  have hold := h.other name hnew
  obtain ⟨hvalid, hnode⟩ := readArtifact_ok h.sound (h.keeps.look hsource) hread
  obtain ⟨hreaches, hwritten⟩ := FileTree.writeFile_join (h.keeps.look houtput) hvalid hwrite
  rw [readArtifact_congr hs h.sound hsource (h.keeps.look hsource) (h.source name)] at hread
  have hnodup := List.nodup_cons.mpr ⟨hnew, h.nodup⟩
  have hbytes : bytes + data.length = ((name :: copied).map (readSize path t)).sum := by
    rw [List.map_cons, List.sum_cons, readSize_of_ok hread, ← h.bytes, Nat.add_comm]
  rcases hwritten with ⟨hdevice, rfl⟩ | ⟨hfolder, hdevice, rfl⟩
  · -- nothing stays of what is written to a device
    refine ⟨h.keeps, h.sound, h.source, hnodup, fun q hq => ?_, fun q hq => ?_, hbytes⟩
    · rcases List.mem_cons.mp hq with rfl | hq
      · exact ⟨hvalid, hreaches, data, hread, fun hnot => absurd (hold ▸ hdevice) hnot⟩
      · exact h.written q hq
    · exact h.other q fun hmem => hq (List.mem_cons_of_mem _ hmem)
  · have hset := FileTree.node?_setNode hlanding1 name (.file data)
    refine ⟨h.keeps.trans ⟨FileTree.working_setNode .., fun p c hc => ?_⟩,
      h.sound.setNode hlanding1 hfolder nofun, fun q => ?_, hnodup, fun q hq => ?_, fun q hq => ?_,
      hbytes⟩
    · rw [hset, if_neg]
      · exact hc
      · rintro ⟨rfl, rfl⟩
        exact hfolder hc
    · -- if the file is written where it comes from, it is the same
      rw [hset]
      split
      next hand =>
        obtain ⟨rfl, rfl⟩ := hand
        rw [← h.source]
        exact (hnode.resolve_right hdevice).symm
      next => exact h.source q
    · by_cases heq : q = name
      · subst heq
        exact ⟨hvalid, hreaches, data, hread, fun _ => (hset landing q).trans (if_pos ⟨rfl, rfl⟩)⟩
      · obtain ⟨hvalid', hreaches', data', hread', hfile⟩ :=
          h.written q ((List.mem_cons.mp hq).resolve_left heq)
        refine ⟨hvalid', hreaches', data', hread', fun hnot => ?_⟩
        rw [hset, if_neg fun hand => heq hand.2]
        exact hfile hnot
    · obtain ⟨hne, hq⟩ := not_or.mp fun hor => hq (List.mem_cons.mpr hor)
      rw [hset, if_neg fun hand => hne hand.2]
      exact h.other q hq

/-- A loop that ends has copied each name that it was given. -/
theorem copies_copyAll {names copied' : List String} {bytes' : Nat}
    (h : Copies path output place landing copied bytes t t1)
    (hrun : copyAll path output names copied bytes t1 = (.ok (copied', bytes'), t')) :
    Copies path output place landing copied' bytes' t t' ∧
      ∀ q, q ∈ copied' ↔ q ∈ copied ∨ q ∈ names := by
  induction names generalizing copied bytes t1 with
  | nil =>
    obtain ⟨hok, rfl⟩ := Prod.mk.inj hrun
    obtain ⟨rfl, rfl⟩ := Prod.mk.inj (Except.ok.inj hok)
    exact ⟨h, fun q => (or_iff_left List.not_mem_nil).symm⟩
  | cons name rest ih =>
    unfold copyAll at hrun
    split at hrun
    next hseen =>
      obtain ⟨hcopies, hmem⟩ := ih h hrun
      refine ⟨hcopies, fun q => (hmem q).trans ?_⟩
      rw [List.mem_cons]
      refine ⟨fun hor => hor.imp_right Or.inr, fun hor => ?_⟩
      rcases hor with hq | rfl | hq
      · exact Or.inl hq
      · exact Or.inl (List.contains_iff_mem.mp hseen)
      · exact Or.inr hq
    next hnew =>
      split at hrun
      next => cases hrun
      next data hread =>
        split at hrun
        next => cases hrun
        next t2 hwrite =>
          have hnew : name ∉ copied := fun hmem => hnew (List.contains_iff_mem.mpr hmem)
          obtain ⟨hcopies, hmem⟩ := ih (h.step hs hsource houtput hnew hread hwrite) hrun
          refine ⟨hcopies, fun q => (hmem q).trans ?_⟩
          rw [List.mem_cons, List.mem_cons, or_assoc, or_left_comm]

end

/-! ## The copy -/

/-- Nothing stands in a folder but folders. -/
def Bare (p : List String) (t : FileTree) : Prop := ∀ c node, t.node? p c = some node → node = .folder

theorem mem_artifacts_iff (d : Store.Directory) (name : String) (data : Bytes) :
    (name, data) ∈ d.artifacts ↔ d.nodes.get? name = some (.file data) := by
  unfold Store.Directory.artifacts
  rw [← Table.mem_entries_iff]
  simp only [List.mem_filterMap, Option.map_eq_some_iff]
  constructor
  · rintro ⟨⟨name', node⟩, hmem, data', hdata, heq⟩
    obtain ⟨rfl, rfl⟩ := Prod.mk.inj heq
    cases node with
    | folder => cases hdata
    | device => cases hdata
    | file found =>
      obtain rfl := Option.some.inj hdata
      exact hmem
  · exact fun hmem => ⟨(name, .file data), hmem, data, rfl, rfl⟩

/-- A folder is a store of its own: it holds exactly the artifacts of some commits, with the bytes
that they have in the source, and a report about it is right. -/
structure Mirrors (path output : String) (ms : List Manifest) (summary : BackupSummary)
    (t t' : FileTree) (d : Store.Directory) : Prop where
  names : ∀ q, q ∈ d.artifacts.map Prod.fst ↔ q ∈ ms.flatMap Manifest.fileNames
  same : ∀ a ∈ d.artifacts, readArtifact path a.1 t = .ok a.2
  read : (storeAt output d).readCommits = .ok ms
  unreferenced : ∃ i, Inspection.ofPath output t' = .ok i ∧ i.unreferenced = []
  versions : summary.versions = ms.map Manifest.version
  files : summary.files = d.artifacts.length
  bytes : summary.bytes = (d.artifacts.map fun a => a.2.length).sum

section
variable (h : Copies path output place landing copied bytes t t') (hbare : Bare landing t)
include h hbare

/-- The artifacts in a folder that had none are those that were copied. -/
theorem Copies.node_iff (q : String) (data : Bytes) :
    t'.node? landing q = some (.file data) ↔ q ∈ copied ∧ readArtifact path q t = .ok data := by
  by_cases hq : q ∈ copied
  · obtain ⟨-, -, found, hread, hfile⟩ := h.written q hq
    rw [hfile fun hdevice => (nomatch hbare q _ hdevice), hread]
    simp [hq]
  · rw [h.other q hq]
    exact ⟨fun hfile => (nomatch hbare q _ hfile), fun hand => absurd hand.1 hq⟩

/-- What was copied for some of the manifests of a source mirrors them. -/
theorem Copies.mirrors {t0 : FileTree} {d' : Store.Directory}
    (hsource : t0.look path = .ok (.folder place)) (hd : t0.folder? place = some d)
    (houtput : t'.look output = .ok (.folder landing)) (hd' : t'.folder? landing = some d')
    (hms : (storeAt path d).readCommits = .ok ms) (hsub : ms'.Sublist ms)
    (hnamed : ∀ m ∈ ms', ∀ q ∈ m.files, Manifest.isReserved q = false)
    (hread : ∀ q ∈ copied, readArtifact path q t = readArtifact path q t0)
    (hcopied : ∀ q, q ∈ copied ↔ q ∈ ms'.flatMap Manifest.fileNames) :
    Mirrors path output ms' ⟨ms'.map Manifest.version, copied.length, bytes⟩ t0 t' d' := by
  have hartifact : ∀ q data, (q, data) ∈ d'.artifacts ↔
      q ∈ copied ∧ readArtifact path q t = .ok data := by
    intro q data
    rw [mem_artifacts_iff, ← FileTree.node?_of_folder hd', h.node_iff hbare]
  have hnames : ∀ q, q ∈ d'.artifacts.map Prod.fst ↔ q ∈ copied := by
    intro q
    rw [List.mem_map]
    constructor
    · rintro ⟨⟨q, data⟩, hmem, rfl⟩
      exact ((hartifact q data).mp hmem).1
    · intro hq
      obtain ⟨-, -, data, hdata, -⟩ := h.written q hq
      exact ⟨(q, data), (hartifact q data).mpr ⟨hq, hdata⟩, rfl⟩
  have hperm : (d'.artifacts.map Prod.fst).Perm copied :=
    (List.perm_ext_iff_of_nodup (Store.Medium.nodup_names (.directory output d')) h.nodup).mpr hnames
  have hcommits : (storeAt output d').readCommits = .ok ms' := by
    refine Store.readCommits_of_kept hms hsub (Store.list_of_never rfl) (fun m hm => ?_)
      fun q hq hgeneration => ?_
    · -- the manifest is found in the copy as it is in the source
      have hname : m.name ∈ copied := (hcopied _).mpr
        (List.mem_flatMap.mpr ⟨m, hm, List.mem_append_right _ (List.mem_singleton.mpr rfl)⟩)
      obtain ⟨hvalid, hreaches, data, hdata, -⟩ := h.written m.name hname
      have hnode := (mem_artifacts_iff d' _ _).mp ((hartifact m.name data).mpr ⟨hname, hdata⟩)
      rw [Store.read_of_never rfl, Store.read_of_never rfl]
      show d'.file output m.name = d.file path m.name
      rw [← readArtifact_of_look hsource hd, ← hread m.name hname, hdata]
      unfold Store.Directory.file
      rw [(Store.Directory.checkName_ok_iff _ _).mpr ⟨hvalid, hreaches⟩, hnode]
    · obtain ⟨m, hm, hname⟩ := List.mem_flatMap.mp ((hcopied q).mp ((hnames q).mp hq))
      refine ⟨m, hm, ?_⟩
      rcases List.mem_append.mp hname with hfile | hself
      · obtain ⟨g, hg⟩ := Option.isSome_iff_exists.mp hgeneration
        have hreserved := Manifest.isReserved_of_generationOf? hg
        rw [hnamed m hm q hfile] at hreserved
        cases hreserved
      · exact (List.mem_singleton.mp hself).symm
  refine ⟨fun q => (hnames q).trans (hcopied q), fun a ha => ?_, hcommits, ?_, rfl, ?_, ?_⟩
  · obtain ⟨hmem, hdata⟩ := (hartifact a.1 a.2).mp ha
    rw [← hread a.1 hmem, hdata]
  · have hfound : t'.folderAt? output = some (landing, d') :=
      FileTree.folderAt?_eq_some.mpr ⟨houtput, hd'⟩
    unfold Inspection.ofPath Inspection.findFolder
    rw [hfound]
    dsimp only
    rw [show (Store.ofMedium (.directory output d') .never).readCommits = .ok ms' from hcommits]
    refine ⟨_, rfl, List.filter_eq_nil_iff.mpr fun q hq => ?_⟩
    have hlisted := (hcopied q).mp ((hnames q).mp hq)
    simpa using hlisted
  · show copied.length = d'.artifacts.length
    rw [← hperm.length_eq, List.length_map]
  · show bytes = (d'.artifacts.map fun a => a.2.length).sum
    rw [h.bytes, ← (hperm.map (readSize path t)).sum_nat, List.map_map]
    refine congrArg List.sum (List.map_congr_left fun a ha => ?_)
    exact readSize_of_ok ((hartifact a.1 a.2).mp ha).2

end

end SnapshotRetention.Backup
