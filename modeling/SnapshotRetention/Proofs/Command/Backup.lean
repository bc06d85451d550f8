import SnapshotRetention.Proofs.Command.Copying
import SnapshotRetention.Proofs.Writer.Reopening

/-!
# What a backup leaves

A backup opens its source as a store of which every commit is kept, so that all of them are live
(`Engine.opened_keepAll`) and the source loses nothing that a commit lists (`Cleaned`). What it
copies makes up a store of its own, which describes the newest commit or all of them, and holds
nothing else (`mirrors_unless_hidden`).

That is so unless the output is a folder that was not empty, which a backup refuses to write into.
It overlooks this if the path of the output leads nowhere at first, but to that folder once the
folders on the way to it have been made, which takes a path that goes up (`Hidden`).
-/

namespace SnapshotRetention

open Keeper (Sound)

/-! ## Opening the source -/

namespace Engine

variable {s s' : Store} {ms : List Manifest} {w : Writer} {e : Engine} {c : Catalog}
  {sync reclaimOnRelease : Bool} {id : Nat}

/-- What a keeper has over a source that has been opened. -/
structure TakesAll (s : Store) (ms : List Manifest) (c : Catalog) (s' : Store) (e : Engine) : Prop
    where
  swept : ∃ sync w, Swept s ms sync w c s'
  catalog : e.catalog = c.setStoreOf 0 s'
  commits : e.commits = List.range ms.length
  live : ms ≠ [] → ∃ live, e.keeper.live = some live ∧
    live.guards.map Guard.commit = List.range ms.length

/-- A keeper that is asked to keep everything publishes everything. -/
theorem Swept.published_eq {k : Keeper} {n : Nat} (h : Swept s ms sync w c s')
    (hcatalog : k.catalog = c.setStoreOf 0 s') (hn : n ∈ List.range ms.length) :
    k.published (List.range ms.length) n [] = List.range ms.length := by
  have hkept : k.kept (List.range ms.length) n [] = List.range ms.length := by
    refine List.filter_eq_self.mpr fun m hm => ?_
    rw [hcatalog]
    unfold Catalog.isDeleted
    rw [h.commit_eq (List.mem_range.mp hm)]
    rfl
  unfold Keeper.published
  rw [hkept, if_neg (List.ne_nil_of_mem hn)]

theorem opened_keepAll (hms : s.readCommits = .ok ms)
    (h : (fresh id reclaimOnRelease true (.stock .keepAll) s).openWriter 0 sync = (.ok (), e)) :
    ∃ c s', TakesAll s ms c s' e := by
  obtain ⟨hversions, -⟩ := Store.readCommits_ok hms
  obtain ⟨w, e1, hload, hpresented⟩ := load_of_openWriter h
  obtain ⟨c, s', hswept, he1⟩ := swept_load rfl hms hload
  have hkeeper : e1.keeper = .new id reclaimOnRelease (c.setStoreOf 0 s') := by
    rw [he1]
    rfl
  have hdecider : e1.decider = .stock .keepAll := by
    rw [he1]
    rfl
  obtain ⟨-, hhistory, -⟩ := version_lt_after hswept.after hversions
  obtain ⟨e', hpresent, hwriter, hcatalog⟩ :=
    presentHistory_keepAll hswept hversions hhistory hdecider hkeeper
  obtain ⟨-, rfl⟩ := Prod.mk.inj (hpresented.symm.trans hpresent)
  refine ⟨c, s', ⟨sync, w, hswept⟩, hcatalog, ?_, fun hne => ?_⟩
  · unfold commits
    rw [hwriter, hcatalog]
    dsimp only
    rw [hhistory]
    exact hswept.undeleted_eq
  · have hsome : List.range ms.length ≠ [] := fun hnil =>
      hne (List.length_eq_zero_iff.mp (List.range_eq_nil.mp hnil))
    obtain ⟨n, hlast⟩ := Option.isSome_iff_exists.mp (List.getLast?_isSome.mpr hsome)
    have hcatalog1 : e1.keeper.catalog = c.setStoreOf 0 s' := by
      rw [hkeeper]
      rfl
    have hpresents := hswept.presents hversions hhistory hcatalog1 (hhistory.symm ▸ hlast)
    have hspec := hpresents.cycle_spec (hkeeper ▸ Sound.new _ _ _)
    -- the policy asks for nothing
    have hcycle : e.keeper = (e1.keeper.cycle w.history []).2 := by
      unfold presentHistory at hpresented
      rw [hhistory] at hpresented ⊢
      split at hpresented
      next hnil => exact absurd hnil hsome
      next =>
        unfold decide at hpresented
        rw [show e1.decider.requests (e1.catalog.shown (List.range ms.length)) = [] by
          rw [hdecider]; rfl, show e1.guarded = true by rw [he1]; rfl] at hpresented
        rw [if_pos rfl] at hpresented
        dsimp only at hpresented
        split at hpresented
        next => cases (Prod.mk.inj hpresented).1
        next heq =>
          obtain ⟨-, rfl⟩ := Prod.mk.inj heq
          obtain ⟨-, rfl⟩ := Prod.mk.inj hpresented
          rfl
    obtain ⟨guards, hlive, hguards⟩ := hspec.live
    refine ⟨_, hcycle ▸ hlive, hguards.trans ?_⟩
    rw [hhistory]
    exact hswept.published_eq hcatalog1 (List.mem_of_getLast? hlast)

end Engine

namespace Backup

open FileTree (Keeps Grown)
open Engine (TakesAll)

variable {t t' t1 t2 : FileTree} {path output : String} {place landing : List String}
  {d : Store.Directory} {ms : List Manifest} {all : Bool} {summary : BackupSummary} {e : Engine}
  {c : Catalog} {s' : Store}

/-! ## What is taken -/

/-- All of some things, or the last of them. -/
def chosen {α : Type} (all : Bool) (l : List α) : List α := if all then l else l.getLast?.toList

theorem chosen_map {α β : Type} (all : Bool) (f : α → β) (l : List α) :
    chosen all (l.map f) = (chosen all l).map f := by
  unfold chosen
  split
  next => rfl
  next =>
    rw [List.getLast?_map]
    cases l.getLast? with
    | none => rfl
    | some a => rfl

theorem chosen_sublist {α : Type} (all : Bool) (l : List α) : (chosen all l).Sublist l := by
  unfold chosen
  split
  next => exact List.Sublist.refl l
  next =>
    cases hlast : l.getLast? with
    | none => exact List.nil_sublist l
    | some a => exact List.singleton_sublist.mpr (List.mem_of_getLast? hlast)

/-- The snapshots that a backup takes hold all live commits, or the newest of them. -/
theorem heldCommits_of_live {k : Keeper} {live : LiveList} {ns : List Nat}
    (hlive : k.live = some live) (hguards : live.guards.map Guard.commit = ns) (hne : ns ≠ [])
    (all : Bool) : heldCommits all k = .ok (chosen all ns) := by
  unfold heldCommits chosen
  cases all with
  | true =>
    unfold Keeper.snapshot
    rw [hlive]
    dsimp only
    rw [if_pos rfl, if_pos rfl]
    refine congrArg Except.ok ?_
    unfold Keeper.bundle? Keeper.addBundle
    dsimp only
    rw [List.getElem?_concat_length]
    refine Eq.trans ?_ hguards
    show (live.guards.map fun g => (⟨g, false⟩ : Handle)).map _ = _
    rw [List.map_map]
    rfl
  | false =>
    obtain ⟨g, hg⟩ : ∃ g, live.guards.getLast? = some g := by
      refine Option.isSome_iff_exists.mp (List.getLast?_isSome.mpr fun hnil => hne ?_)
      rw [← hguards, hnil]
      rfl
    unfold Keeper.snapshotCurrent
    rw [hlive]
    dsimp only
    rw [show (some live).bind (fun live => live.guards.getLast?) = some g from hg]
    rw [if_neg Bool.false_ne_true, if_neg Bool.false_ne_true]
    refine congrArg Except.ok ?_
    unfold Keeper.hold Keeper.handle? Keeper.addHandle
    dsimp only
    rw [List.getElem?_concat_length, ← hguards, List.getLast?_map, hg]
    rfl

/-- The manifests of the commits that are copied. -/
theorem takesAll_chosen (h : TakesAll (storeAt path d) ms c s' e) {commits : List Nat}
    (hcurrent : e.current?.isNone = false) (hheld : heldCommits all e.keeper = .ok commits) :
    commits.map (fun n => (e.catalog.commit n).manifest) = chosen all ms := by
  obtain ⟨sync, w, hswept⟩ := h.swept
  have hne : List.range ms.length ≠ [] := by
    intro hnil
    unfold Engine.current? at hcurrent
    rw [h.commits, hnil] at hcurrent
    cases hcurrent
  obtain ⟨live, hlive, hguards⟩ := h.live fun hnil => hne (by rw [hnil]; rfl)
  rw [heldCommits_of_live hlive hguards hne] at hheld
  obtain rfl := Except.ok.inj hheld
  rw [← chosen_map, h.catalog]
  refine congrArg (chosen all) (List.ext_getElem (by simp) fun n hn hn' => ?_)
  rw [List.getElem_map, List.getElem_range, hswept.commit_eq hn']

/-! ## The source -/

/-- What opening the source leaves of the folders: nothing that a manifest lists goes. -/
structure Cleaned (place : List String) (ms : List Manifest) (t t1 : FileTree) : Prop where
  keeps : Keeps t t1
  sound : t1.Sound
  removed : ∀ p q node, t1.node? p q = some node → t.node? p q = some node
  listed : ∀ q ∈ ms.flatMap Manifest.fileNames, t1.node? place q = t.node? place q

theorem cleaned_of_takesAll (hs : t.Sound) (hd : t.folder? place = some d)
    (h : TakesAll (storeAt path d) ms c s' e) :
    Cleaned place ms t (t.setFolder place (directoryOf e d)) := by
  obtain ⟨sync, w, hswept⟩ := h.swept
  have hknown : t.Known place := Option.isSome_iff_exists.mpr ⟨d, hd⟩
  -- what is left of the source is a directory in the same place
  obtain ⟨d1, hd1⟩ : ∃ d1, s'.medium = .directory path d1 := by
    have hplace := hswept.cleared.alike.place
    revert hplace
    cases s'.medium with
    | memory table => exact fun hplace => hplace.elim
    | directory path' d1 =>
      rintro ⟨rfl, -⟩
      exact ⟨d1, rfl⟩
  have hleft : directoryOf e d = d1 := by
    unfold directoryOf
    rw [h.catalog, hswept.recounts.tallied.single.store_setStoreOf, hd1]
  obtain ⟨strays, hstrays, hnode⟩ : ∃ strays : List String,
      (∀ q, q ∈ strays ↔ (∃ data, d.nodes.get? q = some (.file data)) ∧ q ∉ c.referenced) ∧
        ∀ q, d1.nodes.get? q = if q ∈ strays then none else d.nodes.get? q := by
    refine ⟨_, fun q => hswept.mem_stray, fun q => ?_⟩
    have hcleared := hswept.cleared.node q
    rw [hd1] at hcleared
    exact hcleared.trans (if_congr (and_iff_left List.not_mem_nil) rfl rfl)
  have htree : ∀ p q, (t.setFolder place d1).node? p q =
      if p = place then d1.nodes.get? q else t.node? p q := FileTree.node?_setFolder place d1 t
  have hfolder : ∀ q, d1.nodes.get? q = some .folder ↔ t.node? place q = some .folder := by
    intro q
    rw [hnode, FileTree.node?_of_folder hd]
    split
    next hstray =>
      obtain ⟨⟨data, hfile⟩, -⟩ := (hstrays q).mp hstray
      rw [hfile]
      simp
    next => exact Iff.rfl
  rw [hleft]
  refine ⟨⟨rfl, fun p q hq => ?_⟩, hs.setFolder hknown hfolder, fun p q node hq => ?_,
    fun q hq => ?_⟩
  · rw [htree]
    split
    next hp => exact (hfolder q).mpr (hp ▸ hq)
    next => exact hq
  · rw [htree] at hq
    split at hq
    next hp =>
      rw [hnode] at hq
      split at hq
      next => cases hq
      next => rwa [hp, FileTree.node?_of_folder hd]
    next => exact hq
  · rw [htree, if_pos rfl, hnode, if_neg, FileTree.node?_of_folder hd]
    rw [hstrays, hswept.referenced_eq]
    exact fun hand => hand.2 hq

/-! ## Backups -/

/-- How a backup succeeds. -/
theorem run_ok (h : run path output all t = (.ok summary, t')) : ∃ place d e commits t2 copied bytes,
    t.folderAt? path = some (place, d) ∧ targetInUse output t = .ok false ∧
      (engineOver path d).openWriter 0 true = (.ok (), e) ∧ e.current?.isNone = false ∧
      heldCommits all e.keeper = .ok commits ∧
      (t.setFolder place (directoryOf e d)).makeFolders output = (.ok (), t2) ∧
      copyAll path output (commits.flatMap fun n => (e.catalog.commit n).manifest.fileNames) [] 0
        t2 = (.ok (copied, bytes), t') ∧
      summary = ⟨commits.map e.catalog.version, copied.length, bytes⟩ := by
  unfold run at h
  split at h
  next => cases h
  next place d hsource =>
    unfold sourceFor Inspection.findFolder at hsource
    split at hsource
    next => cases hsource
    next found hfound =>
      split at hfound
      next => cases hfound
      next found' hfolder =>
        obtain rfl := Except.ok.inj hfound
        split at hsource
        next => cases hsource
        next => cases hsource
        next htarget =>
          obtain rfl := Except.ok.inj hsource
          dsimp only at h
          split at h
          next => cases h
          next hopened =>
            split at h
            next => cases h
            next hcurrent =>
              split at h
              next => cases h
              next commits hheld =>
                unfold copyCommits at h
                split at h
                next => cases h
                next t2 hmade =>
                  split at h
                  next => cases h
                  next copied bytes t3 hcopied =>
                    obtain ⟨hok, rfl⟩ := Prod.mk.inj h
                    exact ⟨place, d, _, commits, t2, copied, bytes, hfolder, htarget,
                      Prod.ext hopened rfl, Bool.eq_false_iff.mpr hcurrent, hheld, hmade, hcopied,
                      (Except.ok.inj hok).symm⟩

/-- A folder that is not empty, to which a path leads once folders on the way have been made, and
which it did not lead to before. -/
structure Hidden (output : String) (landing : List String) (t : FileTree) : Prop where
  nowhere : ∃ fault, t.look output = .error fault
  up : ".." ∈ Path.components output
  full : ∃ old, t.folder? landing = some old ∧ 0 < old.size

/-- Where there is something although the target was not in use, the target was hidden. -/
theorem hidden_of_full (hs : t.Sound) (hkeeps : Keeps t t2)
    (htarget : targetInUse output t = .ok false) (hlook : t2.look output = .ok (.folder landing))
    (hfull : ∃ old, t.folder? landing = some old ∧ 0 < old.size) : Hidden output landing t := by
  obtain ⟨old, hold, hsize⟩ := hfull
  have hnot : t.look output ≠ .ok (.folder landing) := by
    intro hfound
    unfold targetInUse at htarget
    rw [hfound] at htarget
    dsimp only at htarget
    rw [hold] at htarget
    have hempty : decide (0 < old.size) = false := Except.ok.inj htarget
    rw [decide_eq_true hsize] at hempty
    cases hempty
  refine ⟨?_, ?_, old, hold, hsize⟩
  · cases hfound : t.look output with
    | error fault => exact ⟨fault, rfl⟩
    | ok found =>
      cases found with
      | file data =>
        unfold targetInUse at htarget
        rw [hfound] at htarget
        cases htarget
      | device =>
        unfold targetInUse at htarget
        rw [hfound] at htarget
        cases htarget
      | folder q =>
        have hsame := (hkeeps.look hfound).symm.trans hlook
        obtain rfl := FileTree.Place.folder.inj (Except.ok.inj hsame)
        exact absurd hfound hnot
  · by_contra hup
    obtain ⟨hne, hfits, hfollow⟩ := FileTree.look_eq_folder.mp hlook
    refine hnot (FileTree.look_eq_folder.mpr ⟨hne, hfits, ?_⟩)
    unfold FileTree.follow at hfollow ⊢
    rw [FileTree.start_eq_of_head? hkeeps.working rfl] at hfollow
    exact hs.walk_of_known hup hfollow (Option.isSome_iff_exists.mpr ⟨old, hold⟩)

/-- In a folder that was empty or not known there are only folders before something is copied. -/
theorem bare_of_not_full (hclean : Cleaned place ms t t1) (hgrown : Grown t1 t2)
    (hnot : ¬∃ old, t.folder? landing = some old ∧ 0 < old.size) : Bare landing t2 := by
  intro q node hq
  rcases hgrown.added landing q node hq with hold | hfolder
  · have hnode := hclean.removed landing q node hold
    obtain ⟨old, hknown⟩ := Option.isSome_iff_exists.mp (FileTree.known_of_node hnode)
    rw [FileTree.node?_of_folder hknown] at hnode
    refine absurd ⟨old, hknown, ?_⟩ hnot
    have hmem := (Table.mem_entries_iff old.nodes q node).mpr hnode
    exact Nat.lt_of_lt_of_le (List.length_pos_of_mem hmem) (Nat.le_add_right _ _)
  · exact hfolder

/-- A source whose manifests cannot be read is not touched, and nothing is made. -/
theorem run_of_unread (hsource : t.folderAt? path = some (place, d)) {err : Error}
    (hms : (storeAt path d).readCommits = .error err) (output : String) (all : Bool) :
    (∃ f, (run path output all t).1 = .error f) ∧
      ∀ p, (run path output all t).2.folder? p = t.folder? p := by
  obtain ⟨-, hd⟩ := FileTree.folderAt?_eq_some.mp hsource
  have hopened : (engineOver path d).openWriter 0 true = (.error err, engineOver path d) := by
    unfold Engine.openWriter
    dsimp only
    rw [show ((engineOver path d).dropWriter.catalog.store 0).readCommits = .error err from hms]
    rfl
  unfold run
  split
  next f _ => exact ⟨⟨f, rfl⟩, fun p => rfl⟩
  next place' d' hfor =>
    obtain ⟨rfl, rfl⟩ : place' = place ∧ d' = d := by
      unfold sourceFor Inspection.findFolder at hfor
      rw [hsource] at hfor
      dsimp only at hfor
      split at hfor
      next => cases hfor
      next => cases hfor
      next => exact Prod.mk.inj (Except.ok.inj hfor).symm
    rw [hopened]
    refine ⟨⟨_, rfl⟩, fun p => ?_⟩
    show (t.setFolder place' (directoryOf (engineOver path d') d')).folder? p = t.folder? p
    rw [FileTree.folder?_setFolder]
    split
    next hp => rw [hp, hd]; rfl
    next => rfl

/-! ## Main statement -/

/-- A backup that succeeds leaves what its source has of the commits, and its output is a store of
its own of those that were copied, unless the output was hidden. -/
theorem mirrors_unless_hidden (hs : t.Sound) (hsource : t.folderAt? path = some (place, d))
    (output : String) (all : Bool) :
    (∀ err, (storeAt path d).readCommits = .error err →
      (∃ f, (run path output all t).1 = .error f) ∧
        ∀ p, (run path output all t).2.folder? p = t.folder? p) ∧
    ∀ ms summary t', (storeAt path d).readCommits = .ok ms →
      (∀ m ∈ ms, ∀ q ∈ m.files, Manifest.isReserved q = false) → output ≠ "" →
        run path output all t = (.ok summary, t') →
          (∀ q ∈ ms.flatMap Manifest.fileNames, ∀ node, t.node? place q = some node →
            t'.node? place q = some node) ∧
          ∃ landing copy, t'.folderAt? output = some (landing, copy) ∧
            (Mirrors path output (chosen all ms) summary t t' copy ∨ Hidden output landing t) := by
  refine ⟨fun err hms => run_of_unread hsource hms output all, ?_⟩
  intro ms summary t' hms hreserved hpath hrun
  obtain ⟨place', d', e, commits, t2, copied, bytes, hfound, htarget, hopened, hcurrent, hheld,
    hmade, hcopied, rfl⟩ := run_ok hrun
  obtain ⟨rfl, rfl⟩ := Prod.mk.inj (Option.some.inj (hsource.symm.trans hfound))
  obtain ⟨hlook, hd⟩ := FileTree.folderAt?_eq_some.mp hsource
  obtain ⟨c, s', htakes⟩ := Engine.opened_keepAll hms hopened
  have htaken := takesAll_chosen htakes hcurrent hheld
  -- first the source is cleaned, then the folders of the output are made
  have hclean := cleaned_of_takesAll hs hd htakes
  obtain ⟨hgrown, hs2⟩ := FileTree.makeFolders_grown hclean.sound output
  obtain ⟨landing, hlanding⟩ := FileTree.makeFolders_ok hclean.sound hpath hmade
  rw [hmade] at hgrown hs2
  have hkeeps : Keeps t t2 := hclean.keeps.trans hgrown.keeps
  obtain ⟨hcopies, hmem⟩ := copies_copyAll hs2 (hkeeps.look hlook) hlanding (.refl hs2) hcopied
  have hmem : ∀ q, q ∈ copied ↔ q ∈ (chosen all ms).flatMap Manifest.fileNames := fun q => by
    rw [hmem q, or_iff_right List.not_mem_nil, ← htaken, List.flatMap_map]
  have hlisted : ∀ q ∈ copied, q ∈ ms.flatMap Manifest.fileNames := by
    intro q hq
    obtain ⟨m, hm, hname⟩ := List.mem_flatMap.mp ((hmem q).mp hq)
    exact List.mem_flatMap.mpr ⟨m, (chosen_sublist all ms).subset hm, hname⟩
  obtain ⟨copy, hcopy⟩ :=
    Option.isSome_iff_exists.mp (hcopies.sound.known_of_look (hcopies.keeps.look hlanding))
  refine ⟨fun q hq node hnode => ?_, landing, copy,
    FileTree.folderAt?_eq_some.mpr ⟨hcopies.keeps.look hlanding, hcopy⟩, ?_⟩
  · rw [hcopies.source]
    exact hgrown.kept place q node ((hclean.listed q hq).trans hnode)
  · by_cases hfull : ∃ old, t.folder? landing = some old ∧ 0 < old.size
    · exact Or.inr (hidden_of_full hs hkeeps htarget hlanding hfull)
    · have hread : ∀ q ∈ copied, readArtifact path q t2 = readArtifact path q t := by
        intro q hq
        refine readArtifact_congr hs hs2 hlook (hkeeps.look hlook) ?_
        -- what is read stood there before folders were made
        obtain ⟨-, -, data, hdata, -⟩ := hcopies.written q hq
        rw [← hclean.listed q (hlisted q hq)]
        rcases (readArtifact_ok hs2 (hkeeps.look hlook) hdata).2 with hnode | hnode
        all_goals rw [hnode, (hgrown.added _ _ _ hnode).resolve_right nofun]
      have hversions : commits.map e.catalog.version = (chosen all ms).map Manifest.version := by
        rw [← htaken, List.map_map]
        rfl
      rw [hversions]
      exact Or.inl (hcopies.mirrors (bare_of_not_full hclean hgrown hfull) hlook hd
        (hcopies.keeps.look hlanding) hcopy hms (chosen_sublist all ms)
        (fun m hm => hreserved m ((chosen_sublist all ms).subset hm)) hread hmem)

/-! ## A hidden target -/

/-- The bytes of a manifest that can be encoded. -/
def manifestBytes (m : Manifest) : Bytes := m.encode.toOption.getD []

/-- A folder with two commits, next to one with a file that belongs to neither. -/
def neighbours : FileTree :=
  [("src/a", [65, 65, 65]), ("src/b", [66, 66]),
    ("src/commit_1", manifestBytes ⟨⟨1⟩, ⟨1⟩, 0, ["a"]⟩),
    ("src/commit_2", manifestBytes ⟨⟨2⟩, ⟨2⟩, 0, ["a", "b"]⟩), ("out/x", [121])].foldl
      (fun t f => (t.writeFile f.1 f.2).2)
      (((FileTree.ofWorking ["w"]).makeFolders "src").2.makeFolders "out").2

theorem sound_neighbours : neighbours.Sound := by
  have hfolders := ((FileTree.sound_ofWorking ["w"]).makeFolders "src").makeFolders "out"
  exact ((((hfolders.writeFile _ _).writeFile _ _).writeFile _ _).writeFile _ _).writeFile _ _

/-- The folder with the commits. -/
def committed : Store.Directory := ((neighbours.folderAt? "src").map Prod.snd).getD .empty

theorem readCommits_committed : (storeAt "src" committed).readCommits =
    .ok [⟨⟨1⟩, ⟨1⟩, 0, ["a"]⟩, ⟨⟨2⟩, ⟨2⟩, 0, ["a", "b"]⟩] := by
  have hlist : (storeAt "src" committed).list = .ok ["a", "b", "commit_1", "commit_2"] := by
    decide +kernel
  have hgenerations :
      Store.generationsOf ["a", "b", "commit_1", "commit_2"] = [⟨1⟩, ⟨2⟩] := by
    have hfound : ["a", "b", "commit_1", "commit_2"].filterMap Manifest.generationOf? =
        [⟨1⟩, ⟨2⟩] := by
      decide +kernel
    unfold Store.generationsOf
    rw [hfound]
    exact List.mergeSort_of_pairwise (by decide)
  unfold Store.readCommits
  rw [hlist]
  dsimp only
  rw [hgenerations]
  decide +kernel

/-- The commits of the folder as they are loaded. -/
def loadedCommits : Catalog :=
  (Catalog.adoptAll 0 [⟨⟨1⟩, ⟨1⟩, 0, ["a"]⟩, ⟨⟨2⟩, ⟨2⟩, 0, ["a", "b"]⟩]
    ((Catalog.ofStore (storeAt "src" committed)).addDepot 0)).2

theorem load_committed : (engineOver "src" committed).load 0 true =
    (.ok ⟨0, [0, 1], ⟨3⟩, ⟨3⟩, 0, true⟩, (engineOver "src" committed).dropWriter.setCatalog
      (loadedCommits.setStoreOf 0
        ((storeAt "src" committed).sweep (loadedCommits.tracker 0).isReferenced).2)) := by
  obtain ⟨c, rfl, -, hload⟩ :=
    Engine.load_eq (e := engineOver "src" committed) rfl readCommits_committed true
  refine hload.trans (congrArg (·, _) ?_)
  decide +kernel

/-- Both commits are copied into a new folder. -/
theorem mirrors_unless_hidden_new : ∃ t' landing copy,
    run "src" "copy" true neighbours = (.ok ⟨[⟨1⟩, ⟨2⟩], 4, 90⟩, t') ∧
      t'.folderAt? "copy" = some (landing, copy) ∧
      Mirrors "src" "copy" [⟨⟨1⟩, ⟨1⟩, 0, ["a"]⟩, ⟨⟨2⟩, ⟨2⟩, 0, ["a", "b"]⟩]
        ⟨[⟨1⟩, ⟨2⟩], 4, 90⟩ neighbours t' copy := by
  have hrun : (run "src" "copy" true neighbours).1 = .ok ⟨[⟨1⟩, ⟨2⟩], 4, 90⟩ := by
    unfold run
    rw [show sourceFor "src" "copy" neighbours = .ok (["w", "src"], committed) from rfl]
    dsimp only
    rw [Engine.openWriter_of_load load_committed]
    decide +kernel
  obtain ⟨-, hcopies⟩ := mirrors_unless_hidden sound_neighbours
    (show neighbours.folderAt? "src" = some (["w", "src"], committed) from rfl) "copy" true
  obtain ⟨-, landing, copy, hfound, hor⟩ := hcopies _ _ _ readCommits_committed (by decide)
    (by decide) (Prod.ext hrun rfl)
  have hup : ".." ∉ Path.components "copy" := by decide +kernel
  exact ⟨_, landing, copy, Prod.ext hrun rfl, hfound, hor.resolve_right fun h => hup h.up⟩

/-- A backup into a folder that is not empty succeeds if the path of the folder leads through one
that does not exist yet, and the file of that folder stays among the copied ones. -/
theorem hidden_target_is_not_refused : ∃ t' copy,
    run "src" "new/../out" false neighbours = (.ok ⟨[⟨2⟩], 3, 49⟩, t') ∧
      t'.folderAt? "new/../out" = some (["w", "out"], copy) ∧
      copy.artifacts.map Prod.fst = ["a", "b", "commit_2", "x"] ∧
      ¬Mirrors "src" "new/../out" [⟨⟨2⟩, ⟨2⟩, 0, ["a", "b"]⟩] ⟨[⟨2⟩], 3, 49⟩ neighbours t'
        copy := by
  have hrun : (run "src" "new/../out" false neighbours).1 = .ok ⟨[⟨2⟩], 3, 49⟩ ∧
      ((run "src" "new/../out" false neighbours).2.folderAt? "new/../out").map
        (fun found => (found.1, found.2.artifacts.map Prod.fst)) =
          some (["w", "out"], ["a", "b", "commit_2", "x"]) := by
    unfold run
    rw [show sourceFor "src" "new/../out" neighbours = .ok (["w", "src"], committed) from rfl]
    dsimp only
    rw [Engine.openWriter_of_load load_committed]
    decide +kernel
  obtain ⟨⟨landing, copy⟩, hfound, heq⟩ := Option.map_eq_some_iff.mp hrun.2
  obtain ⟨rfl, hnames⟩ := Prod.mk.inj heq
  refine ⟨_, copy, Prod.ext hrun.1 rfl, hfound, hnames, fun h => ?_⟩
  -- the report counts three files, but there are four
  have hfiles := h.files
  rw [← List.length_map (f := Prod.fst), hnames] at hfiles
  cases hfiles

end Backup

end SnapshotRetention
