import SnapshotRetention.Command.Program
import SnapshotRetention.Proofs.Command.Backup
import SnapshotRetention.Proofs.Writer.Sweeping

/-!
# What an inspection foretells

An inspection finds out what is referenced by collecting names, while a writer that opens over the
same directory counts references with a tracker of its own. Both keep the same artifacts
(`Inspection.keeps_eq`), whatever the manifests list and whatever else the catalog holds.

The main result, `Engine.opens_as_inspected`, says what opening a writer does in terms of the
inspection alone: it fails with the same error if the manifests cannot be read, and otherwise it
sweeps the artifacts that the inspection calls unreferenced and, once they are gone, goes on with a
history of the commits that the inspection lists (`Engine.GoesOn`).
-/

namespace SnapshotRetention

variable {s s' : Store} {ms : List Manifest} {c d : Catalog} {ns : List Nat} {depot : Nat}

/-! ## Inspecting -/

namespace Inspection

open Backup (storeAt)

variable {t : FileTree} {path : String} {place : List String} {dir : Store.Directory}
  {i : Inspection} {err : Error}

/-- Whether an artifact is referenced by one of the commits, as far as an inspection tells. -/
def keeps (i : Inspection) (name : String) : Bool := !i.unreferenced.contains name

theorem readCommits_of_error (hfolder : t.folderAt? path = some (place, dir))
    (h : ofPath path t = .error (.error err)) : (storeAt path dir).readCommits = .error err := by
  unfold ofPath findFolder at h
  rw [hfolder] at h
  dsimp only at h
  split at h
  next err' hread =>
    obtain rfl : err' = err := Failure.error.inj (Except.error.inj h)
    exact hread
  next => cases h

/-- What an inspection tells about a folder. -/
theorem readCommits_of_ok (hfolder : t.folderAt? path = some (place, dir))
    (h : ofPath path t = .ok i) : (storeAt path dir).readCommits =
        .ok (i.commits.map CommitSummary.manifest) ∧
      i.unreferenced = (storeAt path dir).names.filter fun name =>
        !((i.commits.map CommitSummary.manifest).flatMap Manifest.fileNames).contains name := by
  unfold ofPath findFolder at h
  rw [hfolder] at h
  dsimp only at h
  split at h
  next => cases h
  next ms hread =>
    obtain rfl := Except.ok.inj h
    have hmanifests : (ms.map (summarize t path)).map CommitSummary.manifest = ms := by
      rw [List.map_map]
      exact List.map_id ms
    dsimp only
    rw [hmanifests]
    exact ⟨hread, rfl⟩

/-- Of the artifacts those are kept that some commit lists. -/
theorem keeps_eq (hfolder : t.folderAt? path = some (place, dir)) (h : ofPath path t = .ok i)
    {q : String} (hq : q ∈ (storeAt path dir).names) : i.keeps q =
      ((i.commits.map CommitSummary.manifest).flatMap Manifest.fileNames).contains q := by
  unfold keeps
  rw [(readCommits_of_ok hfolder h).2, Bool.eq_iff_iff]
  simp [hq]

/-- The artifacts that are called unreferenced are the ones that are not kept. -/
theorem unreferenced_eq (hfolder : t.folderAt? path = some (place, dir))
    (h : ofPath path t = .ok i) :
    i.unreferenced = (storeAt path dir).names.filter fun name => !i.keeps name := by
  refine (readCommits_of_ok hfolder h).2.trans (List.filter_congr fun q hq => ?_)
  rw [keeps_eq hfolder h hq]

end Inspection

namespace Engine

open Inspection (ofPath)

variable {t : FileTree} {path : String} {place : List String} {dir : Store.Directory}
  {e : Engine} {store : Nat}

/-- What has become of a catalog when a writer has swept a store as an inspection foretells: the
commits that it lists are loaded, and the artifacts that it calls unreferenced are gone. -/
structure Foretold (i : Inspection) (store : Nat) (c d : Catalog) (history : List Nat) : Prop where
  commits : history.map (fun n => (d.commit n).manifest) = i.commits.map CommitSummary.manifest
  undeleted : ∀ n ∈ history, d.isDeleted n = false
  artifacts : (d.store store).medium.artifacts =
    (c.store store).medium.artifacts.filter fun a => i.keeps a.1
  deleted : (c.store store).names.filter (fun q => !(d.store store).names.contains q) =
    i.unreferenced
  other : ∀ k, k ≠ store → d.store k = c.store k

/-- What has become of a catalog when such a sweep has stopped at an artifact. -/
structure Halted (i : Inspection) (store : Nat) (c d : Catalog) : Prop where
  kept : ∀ a ∈ (c.store store).medium.artifacts, i.keeps a.1 = true →
    a ∈ (d.store store).medium.artifacts
  other : ∀ k, k ≠ store → d.store k = c.store k

/-- How opening a writer goes on over a directory that has been inspected: it sweeps what the
inspection calls unreferenced, and if that succeeds it shows the commits of the inspection to the
policy, unless the newest of them has a number that cannot be followed. -/
inductive GoesOn (i : Inspection) (store : Nat) (e : Engine)
    (outcome : Except Error Unit × Engine) : Prop where
  | halted (cause : StoreError) (c : Catalog)
    (swept : ((e.catalog.store store).sweep i.keeps).1 = .error cause)
    (halted : Halted i store e.catalog c)
    (outcome : outcome = (.error (.store cause), e.dropWriter.setCatalog c))
  | shown (c : Catalog) (w : Writer)
    (swept : ((e.catalog.store store).sweep i.keeps).1 = .ok ())
    (foretold : Foretold i store e.catalog c w.history)
    (outcome : outcome = (e.dropWriter.setCatalog c).presentHistory w)
  | stuck (c : Catalog) (history : List Nat)
    (swept : ((e.catalog.store store).sweep i.keeps).1 = .ok ())
    (foretold : Foretold i store e.catalog c history)
    (stuck : Writer.canFollow (i.commits.map CommitSummary.manifest) = false)
    (outcome : outcome = (.error .counterOverflow, e.dropWriter.setCatalog c))

/-- The store that is swept is there. -/
theorem store_setStore_of_joins {ms : List Manifest} {ns : List Nat} {c : Catalog}
    (hmedium : (e.catalog.store store).medium = .directory path dir)
    (hjoins : Catalog.Joins e.catalog.depots.length ms (e.catalog.addDepot store) ns c)
    (s : Store) : (c.setStore store s).store store = s := by
  have hlt : store < e.catalog.stores.length := by
    by_contra hge
    have hdefault : e.catalog.store store = Store.empty := by
      unfold Catalog.store
      rw [List.getD_eq_getElem?_getD, List.getElem?_eq_none (Nat.le_of_not_lt hge)]
      rfl
    rw [hdefault] at hmedium
    cases hmedium
  have hthere : store < c.stores.length := by
    rw [hjoins.stores]
    exact hlt
  rw [Catalog.store_setStore, if_pos ⟨rfl, hthere⟩]

theorem foretold_of_joins {i : Inspection} {ns : List Nat} {c : Catalog} {s : Store}
    (hmedium : (e.catalog.store store).medium = .directory path dir)
    (hunreferenced : i.unreferenced = (e.catalog.store store).names.filter fun q => !i.keeps q)
    (hjoins : Catalog.Joins e.catalog.depots.length (i.commits.map CommitSummary.manifest)
      (e.catalog.addDepot store) ns c)
    (hswept : (e.catalog.store store).sweep i.keeps = (.ok (), s)) :
    Foretold i store e.catalog (c.setStore store s) ns := by
  have hcommits := hjoins.map_commit
  have hartifacts : s.medium.artifacts =
      (e.catalog.store store).medium.artifacts.filter fun a => i.keeps a.1 := by
    have hleft := Store.artifacts_sweep (congrArg Prod.fst hswept)
    rw [hswept] at hleft
    exact hleft
  have hnames : s.names = (e.catalog.store store).names.filter i.keeps := by
    unfold Store.names Store.Medium.names
    rw [hartifacts, List.filter_map]
    rfl
  refine ⟨?_, fun n hn => ?_, ?_, ?_, fun k hk => ?_⟩
  · have hmanifests := congrArg (List.map Commit.manifest) hcommits
    rw [List.map_map, List.map_map] at hmanifests
    exact hmanifests.trans (List.map_id _)
  · have hmem : c.commit n ∈ ns.map c.commit := List.mem_map_of_mem hn
    rw [hcommits] at hmem
    obtain ⟨m, -, hm⟩ := List.mem_map.mp hmem
    exact (congrArg Commit.deleted hm).symm
  · rw [store_setStore_of_joins hmedium hjoins]
    exact hartifacts
  · rw [store_setStore_of_joins hmedium hjoins, hunreferenced]
    refine List.filter_congr fun q hq => congrArg Bool.not ?_
    rw [hnames, Bool.eq_iff_iff]
    simp [hq]
  · rw [Catalog.store_setStore_of_ne hk]
    exact Catalog.store_congr hjoins.stores k

theorem goesOn_openWriter {i : Inspection} (hfolder : t.folderAt? path = some (place, dir))
    (hmedium : (e.catalog.store store).medium = .directory path dir)
    (hlegible : (e.catalog.store store).Legible) (hi : ofPath path t = .ok i) (sync : Bool) :
    GoesOn i store e (e.openWriter store sync) := by
  -- the writer reads the same manifests, and sweeps by counting what the inspection looks up
  obtain ⟨hread, -⟩ := Inspection.readCommits_of_ok hfolder hi
  have hms : (e.catalog.store store).readCommits =
      .ok (i.commits.map CommitSummary.manifest) := by
    rw [hlegible.readCommits_eq, hmedium]
    exact hread
  have hnames : (e.catalog.store store).names = (Backup.storeAt path dir).names :=
    congrArg Store.Medium.names hmedium
  have hkeeps : (e.catalog.store store).sweep
      ((i.commits.map CommitSummary.manifest).flatMap Manifest.fileNames).contains =
        (e.catalog.store store).sweep i.keeps :=
    Store.sweep_congr fun q hq => (Inspection.keeps_eq hfolder hi (hnames ▸ hq)).symm
  have hunreferenced := hnames ▸ Inspection.unreferenced_eq hfolder hi
  obtain ⟨ns, c, hjoins, hopen⟩ := openWriter_eq_swept hms sync
  rw [hkeeps] at hopen
  obtain ⟨result, s, hswept⟩ : ∃ result s,
      (e.catalog.store store).sweep i.keeps = (result, s) := ⟨_, _, rfl⟩
  rw [hswept] at hopen
  rw [hopen]
  cases result with
  | error cause =>
    refine .halted cause _ (congrArg Prod.fst hswept) ⟨fun a ha hkept => ?_, fun k hk => ?_⟩ rfl
    · rw [store_setStore_of_joins hmedium hjoins]
      exact Store.mem_artifacts_of_sweep hswept ha hkept
    · rw [Catalog.store_setStore_of_ne hk]
      exact Catalog.store_congr hjoins.stores k
  | ok _ =>
    have hforetold := foretold_of_joins hmedium hunreferenced hjoins hswept
    dsimp only
    cases hafter : Writer.after e.catalog.depots.length ns sync
        (i.commits.map CommitSummary.manifest) with
    | none =>
      refine .stuck _ ns (congrArg Prod.fst hswept) hforetold ?_ rfl
      rw [← Writer.isSome_after e.catalog.depots.length ns sync, hafter]
      rfl
    | some w =>
      obtain ⟨-, rfl, -⟩ := version_lt_after hafter (Store.readCommits_ok hms).1
      exact .shown _ w (congrArg Prod.fst hswept) hforetold rfl

/-- Opening a writer does what an inspection of the same directory foretells, which leaves the
directory alone: it fails with the same error if the manifests cannot be read, and deletes nothing;
otherwise it sweeps the artifacts that are called unreferenced. If that succeeds they are gone, and
nothing else, and the history that is shown to the policy consists of the commits of the
inspection, unless the newest of them has a number that cannot be followed. -/
theorem opens_as_inspected (hfolder : t.folderAt? path = some (place, dir))
    (hmedium : (e.catalog.store store).medium = .directory path dir)
    (hlegible : (e.catalog.store store).Legible) (sync : Bool) :
    (∀ args verbose format,
      Arguments.parse args = some (.run (some path) verbose (.inspect format)) →
        (Program.run args t).tree = t) ∧
    (∀ err, ofPath path t = .error (.error err) →
      e.openWriter store sync = (.error err, e.dropWriter)) ∧
    (∀ i, ofPath path t = .ok i → GoesOn i store e (e.openWriter store sync)) := by
  refine ⟨fun args verbose format hargs => ?_, fun err herr => ?_, fun i hi => ?_⟩
  · unfold Program.run
    rw [hargs]
    show (Program.runCommand (some path) (.inspect format) t).tree = t
    unfold Program.runCommand
    dsimp only
    split
    next => rfl
    next => rfl
  · refine openWriter_of_error ?_ sync
    rw [hlegible.readCommits_eq, hmedium]
    exact Inspection.readCommits_of_error hfolder herr
  · exact goesOn_openWriter hfolder hmedium hlegible hi sync

/-! ## A directory with an artifact that no commit lists -/

/-- The neighbours with one more file in the folder of the commits. -/
def littered : FileTree := (Backup.neighbours.writeFile "src/x" [120]).2

/-- The folder with the commits and the file. -/
def litter : Store.Directory := ((littered.folderAt? "src").map Prod.snd).getD .empty

theorem readCommits_litter : (Backup.storeAt "src" litter).readCommits =
    .ok [⟨⟨1⟩, ⟨1⟩, 0, ["a"]⟩, ⟨⟨2⟩, ⟨2⟩, 0, ["a", "b"]⟩] := by
  have hlist : (Backup.storeAt "src" litter).list =
      .ok ["a", "b", "commit_1", "commit_2", "x"] := by
    decide +kernel
  have hgenerations :
      Store.generationsOf ["a", "b", "commit_1", "commit_2", "x"] = [⟨1⟩, ⟨2⟩] := by
    have hfound : ["a", "b", "commit_1", "commit_2", "x"].filterMap Manifest.generationOf? =
        [⟨1⟩, ⟨2⟩] := by
      decide +kernel
    exact Store.generationsOf_eq (hfound ▸ .refl _) (by decide)
  unfold Store.readCommits
  rw [hlist]
  dsimp only
  rw [hgenerations]
  decide +kernel

/-- What is told about the folder. -/
def litterInspection : Inspection :=
  ⟨"src", 5, 91, [⟨⟨⟨1⟩, ⟨1⟩, 0, ["a"]⟩, 3⟩, ⟨⟨⟨2⟩, ⟨2⟩, 0, ["a", "b"]⟩, 5⟩], ["x"]⟩

/-- A new engine over the folder, with a policy that keeps the last commit only. -/
def litterEngine : Engine := fresh 0 true true (.stock .keepOnlyLast) (Backup.storeAt "src" litter)

/-- The file is swept, and both commits are shown to the policy. -/
theorem opens_as_inspected_littered : ofPath "src" littered = .ok litterInspection ∧
    ∃ c w, Foretold litterInspection 0 litterEngine.catalog c w.history ∧
      litterEngine.openWriter 0 true = (litterEngine.dropWriter.setCatalog c).presentHistory w := by
  have hfolder : littered.folderAt? "src" = some (["w", "src"], litter) := rfl
  have hmedium : (litterEngine.catalog.store 0).medium = .directory "src" litter := rfl
  have hi : ofPath "src" littered = .ok litterInspection := by
    unfold ofPath Inspection.findFolder
    rw [hfolder]
    dsimp only
    rw [show (Store.ofMedium (.directory "src" litter) .never).readCommits = _ from
      readCommits_litter]
    decide +kernel
  obtain ⟨-, -, hgoes⟩ := opens_as_inspected hfolder hmedium ⟨rfl, fun _ => rfl⟩ true
  refine ⟨hi, ?_⟩
  cases hgoes _ hi with
  | halted cause c swept =>
    have hswept : ((litterEngine.catalog.store 0).sweep litterInspection.keeps).1 = .ok () := by
      decide +kernel
    cases hswept.symm.trans swept
  | shown c w swept foretold outcome => exact ⟨c, w, foretold, outcome⟩
  | stuck c history swept foretold stuck => exact absurd stuck (by decide)

end Engine

end SnapshotRetention
