import SnapshotRetention.Error
import SnapshotRetention.Manifest.Codec
import SnapshotRetention.Store.Basic

/-!
# The history in a store

A store describes its commits by the manifests it holds. Reading them goes by generation: each
manifest must be found under its own name, and the versions must ascend with the generations.
Nothing in the store changes.
-/

namespace SnapshotRetention.Store

/-- The generations that some names are read as naming, ascending. -/
def generationsOf (names : List String) : List Generation :=
  (names.filterMap Manifest.generationOf?).mergeSort Generation.le

/-- The manifest of a generation. -/
def readManifest (g : Generation) (s : Store) : Except Error Manifest :=
  match s.read (Manifest.nameOf g) with
  | .error e => .error (.store e)
  | .ok data =>
    match Manifest.decode data with
    | .error e => .error (.manifest e)
    | .ok m => if m.generation ≠ g then .error (.manifest (.misplaced g m.generation)) else .ok m

/-- Whether a version comes after the one before it, if there is one. -/
def follows (previous : Option Version) (v : Version) : Bool :=
  match previous with
  | none => true
  | some p => decide (p < v)

/-- The manifests of some generations, whose versions must ascend from a previous one. -/
def readManifests (s : Store) : Option Version → List Generation → Except Error (List Manifest)
  | _, [] => .ok []
  | previous, g :: rest =>
    match s.readManifest g with
    | .error e => .error e
    | .ok m =>
      if !follows previous m.version then .error (.outOfOrder g)
      else
        match readManifests s (some m.version) rest with
        | .error e => .error e
        | .ok ms => .ok (m :: ms)

/-- The manifests in a store, oldest first. -/
def readCommits (s : Store) : Except Error (List Manifest) :=
  match s.list with
  | .error e => .error (.store e)
  | .ok names => s.readManifests none (generationsOf names)

end SnapshotRetention.Store
