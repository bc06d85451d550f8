import SnapshotRetention.Proofs.Store.Erodes
import SnapshotRetention.Proofs.Writer.Outlived

/-!
# Reading stores from which files have gone

Deleting commits erodes a store, whatever becomes of their artifacts (`Tallied.erodes`). An eroded
store is still read as describing a history (`Erodes.readCommits`): what is left of the old one.
There need not be a data file for each manifest or the other way round.
-/

namespace SnapshotRetention

open Catalog (Prunes Disposed)

namespace Store

variable {keep : List String} {s s' : Store} {ms : List Manifest}

/-! ## Reading what is left -/

theorem list_of_onlyDeletes (h : s.faults.OnlyDeletes) : s.list = .ok s.names := by
  unfold list fault?
  rw [h s.clock .list "" nofun]

theorem read_of_onlyDeletes (h : s.faults.OnlyDeletes) (name : String) :
    s.read name = s.medium.read name := by
  unfold read fault?
  rw [h s.clock .read name nofun]

/-- Whether there is anything under the name of a manifest. -/
def holdsManifest (s : Store) (m : Manifest) : Bool := (s.medium.node? m.name).isSome

/-- The manifests that have been read are those of the medium. -/
theorem read_of_readCommits (h : s.readCommits = .ok ms) {m : Manifest} (hm : m ∈ ms) :
    s.read m.name = s.medium.read m.name := by
  have hread := readManifest_of_readCommits h m hm
  unfold readManifest at hread
  split at hread
  next => cases hread
  next data hdata =>
    rw [Manifest.name, hdata]
    unfold read at hdata
    split at hdata
    next => cases hdata
    next => exact hdata.symm

/-- The manifests that are left are read. -/
theorem Erodes.readCommits (h : Erodes keep s s') (hms : s.readCommits = .ok ms)
    (hdeletes : s'.faults.OnlyDeletes) :
    s'.readCommits = .ok (ms.filter s'.holdsManifest) := by
  refine readCommits_of_kept hms List.filter_sublist (list_of_onlyDeletes hdeletes) ?_ ?_
  · intro m hm
    obtain ⟨hm, hleft⟩ := List.mem_filter.mp hm
    obtain ⟨data, -, hnode, hfixed⟩ := readCommits_node hms m hm
    obtain ⟨node, hnode'⟩ := Option.isSome_iff_exists.mp hleft
    obtain rfl : .file data = node := Option.some.inj (hnode.symm.trans (h.node_of_some hnode'))
    rw [read_of_readCommits hms hm, read_of_onlyDeletes hdeletes, Medium.read_of_node hnode hfixed,
      Medium.read_of_node hnode' fun hf => hfixed ((h.alike.fixed_iff _).mp hf)]
  · intro q hq hnames
    obtain ⟨data, hnode⟩ := (mem_names_iff s' q).mp hq
    obtain ⟨m, hm, rfl⟩ := named_of_readCommits hms
      ((mem_names_iff s q).mpr ⟨data, h.node_of_some hnode⟩) hnames
    refine ⟨m, List.mem_filter.mpr ⟨hm, ?_⟩, rfl⟩
    unfold holdsManifest
    rw [hnode]
    rfl

/-- What is kept is still there. -/
theorem Erodes.holdsManifest (h : Erodes keep s s') (hms : s.readCommits = .ok ms) {m : Manifest}
    (hm : m ∈ ms) (hkeep : m.name ∈ keep) : s'.holdsManifest m = true := by
  obtain ⟨data, -, hnode, -⟩ := readCommits_node hms m hm
  unfold Store.holdsManifest
  rw [h.kept _ hkeep, hnode]
  rfl

/-- What is read does not depend on which deletions are refused. -/
theorem readCommits_of_medium (hmedium : s'.medium = s.medium) (hms : s.readCommits = .ok ms)
    (hdeletes : s'.faults.OnlyDeletes) : s'.readCommits = .ok ms := by
  have herodes : Erodes (ms.map Manifest.name) s s' := .of_medium hmedium
  rw [herodes.readCommits hms hdeletes, List.filter_eq_self.mpr fun m hm =>
    herodes.holdsManifest hms hm (List.mem_map_of_mem hm)]

end Store

namespace Catalog

variable {c d : Catalog}

/-- Deleting commits takes nothing that another lists. -/
theorem Tallied.erodes (h : c.Tallied) (hp : Prunes c d) :
    Store.Erodes d.referenced (c.store 0) (d.store 0) := by
  refine h.induct_prunes hp (P := fun d => Store.Erodes d.referenced (c.store 0) (d.store 0))
    (.refl _ _) fun hd _ _ herodes => (herodes.mono hd.shrinks).trans (hd.cleared.erodes ?_)
  exact fun q hq hmem => (hd.loose q hmem).1 hq

end Catalog

end SnapshotRetention
