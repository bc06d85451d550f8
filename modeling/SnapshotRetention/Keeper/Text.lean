import SnapshotRetention.Keeper.Snapshot

/-!
# Keepers in words

The printed forms of guards, handles, bundles, live lists and keepers: the name of the kind of
thing, then its fields in braces.
-/

namespace SnapshotRetention

namespace Text

/-- Items between brackets. -/
def bracketed (items : List String) : String := "[" ++ ", ".intercalate items ++ "]"

/-- A value that may be missing. -/
def optional : Option String → String
  | none => "None"
  | some s => "Some(" ++ s ++ ")"

end Text

/-- A version as the printed forms show it. -/
def Version.fieldText (v : Version) : String := "CommitVersion(" ++ toString v.number ++ ")"

/-- A generation as the printed forms show it. -/
def Generation.fieldText (g : Generation) : String := "Generation(" ++ toString g.number ++ ")"

/-- A guard of a commit in words. -/
def Guard.textOf (marked : Bool) (c : Commit) : String :=
  "SnapshotCommit \x7b inner: " ++ c.text ++ ", deleted: " ++ toString marked ++ " \x7d"

namespace Keeper

/-- A guard in words. -/
def guardText (k : Keeper) (g : Guard) : String :=
  Guard.textOf (k.isMarked g) (k.catalog.commit g.commit)

/-- A handle in words. -/
def handleText (k : Keeper) (h : Handle) : String :=
  "SnapshotHandle \x7b version: " ++ (k.version h.guard).fieldText ++
    ", released: " ++ toString h.released ++ " \x7d"

/-- A bundle in words. -/
def bundleText (k : Keeper) (b : Bundle) : String :=
  "SnapshotCommits \x7b generation: " ++ toString b.generation ++
    ", handles: " ++ Text.bracketed (b.handles.map k.handleText) ++ " \x7d"

/-- The live list in words. -/
def liveText (k : Keeper) : String :=
  Text.optional (k.live.map fun live =>
    "LiveCommits \x7b generation: " ++ toString live.generation ++
      ", commits: " ++ Text.bracketed (live.guards.map k.guardText) ++ " \x7d")

/-- A keeper in words: the number of live commits and of held versions. -/
def text (k : Keeper) : String :=
  "SnapshotDeletionPolicy \x7b live: " ++
    Text.optional (k.live.map fun live => toString live.guards.length) ++
    ", held: " ++ toString k.holds.size ++ " \x7d"

end Keeper

end SnapshotRetention
