import SnapshotRetention.Keeper.Cycle
import SnapshotRetention.Retention.Config

/-!
# Engines

An engine joins what decides about commits with what writes them. What decides is a primary
policy, either behind a keeper, which guards the commits from it while they are held, or bare.
The writer, while there is one, remembers the history that has not been deleted and the numbers of
the next commit.
-/

namespace SnapshotRetention

/-- The state of an open writer. -/
structure Writer where
  /-- The depot that counts the artifacts. -/
  depot : Nat
  /-- The commits, oldest first. Commits deleted since the last cycle may still be among them. -/
  history : List Nat
  nextVersion : Version
  nextGeneration : Generation
  /-- The timestamp of the newest commit; time never goes back. -/
  lastTimestamp : Timestamp
  syncOnCommit : Bool
  deriving DecidableEq

/-- A keeper, a primary policy and at most one writer. -/
structure Engine where
  keeper : Keeper
  decider : Decider
  /-- Whether the keeper stands between the primary policy and the commits. -/
  guarded : Bool
  writer : Option Writer

namespace Engine

/-- An engine without writer, whose keeper follows a configuration. -/
def ofConfig (id : Nat) (config : Config) (guarded : Bool) (catalog : Catalog) : Engine :=
  ⟨.new id config.reclaimOnRelease catalog, .stock config.primary, guarded, none⟩

instance : Inhabited Engine := ⟨ofConfig 0 .standard true default⟩

/-- The catalog of the commits. -/
def catalog (e : Engine) : Catalog := e.keeper.catalog

/-- Replaces the catalog. -/
def setCatalog (c : Catalog) (e : Engine) : Engine :=
  { e with keeper := { e.keeper with catalog := c } }

/-- Runs a step on the catalog. -/
def onCatalog {α : Type} (f : Catalog → α × Catalog) (e : Engine) : α × Engine :=
  let (a, c) := f e.catalog
  (a, e.setCatalog c)

/-- Carries out one request of a bare primary policy; there are no handles it could reach. -/
def carryOutBare (commits : List Nat) (r : Request) (c : Catalog) : Except Error Unit × Catalog :=
  match r with
  | .delete position =>
    match commits[position]? with
    | none => (.ok (), c)
    | some n => c.delete n
  | .attempt position =>
    match commits[position]? with
    | none => (.ok (), c)
    | some n => (.ok (), (c.delete n).2)
  | .release _ | .drop _ => (.ok (), c)
  | .fail error => (.error error, c)

/-- Carries out requests of a bare primary policy in order, up to the first that fails. -/
def carryOutAllBare (commits : List Nat) : List Request → Catalog → Except Error Unit × Catalog
  | [], c => (.ok (), c)
  | r :: rest, c =>
    match carryOutBare commits r c with
    | (.error e, c) => (.error e, c)
    | (.ok (), c) => carryOutAllBare commits rest c

/-- Presents commits, oldest first, to what decides about them. -/
def decide (commits : List Nat) (e : Engine) : Except Error Unit × Engine :=
  let requests := e.decider.requests (e.catalog.shown commits)
  if e.guarded then
    let (result, keeper) := e.keeper.cycle commits requests
    (result, { e with keeper })
  else e.onCatalog (carryOutAllBare commits requests)

/-! ## The writer's view -/

/-- The undeleted commits of the writer, oldest first. -/
def commits (e : Engine) : List Nat :=
  match e.writer with
  | none => []
  | some w => e.catalog.undeleted w.history

/-- The newest undeleted commit of the writer. -/
def current? (e : Engine) : Option Nat := e.commits.getLast?

/-- Drops the writer. -/
def dropWriter (e : Engine) : Engine := { e with writer := none }

end Engine

/-- A writer in words. -/
def Writer.text (w : Writer) : String :=
  "CommitWriter \x7b commits: " ++ toString w.history.length ++
    ", next_version: CommitVersion(" ++ toString w.nextVersion.number ++ ") \x7d"

end SnapshotRetention
