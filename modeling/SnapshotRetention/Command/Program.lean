import SnapshotRetention.Command.Arguments
import SnapshotRetention.Command.Backup

/-!
# The program

The program reads its arguments, runs the command they name on the folders it finds, prints the
report, and ends with code 0. A command that fails ends with code 1 and its failure in structured
form; arguments that are not understood end with code 2.
-/

namespace SnapshotRetention

namespace Program

/-- The version of the program. -/
def version : String := "0.3.0"

/-- How the program is used. -/
def usage : List String :=
  ["Usage: snapkeep [-p PATH] [-v] inspect [-f FORMAT]",
    "       snapkeep [-p PATH] [-v] backup -o OUTPUT [-a]",
    "       snapkeep [-v] simulate [-c COMMITS] [-k KEEP_LAST] [-d] [-f FORMAT]",
    "       snapkeep version",
    "",
    "The paths of the files and folders at hand are read from standard input, one a line;",
    "a folder's path ends with a slash."]

/-- How a run of the program ends. -/
structure Outcome where
  code : Nat
  /-- What a verbose run tells about its work, an entry for each artifact that it deletes. -/
  log : List String
  /-- The printed lines. -/
  output : List String
  /-- The complaint, if any. -/
  complaint : Option String
  /-- The folders afterwards. -/
  tree : FileTree

/-- The end of a run that succeeds. -/
def succeed (lines : List String) (t : FileTree) : Outcome := ⟨0, [], lines, none, t⟩

/-- The end of a run that fails after printing some lines. -/
def fail (lines : List String) (failure : Failure) (t : FileTree) : Outcome :=
  ⟨1, [], lines, some ("Error: " ++ failure.structured), t⟩

/-- The lines of a report in the chosen format, which is text unless it is JSON. -/
def report (format : String) (text : List String) (json : Json) : List String :=
  if format = "json" then json.render.splitOn "\n" else text

/-- The complaint that a command needs the path of an artifact directory. -/
def pathRequired (command : String) : Failure :=
  .message ("Artifact directory required for " ++ command)

/-- Runs a command. -/
def runCommand (path : Option String) (c : Command) (t : FileTree) : Outcome :=
  match c, path with
  | .inspect _, none => fail [] (pathRequired "inspect") t
  | .inspect format, some path =>
    match Inspection.ofPath path t with
    | .error e => fail [] e t
    | .ok i => succeed (report format i.textLines i.json) t
  | .backup .., none => fail [] (pathRequired "backup") t
  | .backup output all, some path =>
    match Backup.run path output all t with
    | (.error e, t) => fail [] e t
    | (.ok summary, t) => succeed (Backup.textLines output summary) t
  | .simulate s format, _ =>
    match s.run with
    | .error e => fail [] e t
    | .ok counts =>
      let lines := report format (Simulation.textLines counts 0) (Simulation.json counts 0)
      match Simulation.complaint? counts with
      | none => succeed lines t
      | some failure => fail lines failure t
  | .version, _ => succeed ["SnapKeep CLI v" ++ version, "SnapKeep Core v" ++ version] t

/-- What a verbose run of a command tells about its work. -/
def account (path : Option String) (c : Command) (t : FileTree) : List String :=
  match c, path with
  | .backup output _, some path =>
    (Backup.discarded path output t).map ("deleting unreferenced artifact file=" ++ ·)
  | _, _ => []

/-- Runs the program. -/
def run (args : List String) (t : FileTree) : Outcome :=
  match Arguments.parse args with
  | none => ⟨2, [], [], some ("\n".intercalate usage), t⟩
  | some .showVersion => succeed ["snapkeep " ++ version] t
  | some .showUsage => succeed usage t
  | some (.run path verbose command) =>
    { runCommand path command t with log := if verbose then account path command t else [] }

end Program

end SnapshotRetention
