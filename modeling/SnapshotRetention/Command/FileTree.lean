import SnapshotRetention.Store.Directory

/-!
# Folders and paths

The part of a file system that is known: its folders, each one level deep, by their path from the
root, and which of them is the working directory. A path is followed component by component; a
component that is empty or a dot stays where it is, two dots go up, and a name goes to what stands
under it. What is not known counts as missing. There are no symbolic links.
-/

namespace SnapshotRetention

/-- The size that a file system in memory gives a folder: forty bytes, and twenty for each entry. -/
def Store.Directory.sizeInMemory (d : Store.Directory) : Nat := 40 + 20 * d.size

/-- The known folders, by the names that lead to them from the root. -/
structure FileTree where
  folders : List (List String × Store.Directory)
  /-- The working directory, from which relative paths start. -/
  working : List String
  /-- The size that the file system gives a folder itself. -/
  folderSize : Store.Directory → Nat := Store.Directory.sizeInMemory

namespace FileTree

/-- What a path leads to. -/
inductive Place where
  | file (data : Bytes)
  | device
  | folder (path : List String)
  deriving DecidableEq

/-- The folder of a path from the root. -/
def folder? (t : FileTree) (path : List String) : Option Store.Directory :=
  (t.folders.find? fun e => e.1 == path).map Prod.snd

/-- Replaces the folder of a path from the root, or adds one. -/
def setFolder (path : List String) (d : Store.Directory) (t : FileTree) : FileTree :=
  { t with
    folders :=
      if (t.folder? path).isSome then
        t.folders.map fun e => if e.1 == path then (path, d) else e
      else t.folders ++ [(path, d)] }

/-- What stands under a name in a folder. -/
def node? (t : FileTree) (path : List String) (name : String) : Option Store.Node :=
  (t.folder? path).bind fun d => d.nodes.get? name

/-- Puts something under a name in a folder. -/
def setNode (path : List String) (name : String) (node : Store.Node) (t : FileTree) : FileTree :=
  match t.folder? path with
  | none => t
  | some d => t.setFolder path { d with nodes := d.nodes.insert name node }

/-- Adds an empty folder to a folder. -/
def addFolder (path : List String) (name : String) (t : FileTree) : FileTree :=
  (t.setNode path name .folder).setFolder (path ++ [name]) .empty

/-- The folders that lead to an empty working directory, and nothing else. -/
def ofWorking (path : List String) : FileTree :=
  let add := fun (at_ : List String × FileTree) name =>
    (at_.1 ++ [name], at_.2.addFolder at_.1 name)
  (path.foldl add ([], { folders := [([], .empty)], working := path })).2

/-! ## Following paths -/

/-- Where components start: those of an absolute path, whose first one is empty, at the root. -/
def start (t : FileTree) (components : List String) : List String :=
  if components.head? = some "" then [] else t.working

/-- Follows components from a folder. Nothing is above the root but the root itself. -/
def walk (t : FileTree) (path : List String) : List String → Except SystemFault Place
  | [] => .ok (.folder path)
  | c :: rest =>
    if Path.stays c then walk t path rest
    else if c = ".." then walk t path.dropLast rest
    else if Path.maxNameBytes < c.utf8ByteSize then .error .nameTooLong
    else
      match t.node? path c with
      | none => .error .missing
      | some .folder => walk t (path ++ [c]) rest
      | some (.file data) => if rest.isEmpty then .ok (.file data) else .error .notDirectory
      | some .device => if rest.isEmpty then .ok .device else .error .notDirectory

/-- Follows components from where they start. -/
def follow (t : FileTree) (components : List String) : Except SystemFault Place :=
  t.walk (t.start components) components

/-- What a path leads to. -/
def look (t : FileTree) (path : String) : Except SystemFault Place :=
  if path = "" then .error .missing
  else if !Path.fits path then .error .nameTooLong
  else t.follow (Path.components path)

/-- Whether components lead to a folder. -/
def isFolder (t : FileTree) (components : List String) : Bool :=
  match t.follow components with
  | .ok (.folder _) => true
  | _ => false

/-- The folder that a path leads to, with its path from the root. -/
def folderAt? (t : FileTree) (path : String) : Option (List String × Store.Directory) :=
  match t.look path with
  | .ok (.folder place) => (t.folder? place).map fun d => (place, d)
  | _ => none

/-- The size of what a path leads to, nothing if it leads nowhere. -/
def sizeAt (t : FileTree) (path : String) : Nat :=
  match t.look path with
  | .error _ | .ok .device => 0
  | .ok (.file data) => data.length
  | .ok (.folder place) => ((t.folder? place).map t.folderSize).getD 0

/-! ## Making folders and writing files -/

/-- The folder in which the last of some components stands, and that component. -/
def locate (t : FileTree) (components : List String) :
    Except SystemFault (List String × String) :=
  match components.getLast? with
  | none => .error .exists
  | some last =>
    match t.walk (t.start components) components.dropLast with
    | .error fault => .error fault
    | .ok (.file _) | .ok .device => .error .notDirectory
    | .ok (.folder path) =>
      if last = "." ∨ last = ".." then .error .exists
      else if Path.maxNameBytes < last.utf8ByteSize then .error .nameTooLong
      else .ok (path, last)

/-- Makes the folder of some components, all but the last of which must lead to one. -/
def makeFolder (components : List String) (t : FileTree) : Except SystemFault Unit × FileTree :=
  -- Slashes at the end of a path do not matter.
  let named := (components.reverse.dropWhile (· = "")).reverse
  match t.locate named with
  | .error fault => (.error fault, t)
  | .ok (path, name) =>
    if (t.node? path name).isSome then (.error .exists, t) else (.ok (), t.addFolder path name)

/-- Forgives that a folder could not be made if it is there. -/
def settle (components : List String) :
    Except SystemFault Unit × FileTree → Except SystemFault Unit × FileTree
  | (.error fault, t) => (if t.isFolder components then .ok () else .error fault, t)
  | (.ok (), t) => (.ok (), t)

/-- Makes the first of some folders, and before it the others, which lie above it, as far as that
is needed. Folders made before a failure stay. -/
def makeNested : List (List String) → FileTree → Except SystemFault Unit × FileTree
  | [], t => (.ok (), t)
  | components :: above, t =>
    match t.makeFolder components with
    | (.error .missing, t) =>
      match makeNested above t with
      | (.error fault, t) => (.error fault, t)
      | (.ok (), t) => settle components (t.makeFolder components)
    | made => settle components made

/-- Makes all missing folders of a path. -/
def makeFolders (path : String) (t : FileTree) : Except SystemFault Unit × FileTree :=
  if path = "" then (.ok (), t)
  else if !Path.fits path then (.error .nameTooLong, t)
  else makeNested (Path.withAncestors path) t

/-- Writes a file, in place of the file that the path leads to if there is one. -/
def writeFile (path : String) (data : Bytes) (t : FileTree) : Except SystemFault Unit × FileTree :=
  if path = "" then (.error .missing, t)
  else if !Path.fits path then (.error .nameTooLong, t)
  else
    match t.locate (Path.components path) with
    | .error .exists => (.error .isDirectory, t)
    | .error fault => (.error fault, t)
    | .ok (place, name) =>
      if name = "" then (.error .isDirectory, t)
      else
        match t.node? place name with
        | some .folder => (.error .isDirectory, t)
        | some .device => (.ok (), t)
        | some (.file _) | none => (.ok (), t.setNode place name (.file data))

/-! ## Files by path -/

/-- All regular files, each with its path and data. -/
def files (t : FileTree) : List (List String × Bytes) :=
  t.folders.flatMap fun e => e.2.artifacts.map fun a => (e.1 ++ [a.1], a.2)

/-- The data of the regular file at a path from the root. -/
def fileAt? (t : FileTree) (path : List String) : Option Bytes :=
  match t.walk [] path with
  | .ok (.file data) => some data
  | _ => none

end FileTree

end SnapshotRetention
