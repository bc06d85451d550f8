/-!
# Paths

A path is text whose components are divided by slashes. A path that begins with a slash starts at
the root, any other at the working directory. The file system follows neither a path nor a
component that is too long.
-/

namespace SnapshotRetention.Path

/-- The longest path, in bytes, that the file system follows. -/
def maxBytes : Nat := 4095

/-- The longest component, in bytes, that the file system takes. -/
def maxNameBytes : Nat := 255

/-- Whether a path is short enough to be followed. -/
def fits (path : String) : Bool := decide (path.utf8ByteSize ≤ maxBytes)

/-- Whether a path starts at the root. -/
def isAbsolute (path : String) : Bool := path.toList.head? == some '/'

/-- The text between the slashes of a path. -/
def splitSlashes : List Char → List (List Char)
  | [] => [[]]
  | c :: rest =>
    if c = '/' then [] :: splitSlashes rest
    else
      match splitSlashes rest with
      | [] => [[c]]
      | first :: others => (c :: first) :: others

/-- The components of a path, empty ones included; the first one of an absolute path is empty. -/
def components (path : String) : List String := (splitSlashes path.toList).map String.ofList

/-- The path of a name below a folder; an absolute name stands for itself. -/
def join (folder name : String) : String :=
  if isAbsolute name then name
  else if folder = "" ∨ folder.toList.getLast? = some '/' then folder ++ name
  else folder ++ "/" ++ name

/-- Whether a component stays where it is. -/
def stays (component : String) : Bool := component = "" || component = "."

/-- Components without those that stay where they are, the first one excepted. -/
def tidy : List String → List String
  | [] => []
  | first :: rest => first :: rest.filter fun c => !stays c

/-- The starts of a list that are not empty, the shortest first. -/
def starts : List String → List (List String)
  | [] => []
  | first :: rest => [first] :: (starts rest).map (first :: ·)

/-- The components of a path and, tidied, those of the folders above it, the nearest first. -/
def withAncestors (path : String) : List (List String) :=
  components path :: (starts (tidy (components path)).dropLast).reverse

end SnapshotRetention.Path
