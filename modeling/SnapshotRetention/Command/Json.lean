import SnapshotRetention.Text.Hex

/-!
# Reports as JSON

A report is printed as a JSON document with one field or element a line and two spaces of
indentation for each level; empty lists stay on one line.
-/

namespace SnapshotRetention

/-- The JSON values of reports. -/
inductive Json where
  /-- A number, by its digits. -/
  | number (digits : String)
  | text (s : String)
  | list (items : List Json)
  | record (fields : List (String × Json))

namespace Json

/-- A natural number. -/
def ofNat (n : Nat) : Json := .number (toString n)

/-- One character of a JSON string. -/
def escapeChar (c : Char) : List Char :=
  if c = '"' then ['\\', '"']
  else if c = '\\' then ['\\', '\\']
  else if c = '\n' then ['\\', 'n']
  else if c = '\r' then ['\\', 'r']
  else if c = '\t' then ['\\', 't']
  else if c.toNat = 8 then ['\\', 'b']
  else if c.toNat = 12 then ['\\', 'f']
  else if c.toNat < 0x20 then ['\\', 'u'] ++ (Text.hexPadded 4 c.toNat).toList
  else [c]

/-- A JSON string. -/
def quoted (s : String) : String :=
  String.ofList ('"' :: s.toList.flatMap escapeChar ++ ['"'])

/-- A line break followed by the indentation of a level. -/
def newline (level : Nat) : String := "\n" ++ String.ofList (List.replicate (2 * level) ' ')

/-- Items between a pair of brackets, one a line. -/
def block (opening closing : String) (level : Nat) (items : List String) : String :=
  if items.isEmpty then opening ++ closing
  else
    opening ++ newline (level + 1) ++ (("," ++ newline (level + 1)).intercalate items) ++
      newline level ++ closing

mutual

/-- A value at a level of indentation. -/
def renderAt (level : Nat) : Json → String
  | .number digits => digits
  | .text s => quoted s
  | .list items => block "[" "]" level (renderItems (level + 1) items)
  | .record fields => block "\x7b" "\x7d" level (renderFields (level + 1) fields)

/-- Values at a level of indentation. -/
def renderItems (level : Nat) : List Json → List String
  | [] => []
  | j :: rest => renderAt level j :: renderItems level rest

/-- Fields at a level of indentation. -/
def renderFields (level : Nat) : List (String × Json) → List String
  | [] => []
  | (name, j) :: rest => (quoted name ++ ": " ++ renderAt level j) :: renderFields level rest

end

/-- A JSON document. -/
def render (j : Json) : String := j.renderAt 0

end Json

end SnapshotRetention
