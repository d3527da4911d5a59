import Akua.Value
import Akua.Lib.Text

/-! TOML as it is written to `akua.toml` and `akua.lock`: one section per table in the order tables
    are met, a table's own values before its subtables, arrays of two or more values one per line,
    and strings and keys in the encoder's preferred style. -/

namespace Akua

/-- A value that stands on a line of its own. -/
inductive TomlValue where
  | string (value : String)
  | number (value : Number)
  | bool (value : Bool)
  | strings (values : List String)

/-- What an entry holds: a value, a table, or an array of tables (`[[name]]`). Entries without a
    value are left out of the list. -/
inductive TomlItem where
  | value (value : TomlValue)
  | table (entries : List (String × TomlItem))
  | tables (tables : List (List (String × TomlItem)))

/-- The entries of a table, in the order they are written. -/
abbrev TomlEntries := List (String × TomlItem)

namespace TomlItem

/-- An entry that is there. -/
def some? (key : String) : Option TomlItem → TomlEntries
  | some item => [(key, item)]
  | none => []

def string (value : String) : TomlItem := .value (.string value)

def bool (value : Bool) : TomlItem := .value (.bool value)

end TomlItem

/-- A character that no string may hold as it is. -/
def isControl (code : Nat) : Bool := (code ≤ 0x1f && code != 0x09) || code == 0x7f

/-- What decides the style of a string: runs of quotes, and characters that need an escape. -/
structure Metrics where
  singles : Nat := 0
  doubles : Nat := 0
  maxSingleQuotes : Nat := 0
  maxDoubleQuotes : Nat := 0
  /-- A control character other than tab and newline. -/
  escapeCodes : Bool := false
  /-- A backslash. -/
  escape : Bool := false
  newline : Bool := false

/-- The runs of quotes start anew at every other character. -/
def Metrics.add (m : Metrics) (c : Char) : Metrics :=
  let singles := if c = '\'' then m.singles + 1 else 0
  let doubles := if c = '"' then m.doubles + 1 else 0
  let m := { m with singles, doubles, maxSingleQuotes := max m.maxSingleQuotes singles,
                    maxDoubleQuotes := max m.maxDoubleQuotes doubles }
  if c = '\\' then { m with escape := true }
  else if c = '\n' then { m with newline := true }
  else if isControl c.toNat then { m with escapeCodes := true }
  else m

/-- The metrics of a whole string. -/
def metrics (value : String) : Metrics := value.toList.foldl Metrics.add {}

/-- A digit of a `\u` escape. -/
def hexDigit (n : Nat) : Char := "0123456789ABCDEF".toList.getD n '0'

/-- One character of a basic string body; `quotes` is how many `"` it is the last of. -/
def escapeChar (multiline : Bool) (quotes : Nat) (c : Char) : String :=
  if c = '"' then if quotes > (if multiline then 2 else 0) then "\\\"" else "\""
  else if c = '\n' then if multiline then "\n" else "\\n"
  else if c = '\x08' then "\\b"
  else if c = '\t' then "\\t"
  else if c = '\x0c' then "\\f"
  else if c = '\r' then "\\r"
  else if c = '\\' then "\\\\"
  else if c.toNat ≤ 0x1f ∨ c.toNat = 0x7f then
    "\\u00" ++ String.ofList [hexDigit (c.toNat / 16), hexDigit (c.toNat % 16)]
  else String.ofList [c]

/-- A basic string body: at most two consecutive `"` of a multi-line string stay as they are. -/
def escapeBasic (multiline : Bool) : Nat → List Char → String
  | _, [] => ""
  | quotes, c :: cs =>
    let quotes := if c = '"' then quotes + 1 else 0
    escapeChar multiline quotes c ++ escapeBasic multiline quotes cs

/-- A `"` string. -/
def basic (value : String) : String := "\"" ++ escapeBasic false 0 value.toList ++ "\""

/-- A `"""` string; a line break behind the opening quotes is not part of the value. -/
def multilineBasic (value : String) (newline : Bool) : String :=
  "\"\"\"" ++ (if newline then "\n" else "") ++ escapeBasic true 0 value.toList ++ "\"\"\""

/-- A string value in the first style that can hold it without escapes. -/
def tomlString (value : String) : String :=
  let m := metrics value
  if !m.escapeCodes && !m.escape && m.maxDoubleQuotes == 0 && !m.newline then basic value
  else if !m.escapeCodes && m.maxSingleQuotes == 0 && !m.newline then "'" ++ value ++ "'"
  else if !m.escapeCodes && !m.escape && m.maxDoubleQuotes ≤ 2 then multilineBasic value m.newline
  else if !m.escapeCodes && m.maxSingleQuotes ≤ 2 then
    "'''" ++ (if m.newline then "\n" else "") ++ value ++ "'''"
  else if m.newline then multilineBasic value true
  else basic value

/-- A key bare when it can be, else quoted; a key has no multi-line form. -/
def tomlKey (key : String) : String :=
  if key ≠ "" && key.toList.all fun c => c.isAlphanum || c == '_' || c == '-' then key
  else
    let m := metrics key
    let escapeCodes := m.escapeCodes || m.newline
    if !escapeCodes && !m.escape && m.maxDoubleQuotes == 0 then basic key
    else if !escapeCodes && m.maxSingleQuotes == 0 then "'" ++ key ++ "'"
    else basic key

def concat (parts : List String) : String := parts.foldr (· ++ ·) ""

/-- An array of two or more strings stands one per line. -/
def tomlValue : TomlValue → String
  | .string value => tomlString value
  | .number value => value
  | .bool value => if value then "true" else "false"
  | .strings values =>
    if values.length ≥ 2 then
      "[\n" ++ concat (values.map fun item => "    " ++ tomlString item ++ ",\n") ++ "]"
    else "[" ++ concat (values.map tomlString) ++ "]"

/-- A table as it is written: its header and its own values. -/
structure Section where
  key : Option (List String)
  array : Bool
  body : String
  hasChildren : Bool

mutual

/-- The body of a table's own section, and whether it has subtables. -/
def ownSection : TomlEntries → String × Bool
  | [] => ("", false)
  | (name, item) :: rest =>
    let (body, hasChildren) := ownSection rest
    match item with
    | .value value => (tomlKey name ++ " = " ++ tomlValue value ++ "\n" ++ body, hasChildren)
    | .table _ => (body, true)
    | .tables [] => (tomlKey name ++ " = []\n" ++ body, hasChildren)
    | .tables (_ :: _) => (body, true)

/-- The sections of a table's subtables, in the order they are met. -/
def childSections (key : List String) : TomlEntries → List Section
  | [] => []
  | (name, item) :: rest => itemSections (key ++ [name]) item ++ childSections key rest

/-- The sections of an item that is a table or an array of tables. -/
def itemSections (key : List String) : TomlItem → List Section
  | .value _ => []
  | .table entries =>
    ⟨some key, false, (ownSection entries).1, (ownSection entries).2⟩ :: childSections key entries
  | .tables tables => elementSections key tables

def elementSections (key : List String) : List TomlEntries → List Section
  | [] => []
  | entries :: rest =>
    (⟨some key, true, (ownSection entries).1, (ownSection entries).2⟩ :: childSections key entries)
      ++ elementSections key rest

end

/-- A table that has only subtables needs no header. -/
def Section.kept (part : Section) : Bool :=
  match part.key with
  | none => part.body ≠ ""
  | some _ => part.array || part.body ≠ "" || !part.hasChildren

/-- The header, if it has a name, and a line for each value. -/
def Section.text (part : Section) : String :=
  match part.key with
  | none => part.body
  | some key =>
    let name := "." |>.intercalate (key.map tomlKey)
    (if part.array then "[[" ++ name ++ "]]" else "[" ++ name ++ "]") ++ "\n" ++ part.body

/-- The document for a root table. -/
def toToml (root : TomlEntries) : String :=
  let sections := ⟨none, false, (ownSection root).1, (ownSection root).2⟩ :: childSections [] root
  "\n".intercalate ((sections.filter Section.kept).map Section.text)

example : toToml [("version", .value (.number "1")),
    ("package", .tables [[("name", .string "a"), ("replaced", .table [("path", .string "b\\c")])]])]
    = "version = 1\n\n[[package]]\nname = \"a\"\n\n[package.replaced]\npath = 'b\\c'\n" := by decide

end Akua
