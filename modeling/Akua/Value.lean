import Akua.Lib.Table

/-! Documents as the TOML, JSON and YAML readers hand them over, and the schemas they are decoded
    with. A schema is a partial function: it takes the fields it names, of the types it names, and
    ignores the keys it does not know. -/

namespace Akua

/-- A JavaScript number, by the text `String(value)` gives: two numbers are equal when it is. -/
abbrev Number := String

/-- What a reader returns. -/
inductive Value where
  | null
  | string (value : String)
  | number (value : Number)
  | bool (value : Bool)
  | date (value : String)
  | array (values : List Value)
  | object (entries : List (String × Value))

namespace Value

def asString : Value → Option String
  | .string value => some value
  | _ => none

def asNumber : Value → Option Number
  | .number value => some value
  | _ => none

def asBool : Value → Option Bool
  | .bool value => some value
  | _ => none

/-- `Schema.Array(schema)`. -/
def asArray {α : Type} (schema : Value → Option α) : Value → Option (List α)
  | .array values => values.mapM schema
  | _ => none

/-- `Schema.Record(Schema.String, schema)`. -/
def asRecord {α : Type} (schema : Value → Option α) : Value → Option (Table String α)
  | .object entries => Table.ofList <$> entries.mapM fun p => (p.1, ·) <$> schema p.2
  | _ => none

/-- A field of `Schema.Struct` that must be there. -/
def required {α : Type} (schema : Value → Option α) (key : String) : Value → Option α
  | .object entries => entries.lookup key >>= schema
  | _ => none

/-- `Schema.optionalKey(schema)`: absent, or of the schema's type. -/
def optionalKey {α : Type} (schema : Value → Option α) (key : String) : Value → Option (Option α)
  | .object entries =>
    match entries.lookup key with
    | none => some none
    | some value => some <$> schema value
  | _ => none

/-- `Schema.NullOr(schema)`. -/
def nullOr {α : Type} (schema : Value → Option α) : Value → Option (Option α)
  | .null => some none
  | value => some <$> schema value

/-! ### Writing JSON -/

def hexDigit (n : Nat) : Char := "0123456789abcdef".toList.getD n '0'

/-- A character inside a JSON string. -/
def escapeJson (c : Char) : List Char :=
  match c with
  | '"' => ['\\', '"']
  | '\\' => ['\\', '\\']
  | '\n' => ['\\', 'n']
  | '\r' => ['\\', 'r']
  | '\t' => ['\\', 't']
  | '\x08' => ['\\', 'b']
  | '\x0c' => ['\\', 'f']
  | c => if c.toNat < 0x20 then ['\\', 'u', '0', '0', hexDigit (c.toNat / 16), hexDigit (c.toNat % 16)]
    else [c]

def quoteJson (text : String) : String :=
  "\"" ++ String.ofList (text.toList.flatMap escapeJson) ++ "\""

mutual

/-- `JSON.stringify(value)`. -/
def stringify : Value → String
  | .null => "null"
  | .string value => quoteJson value
  | .number value => value
  | .bool value => if value then "true" else "false"
  | .date value => quoteJson value
  | .array values => "[" ++ ",".intercalate (stringifyAll values) ++ "]"
  | .object entries => "\x7b" ++ ",".intercalate (stringifyEntries entries) ++ "\x7d"

def stringifyAll : List Value → List String
  | [] => []
  | value :: values => stringify value :: stringifyAll values

def stringifyEntries : List (String × Value) → List String
  | [] => []
  | (key, value) :: entries => (quoteJson key ++ ":" ++ stringify value) :: stringifyEntries entries

end

end Value

end Akua
