import Akua.JsonText
import Akua.ReachableDefinitions

/-! The output an agent reads: a payload in lines, objects by indentation, arrays of records as tables.
    Only the cells of a table are escaped, and an empty key is written as no key, so for every payload
    there is another one with the same output. -/

namespace Akua.Toon

/-! ### Text of a value -/

mutual

/-- `String(value)`; `none` where it throws, at an object whose own `toString` is no function.
    Dates are in no payload. -/
def toText : Value → Option String
  | .null => some "null"
  | .string value | .number value | .date value => some value
  | .bool value => some (if value then "true" else "false")
  | .array values => (elementTexts values).map fun texts => Text.join texts ','
  | .object entries => if (entries.lookup "toString").isSome then none else some "[object Object]"

/-- The elements of an array as `join` writes them. -/
def elementTexts : List Value → Option (List String)
  | [] => some []
  | value :: values => do
    let text ← match value with
      | .null => some ""
      | value => toText value
    let texts ← elementTexts values
    some (text :: texts)

end

/-- What `row[key]` is for a plain object. -/
inductive Property where
  | absent
  | own (value : Value)
  | method
  | objectPrototype

def property (row : List (String × Value)) (key : String) : Property :=
  match row.lookup key with
  | some value => .own value
  | none =>
    if key = "__proto__" then .objectPrototype
    else if key ∈ Contract.INHERITED then .method else .absent

/-- `undefined`, `null` or not of the type `object`. -/
def Property.isCell : Property → Bool
  | .own (.array _) | .own (.object _) | .objectPrototype => false
  | _ => true

/-- The text of an own value, or of a method by its name. -/
def Property.text (methodText : String → String) (key : String) : Property → Option String
  | .own value => toText value
  | .method => some (methodText key)
  | .absent | .objectPrototype => some ""

variable (methodText : String → String)

/-- `escapeCell(row[key])`. -/
def escapeCell (key : String) (value : Property) : Option String :=
  match value with
  | .absent | .own .null => some ""
  | value => (value.text methodText key).map fun text =>
    if Text.includes text '\n' || Text.includes text ',' then Value.quoteJson text else text

/-! ### Lines -/

/-- `' '.repeat(indent)`. -/
def margin (indent : Nat) : String := String.ofList (List.replicate indent ' ')

/-- The entries of a record. -/
def asRecord : Value → Option (List (String × Value))
  | .object entries => some entries
  | _ => none

/-- The keys of the first row that are cells in every row. -/
def tableKeys (rows : List (List (String × Value))) : List String :=
  ((rows.head?.getD []).map Prod.fst).filter fun key => rows.all fun row => (property row key).isCell

def renderRow (indent : Nat) (keys : List String) (row : List (String × Value)) : Option String := do
  let cells ← keys.mapM fun key => escapeCell methodText key (property row key)
  some (margin indent ++ "  " ++ Text.join cells ',')

/-- The table of an array of records, or a line for each item. -/
def renderArray (values : List Value) (indent : Nat) (key : String) : Option (List String) :=
  let count := toString values.length
  if values = [] then some [margin indent ++ key ++ "[0]:"]
  else
    let rows := values.filterMap asRecord
    let keys := tableKeys rows
    if rows.length = values.length ∧ keys ≠ [] then do
      let lines ← rows.mapM (renderRow methodText indent keys)
      some ((margin indent ++ key ++ "[" ++ count ++ "]\x7b" ++ Text.join keys ',' ++ "\x7d:") :: lines)
    else do
      let texts ← values.mapM toText
      some ((margin indent ++ key ++ "[" ++ count ++ "]:") :: texts.map fun text => margin indent ++ "  " ++ text)

/-- A key that is written: there is one, and it is not empty. -/
def shownKey (key : Option String) : Option String := key.filter (· ≠ "")

mutual

def renderValue (indent : Nat) (key : Option String) : Value → Option (List String)
  | .array values => renderArray methodText values indent (key.getD "items")
  | .object entries =>
    match shownKey key with
    | some key => do
      let lines ← renderEntries (indent + 2) entries
      some ((margin indent ++ key ++ ":") :: lines)
    | none => renderEntries indent entries
  | value => (toText value).map fun text => [margin indent ++ ((shownKey key).map (· ++ ": ")).getD "" ++ text]

def renderEntries (indent : Nat) : List (String × Value) → Option (List String)
  | [] => some []
  | (key, value) :: entries => do
    let lines ← renderValue indent (some key) value
    let rest ← renderEntries indent entries
    some (lines ++ rest)

end

/-- The output; `none` where the rendering throws. -/
def renderToon (value : Value) : Option String :=
  (renderValue methodText 0 none value).map fun lines => Text.join lines '\n' ++ "\n"

/-! ### What a reader can tell -/

/-- The same up to fields that are absent or null, and to the order of fields. -/
inductive Same : Value → Value → Prop where
  | refl (value : Value) : Same value value
  | array {values others : List Value} (h : List.Forall₂ Same values others) : Same (.array values) (.array others)
  | object {entries others : List (String × Value)}
      (h : ∀ key, Same ((entries.lookup key).getD .null) ((others.lookup key).getD .null)) :
      Same (.object entries) (.object others)

/-- The payload has an output, which no other payload has. -/
def Faithful (value : Value) : Prop :=
  ∃ text, renderToon methodText value = some text ∧
    ∀ other : Value, other.IsJson → renderToon methodText other = some text → Same value other

theorem Same.string_inj {s t : String} (h : Same (.string s) (.string t)) : s = t := by
  generalize hv : Value.string s = v at h
  generalize hw : Value.string t = w at h
  cases h with
  | refl => exact Value.string.inj (hv.trans hw.symm)
  | array _ => cases hv
  | object _ => cases hv

variable {methodText}

theorem join_singleton (text : String) (c : Char) : Text.join [text] c = text := by
  apply String.toList_inj.mp
  simp [Text.join]

/-- One string is written as any output there is, with all its lines. -/
theorem string_forges {value : Value} {text : String} (h : renderToon methodText value = some text) :
    ∃ s, renderToon methodText (.string s) = some text := by
  obtain ⟨lines, -, rfl⟩ := Option.map_eq_some_iff.mp h
  refine ⟨Text.join lines '\n', ?_⟩
  have hline : renderValue methodText 0 none (.string (Text.join lines '\n')) = some [Text.join lines '\n'] := by
    simp only [renderValue, toText, Option.map_some]
    refine congrArg (fun line => some [line]) ?_
    apply String.toList_inj.mp
    simp [margin, shownKey]
  rw [renderToon, hline, Option.map_some, join_singleton]

/-- An object with an empty key is written as its value is, where that is no array. -/
theorem empty_key_shown {value : Value} (h : ∀ values, value ≠ .array values) :
    renderToon methodText (.object [("", value)]) = renderToon methodText value := by
  have hkey : shownKey (some "") = none := by decide
  have hvalue : renderValue methodText 0 (some "") value = renderValue methodText 0 none value := by
    cases value with
    | array values => exact absurd rfl (h values)
    | object entries =>
      rw [renderValue, renderValue, hkey]
      rfl
    | null | string _ | number _ | bool _ | date _ =>
      simp only [renderValue, hkey]
      rfl
  have hentries : renderEntries methodText 0 [("", value)] = renderValue methodText 0 none value := by
    rw [renderEntries, renderEntries, hvalue]
    cases renderValue methodText 0 none value with
    | none => rfl
    | some lines => exact congrArg some (List.append_nil lines)
  have hobject : renderValue methodText 0 none (.object [("", value)]) = renderEntries methodText 0 [("", value)] := by
    rw [renderValue]
    rfl
  rw [renderToon, hobject, hentries, renderToon]

/-- Every output is that of another payload: of a string, and a string's is that of an object. -/
theorem never_faithful (value : Value) : ¬ Faithful methodText value := by
  rintro ⟨text, htext, hunique⟩
  by_cases hstring : ∃ s, value = .string s
  · obtain ⟨s, rfl⟩ := hstring
    have hsame := hunique (.object [("", .string s)]) ⟨by simp, trivial, trivial⟩
      ((empty_key_shown fun values h => by cases h).trans htext)
    cases hsame
  · obtain ⟨s, hs⟩ := string_forges htext
    have hsame := hunique (.string s) trivial hs
    cases hsame
    exact hstring ⟨s, rfl⟩

/-- A string of two lines, and the two fields that it looks like. -/
theorem field_forged :
    renderToon (fun _ => "") (.object [("data", .string "x\nstatus: error")]) = some "data: x\nstatus: error\n" ∧
      renderToon (fun _ => "") (.object [("data", .string "x"), ("status", .string "error")]) =
        some "data: x\nstatus: error\n" ∧
      ¬ Same (.object [("data", .string "x\nstatus: error")])
        (.object [("data", .string "x"), ("status", .string "error")]) := by
  refine ⟨by rfl, by rfl, fun h => ?_⟩
  generalize hv : Value.object [("data", .string "x\nstatus: error")] = v at h
  generalize hw : Value.object [("data", .string "x"), ("status", .string "error")] = w at h
  cases h with
  | refl => simp [← hv] at hw
  | array _ => cases hv
  | object h =>
    cases hv
    cases hw
    have hdata := h "data"
    simp only [List.lookup_cons_self, Option.getD_some] at hdata
    exact absurd hdata.string_inj (by decide)

end Akua.Toon
