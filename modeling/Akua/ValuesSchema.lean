import Akua.Docstrings
import Akua.KclLiterals
import Akua.Lib.DataLiterals
import Akua.Lib.JsonSchema

/-! A chart's `values.schema.json` as KCL schemas: one named `Values`, and one for each nested object
    under a name made of the path to it. Objects, primitives, arrays and unions of primitives are
    typed; everything else is `any`. -/

namespace Akua.ValuesSchema

structure ValuesSchemaInvalid where
  message : String
deriving DecidableEq

/-- `type`: a name, or a list of names. -/
inductive TypeKeyword where
  | one (name : String)
  | several (names : List String)

/-- A schema as it is decoded. Of `additionalProperties` only a `false` is read: `closed`. -/
structure JsonSchema where
  type : Option TypeKeyword
  properties : List (String × JsonSchema)
  required : List String
  items : Option JsonSchema
  default : Option Json
  description : Option String
  closed : Bool

mutual

/-- No object of the document has a key twice. -/
def DistinctKeys : Json → Prop
  | .array values => DistinctItems values
  | .object entries => (entries.map Prod.fst).Nodup ∧ DistinctEntries entries
  | _ => True

def DistinctItems : List Json → Prop
  | [] => True
  | value :: values => DistinctKeys value ∧ DistinctItems values

def DistinctEntries : List (String × Json) → Prop
  | [] => True
  | (_, value) :: entries => DistinctKeys value ∧ DistinctEntries entries

end

mutual

/-- No object of the schema has a key twice, as `JSON.parse` has it. -/
def Decoded : JsonSchema → Prop
  | ⟨_, properties, _, items, default, _, _⟩ =>
    (properties.map Prod.fst).Nodup ∧ (∀ value ∈ default, DistinctKeys value) ∧ DecodedProperties properties ∧
      DecodedItems items

def DecodedItems : Option JsonSchema → Prop
  | none => True
  | some schema => Decoded schema

def DecodedProperties : List (String × JsonSchema) → Prop
  | [] => True
  | (_, schema) :: properties => Decoded schema ∧ DecodedProperties properties

end

/-- A `values.schema.json` that decodes. -/
structure Schema where
  root : JsonSchema
  decoded : Decoded root

/-! ### Types -/

def members : Option TypeKeyword → List String
  | none => []
  | some (.one name) => [name]
  | some (.several names) => names

def primaryType (type : Option TypeKeyword) : String := ((members type).find? (· ≠ "null")).getD ""

/-- The keyword is a list. -/
def isSeveral : Option TypeKeyword → Bool
  | some (.several _) => true
  | _ => false

inductive Primitive where
  | str | int | float | bool | any
deriving DecidableEq

def Primitive.text : Primitive → String
  | .str => "str"
  | .int => "int"
  | .float => "float"
  | .bool => "bool"
  | .any => "any"

def primitive (type : String) : Primitive :=
  if type = "string" then .str
  else if type = "integer" then .int
  else if type = "number" then .float
  else if type = "boolean" then .bool
  else .any

/-- A type annotation. -/
inductive Annotation where
  | primitive (type : Primitive)
  | union (types : List Primitive)
  | list (item : Annotation)
  | schema (name : String)

def Annotation.text : Annotation → String
  | .primitive type => type.text
  | .union types => " | ".intercalate (types.map Primitive.text)
  | .list item => "[" ++ item.text ++ "]"
  | .schema name => name

/-! ### Names -/

/-- The characters of a name, each word with a capital; `capitalize` says that a word begins. -/
def pascalFrom (capitalize : Bool) : List Char → List Char
  | [] => []
  | c :: cs =>
    if c.isAlphanum then (if capitalize then c.toUpper else c) :: pascalFrom false cs else pascalFrom true cs

/-- `replicaCount` / `image_pull_policy` to `ReplicaCount` / `ImagePullPolicy`, always an identifier. -/
def pascalCase (text : String) : String :=
  let out := pascalFrom true text.toList
  if out = [] then "_" else String.ofList (if out.head?.any Char.isDigit then '_' :: out else out)

/-- `/^[A-Za-z_][A-Za-z0-9_]*$/` -/
def isIdentifier (text : String) : Bool :=
  text.toList.head?.any (fun c => c.isAlpha || c = '_') && text.toList.all fun c => c.isAlphanum || c = '_'

/-! ### Defaults -/

/-- `Object.entries` in the order of the keys. -/
def sortedEntries {α : Type} (record : List (String × α)) : List (String × α) :=
  record.insertionSort fun a b => Text.atMost a.1 b.1

/-- A double that is printed as digits: whole, and below 10^21. -/
def isDigits (x : Rat) : Bool := x.den = 1 && x.num.natAbs < 10 ^ 21

/-- The numbers of both languages: how JavaScript rounds and prints them, and how KCL reads them. -/
structure Numbers extends Literal.Numerals where
  /-- The double next to a number; none beyond the largest. -/
  double : Rat → Option Rat
  /-- The whole number whose digits `String` gives, where it gives digits: the double is next to it. -/
  shortest : Rat → Int
  /-- What `String` gives elsewhere, a fraction or an exponent, which reads as the double. -/
  text : Rat → List Char
  double_double : ∀ q x, double q = some x → double x = some x
  double_shortest : ∀ q x, double q = some x → isDigits x = true → double (shortest x) = some x
  text_ne_nil : ∀ q x, double q = some x → isDigits x = false → text x ≠ []
  text_numeral : ∀ q x, double q = some x → isDigits x = false → ∀ c ∈ text x, Literal.isNumeral c = true
  text_not_integer : ∀ q x, double q = some x → isDigits x = false → Literal.integer (text x) = none
  float_text : ∀ q x, double q = some x → isDigits x = false → float (text x) = some x

variable (N : Numbers)

/-- `Number.isInteger`, of the double that a number of the document is read as. -/
def isInteger (value : Rat) : Bool := (N.double value).any fun x => x.den = 1

/-- `String(value)`. -/
def numberText (value : Rat) : List Char :=
  match N.double value with
  | none => (if value < 0 then "-Infinity" else "Infinity").toList
  | some x => if isDigits x then Literal.Numerals.digits (N.shortest x) else N.text x

/-- `value.toFixed(0)` of a whole number. -/
def toFixed (value : Rat) : List Char :=
  match N.double value with
  | some x => if isDigits x then Literal.Numerals.digits x.num else numberText N value
  | none => numberText N value

mutual

def kclLiteral : Json → String
  | .null => "None"
  | .bool value => if value then "True" else "False"
  | .number value => String.ofList (numberText N value)
  | .string value => Kcl.kclStringLiteral value
  | .array values => "[" ++ ", ".intercalate (kclLiterals values) ++ "]"
  | .object entries =>
    "\x7b" ++ ", ".intercalate ((sortedEntries (entryLiterals entries)).map fun entry =>
      Kcl.kclStringLiteral entry.1 ++ ": " ++ entry.2) ++ "\x7d"

def kclLiterals : List Json → List String
  | [] => []
  | value :: values => kclLiteral value :: kclLiterals values

def entryLiterals : List (String × Json) → List (String × String)
  | [] => []
  | (key, value) :: entries => (key, kclLiteral value) :: entryLiterals entries

end

def KNOWN_TYPES : List String := ["null", "boolean", "string", "integer", "number", "array", "object"]

def defaultForType (value : Json) (type : String) : Option String :=
  if type = "boolean" then
    match value with
    | .bool _ => some (kclLiteral N value)
    | _ => none
  else if type = "string" then
    match value with
    | .string _ => some (kclLiteral N value)
    | _ => none
  else if type = "integer" then
    match value with
    | .number number => if isInteger N number then some (String.ofList (toFixed N number)) else none
    | _ => none
  else if type = "number" then
    match value with
    | .number _ => some (kclLiteral N value)
    | _ => none
  else if type ∈ KNOWN_TYPES then none
  else some (kclLiteral N value)

/-- The `default` as a KCL literal, when it fits one of the declared types. -/
def defaultLiteral (schema : JsonSchema) : Option String :=
  schema.default.bind fun value =>
    if schema.type.isNone then some (kclLiteral N value)
    else (members schema.type).findSome? (defaultForType N value)

/-! ### Declarations -/

/-- An attribute of a generated schema, with the property's own schema. -/
structure Field where
  property : String
  required : Bool
  type : Annotation
  schema : JsonSchema

/-- A generated schema. -/
structure Declaration where
  name : String
  description : Option String
  closed : Bool
  fields : List Field

/-- The literal of the default, if one is written. -/
def Field.fallback (field : Field) : Option String := defaultLiteral N field.schema

def Field.optional (field : Field) : Bool :=
  (isSeveral field.schema.type && (members field.schema.type).contains "null") ||
    !(field.required || (field.fallback N).isSome)

def docstringText : Option String → String
  | none => ""
  | some text => String.ofList (docstring text 4) ++ "\n"

def Field.text (field : Field) : String :=
  "    " ++ field.property ++ (if field.optional N then "?" else "") ++ ": " ++ field.type.text ++
    (match field.fallback N with
      | none => ""
      | some literal => " = " ++ literal) ++ "\n" ++ docstringText field.schema.description

def Declaration.text (declaration : Declaration) : String :=
  "schema " ++ declaration.name ++ ":\n" ++ docstringText declaration.description ++
    (if declaration.closed then "" else "    [str]: any\n") ++
    (if declaration.fields = [] then (if declaration.closed then "    check:\n        True\n" else "")
      else "".intercalate (declaration.fields.map (Field.text N))) ++ "\n"

/-- What a property comes to: the schemas nested in it, and its attribute. -/
abbrev Rendered := Except ValuesSchemaInvalid (List Declaration × Field)

/-- The properties in the order of their names, the first invalid one deciding; the schema comes after
    the nested schemas it names. -/
def emit (name : String) (description : Option String) (closed : Bool) (properties : List (String × Rendered)) :
    Except ValuesSchemaInvalid (List Declaration) := do
  let rendered ← forEach Prod.snd (sortedEntries properties)
  return rendered.flatMap Prod.fst ++ [⟨name, description, closed, rendered.map Prod.snd⟩]

mutual

/-- The type of a property or an item, with the schemas nested in it. -/
def renderType (name : String) : JsonSchema → Except ValuesSchemaInvalid (List Declaration × Annotation)
  | ⟨type, properties, required, items, _, description, closed⟩ =>
    let nonNull := (members type).filter (· ≠ "null")
    if isSeveral type ∧ 1 < nonNull.length then
      if nonNull.any (fun member => member = "object" || member = "array") then .ok ([], .primitive .any)
      else .ok ([], .union (nonNull.map primitive))
    else if primaryType type = "object" then
      (emit name description closed (renderProperties name required properties)).map (·, .schema name)
    else if primaryType type = "array" then
      (renderItems (name ++ "Item") items).map fun rendered => (rendered.1, .list rendered.2)
    else .ok ([], .primitive (primitive (primaryType type)))

def renderItems (name : String) : Option JsonSchema → Except ValuesSchemaInvalid (List Declaration × Annotation)
  | none => .ok ([], .primitive .any)
  | some schema => renderType name schema

/-- Each property with its attribute. Its name is written as it is, so it must be an identifier. -/
def renderProperties (name : String) (required : List String) : List (String × JsonSchema) → List (String × Rendered)
  | [] => []
  | (property, schema) :: properties =>
    (property,
      if isIdentifier property then
        (renderType (name ++ pascalCase property) schema).map fun rendered =>
          (rendered.1, ⟨property, required.contains property, rendered.2, schema⟩)
      else .error ⟨"values.schema.json property name is not a valid KCL identifier: " ++ Value.quoteJson property⟩) ::
      renderProperties name required properties

end

def emitObject (schema : JsonSchema) (name : String) : Except ValuesSchemaInvalid (List Declaration) :=
  emit name schema.description schema.closed (renderProperties name schema.required schema.properties)

/-- The generated schemas, or none when the root is not an object. -/
def declarations (schema : Schema) : Except ValuesSchemaInvalid (Option (List Declaration)) :=
  if primaryType schema.root.type ≠ "object" then .ok none else (emitObject schema.root "Values").map some

/-- The generated KCL source. -/
def valuesSchemaKcl (schema : Schema) : Except ValuesSchemaInvalid (Option String) :=
  (declarations schema).map fun schemas => schemas.map fun schemas =>
    "\n".intercalate (schemas.map (Declaration.text N))

/-! ### What is emitted -/

theorem mem_sortedEntries {α : Type} {record : List (String × α)} {entry : String × α} :
    entry ∈ sortedEntries record ↔ entry ∈ record := by
  rw [sortedEntries, List.mem_insertionSort]

theorem emit_eq_ok {name : String} {description : Option String} {closed : Bool}
    {properties : List (String × Rendered)} {schemas : List Declaration} :
    emit name description closed properties = .ok schemas ↔
      ∃ rendered, List.Forall₂ (fun property r => property.2 = .ok r) (sortedEntries properties) rendered ∧
        schemas = rendered.flatMap Prod.fst ++ [⟨name, description, closed, rendered.map Prod.snd⟩] := by
  rw [emit, except_bind_ok]
  refine exists_congr fun rendered => and_congr except_forEach_eq_ok ?_
  constructor
  · intro h
    exact (Except.ok.inj h).symm
  · rintro rfl
    rfl

theorem except_map_eq_ok {ε α β : Type} {x : Except ε α} {f : α → β} {b : β} :
    x.map f = .ok b ↔ ∃ a, x = .ok a ∧ f a = b := by
  cases x <;> simp [Except.map]

/-- An attribute has the type that its property's schema renders to. -/
def Rendering (field : Field) : Prop :=
  Decoded field.schema ∧ ∃ name schemas, renderType name field.schema = .ok (schemas, field.type)

/-- What holds of every attribute that the properties of a schema come to holds of all it emits. -/
theorem fields_of_emit {P : Field → Prop} {name : String} {description : Option String} {closed : Bool}
    {properties : List (String × Rendered)}
    (hproperties : ∀ property ∈ properties, ∀ rendered, property.2 = .ok rendered →
      P rendered.2 ∧ ∀ declaration ∈ rendered.1, ∀ field ∈ declaration.fields, P field)
    {schemas : List Declaration} (h : emit name description closed properties = .ok schemas) :
    ∀ declaration ∈ schemas, ∀ field ∈ declaration.fields, P field := by
  obtain ⟨rendered, hall, rfl⟩ := emit_eq_ok.mp h
  have hmem : ∀ r ∈ rendered, P r.2 ∧ ∀ declaration ∈ r.1, ∀ field ∈ declaration.fields, P field := by
    intro r hr
    obtain ⟨property, hproperty, heq⟩ := exists_of_forall₂ hall.flip hr
    exact hproperties property (mem_sortedEntries.mp hproperty) r heq
  intro declaration hdeclaration field hfield
  rcases List.mem_append.mp hdeclaration with hnested | hown
  · obtain ⟨r, hr, hnested⟩ := List.mem_flatMap.mp hnested
    exact (hmem r hr).2 declaration hnested field hfield
  · rw [List.mem_singleton.mp hown] at hfield
    obtain ⟨r, hr, rfl⟩ := List.mem_map.mp hfield
    exact (hmem r hr).1

mutual

theorem renderType_fields {name : String} : ∀ {schema : JsonSchema}, Decoded schema →
    ∀ {rendered}, renderType name schema = .ok rendered →
      ∀ declaration ∈ rendered.1, ∀ field ∈ declaration.fields, Rendering field
  | ⟨type, properties, required, items, default, description, closed⟩, hdecoded, rendered, h => by
    rw [renderType] at h
    split at h
    · split at h <;> (rw [← Except.ok.inj h]; intro _ hmem; cases hmem)
    · split at h
      · obtain ⟨schemas, hemit, rfl⟩ := except_map_eq_ok.mp h
        exact fields_of_emit (renderProperties_fields hdecoded.2.2.1) hemit
      · split at h
        · obtain ⟨inner, hitems, rfl⟩ := except_map_eq_ok.mp h
          have hfields := renderItems_fields hdecoded.2.2.2 hitems
          exact hfields
        · rw [← Except.ok.inj h]
          intro _ hmem
          cases hmem

theorem renderItems_fields {name : String} : ∀ {items : Option JsonSchema}, DecodedItems items →
    ∀ {rendered}, renderItems name items = .ok rendered →
      ∀ declaration ∈ rendered.1, ∀ field ∈ declaration.fields, Rendering field
  | none, _, _, h => by
    rw [← Except.ok.inj h]
    intro _ hmem
    cases hmem
  | some schema, hdecoded, _, h => @renderType_fields name schema hdecoded _ h

theorem renderProperties_fields {name : String} {required : List String} :
    ∀ {properties : List (String × JsonSchema)}, DecodedProperties properties →
      ∀ property ∈ renderProperties name required properties, ∀ rendered, property.2 = .ok rendered →
        Rendering rendered.2 ∧ ∀ declaration ∈ rendered.1, ∀ field ∈ declaration.fields, Rendering field
  | [], _, _, h => absurd h List.not_mem_nil
  | (key, schema) :: properties, hdecoded, property, h => by
    rw [renderProperties] at h
    rcases List.mem_cons.mp h with rfl | h
    · intro rendered heq
      simp only at heq
      split at heq
      · obtain ⟨inner, hinner, rfl⟩ := except_map_eq_ok.mp heq
        exact ⟨⟨hdecoded.1, _, _, hinner⟩, renderType_fields hdecoded.1 hinner⟩
      · cases heq
    · exact renderProperties_fields hdecoded.2 property h

end

/-- Every emitted attribute has the type that its property's schema renders to. -/
theorem declarations_rendering {schema : Schema} {schemas : List Declaration}
    (h : declarations schema = .ok (some schemas)) :
    ∀ declaration ∈ schemas, ∀ field ∈ declaration.fields, Rendering field := by
  rw [declarations] at h
  split at h
  · cases h
  · obtain ⟨emitted, hemit, heq⟩ := except_map_eq_ok.mp h
    obtain rfl := Option.some.inj heq
    have hdecoded := schema.decoded
    obtain ⟨root, _⟩ := schema
    exact fields_of_emit (renderProperties_fields (by cases root; exact hdecoded.2.2.1)) hemit

end Akua.ValuesSchema
