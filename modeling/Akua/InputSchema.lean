import Akua.Lib.JsonSchema

/-! The schema that is exported for a package's inputs. A KCL type is translated by recursion: a schema
    becomes an object, a union the exclusive `oneOf` of its branches. The branches of a KCL type may
    overlap, and there the exported schema refuses what the type takes. -/

namespace Akua.InputSchema

open JsonSchema

/-! ### KCL types -/

/-- A type as the KCL crate gives it. -/
structure KclType where
  type : String
  union_types : List KclType
  default : String
  schema_name : String
  properties : List (String × KclType)
  required : List String
  item : Option KclType

/-- What a type's name says. -/
inductive Kind where
  | schema | str | int | number | bool | list | dict | union | any
  | intLiteral (lit : String)
  | floatLiteral (lit : String)
  | boolLiteral (lit : String)
  | strLiteral (lit : String)
  | unknown

/-- `base(literal)`, taken apart. -/
def parseLiteralType (s : String) : Option (String × String) :=
  if '(' ∈ s.toList ∧ s.toList.getLast? = some ')' then
    some (String.ofList (s.toList.takeWhile (· ≠ '(')), String.ofList (s.toList.dropWhile (· ≠ '(')).tail.dropLast)
  else none

def kindOf : String → Kind
  | "schema" => .schema
  | "str" => .str
  | "int" => .int
  | "float" | "number" | "number_multiplier" => .number
  | "bool" => .bool
  | "list" => .list
  | "dict" => .dict
  | "union" => .union
  | "any" => .any
  | other =>
    match parseLiteralType other with
    | some ("int", lit) => .intLiteral lit
    | some ("float", lit) | some ("number", lit) => .floatLiteral lit
    | some ("bool", lit) => .boolLiteral lit
    | some ("str", lit) => .strLiteral lit
    | _ => .unknown

def KclType.kind (t : KclType) : Kind := kindOf t.type

/-! ### Texts -/

/-- An integer as text. -/
def integerOf (lit : String) : Option Int :=
  let natural (digits : List Char) : Option Nat :=
    if digits ≠ [] ∧ digits.all Char.isDigit then some (Nat.ofDigitChars 10 digits 0) else none
  match lit.toList with
  | '-' :: digits => (natural digits).map fun n => -(n : Int)
  | '+' :: digits => (natural digits).map Nat.cast
  | digits => (natural digits).map Nat.cast

/-- `lit.parse::<i64>()` -/
def i64Of (lit : String) : Option Int := (integerOf lit).filter fun n => -0x8000000000000000 ≤ n ∧ n < 0x8000000000000000

/-- The readers of the standard library and of serde. -/
structure Readers where
  /-- `lit.parse::<f64>()`, as the JSON of what is read: null, when it is not finite. -/
  float : String → Option Json
  /-- `serde_json::from_str` -/
  json : String → Option Json

def eqIgnoreAsciiCase (a b : String) : Bool := a.toList.map Char.toLower = b.toList.map Char.toLower

variable (R : Readers)

def kclDefaultToJson (default : String) : Json :=
  if default = "True" then .bool true
  else if default = "False" then .bool false
  else (R.json default).getD (.string default)

/-! ### The export -/

/-- What the syntax tree says of an attribute. -/
structure AttrAst where
  description : Option String
  x_ui : Option Json

structure SchemaAst where
  doc : Option String
  attrs : String → Option AttrAst

abbrev SchemaAstMap := String → Option SchemaAst

/-- A description of its own stays. -/
def describe (prop : List (String × Json)) : Option String → List (String × Json)
  | some desc => if (prop.lookup "description").isSome then prop else prop ++ [("description", .string desc)]
  | none => prop

def decorate (prop : List (String × Json)) : Option Json → List (String × Json)
  | some x_ui => Table.insert "x-ui" x_ui prop
  | none => prop

/-- The metadata of an attribute, beside its schema. -/
def annotate (prop : List (String × Json)) : Option AttrAst → List (String × Json)
  | some attr => decorate (describe prop attr.description) attr.x_ui
  | none => prop

variable (ast : SchemaAstMap)

def documented : Option String → List (String × Json)
  | some doc => [("description", .string doc)]
  | none => []

mutual

def kclTypeToJsonSchema : KclType → String → List (String × Json)
  | ⟨type, union_types, default, schema_name, properties, required, item⟩, attr_name =>
    (match kindOf type with
    | .schema =>
      let schema_ast := (ast schema_name).or (ast attr_name)
      [("type", .string "object")] ++
        documented (schema_ast.bind SchemaAst.doc) ++
        (if properties.isEmpty then [] else [("properties", .object (propertySchemas properties schema_ast))]) ++
        (if required.isEmpty then [] else [("required", .array (required.map .string))])
    | .str => [("type", .string "string")]
    | .int => [("type", .string "integer")]
    | .number => [("type", .string "number")]
    | .bool => [("type", .string "boolean")]
    | .list => [("type", .string "array")] ++
        (match item with
          | some item => [("items", .object (kclTypeToJsonSchema item attr_name))]
          | none => [])
    | .dict => [("type", .string "object")] ++
        (match item with
          | some val => [("additionalProperties", .object (kclTypeToJsonSchema val attr_name))]
          | none => [])
    | .union => if union_types.isEmpty then [] else [("oneOf", .array (variants union_types attr_name))]
    | .any => []
    | .intLiteral lit => [("type", .string "integer")] ++
        (match i64Of lit with
          | some n => [("const", .number n)]
          | none => [])
    | .floatLiteral lit => [("type", .string "number")] ++
        (match R.float lit with
          | some n => [("const", n)]
          | none => [])
    | .boolLiteral lit => [("type", .string "boolean"), ("const", .bool (eqIgnoreAsciiCase lit "true"))]
    | .strLiteral lit => [("type", .string "string"), ("const", .string lit)]
    | .unknown => [("x-akua-kcl-type", .string type)]) ++
    (if default = "" then [] else [("default", kclDefaultToJson R default)])

def variants : List KclType → String → List Json
  | [], _ => []
  | t :: ts, attr_name => .object (kclTypeToJsonSchema t attr_name) :: variants ts attr_name

def propertySchemas : List (String × KclType) → Option SchemaAst → List (String × Json)
  | [], _ => []
  | (name, t) :: rest, schema_ast =>
    (name, .object (annotate (kclTypeToJsonSchema t name) (schema_ast.bind fun s => s.attrs name))) ::
      propertySchemas rest schema_ast

end

/-! ### What a type takes -/

/-- The JSON values of a KCL type. An int is also a float, and an index signature may take the other
    attributes of a schema. -/
inductive Inhabits : KclType → Json → Prop where
  | schema {t : KclType} {entries : List (String × Json)} (h : t.kind = .schema)
      (hproperties : ∀ property ∈ t.properties, ∀ entry ∈ entries, entry.1 = property.1 → Inhabits property.2 entry.2)
      (hrequired : ∀ name ∈ t.required, (entries.lookup name).isSome) : Inhabits t (.object entries)
  | str {t : KclType} (h : t.kind = .str) (value : String) : Inhabits t (.string value)
  | int {t : KclType} (h : t.kind = .int) (n : Int) : Inhabits t (.number n)
  | number {t : KclType} (h : t.kind = .number) (value : Rat) : Inhabits t (.number value)
  | bool {t : KclType} (h : t.kind = .bool) (value : Bool) : Inhabits t (.bool value)
  | list {t : KclType} {values : List Json} (h : t.kind = .list)
      (hitems : ∀ item ∈ t.item, ∀ value ∈ values, Inhabits item value) : Inhabits t (.array values)
  | dict {t : KclType} {entries : List (String × Json)} (h : t.kind = .dict)
      (hvalues : ∀ item ∈ t.item, ∀ entry ∈ entries, Inhabits item entry.2) : Inhabits t (.object entries)
  | union {t branch : KclType} {value : Json} (h : t.kind = .union) (hbranch : branch ∈ t.union_types)
      (hvalue : Inhabits branch value) : Inhabits t value
  | any {t : KclType} (h : t.kind = .any) (value : Json) : Inhabits t value
  | intLiteral {t : KclType} {lit : String} {n : Int} (h : t.kind = .intLiteral lit) (hlit : integerOf lit = some n) :
      Inhabits t (.number n)
  | floatLiteral {t : KclType} {lit : String} {value : Rat} (h : t.kind = .floatLiteral lit)
      (hlit : R.float lit = some (.number value)) : Inhabits t (.number value)
  | boolLiteral {t : KclType} {lit : String} {value : Bool} (h : t.kind = .boolLiteral lit)
      (hlit : lit = if value then "True" else "False") : Inhabits t (.bool value)
  | strLiteral {t : KclType} {lit : String} (h : t.kind = .strLiteral lit) : Inhabits t (.string lit)
  | unknown {t : KclType} (h : t.kind = .unknown) (value : Json) : Inhabits t value

/-! ### What the export takes -/

def itemsOf : Json → Option (List Json)
  | .array values => some values
  | _ => none

def entriesOf : Json → Option (List (String × Json))
  | .object entries => some entries
  | _ => none

mutual

/-- The value is taken, with unions read as exclusive. -/
def fits : KclType → Json → Bool
  | ⟨type, union_types, _, _, properties, required, item⟩, value =>
    match kindOf type with
    | .schema => (entriesOf value).any fun entries =>
      fitsProperties properties entries && required.all fun name => (entries.lookup name).isSome
    | .str => hasType value "string"
    | .int => hasType value "integer"
    | .number => hasType value "number"
    | .bool => hasType value "boolean"
    | .list => (itemsOf value).any fun values => values.all fun value => fitsItem item value
    | .dict => (entriesOf value).any fun entries => entries.all fun entry => fitsItem item entry.2
    | .union => union_types.isEmpty || fitting union_types value == 1
    | .any => true
    | .intLiteral lit => hasType value "integer" && (i64Of lit).all fun n : Int => value.same (.number n)
    | .floatLiteral lit => hasType value "number" && (R.float lit).all fun n => value.same n
    | .boolLiteral lit => hasType value "boolean" && value.same (.bool (eqIgnoreAsciiCase lit "true"))
    | .strLiteral lit => hasType value "string" && value.same (.string lit)
    | .unknown => true

def fitsItem : Option KclType → Json → Bool
  | none, _ => true
  | some item, value => fits item value

/-- How many branches take the value. -/
def fitting : List KclType → Json → Nat
  | [], _ => 0
  | t :: ts, value => fitting ts value + if fits t value then 1 else 0

def fitsProperties : List (String × KclType) → List (String × Json) → Bool
  | [], _ => true
  | (name, t) :: rest, entries =>
    ((entries.filter fun entry => entry.1 == name).all fun entry => fits t entry.2) && fitsProperties rest entries

end

mutual

/-- Wherever a part of the value meets a union, exactly one branch takes it. -/
def settled : KclType → Json → Bool
  | ⟨type, union_types, _, _, properties, _, item⟩, value =>
    match kindOf type with
    | .schema => (entriesOf value).all fun entries => settledProperties properties entries
    | .list => (itemsOf value).all fun values => values.all fun value => settledItem item value
    | .dict => (entriesOf value).all fun entries => entries.all fun entry => settledItem item entry.2
    | .union => fitting R union_types value == 1
    | _ => true

def settledItem : Option KclType → Json → Bool
  | none, _ => true
  | some item, value => settled item value

def settledProperties : List (String × KclType) → List (String × Json) → Bool
  | [], _ => true
  | (name, t) :: rest, entries =>
    ((entries.filter fun entry => entry.1 == name).all fun entry => settled t entry.2) && settledProperties rest entries

end

mutual

/-- How deep the export goes. -/
def height : KclType → Nat
  | ⟨_, union_types, _, _, properties, _, item⟩ =>
    max (max (heightAll union_types) (heightProperties properties)) (heightItem item) + 1

def heightItem : Option KclType → Nat
  | none => 0
  | some item => height item

def heightAll : List KclType → Nat
  | [] => 0
  | t :: ts => max (height t) (heightAll ts)

def heightProperties : List (String × KclType) → Nat
  | [] => 0
  | (_, t) :: rest => max (height t) (heightProperties rest)

end

/-! ### Lists of types -/

section Lists

variable {R} {ast}

theorem fits_eq (t : KclType) (value : Json) : fits R t value =
    match t.kind with
    | .schema => (entriesOf value).any fun entries =>
      fitsProperties R t.properties entries && t.required.all fun name => (entries.lookup name).isSome
    | .str => hasType value "string"
    | .int => hasType value "integer"
    | .number => hasType value "number"
    | .bool => hasType value "boolean"
    | .list => (itemsOf value).any fun values => values.all fun value => fitsItem R t.item value
    | .dict => (entriesOf value).any fun entries => entries.all fun entry => fitsItem R t.item entry.2
    | .union => t.union_types.isEmpty || fitting R t.union_types value == 1
    | .any => true
    | .intLiteral lit => hasType value "integer" && (i64Of lit).all fun n : Int => value.same (.number n)
    | .floatLiteral lit => hasType value "number" && (R.float lit).all fun n => value.same n
    | .boolLiteral lit => hasType value "boolean" && value.same (.bool (eqIgnoreAsciiCase lit "true"))
    | .strLiteral lit => hasType value "string" && value.same (.string lit)
    | .unknown => true := by
  cases t
  rw [fits.eq_def]
  rfl

theorem settled_eq (t : KclType) (value : Json) : settled R t value =
    match t.kind with
    | .schema => (entriesOf value).all fun entries => settledProperties R t.properties entries
    | .list => (itemsOf value).all fun values => values.all fun value => settledItem R t.item value
    | .dict => (entriesOf value).all fun entries => entries.all fun entry => settledItem R t.item entry.2
    | .union => fitting R t.union_types value == 1
    | _ => true := by
  cases t
  rw [settled.eq_def]
  rfl

theorem variants_eq (ts : List KclType) (attr_name : String) :
    variants R ast ts attr_name = ts.map fun t => .object (kclTypeToJsonSchema R ast t attr_name) := by
  induction ts with
  | nil => rfl
  | cons t ts ih => rw [variants, ih, List.map_cons]

theorem propertySchemas_eq (properties : List (String × KclType)) (schema_ast : Option SchemaAst) :
    propertySchemas R ast properties schema_ast = properties.map fun property =>
      (property.1, .object (annotate (kclTypeToJsonSchema R ast property.2 property.1)
        (schema_ast.bind fun s => s.attrs property.1))) := by
  induction properties with
  | nil => rfl
  | cons property properties ih => rw [propertySchemas, ih, List.map_cons]

theorem fitting_eq (ts : List KclType) (value : Json) : fitting R ts value = ts.countP fun t => fits R t value := by
  induction ts with
  | nil => rfl
  | cons t ts ih => rw [fitting, ih, List.countP_cons]

theorem fitsProperties_eq (properties : List (String × KclType)) (entries : List (String × Json)) :
    fitsProperties R properties entries = properties.all fun property =>
      (entries.filter fun entry => entry.1 == property.1).all fun entry => fits R property.2 entry.2 := by
  induction properties with
  | nil => rfl
  | cons property properties ih => rw [fitsProperties, ih, List.all_cons]

theorem settledProperties_eq (properties : List (String × KclType)) (entries : List (String × Json)) :
    settledProperties R properties entries = properties.all fun property =>
      (entries.filter fun entry => entry.1 == property.1).all fun entry => settled R property.2 entry.2 := by
  induction properties with
  | nil => rfl
  | cons property properties ih => rw [settledProperties, ih, List.all_cons]

theorem height_le_heightAll {ts : List KclType} {t : KclType} (h : t ∈ ts) : height t ≤ heightAll ts := by
  induction ts with
  | nil => cases h
  | cons first ts ih =>
    rw [heightAll]
    rcases List.mem_cons.mp h with rfl | h
    · exact le_max_left _ _
    · exact (ih h).trans (le_max_right _ _)

theorem height_le_heightProperties {properties : List (String × KclType)} {property : String × KclType}
    (h : property ∈ properties) : height property.2 ≤ heightProperties properties := by
  induction properties with
  | nil => cases h
  | cons first properties ih =>
    rw [heightProperties]
    rcases List.mem_cons.mp h with rfl | h
    · exact le_max_left _ _
    · exact (ih h).trans (le_max_right _ _)

end Lists

/-- The parts of a type are less deep. -/
structure Shallow (n : Nat) (t : KclType) : Prop where
  union_types : ∀ branch ∈ t.union_types, height branch ≤ n
  properties : ∀ property ∈ t.properties, height property.2 ≤ n
  item : ∀ item ∈ t.item, height item ≤ n

theorem shallow_of_height {n : Nat} {t : KclType} (h : height t ≤ n + 1) : Shallow n t := by
  obtain ⟨type, union_types, default, schema_name, properties, required, item⟩ := t
  rw [height] at h
  have hmax := Nat.le_of_succ_le_succ h
  rw [Nat.max_le, Nat.max_le] at hmax
  obtain ⟨⟨hunion, hproperties⟩, hitem⟩ := hmax
  refine ⟨fun branch hmem => (height_le_heightAll hmem).trans hunion,
    fun property hmem => (height_le_heightProperties hmem).trans hproperties, fun inner hmem => ?_⟩
  obtain rfl : item = some inner := hmem
  exact hitem

/-! ### Notes -/

theorem name_ne_note (keyword : Keyword) :
    keyword.name ≠ "description" ∧ keyword.name ≠ "x-ui" ∧ keyword.name ≠ "default" ∧ keyword.name ≠ "x-akua-kcl-type" := by
  cases keyword <;> decide

theorem lookup_note {name : String} {value : Json} {entries : List (String × Json)} {keyword : Keyword}
    (h : keyword.name ≠ name) : (entries ++ [(name, value)]).lookup keyword.name = entries.lookup keyword.name := by
  rw [List.lookup_append, List.lookup_cons, beq_false_of_ne h, List.lookup_nil, Option.or_none]

theorem lookup_annotate (prop : List (String × Json)) (attr : Option AttrAst) (keyword : Keyword) :
    (annotate prop attr).lookup keyword.name = prop.lookup keyword.name := by
  obtain ⟨hdescription, hui, -⟩ := name_ne_note keyword
  have hdescribe (description : Option String) :
      (describe prop description).lookup keyword.name = prop.lookup keyword.name := by
    cases description with
    | none => rfl
    | some desc =>
      rw [describe]
      split
      · rfl
      · exact lookup_note hdescription
  have hdecorate (prop : List (String × Json)) (x_ui : Option Json) :
      (decorate prop x_ui).lookup keyword.name = prop.lookup keyword.name := by
    cases x_ui with
    | none => rfl
    | some x_ui => rw [decorate, Table.lookup_insert, if_neg hui]
  cases attr with
  | none => rfl
  | some attr => rw [annotate, hdecorate, hdescribe]

/-- Metadata do not matter to what a schema says. -/
theorem evaluate_annotate (regex : String → String → Bool) (documents : String → Option Json) (fuel : Nat)
    (prop : List (String × Json)) (attr : Option AttrAst) :
    evaluate regex documents fuel (.object (annotate prop attr)) = evaluate regex documents fuel (.object prop) := by
  cases fuel with
  | zero => rfl
  | succ fuel =>
    rw [evaluate, evaluate]
    simp only [lookup_annotate]

/-! ### The keywords of an export -/

/-- The keywords among what is exported. -/
def keywords (t : KclType) (attr_name : String) : List (Keyword × Json) :=
  match t.kind with
  | .schema => (.type, .string "object") ::
      ((if t.properties.isEmpty then [] else
          [(.properties, .object (propertySchemas R ast t.properties ((ast t.schema_name).or (ast attr_name))))]) ++
        (if t.required.isEmpty then [] else [(.required, .array (t.required.map .string))]))
  | .str => [(.type, .string "string")]
  | .int => [(.type, .string "integer")]
  | .number => [(.type, .string "number")]
  | .bool => [(.type, .string "boolean")]
  | .list => (.type, .string "array") ::
      (t.item.map fun item => (Keyword.items, Json.object (kclTypeToJsonSchema R ast item attr_name))).toList
  | .dict => (.type, .string "object") ::
      (t.item.map fun val => (Keyword.additionalProperties, Json.object (kclTypeToJsonSchema R ast val attr_name))).toList
  | .union => if t.union_types.isEmpty then [] else [(.oneOf, .array (variants R ast t.union_types attr_name))]
  | .any => []
  | .intLiteral lit => (.type, .string "integer") :: ((i64Of lit).map fun n : Int => (Keyword.const, Json.number n)).toList
  | .floatLiteral lit => (.type, .string "number") :: ((R.float lit).map fun n => (Keyword.const, n)).toList
  | .boolLiteral lit => [(.type, .string "boolean"), (.const, .bool (eqIgnoreAsciiCase lit "true"))]
  | .strLiteral lit => [(.type, .string "string"), (.const, .string lit)]
  | .unknown => []

section Evaluation

variable {R} {ast} {regex : String → String → Bool} {documents : String → Option Json}

theorem lookup_keywords (t : KclType) (attr_name : String) (keyword : Keyword) :
    (kclTypeToJsonSchema R ast t attr_name).lookup keyword.name = (keywords R ast t attr_name).lookup keyword := by
  obtain ⟨type, union_types, default, schema_name, properties, required, item⟩ := t
  obtain ⟨hdescription, -, hdefault, hunknown⟩ := name_ne_note keyword
  have hnone : (if default = "" then [] else [("default", kclDefaultToJson R default)]).lookup keyword.name = none := by
    split
    · rfl
    · rw [List.lookup_cons, beq_false_of_ne hdefault, List.lookup_nil]
  have hmap {present : List (Keyword × Json)} {entries : List (String × Json)}
      (h : entries = present.map fun entry => (entry.1.name, entry.2)) :
      entries.lookup keyword.name = present.lookup keyword := by
    have := lookup_names (p := present) (n := []) (fun _ => rfl) keyword
    rwa [List.append_nil, ← h] at this
  rw [kclTypeToJsonSchema.eq_def]
  dsimp only
  rw [List.lookup_append, hnone, Option.or_none, keywords, KclType.kind]
  dsimp only
  cases hkind : kindOf type with
  | schema =>
    dsimp only
    have hdoc : (documented (((ast schema_name).or (ast attr_name)).bind SchemaAst.doc)).lookup keyword.name = none := by
      cases ((ast schema_name).or (ast attr_name)).bind SchemaAst.doc with
      | none => rfl
      | some doc => rw [documented, List.lookup_cons, beq_false_of_ne hdescription, List.lookup_nil]
    rw [List.lookup_append, List.lookup_append, List.lookup_append, hdoc, Option.or_none,
      ← List.singleton_append (x := (Keyword.type, _)), List.lookup_append, List.lookup_append, Option.or_assoc]
    congr 1
    · exact hmap rfl
    · congr 1
      · split <;> exact hmap rfl
      · split <;> exact hmap rfl
  | list => cases item <;> exact hmap rfl
  | dict => cases item <;> exact hmap rfl
  | union =>
    dsimp only
    split <;> exact hmap rfl
  | intLiteral lit =>
    dsimp only
    cases i64Of lit <;> exact hmap rfl
  | floatLiteral lit =>
    dsimp only
    cases R.float lit <;> exact hmap rfl
  | unknown =>
    dsimp only
    rw [List.lookup_cons, beq_false_of_ne hunknown]
    rfl
  | _ => exact hmap rfl

/-- A schema of a `type` and other keywords. -/
theorem says_typed {t : KclType} {attr_name name : String} {rest : List (Keyword × Json)} {value : Json} {fuel : Nat}
    {b : Bool} (p : Keyword → Bool) (hkeywords : keywords R ast t attr_name = (.type, .string name) :: rest)
    (hrest : ∀ entry ∈ rest, entry.1 ∈ Keyword.evaluated ∧ entry.1 ≠ .type)
    (h : ∀ entry ∈ rest, Says (apply regex (operands (evaluate regex documents fuel) documents
      fun keyword => ((Keyword.type, Json.string name) :: rest).lookup keyword) value entry.1) (p entry.1))
    (hb : (hasType value name && rest.all fun entry => p entry.1) = b) :
    Says (evaluate regex documents (fuel + 1) (.object (kclTypeToJsonSchema R ast t attr_name)) value) b := by
  have hverdict : ∀ entry ∈ rest, (if entry.1 = .type then hasType value name else p entry.1) = p entry.1 :=
    fun entry hentry => if_neg (hrest entry hentry).2
  have hsays := @says_lookups regex documents fuel value (kclTypeToJsonSchema R ast t attr_name)
    ((.type, .string name) :: rest) (fun keyword => if keyword = .type then hasType value name else p keyword) ?_
    (fun keyword => hkeywords ▸ lookup_keywords t attr_name keyword) ?_
  · refine hsays.of_eq ?_
    rw [List.all_cons, if_pos rfl, ← hb, Bool.eq_iff_iff, Bool.and_eq_true, Bool.and_eq_true, List.all_eq_true,
      List.all_eq_true]
    exact and_congr_right fun _ => forall₂_congr fun entry hentry => by rw [hverdict entry hentry]
  · rintro entry (_ | ⟨_, hentry⟩)
    · exact List.mem_cons_self
    · exact (hrest entry hentry).1
  · rintro entry (_ | ⟨_, hentry⟩)
    · have htype : operands (evaluate regex documents fuel) documents
          (fun keyword => ((Keyword.type, Json.string name) :: rest).lookup keyword) .type = some (.data (.string name)) := rfl
      exact says_assertion htype
    · rw [hverdict entry hentry]
      exact h entry hentry

/-- A schema of a `type` alone. -/
theorem says_type {t : KclType} {attr_name name : String} {value : Json} {fuel : Nat}
    (hkeywords : keywords R ast t attr_name = [(.type, .string name)]) :
    Says (evaluate regex documents (fuel + 1) (.object (kclTypeToJsonSchema R ast t attr_name)) value)
      (hasType value name) :=
  says_typed (fun _ => true) hkeywords (by simp) (by simp) (by simp)

/-- A schema of a `type` and a literal. -/
theorem says_literal {t : KclType} {attr_name name : String} {literal value : Json} {fuel : Nat}
    (hkeywords : keywords R ast t attr_name = [(.type, .string name), (.const, literal)]) :
    Says (evaluate regex documents (fuel + 1) (.object (kclTypeToJsonSchema R ast t attr_name)) value)
      (hasType value name && value.same literal) := by
  refine says_typed (fun _ => value.same literal) hkeywords (by simp [Keyword.evaluated]) ?_ (by simp)
  intro entry hentry
  obtain rfl := List.mem_singleton.mp hentry
  exact says_assertion (v := literal) rfl

/-- The exports of a type's parts say what the parts take. -/
def PartsSay (R : Readers) (ast : SchemaAstMap) (regex : String → String → Bool) (documents : String → Option Json)
    (fuel : Nat) (t : KclType) : Prop :=
  ∀ part, (part ∈ t.union_types ∨ (∃ name, (name, part) ∈ t.properties) ∨ part ∈ t.item) → ∀ attr_name value,
    Says (evaluate regex documents fuel (.object (kclTypeToJsonSchema R ast part attr_name)) value) (fits R part value)

/-- A schema without keywords. -/
theorem says_nothing {t : KclType} {attr_name : String} {value : Json} {fuel : Nat}
    (hkeywords : keywords R ast t attr_name = []) :
    Says (evaluate regex documents (fuel + 1) (.object (kclTypeToJsonSchema R ast t attr_name)) value) true :=
  says_lookups [] (fun _ => true) (by simp) (fun keyword => hkeywords ▸ lookup_keywords t attr_name keyword) (by simp)

theorem says_list {t : KclType} {fuel : Nat} {attr_name : String} {value : Json}
    (hparts : PartsSay R ast regex documents fuel t) (hkind : t.kind = .list) :
    Says (evaluate regex documents (fuel + 1) (.object (kclTypeToJsonSchema R ast t attr_name)) value)
      ((itemsOf value).any fun values => values.all fun value => fitsItem R t.item value) := by
  cases hitem : t.item with
  | none =>
    have hkeywords : keywords R ast t attr_name = [(.type, .string "array")] := by
      rw [keywords, hkind, hitem]
      rfl
    refine (says_type hkeywords).of_eq ?_
    cases value <;> simp [hasType, itemsOf, fitsItem]
  | some item =>
    have hkeywords : keywords R ast t attr_name =
        [(.type, .string "array"), (.items, .object (kclTypeToJsonSchema R ast item attr_name))] := by
      rw [keywords, hkind, hitem]
      rfl
    refine says_typed (fun _ => (itemsOf value).all fun values => values.all fun value => fits R item value) hkeywords
      (by simp [Keyword.evaluated]) ?_ ?_
    · intro entry hentry
      obtain rfl := List.mem_singleton.mp hentry
      cases value with
      | array values => exact says_items rfl rfl fun value _ => hparts item (Or.inr (Or.inr hitem)) attr_name value
      | _ => exact says_of true
    · cases value <;> simp [hasType, itemsOf, fitsItem]

theorem says_dict {t : KclType} {fuel : Nat} {attr_name : String} {value : Json}
    (hparts : PartsSay R ast regex documents fuel t) (hkind : t.kind = .dict) :
    Says (evaluate regex documents (fuel + 1) (.object (kclTypeToJsonSchema R ast t attr_name)) value)
      ((entriesOf value).any fun entries => entries.all fun entry => fitsItem R t.item entry.2) := by
  cases hitem : t.item with
  | none =>
    have hkeywords : keywords R ast t attr_name = [(.type, .string "object")] := by
      rw [keywords, hkind, hitem]
      rfl
    refine (says_type hkeywords).of_eq ?_
    cases value <;> simp [hasType, entriesOf, fitsItem]
  | some item =>
    have hkeywords : keywords R ast t attr_name =
        [(.type, .string "object"), (.additionalProperties, .object (kclTypeToJsonSchema R ast item attr_name))] := by
      rw [keywords, hkind, hitem]
      rfl
    refine says_typed (fun _ => (entriesOf value).all fun entries => entries.all fun entry => fits R item entry.2) hkeywords
      (by simp [Keyword.evaluated]) ?_ ?_
    · intro entry hentry
      obtain rfl := List.mem_singleton.mp hentry
      cases value with
      | object entries =>
        exact says_additionalProperties rfl rfl rfl fun entry _ => hparts item (Or.inr (Or.inr hitem)) attr_name entry.2
      | _ => exact says_of true
    · cases value <;> simp [hasType, entriesOf, fitsItem]

theorem says_union {t : KclType} {fuel : Nat} {attr_name : String} {value : Json}
    (hparts : PartsSay R ast regex documents fuel t) (hkind : t.kind = .union) :
    Says (evaluate regex documents (fuel + 1) (.object (kclTypeToJsonSchema R ast t attr_name)) value)
      (t.union_types.isEmpty || fitting R t.union_types value == 1) := by
  cases hempty : t.union_types.isEmpty with
  | true => exact says_nothing (by rw [keywords, hkind]; simp only [hempty, if_true])
  | false =>
    have hkeywords : keywords R ast t attr_name = [(.oneOf, .array (variants R ast t.union_types attr_name))] := by
      rw [keywords, hkind]
      simp only [hempty, Bool.false_eq_true, if_false]
    rw [variants_eq] at hkeywords
    rw [Bool.false_or, fitting_eq]
    refine (says_lookups _ (fun _ => t.union_types.countP (fun branch => fits R branch value) == 1) ?_
      (fun keyword => hkeywords ▸ lookup_keywords t attr_name keyword) ?_).of_eq (by simp)
    · simp [Keyword.evaluated]
    · intro entry hentry
      obtain rfl := List.mem_singleton.mp hentry
      refine says_oneOf (l := t.union_types)
        (e := fun branch => evaluate regex documents fuel (.object (kclTypeToJsonSchema R ast branch attr_name))) ?_
        fun branch hbranch => hparts branch (Or.inl hbranch) attr_name value
      simp [operands, Keyword.kind, Keyword.Kind.operand]

/-- The verdict of the keywords of a schema. -/
def schemaVerdict (R : Readers) (t : KclType) (value : Json) (keyword : Keyword) : Bool :=
  (entriesOf value).all fun entries =>
    if keyword = .properties then fitsProperties R t.properties entries
    else t.required.all fun name => (entries.lookup name).isSome

theorem says_schemaProperties {t : KclType} {fuel : Nat} {value : Json} {schema_ast : Option SchemaAst}
    {operand : Keyword → Option Operand} (hparts : PartsSay R ast regex documents fuel t)
    (h : operand .properties = (some (.object (propertySchemas R ast t.properties schema_ast))).map
      (Keyword.kind .properties |>.operand (evaluate regex documents fuel) fun _ _ => none)) :
    Says (apply regex operand value .properties) (schemaVerdict R t value .properties) := by
  rw [propertySchemas_eq] at h
  have hnamed : operand .properties = some (.named (t.properties.map fun property =>
      (property.1, evaluate regex documents fuel (.object (kclTypeToJsonSchema R ast property.2 property.1))))) := by
    rw [h]
    simp [Keyword.kind, Keyword.Kind.operand, evaluate_annotate]
  cases value with
  | object entries =>
    refine (says_properties hnamed fun property hmem entry _ =>
      hparts property.2 (Or.inr (Or.inl ⟨property.1, hmem⟩)) property.1 entry.2).of_eq ?_
    rw [schemaVerdict, entriesOf, Option.all_some, if_pos rfl, fitsProperties_eq]
  | _ =>
    rw [apply, hnamed]
    exact says_of true

theorem says_schemaRequired {t : KclType} {value : Json} {operand : Keyword → Option Operand}
    (h : operand .required = some (.data (.array (t.required.map .string)))) :
    Says (apply regex operand value .required) (schemaVerdict R t value .required) := by
  refine (says_assertion h).of_eq ?_
  have hstrings : (Json.array (t.required.map .string)).strings = t.required := by
    simp [Json.strings, List.filterMap_map]
  cases value with
  | object entries =>
    rw [schemaVerdict, entriesOf, Option.all_some, if_neg (by decide), assertion, hstrings]
    rfl
  | _ => simp [schemaVerdict, entriesOf, assertion, hasProperty]

theorem says_schema {t : KclType} {fuel : Nat} {attr_name : String} {value : Json}
    (hparts : PartsSay R ast regex documents fuel t) (hkind : t.kind = .schema) :
    Says (evaluate regex documents (fuel + 1) (.object (kclTypeToJsonSchema R ast t attr_name)) value)
      ((entriesOf value).any fun entries =>
        fitsProperties R t.properties entries && t.required.all fun name => (entries.lookup name).isSome) := by
  have hkeywords : keywords R ast t attr_name = (.type, .string "object") ::
      ((if t.properties.isEmpty then [] else
          [(.properties, .object (propertySchemas R ast t.properties ((ast t.schema_name).or (ast attr_name))))]) ++
        (if t.required.isEmpty then [] else [(.required, .array (t.required.map .string))])) := by
    rw [keywords, hkind]
  have hverdict : (hasType value "object" && (schemaVerdict R t value .properties && schemaVerdict R t value .required)) =
      (entriesOf value).any fun entries =>
        fitsProperties R t.properties entries && t.required.all fun name => (entries.lookup name).isSome := by
    cases value <;> simp [schemaVerdict, entriesOf, hasType]
  have hnone : t.properties.isEmpty = true → schemaVerdict R t value .properties = true := by
    intro h
    simp [schemaVerdict, List.isEmpty_iff.mp h, fitsProperties]
  have hnone' : t.required.isEmpty = true → schemaVerdict R t value .required = true := by
    intro h
    simp [schemaVerdict, List.isEmpty_iff.mp h]
  rw [← hverdict]
  cases hproperties : t.properties.isEmpty <;> cases hrequired : t.required.isEmpty <;>
    simp only [hproperties, hrequired, Bool.false_eq_true, if_false, if_true, List.nil_append, List.append_nil,
      List.singleton_append] at hkeywords
  · refine says_typed (schemaVerdict R t value) hkeywords (by simp [Keyword.evaluated]) ?_ (by simp)
    rintro entry (_ | ⟨_, _ | ⟨_, ⟨⟩⟩⟩)
    · exact says_schemaProperties hparts rfl
    · exact says_schemaRequired rfl
  · refine says_typed (schemaVerdict R t value) hkeywords (by simp [Keyword.evaluated]) ?_ (by simp [hnone' hrequired])
    rintro entry (_ | ⟨_, ⟨⟩⟩)
    exact says_schemaProperties hparts rfl
  · refine says_typed (schemaVerdict R t value) hkeywords (by simp [Keyword.evaluated]) ?_ (by simp [hnone hproperties])
    rintro entry (_ | ⟨_, ⟨⟩⟩)
    exact says_schemaRequired rfl
  · refine (says_type hkeywords).of_eq ?_
    rw [hnone hproperties, hnone' hrequired, Bool.and_true, Bool.and_true]

theorem says_fits_step {t : KclType} {fuel : Nat} (hparts : PartsSay R ast regex documents fuel t) (attr_name : String)
    (value : Json) :
    Says (evaluate regex documents (fuel + 1) (.object (kclTypeToJsonSchema R ast t attr_name)) value) (fits R t value) := by
  rw [fits_eq]
  cases hkind : t.kind with
  | str => exact says_type (by rw [keywords, hkind])
  | int => exact says_type (by rw [keywords, hkind])
  | number => exact says_type (by rw [keywords, hkind])
  | bool => exact says_type (by rw [keywords, hkind])
  | boolLiteral lit => exact says_literal (by rw [keywords, hkind])
  | strLiteral lit => exact says_literal (by rw [keywords, hkind])
  | intLiteral lit =>
    cases hlit : i64Of lit with
    | none => exact (says_type (by rw [keywords, hkind]; simp only [hlit]; rfl)).of_eq (by simp [hlit])
    | some n => exact (says_literal (by rw [keywords, hkind]; simp only [hlit]; rfl)).of_eq (by simp [hlit])
  | floatLiteral lit =>
    cases hlit : R.float lit with
    | none => exact (says_type (by rw [keywords, hkind]; simp only [hlit]; rfl)).of_eq (by simp [hlit])
    | some n => exact (says_literal (by rw [keywords, hkind]; simp only [hlit]; rfl)).of_eq (by simp [hlit])
  | any => exact says_nothing (by rw [keywords, hkind])
  | unknown => exact says_nothing (by rw [keywords, hkind])
  | list => exact says_list hparts hkind
  | dict => exact says_dict hparts hkind
  | union => exact says_union hparts hkind
  | schema => exact says_schema hparts hkind

/-- The export of a type says what the type takes, when unions are read as exclusive. -/
theorem says_fits {n : Nat} {t : KclType} (h : height t ≤ n) {fuel : Nat} (hfuel : n ≤ fuel) (attr_name : String)
    (value : Json) :
    Says (evaluate regex documents fuel (.object (kclTypeToJsonSchema R ast t attr_name)) value) (fits R t value) := by
  induction n generalizing t fuel attr_name value with
  | zero =>
    cases t
    simp [height] at h
  | succ n ih =>
    cases fuel with
    | zero => omega
    | succ fuel =>
      have hshallow := shallow_of_height h
      have hle := Nat.le_of_succ_le_succ hfuel
      refine says_fits_step ?_ attr_name value
      rintro part (hpart | ⟨name, hpart⟩ | hpart) attr_name value
      · exact ih (hshallow.union_types part hpart) hle attr_name value
      · exact ih (hshallow.properties _ hpart) hle attr_name value
      · exact ih (hshallow.item part hpart) hle attr_name value

theorem valid_iff_fits {t : KclType} {attr_name : String} {value : Json} :
    Valid regex documents (.object (kclTypeToJsonSchema R ast t attr_name)) value ↔ fits R t value = true :=
  valid_iff fun _ hfuel => says_fits le_rfl hfuel attr_name value

end Evaluation

/-! ### What the type takes -/

theorem same_bool (a b : Bool) : (Json.bool a).same (.bool b) = (a == b) := by rw [Json.same]

theorem same_number (a b : Rat) : (Json.number a).same (.number b) = (a == b) := by rw [Json.same]

theorem same_string (a b : String) : (Json.string a).same (.string b) = (a == b) := by rw [Json.same]

theorem item_settled {item : Option KclType} {value : Json}
    (h : ∀ t ∈ item, fits R t value = settled R t value) : fitsItem R item value = settledItem R item value := by
  cases item with
  | none => rfl
  | some t => exact h t rfl

/-- A value that a type has is taken just when it is settled. -/
theorem fits_eq_settled {t : KclType} {value : Json} (h : Inhabits R t value) : fits R t value = settled R t value := by
  induction h with
  | schema hkind _ hrequired ih =>
    rw [fits_eq, settled_eq, hkind]
    simp only [entriesOf, Option.any_some, Option.all_some]
    rw [List.all_eq_true.mpr fun name hname => hrequired name hname, Bool.and_true, fitsProperties_eq, settledProperties_eq,
      Bool.eq_iff_iff]
    simp only [List.all_eq_true, List.mem_filter, beq_iff_eq]
    refine forall₂_congr fun property hproperty => forall₂_congr fun entry hentry => ?_
    rw [ih property hproperty entry hentry.1 hentry.2]
  | list hkind _ ih =>
    rw [fits_eq, settled_eq, hkind]
    simp only [itemsOf, Option.any_some, Option.all_some]
    rw [Bool.eq_iff_iff, List.all_eq_true, List.all_eq_true]
    refine forall₂_congr fun value hvalue => ?_
    rw [item_settled R fun item hitem => ih item hitem value hvalue]
  | dict hkind _ ih =>
    rw [fits_eq, settled_eq, hkind]
    simp only [entriesOf, Option.any_some, Option.all_some]
    rw [Bool.eq_iff_iff, List.all_eq_true, List.all_eq_true]
    refine forall₂_congr fun entry hentry => ?_
    rw [item_settled R fun item hitem => ih item hitem entry hentry]
  | union hkind hbranch _ _ =>
    rw [fits_eq, settled_eq, hkind]
    dsimp only
    rw [List.isEmpty_eq_false_iff.mpr (List.ne_nil_of_mem hbranch), Bool.false_or]
  | any hkind => rw [fits_eq, settled_eq, hkind]
  | unknown hkind => rw [fits_eq, settled_eq, hkind]
  | str hkind => rw [fits_eq, settled_eq, hkind]; rfl
  | int hkind => rw [fits_eq, settled_eq, hkind]; simp [hasType]
  | number hkind => rw [fits_eq, settled_eq, hkind]; simp [hasType]
  | bool hkind => rw [fits_eq, settled_eq, hkind]; rfl
  | @intLiteral t lit n hkind hlit =>
    rw [fits_eq, settled_eq, hkind]
    have hconst : (i64Of lit).all (fun m : Int => (Json.number n).same (.number m)) = true := by
      rw [i64Of, hlit, Option.all_eq_true]
      intro m hm
      obtain rfl : n = m := Option.some.inj (Option.mem_filter_iff.mp hm).1
      rw [same_number, beq_self_eq_true]
    simp [hasType, hconst]
  | @floatLiteral t lit value hkind hlit =>
    rw [fits_eq, settled_eq, hkind]
    simp [hasType, same_number, hlit]
  | @boolLiteral t lit value hkind hlit =>
    rw [fits_eq, settled_eq, hkind]
    subst hlit
    cases value
    · exact (Bool.and_eq_true _ _).mpr ⟨rfl, (same_bool ..).trans (by decide)⟩
    · exact (Bool.and_eq_true _ _).mpr ⟨rfl, (same_bool ..).trans (by decide)⟩
  | @strLiteral t lit hkind =>
    rw [fits_eq, settled_eq, hkind]
    simp [hasType, same_string]

/-- What a type takes is valid under its export just when, wherever a part of it meets a union, exactly one
    branch takes the part. -/
theorem input_valid_iff (regex : String → String → Bool) (documents : String → Option Json) (attr_name : String)
    {t : KclType} {value : Json} (h : Inhabits R t value) :
    Valid regex documents (.object (kclTypeToJsonSchema R ast t attr_name)) value ↔ settled R t value = true := by
  rw [← fits_eq_settled R h]
  exact valid_iff_fits

/-! ### Two unions -/

def simpleType (type : String) : KclType := ⟨type, [], "", "", [], [], none⟩

def unionType (names : List String) : KclType := ⟨"union", names.map simpleType, "", "", [], [], none⟩

/-- Readers that read nothing. -/
def noReaders : Readers := ⟨fun _ => none, fun _ => none⟩

/-- The branches of `str | int` do not overlap. -/
theorem str_or_int_valid :
    Valid (fun _ _ => true) (fun _ => none)
        (.object (kclTypeToJsonSchema noReaders (fun _ => none) (unionType ["str", "int"]) "Input")) (.number (5 : Int)) ↔
      settled noReaders (unionType ["str", "int"]) (.number (5 : Int)) = true :=
  input_valid_iff _ _ _ _ _ (.union rfl (List.mem_cons_of_mem _ List.mem_cons_self) (.int rfl 5))

/-- Those of `int | float` do: a whole number is refused. -/
theorem int_or_float_refused :
    Inhabits noReaders (unionType ["int", "float"]) (.number (1 : Int)) ∧
      ¬ Valid (fun _ _ => true) (fun _ => none)
        (.object (kclTypeToJsonSchema noReaders (fun _ => none) (unionType ["int", "float"]) "Input"))
        (.number (1 : Int)) := by
  refine ⟨.union rfl List.mem_cons_self (.int rfl 1), fun hvalid => ?_⟩
  exact absurd (valid_iff_fits.mp hvalid) (by decide)

end Akua.InputSchema
