import Akua.Lib.Table
import Mathlib.Data.Rat.Defs

/-! JSON documents, and what it means for one to be valid under a schema (draft 2020-12). A schema is
    itself a document: `true`, `false` or an object of keywords. Each keyword has an operand (plain
    data, or subschemas) and is applied by itself, beside what it reads of its neighbours; the
    `unevaluated` keywords come last, over what the others have evaluated. References may lead round
    in circles, so evaluation has fuel, and a document is valid when some amount of it suffices. -/

inductive Json where
  | null
  | bool (value : Bool)
  | number (value : Rat)
  | string (value : String)
  | array (values : List Json)
  | object (entries : List (String × Json))

namespace Json

mutual

/-- Equality of documents: the order of an object's entries does not matter. -/
def same : Json → Json → Bool
  | .null, .null => true
  | .bool a, .bool b => a == b
  | .number a, .number b => a == b
  | .string a, .string b => a == b
  | .array a, .array b => sameAll a b
  | .object a, .object b => a.length == b.length && sameEntries a b
  | _, _ => false

def sameAll : List Json → List Json → Bool
  | [], [] => true
  | a :: as, b :: bs => same a b && sameAll as bs
  | _, _ => false

/-- Each entry has one of its key and value in `others`. -/
def sameEntries : List (String × Json) → List (String × Json) → Bool
  | [], _ => true
  | (key, value) :: entries, others =>
    (match others.lookup key with
      | some other => same value other
      | none => false) && sameEntries entries others

end

/-- The strings of an array. -/
def strings : Json → List String
  | .array values => values.filterMap fun
    | .string value => some value
    | _ => none
  | _ => []

end Json

namespace JsonSchema

/-! ### Keywords -/

/-- The keywords that decide what is valid. -/
inductive Keyword where
  | type | enum | const
  | multipleOf | maximum | exclusiveMaximum | minimum | exclusiveMinimum
  | maxLength | minLength | pattern
  | maxItems | minItems | uniqueItems | maxContains | minContains
  | maxProperties | minProperties | required | dependentRequired
  | ref | allOf | anyOf | oneOf | notSchema | ifSchema | thenSchema | elseSchema | dependentSchemas
  | prefixItems | items | contains
  | properties | patternProperties | additionalProperties | propertyNames
  | unevaluatedItems | unevaluatedProperties
deriving DecidableEq

namespace Keyword

def name : Keyword → String
  | type => "type"
  | enum => "enum"
  | const => "const"
  | multipleOf => "multipleOf"
  | maximum => "maximum"
  | exclusiveMaximum => "exclusiveMaximum"
  | minimum => "minimum"
  | exclusiveMinimum => "exclusiveMinimum"
  | maxLength => "maxLength"
  | minLength => "minLength"
  | pattern => "pattern"
  | maxItems => "maxItems"
  | minItems => "minItems"
  | uniqueItems => "uniqueItems"
  | maxContains => "maxContains"
  | minContains => "minContains"
  | maxProperties => "maxProperties"
  | minProperties => "minProperties"
  | required => "required"
  | dependentRequired => "dependentRequired"
  | ref => "$ref"
  | allOf => "allOf"
  | anyOf => "anyOf"
  | oneOf => "oneOf"
  | notSchema => "not"
  | ifSchema => "if"
  | thenSchema => "then"
  | elseSchema => "else"
  | dependentSchemas => "dependentSchemas"
  | prefixItems => "prefixItems"
  | items => "items"
  | contains => "contains"
  | properties => "properties"
  | patternProperties => "patternProperties"
  | additionalProperties => "additionalProperties"
  | propertyNames => "propertyNames"
  | unevaluatedItems => "unevaluatedItems"
  | unevaluatedProperties => "unevaluatedProperties"

/-- What stands under a keyword. -/
inductive Kind where
  | data
  | reference
  | schema
  | schemas
  | schemaMap

def kind : Keyword → Kind
  | ref => .reference
  | notSchema | ifSchema | thenSchema | elseSchema | items | contains | additionalProperties
  | propertyNames | unevaluatedItems | unevaluatedProperties => .schema
  | allOf | anyOf | oneOf | prefixItems => .schemas
  | dependentSchemas | properties | patternProperties => .schemaMap
  | _ => .data

/-- The keywords that are applied before the `unevaluated` ones. -/
def evaluated : List Keyword :=
  [type, enum, const, multipleOf, maximum, exclusiveMaximum, minimum, exclusiveMinimum, maxLength,
    minLength, pattern, maxItems, minItems, uniqueItems, maxProperties, minProperties, required,
    dependentRequired, ref, allOf, anyOf, oneOf, notSchema, ifSchema, dependentSchemas, prefixItems,
    items, contains, properties, patternProperties, additionalProperties, propertyNames]

end Keyword

/-! ### Outcomes -/

/-- What evaluation says about an instance: whether it is valid, and which of its properties and items
    a subschema was applied to. -/
structure Outcome where
  valid : Bool
  properties : List String
  items : List Nat

namespace Outcome

def of (valid : Bool) : Outcome := ⟨valid, [], []⟩

/-- Both hold; everything either evaluated is evaluated. -/
def and (a b : Outcome) : Outcome :=
  ⟨a.valid && b.valid, a.properties ++ b.properties, a.items ++ b.items⟩

def all (outcomes : List Outcome) : Outcome := outcomes.foldl and (of true)

/-- What an invalid subschema evaluated does not count. -/
def credited (a : Outcome) : Outcome := if a.valid then a else of true

end Outcome

/-- How a schema treats an instance; nothing, when the fuel runs out or a reference leads nowhere. -/
abbrev Evaluator := Json → Option Outcome

/-- What stands under a keyword, with its subschemas evaluated. -/
inductive Operand where
  | data (value : Json)
  | one (evaluator : Evaluator)
  | many (evaluators : List Evaluator)
  | named (evaluators : List (String × Evaluator))
  /-- Not what the keyword takes. -/
  | malformed

/-! ### Assertions about plain data -/

def hasType (instance' : Json) (type : String) : Bool :=
  match instance' with
  | .null => type == "null"
  | .bool _ => type == "boolean"
  | .number value => type == "number" || (type == "integer" && value.den == 1)
  | .string _ => type == "string"
  | .array _ => type == "array"
  | .object _ => type == "object"

def ofAnyType (instance' : Json) : Json → Bool
  | .string type => hasType instance' type
  | .array types => types.any fun
    | .string type => hasType instance' type
    | _ => false
  | _ => true

/-- A bound on a number. -/
def bounded (holds : Rat → Rat → Bool) (instance' bound : Json) : Bool :=
  match instance', bound with
  | .number value, .number bound => holds value bound
  | _, _ => true

/-- A bound on how many there are of something, where there is any of it. -/
def counted (count : Json → Option Nat) (holds : Rat → Rat → Bool) (instance' bound : Json) : Bool :=
  match count instance', bound with
  | some n, .number bound => holds n bound
  | _, _ => true

def lengthOf : Json → Option Nat
  | .string value => some value.length
  | _ => none

def itemCount : Json → Option Nat
  | .array values => some values.length
  | _ => none

def propertyCount : Json → Option Nat
  | .object entries => some entries.length
  | _ => none

def hasProperty (instance' : Json) (property : String) : Bool :=
  match instance' with
  | .object entries => (entries.lookup property).isSome
  | _ => true

def distinct : List Json → Bool
  | [] => true
  | value :: values => values.all (fun other => !value.same other) && distinct values

/-- A keyword that takes plain data. `regex` says which strings match a pattern. -/
def assertion (regex : String → String → Bool) (instance' : Json) : Keyword → Json → Bool
  | .type, value => ofAnyType instance' value
  | .enum, .array values => values.any instance'.same
  | .const, value => instance'.same value
  | .multipleOf, value => bounded (fun a b => (a / b).den == 1) instance' value
  | .maximum, value => bounded (fun a b => a ≤ b) instance' value
  | .exclusiveMaximum, value => bounded (fun a b => a < b) instance' value
  | .minimum, value => bounded (fun a b => b ≤ a) instance' value
  | .exclusiveMinimum, value => bounded (fun a b => b < a) instance' value
  | .maxLength, value => counted lengthOf (fun a b => a ≤ b) instance' value
  | .minLength, value => counted lengthOf (fun a b => b ≤ a) instance' value
  | .pattern, .string pattern =>
    match instance' with
    | .string value => regex pattern value
    | _ => true
  | .maxItems, value => counted itemCount (fun a b => a ≤ b) instance' value
  | .minItems, value => counted itemCount (fun a b => b ≤ a) instance' value
  | .uniqueItems, .bool true =>
    match instance' with
    | .array values => distinct values
    | _ => true
  | .maxProperties, value => counted propertyCount (fun a b => a ≤ b) instance' value
  | .minProperties, value => counted propertyCount (fun a b => b ≤ a) instance' value
  | .required, value => value.strings.all (hasProperty instance')
  | .dependentRequired, .object entries =>
    entries.all fun entry => !(match instance' with
      | .object properties => (properties.lookup entry.1).isSome
      | _ => false) || entry.2.strings.all (hasProperty instance')
  | _, _ => true

/-! ### Applying subschemas -/

/-- Apply a schema to properties that are named, and count them as evaluated. -/
def onProperties (entries : List (String × Json)) (evaluator : Evaluator) : Option Outcome := do
  let outcomes ← entries.mapM fun entry => evaluator entry.2
  some ⟨outcomes.all Outcome.valid, entries.map Prod.fst, []⟩

/-- Apply a schema to the items from `start`. -/
def onItems (start : Nat) (values : List Json) (evaluator : Evaluator) : Option Outcome := do
  let outcomes ← values.mapM evaluator
  some ⟨outcomes.all Outcome.valid, [], (List.range values.length).map (start + ·)⟩

section Application

variable (regex : String → String → Bool) (operand : Keyword → Option Operand) (instance' : Json)

/-- The patterns and names that `additionalProperties` leaves alone. -/
def namedProperties : List String :=
  match operand .properties with
  | some (.named schemas) => schemas.map Prod.fst
  | _ => []

def namedPatterns : List String :=
  match operand .patternProperties with
  | some (.named schemas) => schemas.map Prod.fst
  | _ => []

def prefixLength : Nat :=
  match operand .prefixItems with
  | some (.many schemas) => schemas.length
  | _ => 0

/-- A bound on how many items `contains` finds. -/
def containsBound (keyword : Keyword) : Option Rat :=
  match operand keyword with
  | some (.data (.number bound)) => some bound
  | _ => none

/-- One keyword that takes one schema. -/
def applyOne (schema : Evaluator) : Keyword → Option Outcome
  | .ref => schema instance'
  | .notSchema => do
    let outcome ← schema instance'
    some (.of !outcome.valid)
  | .ifSchema => do
    let condition ← schema instance'
    match operand (if condition.valid then .thenSchema else .elseSchema) with
    | some (.one branch) => do
      let outcome ← branch instance'
      some (condition.credited.and outcome)
    | _ => some condition.credited
  | .items =>
    match instance' with
    | .array values =>
      onItems (prefixLength operand) (values.drop (prefixLength operand)) schema
    | _ => some (.of true)
  | .contains =>
    match instance' with
    | .array values => do
      let outcomes ← values.mapM schema
      let found := (List.range values.length).filter fun i => ((outcomes.map Outcome.valid)[i]?).getD false
      let enough := ((containsBound operand .minContains).getD 1) ≤ (found.length : Rat)
      let few := match containsBound operand .maxContains with
        | some most => decide ((found.length : Rat) ≤ most)
        | none => true
      some ⟨decide enough && few, [], found⟩
    | _ => some (.of true)
  | .additionalProperties =>
    match instance' with
    | .object entries => onProperties (entries.filter fun entry =>
        entry.1 ∉ namedProperties operand &&
          (namedPatterns operand).all fun pattern => !regex pattern entry.1) schema
    | _ => some (.of true)
  | .propertyNames =>
    match instance' with
    | .object entries => do
      let outcomes ← entries.mapM fun entry => schema (.string entry.1)
      some (.of (outcomes.all Outcome.valid))
    | _ => some (.of true)
  | _ => some (.of true)

/-- One keyword that takes a list of schemas. -/
def applyMany (schemas : List Evaluator) : Keyword → Option Outcome
  | .allOf => do
    let outcomes ← schemas.mapM fun schema => schema instance'
    some (.all outcomes)
  | .anyOf => do
    let outcomes ← schemas.mapM fun schema => schema instance'
    some ((Outcome.of (outcomes.any Outcome.valid)).and (.all (outcomes.map Outcome.credited)))
  | .oneOf => do
    let outcomes ← schemas.mapM fun schema => schema instance'
    some ((Outcome.of (outcomes.countP Outcome.valid == 1)).and (.all (outcomes.map Outcome.credited)))
  | .prefixItems =>
    match instance' with
    | .array values => do
      let outcomes ← (schemas.zip values).mapM fun pair => pair.1 pair.2
      some ⟨outcomes.all Outcome.valid, [], List.range outcomes.length⟩
    | _ => some (.of true)
  | _ => some (.of true)

/-- One keyword that takes schemas by name. -/
def applyNamed (schemas : List (String × Evaluator)) : Keyword → Option Outcome
  | .dependentSchemas =>
    match instance' with
    | .object entries => do
      let outcomes ← (schemas.filter fun schema => (entries.lookup schema.1).isSome).mapM fun schema =>
        schema.2 instance'
      some (.all outcomes)
    | _ => some (.of true)
  | .properties =>
    match instance' with
    | .object entries => do
      let outcomes ← schemas.mapM fun schema =>
        onProperties (entries.filter fun entry => entry.1 == schema.1) schema.2
      some (.all outcomes)
    | _ => some (.of true)
  | .patternProperties =>
    match instance' with
    | .object entries => do
      let outcomes ← schemas.mapM fun schema =>
        onProperties (entries.filter fun entry => regex schema.1 entry.1) schema.2
      some (.all outcomes)
    | _ => some (.of true)
  | _ => some (.of true)

/-- What a keyword says of the instance; one that is absent or malformed says nothing. -/
def apply (keyword : Keyword) : Option Outcome :=
  match operand keyword with
  | some (.data value) => some (.of (assertion regex instance' keyword value))
  | some (.one schema) => applyOne regex operand instance' schema keyword
  | some (.many schemas) => applyMany instance' schemas keyword
  | some (.named schemas) => applyNamed regex instance' schemas keyword
  | some .malformed => some (.of true)
  | none => some (.of true)

/-- The items that nothing has evaluated yet. -/
def applyUnevaluatedItems (sofar : Outcome) : Option Outcome :=
  match operand .unevaluatedItems, instance' with
  | some (.one schema), .array values => do
    let rest := (List.range values.length).filter fun i => i ∉ sofar.items
    let outcomes ← (rest.filterMap fun i => values[i]?).mapM schema
    some (sofar.and ⟨outcomes.all Outcome.valid, [], rest⟩)
  | _, _ => some sofar

/-- The properties that nothing has evaluated yet. -/
def applyUnevaluatedProperties (sofar : Outcome) : Option Outcome :=
  match operand .unevaluatedProperties, instance' with
  | some (.one schema), .object entries => do
    let outcome ← onProperties (entries.filter fun entry => entry.1 ∉ sofar.properties) schema
    some (sofar.and outcome)
  | _, _ => some sofar

/-- What all keywords of a schema say of the instance. -/
def combine : Option Outcome := do
  let outcomes ← Keyword.evaluated.mapM (apply regex operand instance')
  let outcome ← applyUnevaluatedItems operand instance' (.all outcomes)
  applyUnevaluatedProperties operand instance' outcome

end Application

/-! ### Evaluation -/

/-- What stands under a keyword, with `evaluate` for its subschemas and `resolve` for what it
    refers to. -/
def Keyword.Kind.operand (evaluate : Json → Evaluator) (resolve : String → Evaluator) :
    Keyword.Kind → Json → Operand
  | .data, value => .data value
  | .reference, .string name => .one (resolve name)
  | .schema, value => .one (evaluate value)
  | .schemas, .array values => .many (values.map evaluate)
  | .schemaMap, .object entries => .named (entries.map fun entry => (entry.1, evaluate entry.2))
  | _, _ => .malformed

/-- The operands of a schema's keywords, by what stands under them. -/
def operands (evaluate : Json → Evaluator) (documents : String → Option Json)
    (under : Keyword → Option Json) (keyword : Keyword) : Option Operand :=
  (under keyword).map (keyword.kind.operand evaluate fun reference =>
    match documents reference with
    | some target => evaluate target
    | none => fun _ => none)

/-- Evaluate an instance under a schema; `documents` are the schemas that references name. -/
def evaluate (regex : String → String → Bool) (documents : String → Option Json) :
    Nat → Json → Evaluator
  | 0, _ => fun _ => none
  | fuel + 1, schema =>
    match schema with
    | .bool valid => fun _ => some (.of valid)
    | .object entries => combine regex (operands (evaluate regex documents fuel) documents
        fun keyword => entries.lookup keyword.name)
    | _ => fun _ => none

/-- Evaluation comes to an end and says whether the instance is valid. -/
def Says (outcome : Option Outcome) (valid : Bool) : Prop := ∃ o, outcome = some o ∧ o.valid = valid

/-- The instance is valid under the schema: with enough fuel, that is what evaluation says. -/
def Valid (regex : String → String → Bool) (documents : String → Option Json) (schema instance' : Json) :
    Prop :=
  ∃ enough, ∀ fuel, enough ≤ fuel → Says (evaluate regex documents fuel schema instance') true

theorem says_of (valid : Bool) : Says (some (.of valid)) valid := ⟨_, rfl, rfl⟩

theorem Says.of_eq {outcome : Option Outcome} {a b : Bool} (h : Says outcome a) (he : a = b) :
    Says outcome b := he ▸ h

theorem Says.unique {outcome : Option Outcome} {a b : Bool} (ha : Says outcome a) (hb : Says outcome b) :
    a = b := by
  obtain ⟨o, rfl, rfl⟩ := ha
  obtain ⟨o', ho, rfl⟩ := hb
  rw [Option.some.inj ho]

theorem valid_iff {regex : String → String → Bool} {documents : String → Option Json}
    {schema instance' : Json} {valid : Bool} {enough : Nat}
    (h : ∀ fuel, enough ≤ fuel → Says (evaluate regex documents fuel schema instance') valid) :
    Valid regex documents schema instance' ↔ valid = true := by
  constructor
  · rintro ⟨more, hmore⟩
    exact (h (max enough more) (le_max_left ..)).unique (hmore _ (le_max_right ..))
  · rintro rfl
    exact ⟨enough, h⟩

/-! ### What the keywords say -/

theorem foldl_and_valid (outcomes : List Outcome) (start : Outcome) :
    (outcomes.foldl Outcome.and start).valid = (start.valid && outcomes.all Outcome.valid) := by
  induction outcomes generalizing start with
  | nil => simp
  | cons outcome outcomes ih =>
    rw [List.foldl_cons, ih, List.all_cons, Outcome.and, Bool.and_assoc]

@[simp] theorem all_valid (outcomes : List Outcome) :
    (Outcome.all outcomes).valid = outcomes.all Outcome.valid := by
  rw [Outcome.all, foldl_and_valid]
  simp [Outcome.of]

/-- A list of evaluations that all come to an end. -/
theorem says_mapM {α : Type} {f : α → Option Outcome} {p : α → Bool} {l : List α}
    (h : ∀ a ∈ l, Says (f a) (p a)) :
    ∃ outcomes, l.mapM f = some outcomes ∧ outcomes.map Outcome.valid = l.map p := by
  induction l with
  | nil => exact ⟨[], rfl, rfl⟩
  | cons a l ih =>
    obtain ⟨⟨first, hfirst, hvalid⟩, hall⟩ := List.forall_mem_cons.mp h
    obtain ⟨rest, hrest, hvalids⟩ := ih hall
    exact ⟨first :: rest, by simp [hfirst, hrest], by simp [hvalid, hvalids]⟩

theorem all_of_map {α : Type} {p : α → Bool} {l : List α} {outcomes : List Outcome}
    (h : outcomes.map Outcome.valid = l.map p) : outcomes.all Outcome.valid = l.all p := by
  have hall := congrArg (fun bools : List Bool => bools.all id) h
  simpa [List.all_map] using hall

/-- A list of evaluations that must all be valid. -/
theorem says_each {α : Type} {f : α → Option Outcome} {p : α → Bool} {l : List α}
    {build : List Outcome → Outcome}
    (hbuild : ∀ outcomes, (build outcomes).valid = outcomes.all Outcome.valid)
    (h : ∀ a ∈ l, Says (f a) (p a)) :
    Says ((l.mapM f).bind fun outcomes => some (build outcomes)) (l.all p) := by
  obtain ⟨outcomes, houtcomes, hvalid⟩ := says_mapM h
  exact ⟨build outcomes, by rw [houtcomes]; rfl, (hbuild outcomes).trans (all_of_map hvalid)⟩

section Keywords

variable {regex : String → String → Bool} {operand : Keyword → Option Operand} {instance' : Json}

/-- Without `unevaluated` keywords, a schema says what its keywords say together. -/
theorem says_combine {p : Keyword → Bool} (hitems : operand .unevaluatedItems = none)
    (hproperties : operand .unevaluatedProperties = none)
    (h : ∀ keyword ∈ Keyword.evaluated, Says (apply regex operand instance' keyword) (p keyword)) :
    Says (combine regex operand instance') (Keyword.evaluated.all p) := by
  rw [combine]
  simp only [applyUnevaluatedItems, hitems, applyUnevaluatedProperties, hproperties]
  exact says_each all_valid h

/-- A keyword that is absent says nothing. -/
theorem says_absent {keyword : Keyword} (h : operand keyword = none) :
    Says (apply regex operand instance' keyword) true := by
  rw [apply, h]
  exact says_of true

theorem says_assertion {keyword : Keyword} {v : Json} (h : operand keyword = some (.data v)) :
    Says (apply regex operand instance' keyword) (assertion regex instance' keyword v) := by
  rw [apply, h]
  exact says_of _

theorem says_onProperties {entries : List (String × Json)} {evaluator : Evaluator} {p : Json → Bool}
    (h : ∀ entry ∈ entries, Says (evaluator entry.2) (p entry.2)) :
    Says (onProperties entries evaluator) (entries.all fun entry => p entry.2) :=
  says_each (fun _ => rfl) h

theorem says_properties {α : Type} {l : List α} {n : α → String} {e : α → Evaluator}
    {entries : List (String × Json)} {p : α → Json → Bool}
    (h : operand .properties = some (.named (l.map fun a => (n a, e a))))
    (hp : ∀ a ∈ l, ∀ entry ∈ entries, Says (e a entry.2) (p a entry.2)) :
    Says (apply regex operand (.object entries) .properties)
      (l.all fun a => (entries.filter fun entry => entry.1 == n a).all fun entry => p a entry.2) := by
  rw [apply, h]
  simp only [applyNamed, List.mapM_map]
  refine says_each all_valid fun a ha => says_onProperties fun entry hentry => ?_
  exact hp a ha entry (List.mem_of_mem_filter hentry)

theorem says_items {schema : Evaluator} {values : List Json} {p : Json → Bool}
    (h : operand .items = some (.one schema)) (hnone : operand .prefixItems = none)
    (hp : ∀ value ∈ values, Says (schema value) (p value)) :
    Says (apply regex operand (.array values) .items) (values.all p) := by
  have hlength : prefixLength operand = 0 := by rw [prefixLength, hnone]
  rw [apply, h]
  simp only [applyOne, hlength, List.drop_zero]
  exact says_each (fun _ => rfl) hp

theorem says_additionalProperties {schema : Evaluator} {entries : List (String × Json)} {p : Json → Bool}
    (h : operand .additionalProperties = some (.one schema)) (hnone : operand .properties = none)
    (hnone' : operand .patternProperties = none) (hp : ∀ entry ∈ entries, Says (schema entry.2) (p entry.2)) :
    Says (apply regex operand (.object entries) .additionalProperties) (entries.all fun entry => p entry.2) := by
  have hnames : namedProperties operand = [] := by rw [namedProperties, hnone]
  have hpatterns : namedPatterns operand = [] := by rw [namedPatterns, hnone']
  rw [apply, h]
  simp only [applyOne, hnames, hpatterns, List.not_mem_nil, not_false_eq_true, decide_true, List.all_nil,
    Bool.and_self, List.filter_true]
  exact says_onProperties hp

theorem countP_of_map {α : Type} {p : α → Bool} {l : List α} {outcomes : List Outcome}
    (h : outcomes.map Outcome.valid = l.map p) : outcomes.countP Outcome.valid = l.countP p := by
  have hcount := congrArg (fun bools : List Bool => bools.countP id) h
  simpa [List.countP_map] using hcount

theorem all_credited (outcomes : List Outcome) :
    (outcomes.map Outcome.credited).all Outcome.valid = true := by
  rw [List.all_map, List.all_eq_true]
  intro outcome _
  rw [Function.comp, Outcome.credited]
  by_cases hvalid : outcome.valid <;> simp [hvalid, Outcome.of]

/-- Exactly one of the schemas must accept. -/
theorem says_oneOf {α : Type} {l : List α} {e : α → Evaluator} {p : α → Bool}
    (h : operand .oneOf = some (.many (l.map e))) (hp : ∀ a ∈ l, Says (e a instance') (p a)) :
    Says (apply regex operand instance' .oneOf) (l.countP p == 1) := by
  obtain ⟨outcomes, houtcomes, hvalid⟩ := says_mapM hp
  rw [apply, h]
  simp only [applyMany, List.mapM_map]
  refine ⟨_, congrArg (fun o => Option.bind o _) houtcomes, ?_⟩
  rw [← countP_of_map hvalid, Outcome.and, all_valid, all_credited, Bool.and_true]
  rfl

end Keywords

/-! ### Schemas by their keywords -/

namespace Keyword

/-- The keyword of a name. -/
def all : List Keyword :=
  evaluated ++ [maxContains, minContains, thenSchema, elseSchema, unevaluatedItems, unevaluatedProperties]

theorem find_name (keyword : Keyword) : all.find? (fun other => other.name == keyword.name) = some keyword := by
  cases keyword <;> rfl

theorem name_injective {a b : Keyword} (h : a.name = b.name) : a = b :=
  Option.some.inj ((find_name a).symm.trans (h ▸ find_name b))

end Keyword

theorem lookup_names {p : List (Keyword × Json)} {n : List (String × Json)}
    (h : ∀ keyword : Keyword, n.lookup keyword.name = none) (keyword : Keyword) :
    (p.map (fun entry => (entry.1.name, entry.2)) ++ n).lookup keyword.name = p.lookup keyword := by
  induction p with
  | nil => exact h keyword
  | cons entry present ih =>
    rw [List.map_cons, List.cons_append, List.lookup_cons, ih]
    obtain ⟨other, value⟩ := entry
    rw [List.lookup_cons]
    by_cases h : keyword = other
    · subst h
      simp
    · have hname : keyword.name ≠ other.name := fun hn => h (Keyword.name_injective hn)
      rw [beq_false_of_ne h, beq_false_of_ne hname]

theorem lookup_absent {present : List (Keyword × Json)} {keyword : Keyword}
    (h : keyword ∉ present.map Prod.fst) : present.lookup keyword = none := by
  rw [List.lookup_eq_none_iff]
  rintro ⟨other, value⟩ hentry
  exact bne_iff_ne.mpr fun he => h (List.mem_map.mpr ⟨_, hentry, he.symm⟩)

/-- A schema says what the keywords found in it say together. -/
theorem says_lookups {regex : String → String → Bool} {documents : String → Option Json} {fuel : Nat}
    {instance' : Json} {entries : List (String × Json)} (present : List (Keyword × Json))
    (p : Keyword → Bool) (hkeys : ∀ entry ∈ present, entry.1 ∈ Keyword.evaluated)
    (hentries : ∀ keyword : Keyword, entries.lookup keyword.name = present.lookup keyword)
    (h : ∀ entry ∈ present, Says (apply regex (operands (evaluate regex documents fuel) documents
      fun keyword => present.lookup keyword) instance' entry.1) (p entry.1)) :
    Says (evaluate regex documents (fuel + 1) (.object entries) instance') (present.all fun entry => p entry.1) := by
  rw [evaluate]
  have hlookup : (fun keyword : Keyword => entries.lookup keyword.name) = fun keyword => present.lookup keyword :=
    funext hentries
  rw [hlookup]
  have habsent : ∀ keyword, keyword ∉ present.map Prod.fst → operands (evaluate regex documents fuel)
      documents (fun keyword => present.lookup keyword) keyword = none := by
    intro keyword hkeyword
    rw [operands, lookup_absent hkeyword]
    rfl
  have hsays : ∀ keyword ∈ Keyword.evaluated, Says (apply regex (operands (evaluate regex documents fuel)
      documents fun keyword => present.lookup keyword) instance' keyword)
      (decide (keyword ∉ present.map Prod.fst) || p keyword) := by
    intro keyword _
    by_cases hkeyword : keyword ∈ present.map Prod.fst
    · obtain ⟨entry, hentry, rfl⟩ := List.mem_map.mp hkeyword
      rw [decide_eq_false (not_not_intro hkeyword), Bool.false_or]
      exact h entry hentry
    · rw [decide_eq_true hkeyword, Bool.true_or]
      exact says_absent (habsent keyword hkeyword)
  have hall : (Keyword.evaluated.all fun keyword => decide (keyword ∉ present.map Prod.fst) || p keyword) =
      present.all fun entry => p entry.1 := by
    rw [Bool.eq_iff_iff, List.all_eq_true, List.all_eq_true]
    constructor
    · intro hevaluated entry hentry
      have hmem : entry.1 ∈ present.map Prod.fst := List.mem_map_of_mem hentry
      simpa [hmem] using hevaluated entry.1 (hkeys entry hentry)
    · intro hpresent keyword _
      by_cases hkeyword : keyword ∈ present.map Prod.fst
      · obtain ⟨entry, hentry, rfl⟩ := List.mem_map.mp hkeyword
        rw [hpresent entry hentry, Bool.or_true]
      · rw [decide_eq_true hkeyword, Bool.true_or]
  rw [← hall]
  refine says_combine (habsent _ fun hmem => ?_) (habsent _ fun hmem => ?_) hsays
  · obtain ⟨entry, hentry, he⟩ := List.mem_map.mp hmem
    exact absurd (he ▸ hkeys entry hentry) (by decide)
  · obtain ⟨entry, hentry, he⟩ := List.mem_map.mp hmem
    exact absurd (he ▸ hkeys entry hentry) (by decide)

/-- A schema made of keywords and of notes that are none. -/
theorem says_keywords {regex : String → String → Bool} {documents : String → Option Json} {fuel : Nat}
    {instance' : Json} (present : List (Keyword × Json)) (notes : List (String × Json))
    (p : Keyword → Bool) (hkeys : ∀ entry ∈ present, entry.1 ∈ Keyword.evaluated)
    (hnotes : ∀ keyword : Keyword, notes.lookup keyword.name = none)
    (h : ∀ entry ∈ present, Says (apply regex (operands (evaluate regex documents fuel) documents
      fun keyword => present.lookup keyword) instance' entry.1) (p entry.1)) :
    Says (evaluate regex documents (fuel + 1)
      (.object (present.map (fun entry => (entry.1.name, entry.2)) ++ notes)) instance')
      (present.all fun entry => p entry.1) :=
  says_lookups present p hkeys (lookup_names hnotes) h

end JsonSchema
