import Akua.Lib.JsonSchema
import Akua.Lib.Text

/-! The component schemas of the public API description, cleaned for the generated contract. The
    cleaning treats every JSON object alike. Where an object maps property names to schemas, or is a
    literal of `const` or `enum`, a key is no keyword, but it is dropped like one; a schema that has
    no such key validates the same documents as before (`clean_valid_iff`). -/

namespace Akua.Contract

open JsonSchema

def COMPONENT_PREFIX : String := "#/components/schemas/"
def DEFINITION_PREFIX : String := "#/$defs/"

/-- Keywords that only document examples or vendor metadata. -/
def DROPPED_KEYWORD (key : String) : Bool :=
  key == "example" || key == "examples" || Text.startsWith key "x-"

/-- `cleaned[key] = ..` makes an entry; assigning `__proto__` makes none. -/
def assignable (key : String) : Bool := key != "__proto__"

/-- `key === '$ref' && Predicate.isString(value) && value.startsWith(COMPONENT_PREFIX)`. -/
def isComponentReference (key : String) : Json → Bool
  | .string value => key == "$ref" && Text.startsWith value COMPONENT_PREFIX
  | _ => false

def definitionReference : Json → Json
  | .string value => .string (DEFINITION_PREFIX ++ Text.after value COMPONENT_PREFIX)
  | value => value

mutual

/-- Keeps the validation keywords and descriptions, drops examples and vendor extensions, and points
    component references at the document's `$defs`. -/
def cleanSchema : List (String × Json) → List (String × Json)
  | [] => []
  | (key, value) :: schema =>
    if DROPPED_KEYWORD key then cleanSchema schema
    else if assignable key then
      (key, if isComponentReference key value then definitionReference value else cleanValue value) ::
        cleanSchema schema
    else cleanSchema schema

def cleanValue : Json → Json
  | .array values => .array (cleanValues values)
  | .object entries => .object (cleanSchema entries)
  | value => value

def cleanValues : List Json → List Json
  | [] => []
  | value :: values => cleanValue value :: cleanValues values

end

/-! ### What references name -/

/-- The definitions, as the API description refers to them. -/
def components (definitions : String → Option (List (String × Json))) (reference : String) : Option Json :=
  if Text.startsWith reference COMPONENT_PREFIX
  then (definitions (Text.after reference COMPONENT_PREFIX)).map Json.object
  else none

/-- The cleaned definitions, as the contract refers to them. -/
def contractDefinitions (definitions : String → Option (List (String × Json))) (reference : String) :
    Option Json :=
  if Text.startsWith reference DEFINITION_PREFIX
  then (definitions (Text.after reference DEFINITION_PREFIX)).map fun schema => .object (cleanSchema schema)
  else none

/-! ### Where the cleaning is right -/

/-- A key that the cleaning keeps. -/
def Survives (key : String) : Prop := DROPPED_KEYWORD key = false ∧ assignable key = true

/-- No reference to the contract's own definitions, and to these components only. -/
def PointsTo (names : String → Prop) : Json → Prop
  | .string reference => Text.startsWith reference DEFINITION_PREFIX = false ∧
    (Text.startsWith reference COMPONENT_PREFIX = true → names (Text.after reference COMPONENT_PREFIX))
  | _ => True

mutual

/-- All property names survive, no literal is changed, and references are to the components `names`. -/
def Kept (names : String → Prop) : Json → Prop
  | .object schema => KeptEntries names schema
  | _ => True

def KeptEntries (names : String → Prop) : List (String × Json) → Prop
  | [] => True
  | (key, value) :: schema =>
    (∀ keyword : Keyword, keyword.name = key →
      match keyword.kind with
      | .data => cleanValue value = value
      | .reference => PointsTo names value
      | .schema => Kept names value
      | .schemas => KeptItems names value
      | .schemaMap => KeptProperties names value) ∧ KeptEntries names schema

def KeptItems (names : String → Prop) : Json → Prop
  | .array schemas => KeptAll names schemas
  | _ => True

def KeptAll (names : String → Prop) : List Json → Prop
  | [] => True
  | schema :: schemas => Kept names schema ∧ KeptAll names schemas

def KeptProperties (names : String → Prop) : Json → Prop
  | .object schemas => KeptNamed names schemas
  | _ => True

def KeptNamed (names : String → Prop) : List (String × Json) → Prop
  | [] => True
  | (name, schema) :: schemas => Survives name ∧ Kept names schema ∧ KeptNamed names schemas

end

/-- What holds of the value under a keyword. -/
def KeptUnder (names : String → Prop) (keyword : Keyword) (value : Json) : Prop :=
  match keyword.kind with
  | .data => cleanValue value = value
  | .reference => PointsTo names value
  | .schema => Kept names value
  | .schemas => KeptItems names value
  | .schemaMap => KeptProperties names value

variable {names : String → Prop}

theorem kept_lookup {schema : List (String × Json)} (h : KeptEntries names schema) {keyword : Keyword}
    {value : Json} (hvalue : schema.lookup keyword.name = some value) : KeptUnder names keyword value := by
  induction schema with
  | nil => cases hvalue
  | cons entry schema ih =>
    obtain ⟨key, first⟩ := entry
    rw [KeptEntries] at h
    rw [List.lookup_cons] at hvalue
    by_cases hkey : keyword.name = key
    · simp only [hkey, beq_self_eq_true] at hvalue
      obtain rfl := Option.some.inj hvalue
      exact h.1 keyword hkey
    · rw [beq_false_of_ne hkey] at hvalue
      exact ih h.2 hvalue

theorem cleanValues_eq (values : List Json) : cleanValues values = values.map cleanValue := by
  induction values with
  | nil => rw [cleanValues, List.map_nil]
  | cons value values ih => rw [cleanValues, ih, List.map_cons]

theorem keptAll_iff {schemas : List Json} : KeptAll names schemas ↔ ∀ schema ∈ schemas, Kept names schema := by
  induction schemas with
  | nil => simp [KeptAll]
  | cons schema schemas ih => simp [KeptAll, ih]

/-- Every name of a map survives, so the cleaned map has the same names. -/
theorem cleanSchema_named {schemas : List (String × Json)} (h : KeptNamed names schemas) :
    (∀ entry ∈ schemas, Kept names entry.2) ∧
      cleanSchema schemas = schemas.map fun entry => (entry.1,
        if isComponentReference entry.1 entry.2 then definitionReference entry.2 else cleanValue entry.2) := by
  induction schemas with
  | nil =>
    rw [cleanSchema]
    simp
  | cons entry schemas ih =>
    obtain ⟨name, schema⟩ := entry
    rw [KeptNamed] at h
    obtain ⟨⟨hdropped, hassignable⟩, hkept, hrest⟩ := h
    obtain ⟨hall, heq⟩ := ih hrest
    rw [cleanSchema, hdropped, hassignable, heq]
    exact ⟨List.forall_mem_cons.mpr ⟨hkept, hall⟩, rfl⟩

/-- The cleaned value under a key. -/
theorem lookup_cleanSchema {schema : List (String × Json)} {key : String} (h : Survives key) :
    (cleanSchema schema).lookup key = (schema.lookup key).map fun value =>
      if isComponentReference key value then definitionReference value else cleanValue value := by
  induction schema with
  | nil =>
    rw [cleanSchema]
    rfl
  | cons entry schema ih =>
    obtain ⟨name, value⟩ := entry
    rw [cleanSchema, List.lookup_cons]
    by_cases hname : key = name
    · subst hname
      rw [h.1, h.2]
      simp
    · rw [beq_false_of_ne hname]
      by_cases hdropped : DROPPED_KEYWORD name
      · simp [hdropped, ih]
      · by_cases hassignable : assignable name
        · simp [hdropped, hassignable, List.lookup_cons, beq_false_of_ne hname, ih]
        · simp [hdropped, hassignable, ih]

/-- No keyword that decides what is valid is dropped. -/
theorem keyword_survives (keyword : Keyword) : Survives keyword.name := by
  cases keyword <;> exact ⟨by decide, by decide⟩

/-! ### Evaluation -/

section Evaluation

variable {regex : String → String → Bool} {definitions : String → Option (List (String × Json))}

/-- The cleaned entry of a key is evaluated like the cleaned value: a reference is no schema. -/
theorem evaluate_entry {documents : String → Option Json} {fuel : Nat} (key : String) (value : Json) :
    evaluate regex documents fuel
        (if isComponentReference key value then definitionReference value else cleanValue value) =
      evaluate regex documents fuel (cleanValue value) := by
  cases value with
  | string value =>
    cases fuel with
    | zero => rfl
    | succ fuel =>
      have hclean : cleanValue (.string value) = .string value := rfl
      rw [hclean]
      split <;> rfl
  | _ => rfl

/-- What a component reference names is what its rewriting names, cleaned. -/
theorem contractDefinitions_reference {reference : String}
    (h : Text.startsWith reference COMPONENT_PREFIX = true) :
    contractDefinitions definitions (DEFINITION_PREFIX ++ Text.after reference COMPONENT_PREFIX) =
      (components definitions reference).map cleanValue := by
  rw [contractDefinitions, Text.startsWith_append, if_pos rfl, Text.after_append, components, if_pos h]
  cases definitions (Text.after reference COMPONENT_PREFIX) with
  | none => rfl
  | some schema =>
    rw [Option.map_some, Option.map_some, Option.map_some, cleanValue]

theorem ref_of_kind {keyword : Keyword} (h : keyword.kind = .reference) : keyword = .ref := by
  cases keyword <;> first | rfl | cases h

theorem not_component_reference {keyword : Keyword} (h : keyword.kind ≠ .reference) {value : Json} :
    isComponentReference keyword.name value = false := by
  have hname : (keyword.name == "$ref") = false := by
    cases keyword <;> first | rfl | exact absurd rfl h
  cases value <;> simp [isComponentReference, hname]

/-- The operands of a keyword before and after the cleaning. -/
theorem operand_clean {before after : Json → Evaluator} {resolve resolve' : String → Evaluator}
    (hkept : ∀ schema, Kept names schema → before schema = after (cleanValue schema))
    (hentry : ∀ key value, after (if isComponentReference key value then definitionReference value
      else cleanValue value) = after (cleanValue value))
    (hresolve : ∀ reference, PointsTo names (.string reference) → resolve reference =
      if Text.startsWith reference COMPONENT_PREFIX
      then resolve' (DEFINITION_PREFIX ++ Text.after reference COMPONENT_PREFIX)
      else resolve' reference)
    {keyword : Keyword} {value : Json} (h : KeptUnder names keyword value) :
    keyword.kind.operand before resolve value = keyword.kind.operand after resolve'
      (if isComponentReference keyword.name value then definitionReference value else cleanValue value) := by
  have hplain : keyword.kind ≠ .reference →
      (if isComponentReference keyword.name value then definitionReference value else cleanValue value) =
        cleanValue value :=
    fun hkind => if_neg (by rw [not_component_reference hkind]; simp)
  rw [KeptUnder] at h
  cases hkind : keyword.kind with
  | data =>
    rw [hplain (by simp [hkind])]
    rw [hkind] at h
    exact congrArg Operand.data h.symm
  | reference =>
    rw [hkind] at h
    obtain rfl := ref_of_kind hkind
    cases value with
    | string reference =>
      have hreference := hresolve reference h
      cases hcomponent : Text.startsWith reference COMPONENT_PREFIX with
      | true =>
        rw [hcomponent, if_pos rfl] at hreference
        rw [isComponentReference, hcomponent]
        exact congrArg Operand.one hreference
      | false =>
        rw [hcomponent, if_neg Bool.false_ne_true] at hreference
        rw [isComponentReference, hcomponent]
        exact congrArg Operand.one hreference
    | array values => rfl
    | _ => rfl
  | schema =>
    rw [hplain (by simp [hkind])]
    rw [hkind] at h
    exact congrArg Operand.one (hkept value h)
  | schemas =>
    rw [hplain (by simp [hkind])]
    rw [hkind] at h
    cases value with
    | array schemas =>
      rw [cleanValue, cleanValues_eq]
      refine congrArg Operand.many ?_
      rw [List.map_map]
      exact List.map_congr_left fun schema hschema => hkept schema (keptAll_iff.mp h schema hschema)
    | _ => rfl
  | schemaMap =>
    rw [hplain (by simp [hkind])]
    rw [hkind] at h
    cases value with
    | object schemas =>
      obtain ⟨hall, heq⟩ := cleanSchema_named h
      rw [cleanValue, heq]
      refine congrArg Operand.named ?_
      rw [List.map_map]
      refine List.map_congr_left fun entry hentry' => ?_
      rw [Function.comp, hentry, hkept entry.2 (hall entry hentry')]
    | _ => rfl

theorem kept_component
    (hdefinitions : ∀ name schema, names name → definitions name = some schema → KeptEntries names schema)
    {reference : String} (hrefers : PointsTo names (.string reference)) {target : Json}
    (h : components definitions reference = some target) : Kept names target := by
  rw [components] at h
  split at h
  · obtain ⟨schema, hschema, rfl⟩ := Option.map_eq_some_iff.mp h
    rw [Kept]
    exact hdefinitions _ schema (hrefers.2 ‹_›) hschema
  · cases h

/-- A kept schema treats every instance as its cleaning does. -/
theorem evaluate_clean
    (hdefinitions : ∀ name schema, names name → definitions name = some schema → KeptEntries names schema)
    (fuel : Nat) : ∀ schema, Kept names schema →
      evaluate regex (components definitions) fuel schema =
        evaluate regex (contractDefinitions definitions) fuel (cleanValue schema) := by
  induction fuel with
  | zero =>
    intro schema _
    rfl
  | succ fuel ih =>
    intro schema hkept
    cases schema with
    | object entries =>
      rw [cleanValue, evaluate, evaluate]
      refine congrArg _ (funext fun keyword => ?_)
      rw [operands, operands, lookup_cleanSchema (keyword_survives keyword), Option.map_map]
      cases hvalue : entries.lookup keyword.name with
      | none => rfl
      | some value =>
        rw [Kept] at hkept
        refine congrArg some (operand_clean ih evaluate_entry (fun reference hrefers => ?_)
          (kept_lookup hkept hvalue))
        cases hcomponent : Text.startsWith reference COMPONENT_PREFIX with
        | true =>
          rw [if_pos rfl, contractDefinitions_reference hcomponent]
          cases htarget : components definitions reference with
          | none => rfl
          | some target => exact ih target (kept_component hdefinitions hrefers htarget)
        | false =>
          rw [if_neg Bool.false_ne_true, components, hcomponent, contractDefinitions, hrefers.1]
          rfl
    | array values =>
      rw [cleanValue]
      rfl
    | _ => rfl

/-- Where property names survive, literals are unchanged and references are to components, in the schema and
    in the components it refers to, directly or through others, the cleaned schema accepts what the schema
    accepts. -/
theorem clean_valid_iff
    (hdefinitions : ∀ name schema, names name → definitions name = some schema → KeptEntries names schema)
    {schema : List (String × Json)} (hschema : KeptEntries names schema) (instance' : Json) :
    Valid regex (components definitions) (.object schema) instance' ↔
      Valid regex (contractDefinitions definitions) (.object (cleanSchema schema)) instance' := by
  have hkept : Kept names (.object schema) := by
    rw [Kept]
    exact hschema
  have hclean : cleanValue (.object schema) = .object (cleanSchema schema) := by rw [cleanValue]
  have hsame : ∀ fuel, evaluate regex (components definitions) fuel (.object schema) =
      evaluate regex (contractDefinitions definitions) fuel (.object (cleanSchema schema)) := by
    intro fuel
    rw [← hclean]
    exact evaluate_clean hdefinitions fuel _ hkept
  simp only [Valid, hsame]

end Evaluation

/-- The schema of an object that has a name and refers to a kind, with an example. -/
def namedKind : List (String × Json) :=
  [("type", .string "object"), ("example", .null),
    ("properties", .object [("name", .bool true), ("kind", .object [("$ref", .string "#/components/schemas/Kind")])])]

/-- The kind, and a definition that nothing refers to and whose property is lost. -/
def kindDefinition (name : String) : Option (List (String × Json)) :=
  if name = "Kind" then some [("enum", .array [.string "app"])]
  else some [("properties", .object [("example", .bool false)])]

theorem namedKind_clean :
    (∀ name schema, name = "Kind" → kindDefinition name = some schema → KeptEntries (· = "Kind") schema) ∧
    KeptEntries (· = "Kind") namedKind ∧ cleanSchema namedKind = [("type", .string "object"),
      ("properties", .object [("name", .bool true), ("kind", .object [("$ref", .string "#/$defs/Kind")])])] ∧
    ∀ instance', Valid (fun _ _ => true) (components kindDefinition) (.object namedKind) instance' ↔
      Valid (fun _ _ => true) (contractDefinitions kindDefinition) (.object (cleanSchema namedKind)) instance' := by
  have hdefinitions : ∀ name schema, name = "Kind" → kindDefinition name = some schema →
      KeptEntries (· = "Kind") schema := by
    rintro name schema rfl h
    rw [kindDefinition, if_pos rfl] at h
    obtain rfl := Option.some.inj h
    refine ⟨fun keyword hkeyword => ?_, trivial⟩
    cases keyword <;> first | exact absurd hkeyword (by decide) | rfl
  have hreference : Kept (· = "Kind") (.object [("$ref", .string "#/components/schemas/Kind")]) := by
    refine ⟨fun keyword hkeyword => ?_, trivial⟩
    cases keyword <;> first | exact absurd hkeyword (by decide) | exact ⟨by decide, fun _ => by decide⟩
  have hkept : KeptEntries (· = "Kind") namedKind := by
    refine ⟨fun keyword hkeyword => ?_, fun keyword hkeyword => ?_, fun keyword hkeyword => ?_, trivial⟩
    · cases keyword <;> first | exact absurd hkeyword (by decide) | rfl
    · cases keyword <;> exact absurd hkeyword (by decide)
    · cases keyword <;> first | exact absurd hkeyword (by decide) |
        exact ⟨⟨by decide, by decide⟩, trivial, ⟨by decide, by decide⟩, hreference, trivial⟩
  exact ⟨hdefinitions, hkept, rfl, clean_valid_iff hdefinitions hkept⟩

/-! ### Names and literals that are lost -/

/-- A schema that forbids one property. -/
def forbidding (name : String) : List (String × Json) := [("properties", .object [(name, .bool false)])]

theorem forbidden_invalid (regex : String → String → Bool) (documents : String → Option Json)
    (name : String) (value : Json) :
    ¬ Valid regex documents (.object (forbidding name)) (.object [(name, value)]) := by
  have hsays : ∀ fuel, 2 ≤ fuel → Says (evaluate regex documents fuel (.object (forbidding name))
      (.object [(name, value)])) false := by
    intro fuel hfuel
    obtain ⟨fuel, rfl⟩ := Nat.exists_eq_add_of_le' hfuel
    refine says_keywords [(.properties, .object [(name, .bool false)])] [] (fun _ => false) ?_
      (fun _ => rfl) fun entry hentry => ?_
    · simp [Keyword.evaluated]
    · obtain rfl := List.mem_singleton.mp hentry
      have hrefused : ∀ property ∈ [name], ∀ entry ∈ [(name, value)],
          Says (evaluate regex documents (fuel + 1) (.bool false) entry.2) false :=
        fun _ _ _ _ => says_of false
      exact (says_properties (l := [name]) (n := id) (e := fun _ => evaluate regex documents (fuel + 1) (.bool false))
        (p := fun _ _ => false) rfl hrefused).of_eq (by simp)
  exact fun h => Bool.false_ne_true ((valid_iff hsays).mp h)

/-- A property with the name of a dropped keyword is not checked any more. -/
theorem dropped_name_unchecked (regex : String → String → Bool)
    (definitions : String → Option (List (String × Json))) {name : String}
    (h : DROPPED_KEYWORD name = true) (value : Json) :
    Valid regex (contractDefinitions definitions) (.object (cleanSchema (forbidding name)))
      (.object [(name, value)]) := by
  have hnames : cleanSchema [(name, .bool false)] = [] := by
    rw [cleanSchema, if_pos h, cleanSchema]
  have hclean : cleanSchema (forbidding name) = [("properties", .object [])] := by
    have hreference : isComponentReference "properties" (.object [(name, .bool false)]) = false := rfl
    rw [forbidding, cleanSchema, if_neg (by decide), if_pos (by decide), hreference, cleanSchema, cleanValue,
      hnames]
    rfl
  rw [hclean]
  refine ⟨1, fun fuel hfuel => ?_⟩
  obtain ⟨fuel, rfl⟩ := Nat.exists_eq_add_of_le' hfuel
  exact ⟨.of true, rfl, rfl⟩

/-- A literal that the cleaning changes is refused where it was required. -/
theorem changed_literal_refused (regex : String → String → Bool) (documents : String → Option Json)
    {literal : Json} (hsame : literal.same literal = true)
    (hchanged : literal.same (cleanValue literal) = false) :
    Valid regex documents (.object [("const", literal)]) literal ∧
      ¬ Valid regex documents (.object (cleanSchema [("const", literal)])) literal := by
  have hclean : cleanSchema [("const", literal)] = [("const", cleanValue literal)] := by
    have hreference : isComponentReference "const" literal = false := by
      cases literal <;> rfl
    rw [cleanSchema, if_neg (by decide), if_pos (by decide), hreference, cleanSchema]
    rfl
  have hconst : ∀ (value : Json) (fuel : Nat), 1 ≤ fuel → Says (evaluate regex documents fuel
      (.object [("const", value)]) literal) (literal.same value) := by
    intro value fuel hfuel
    obtain ⟨fuel, rfl⟩ := Nat.exists_eq_add_of_le' hfuel
    have hpresent : Says (evaluate regex documents (fuel + 1) (.object [("const", value)]) literal)
        (literal.same value && true) := by
      refine says_keywords [(.const, value)] [] (fun _ => literal.same value) ?_ (fun _ => rfl)
        fun entry hentry => ?_
      · simp [Keyword.evaluated]
      · obtain rfl := List.mem_singleton.mp hentry
        exact says_assertion rfl
    rwa [Bool.and_true] at hpresent
  rw [hclean, valid_iff (hconst literal), valid_iff (hconst (cleanValue literal))]
  exact ⟨hsame, by simp [hchanged]⟩

/-- A property called `example` is no keyword, but its schema is dropped. -/
theorem example_property_lost :
    ¬ ∀ (regex : String → String → Bool) (definitions : String → Option (List (String × Json)))
      (schema : List (String × Json)) (instance' : Json),
      Valid regex (components definitions) (.object schema) instance' ↔
        Valid regex (contractDefinitions definitions) (.object (cleanSchema schema)) instance' := by
  intro h
  refine forbidden_invalid (fun _ _ => true) (components fun _ => none) "example" .null ?_
  exact (h _ _ _ _).mpr (dropped_name_unchecked _ _ (by decide) .null)

end Akua.Contract
