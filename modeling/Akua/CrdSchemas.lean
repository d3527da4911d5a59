import Akua.Crds
import Akua.Lib.Naming
import Akua.ValuesSchema

/-! Typed KCL schemas from the CustomResourceDefinitions of a dependency: one package for each served
    group and version, one schema for each kind and for each object inside it, named after the kind and
    the path of properties. The names of a package are given out by its emitter; the package `meta/v1`
    holds the object metadata as well. -/

namespace Akua.CrdSchemas

open ValuesSchema (Numbers sortedEntries numberText isInteger)

/-- An `openAPIV3Schema`, of the fields that are read. -/
structure OpenApi where
  type : Option String
  description : Option String
  properties : List (String × OpenApi)
  required : List String
  items : Option OpenApi
  additionalProperties : Option (Bool ⊕ OpenApi)
  enum : List Json
  nullable : Bool
  intOrString : Bool
  preserveUnknownFields : Bool
  embeddedResource : Bool

/-- One served version of one kind: what a generated schema is made from. -/
structure CrdVersion where
  group : String
  version : String
  kind : String
  /-- The CRD's `metadata.name`, for the file header. -/
  crd : String
  deprecated : Bool
  deprecationWarning : Option String
  schema : Option OpenApi

/-! ### Names -/

/-- KCL keywords: attribute names that need a `$` prefix. -/
def KEYWORDS : List String :=
  ["True", "False", "None", "Undefined", "import", "as", "rule", "schema", "mixin", "protocol", "check", "for",
    "assert", "if", "elif", "else", "or", "and", "not", "in", "is", "lambda", "all", "any", "filter", "map", "type"]

/-- An attribute name as KCL spells it: bare, `$keyword`, or a quoted string. -/
def attributeName (name : String) : String :=
  if ValuesSchema.isIdentifier name = false then Kcl.kclStringLiteral name
  else if name ∈ KEYWORDS then "$" ++ name
  else name

/-- `replicaCount` / `x-foo.bar` to `ReplicaCount` / `XFooBar`, always an identifier. -/
def pascalCase (text : String) : String := ValuesSchema.pascalCase text

/-- An underscore between a lower-case letter or digit and a capital. -/
def splitWords : List Char → List Char
  | a :: b :: cs =>
    if (a.isLower || a.isDigit) && b.isUpper then a :: '_' :: splitWords (b :: cs) else a :: splitWords (b :: cs)
  | cs => cs

/-- An underscore before the last capital of several, when it begins a word. -/
def splitAcronyms (before : Bool) : List Char → List Char
  | a :: b :: cs =>
    (if before && a.isUpper && b.isLower then ['_', a] else [a]) ++ splitAcronyms a.isUpper (b :: cs)
  | cs => cs

variable (casing : Text.Casing)

/-- `CertificateRequest` as a file name: `certificate_request`. -/
def snakeCase (kind : String) : String :=
  let lower := Text.toLowerCase casing (String.ofList (splitAcronyms false (splitWords kind.toList)))
  String.ofList (lower.toList.flatMap fun c =>
    if c.isLower || c.isDigit || c = '_' then [c] else List.replicate (Text.utf16 c).length '_')

/-- `cert-manager.io` as a KCL package segment: `cert_manager_io`. -/
def groupIdent (group : String) : String := kclIdent (Text.toLowerCase casing group)

/-- The import path of a generated group/version package. -/
def crdModulePath (dependency group version : String) : String :=
  "crds." ++ kclIdent dependency ++ "." ++ groupIdent casing group ++ "." ++ kclIdent version

/-! ### Schemas -/

/-- A type, as it is written beside an attribute. -/
inductive TypeText where
  | builtin (text : String)
  | list (item : TypeText)
  | dict (value : TypeText)
  | schema (name : String)

def TypeText.text : TypeText → String
  | .builtin text => text
  | .list item => "[" ++ item.text ++ "]"
  | .dict value => "\x7bstr:" ++ value.text ++ "\x7d"
  | .schema name => name

structure Attribute where
  property : String
  optional : Bool
  type : TypeText
  description : String

/-- A generated schema. The one of a kind has an `apiVersion`, a `kind` and metadata first; `rest` is
    the type of attributes that are not declared, where there may be any. -/
structure Block where
  name : String
  description : String
  identity : Option (String × String)
  attributes : List Attribute
  rest : Option TypeText

def META_IMPORT : String := "_metav1"

def Attribute.text (attr : Attribute) : String :=
  "    " ++ attributeName attr.property ++ (if attr.optional then "?" else "") ++ ": " ++ attr.type.text ++ "\n" ++
    String.ofList (docstring attr.description "    ")

/-- The attributes every kind has, from its `apiVersion` and `kind`. -/
def identityText (identity : String × String) : String :=
  let apiVersion := Kcl.kclStringLiteral identity.1
  let kind := Kcl.kclStringLiteral identity.2
  "    apiVersion: " ++ apiVersion ++ " = " ++ apiVersion ++ "\n" ++
    "    kind: " ++ kind ++ " = " ++ kind ++ "\n" ++
    "    metadata?: " ++ META_IMPORT ++ ".ObjectMeta\n"

def Block.text (block : Block) : String :=
  "schema " ++ block.name ++ ":\n" ++ String.ofList (docstring block.description "    ") ++
    (match block.identity with
      | none => ""
      | some identity => identityText identity) ++
    "".intercalate (block.attributes.map Attribute.text) ++
    (match block.rest with
      | none => ""
      | some type => "    [...str]: " ++ type.text ++ "\n")

/-! ### The emitter of a package -/

open Naming

variable (N : Numbers)

/-- Fields beyond the declared properties are kept by the API server. -/
def openEnded (preserveUnknownFields embeddedResource : Bool) (additional : Option (Bool ⊕ OpenApi)) : Bool :=
  preserveUnknownFields || embeddedResource ||
    match additional with
    | some (.inl true) => true
    | _ => false

/-- An enum of strings or integers as a KCL literal union. -/
def enumLiterals (type : Option String) (enum : List Json) : Option String :=
  let strings := enum.filterMap fun value =>
    match value with
    | .string s => some (Kcl.kclStringLiteral s)
    | _ => none
  let integers := enum.filterMap fun value =>
    match value with
    | .number q => if isInteger N q then some (String.ofList (numberText N q)) else none
    | _ => none
  let values := enum.countP fun value =>
    match value with
    | .null => false
    | _ => true
  if values = 0 then none
  else if type = some "string" ∧ strings.length = values then some (" | ".intercalate strings.eraseDups)
  else if type = some "integer" ∧ integers.length = values then some (" | ".intercalate integers.eraseDups)
  else none

/-- The schema of an object with properties. -/
def objectBlock (description : Option String) (isOpen : Bool)
    (properties : List (String × (String → Emit Block Attribute)))
    (additional : Option (String → Emit Block TypeText)) (name : String) : Emit Block Block := do
  let attributes ← forEach (fun property => property.2 (name ++ pascalCase property.1)) (sortedEntries properties)
  match additional with
  | some value => do
    let type ← value (name ++ "Value")
    pure ⟨name, description.getD "", none, attributes, some type⟩
  | none => pure ⟨name, description.getD "", none, attributes, if isOpen then some (.builtin "any") else none⟩

/-- A schema for an object with properties, given out before those inside it; without properties a
    dictionary, or `any` where nothing is said of it. -/
def emitObject (hint : String) (type : Option String) (description : Option String) (preserve isOpen : Bool)
    (properties : List (String × (String → Emit Block Attribute)))
    (additional : Option (String → Emit Block TypeText)) : Emit Block TypeText :=
  if properties.isEmpty then
    match additional with
    | some value => TypeText.dict <$> value (hint ++ "Value")
    | none => pure (.builtin (if type.isNone && !preserve then "any" else "\x7bstr:any\x7d"))
  else TypeText.schema <$> declareAs KEYWORDS hint (objectBlock description isOpen properties additional)

mutual

def emitType : OpenApi → String → Emit Block TypeText
  | ⟨type, description, properties, required, items, additional, enum, _, intOrString, preserve, embedded⟩, hint =>
    if intOrString then pure (.builtin "int | str")
    else match enumLiterals N type enum with
    | some literals => pure (.builtin literals)
    | none =>
      if type = some "string" then pure (.builtin "str")
      else if type = some "integer" then pure (.builtin "int")
      else if type = some "number" then pure (.builtin "float")
      else if type = some "boolean" then pure (.builtin "bool")
      else if type = some "array" then TypeText.list <$> emitItems items (hint ++ "Item")
      else if type = some "object" ∨ type = none then
        emitObject hint type description preserve (openEnded preserve embedded additional)
          (emitAttributes required properties) (emitAdditional additional)
      else pure (.builtin "any")

def emitItems : Option OpenApi → String → Emit Block TypeText
  | none, _ => pure (.builtin "any")
  | some schema, hint => emitType schema hint

def emitAdditional : Option (Bool ⊕ OpenApi) → Option (String → Emit Block TypeText)
  | some (.inr schema) => some (emitType schema)
  | _ => none

/-- Each property with its attribute, which is emitted under a hint. -/
def emitAttributes (required : List String) : List (String × OpenApi) → List (String × (String → Emit Block Attribute))
  | [] => []
  | (property, schema) :: properties =>
    (property, fun hint => do
      let type ← emitType schema hint
      pure ⟨property, !required.contains property || schema.nullable, type, schema.description.getD ""⟩) ::
      emitAttributes required properties

end

def reserved : List String := ["apiVersion", "kind", "metadata", "status"]

/-- What a kind's description says. -/
def kindDescription (version : CrdVersion) : String :=
  "\n\n".intercalate (([(version.schema.bind OpenApi.description).getD "",
    if version.deprecated then "Deprecated: " ++
        version.deprecationWarning.getD (version.group ++ "/" ++ version.version ++ " is deprecated")
      else ""]).filter (· ≠ ""))

/-- The attributes of a kind beyond those every kind has. -/
def kindProperties (version : CrdVersion) : List (String × (String → Emit Block Attribute)) :=
  (sortedEntries (match version.schema with
    | none => []
    | some root => emitAttributes N root.required root.properties)).filter fun property =>
      !reserved.contains property.1

/-- A kind without a schema takes anything. -/
def kindOpen (version : CrdVersion) : Bool :=
  match version.schema with
  | none => true
  | some root => openEnded root.preserveUnknownFields root.embeddedResource root.additionalProperties

/-- The root schema of a kind. -/
def kindBlock (version : CrdVersion) (name : String) : Emit Block Block := do
  let attributes ← forEach (fun property => property.2 (name ++ pascalCase property.1)) (kindProperties N version)
  pure ⟨name, kindDescription version, some (version.group ++ "/" ++ version.version, version.kind), attributes,
    if kindOpen version then some (.builtin "any") else none⟩

/-- The schemas of one kind, its root first. -/
def emitKind (version : CrdVersion) : Emit Block String :=
  declareAs KEYWORDS (pascalCase version.kind) (kindBlock N version)

/-! ### The tree of a dependency -/

/-- `meta/v1`: the ObjectMeta every generated kind's `metadata` has. -/
def OBJECT_META : String :=
  "# Generated by akuapkg: Kubernetes object metadata (meta/v1). Do not edit.\n\nschema ObjectMeta:\n" ++
  "    r\"\"\"Standard object metadata of every Kubernetes resource.\"\"\"\n" ++
  "    annotations?: \x7bstr:str\x7d\n    creationTimestamp?: str\n    deletionGracePeriodSeconds?: int\n" ++
  "    deletionTimestamp?: str\n    finalizers?: [str]\n    generateName?: str\n    generation?: int\n" ++
  "    labels?: \x7bstr:str\x7d\n    managedFields?: [any]\n    name?: str\n    namespace?: str\n" ++
  "    ownerReferences?: [any]\n    resourceVersion?: str\n    selfLink?: str\n    uid?: str\n"

/-- A file of the tree. -/
inductive Content where
  | objectMeta
  | kind (crd metaModule : String) (blocks : List Block)

def Content.text : Content → String
  | .objectMeta => OBJECT_META
  | .kind crd metaModule blocks =>
    "# Generated by akuapkg from the CustomResourceDefinition `" ++ crd ++ "`. Do not edit.\n" ++
      "import " ++ metaModule ++ " as " ++ META_IMPORT ++ "\n\n" ++ "\n".intercalate (blocks.map Block.text)

/-- The tree while it is generated: its files, the names each package has given out, and the kinds of
    each module. -/
structure Generated where
  files : Table String Content
  emitters : Table String (List String)
  modules : Table String (List String)

/-- The directory of a version's package. -/
def directoryOf (version : CrdVersion) : String := groupIdent casing version.group ++ "/" ++ kclIdent version.version

/-- The file names that are tried for a kind. -/
def fileName (base : String) : Nat → String
  | 0 => base ++ ".k"
  | i + 1 => base ++ "_" ++ toString (i + 2) ++ ".k"

/-- A file for a kind that is not in the tree yet. -/
def newFile (files : Table String Content) (version : CrdVersion) : String :=
  fresh files.keys (fileName (directoryOf casing version ++ "/" ++ snakeCase casing version.kind))

/-- The names a package has given out. -/
def emitterOf (generated : Generated) (directory : String) : List String :=
  (generated.emitters.get? directory).getD []

def addVersion (dependency : String) (generated : Generated) (version : CrdVersion) : Generated :=
  let directory := directoryOf casing version
  let emitted := emitKind N version (emitterOf generated directory)
  let metaModule := "crds." ++ kclIdent dependency ++ ".meta.v1"
  let module := crdModulePath casing dependency version.group version.version
  { files := generated.files.set (newFile casing generated.files version)
      (.kind version.crd metaModule emitted.declarations)
    emitters := generated.emitters.set directory emitted.names
    modules := generated.modules.set module ((generated.modules.get? module).getD [] ++ [version.kind]) }

/-- The generated tree of a dependency's versions, `meta/v1/` among it. -/
def crdSchemaTree (dependency : String) (versions : List CrdVersion) : Generated :=
  versions.foldl (addVersion casing N dependency)
    ⟨Table.empty.set "meta/v1/object_meta.k" .objectMeta, Table.empty, Table.empty⟩

end Akua.CrdSchemas
