import Akua.Cosign
import Akua.ReachableDefinitions
import Mathlib.Data.List.Induction

/-! Commands made of the API contract: path parameters are positional arguments, the other parameters
    and the top-level fields of the body are flags, and what is given is written into the request
    over the `--input` document. -/

namespace Akua.Api

/-- The keywords of an object schema. -/
abbrev Schema := List (String × Json)

inductive ParameterLocation where
  | path | query | header
deriving DecidableEq

structure ApiParameter where
  name : String
  location : ParameterLocation
  required : Bool
  description : Option String
  schema : Schema

structure ApiOperation where
  id : String
  /-- Keys of the contract's parameters. -/
  parameters : List String
  /-- The schema of the request body. -/
  body : Option Schema

structure ApiContract where
  parameters : Table String ApiParameter
  definitions : Table String Schema

inductive FlagTarget where
  | query | header | body
deriving DecidableEq

inductive FlagKind where
  | string | integer | number | boolean | json
  | choice (choices : List String)

structure InputArgument where
  name : String
  description : Option String

structure InputFlag where
  name : String
  target : FlagTarget
  key : String
  kind : FlagKind
  required : Bool
  secret : Bool
  description : Option String

structure OperationInputs where
  arguments : List InputArgument
  flags : List InputFlag
  context : Bool

def SECRET_FILE_SUFFIX : String := "-file"

def CONTEXT_HEADER : String := "akua-context"

def RESERVED_FLAG_NAMES : List String :=
  ["completions", "help", "input", "json", "output", "quiet", "version", "workspace"]

/-- The target as a flag's name has it in front. -/
def FlagTarget.text : FlagTarget → String
  | .query => "query"
  | .header => "header"
  | .body => "body"

/-- The partition of the request envelope that a flag writes into. -/
def partitionOf : FlagTarget → String
  | .header => "headers"
  | target => target.text

def PATH_PARTITION : String := "path"

/-! ### Names -/

/-- `-` between a lower-case letter or digit and a capital. -/
def hyphenated : List Char → List Char
  | a :: b :: cs =>
    if (a.isLower || a.isDigit) && b.isUpper then a :: '-' :: hyphenated (b :: cs) else a :: hyphenated (b :: cs)
  | cs => cs

/-- `-` for each run of underscores, dots and white space. -/
def separated (inside : Bool) : List Char → List Char
  | [] => []
  | c :: cs =>
    if c = '_' || c = '.' || isSpace c then (if inside then [] else ['-']) ++ separated true cs
    else c :: separated false cs

def kebab (casing : Text.Casing) (value : String) : String :=
  Text.toLowerCase casing (String.ofList (separated false (hyphenated value.toList)))

/-! ### Schemas

References may lead round in circles, where the source does not return; `none` is out of fuel. -/

/-- `contract.definitions[name]`; what an object inherits has no keyword. -/
def definition (contract : ApiContract) (name : String) : Option Schema :=
  match contract.definitions.get? name with
  | some schema => some schema
  | none => if name ∈ Contract.INHERITED then some [] else none

/-- Follows local references into the contract's definitions. -/
def resolve (contract : ApiContract) : Nat → Schema → Option Schema
  | 0, _ => none
  | fuel + 1, schema =>
    match schema.lookup "$ref" with
    | some (.string ref) =>
      if Text.startsWith ref Contract.DEFINITION_PREFIX then
        match definition contract (Text.after ref Contract.DEFINITION_PREFIX) with
        | none => some schema
        | some target => resolve contract fuel target
      else some schema
    | _ => some schema

def asObject : Json → Option Schema
  | .object entries => some entries
  | _ => none

def unionBranches (schema : Schema) : Option (List Schema) :=
  match schema.lookup "anyOf" with
  | some (.array branches) => some (branches.filterMap asObject)
  | _ =>
    match schema.lookup "oneOf" with
    | some (.array branches) => some (branches.filterMap asObject)
    | _ => none

def isNull : Json → Bool
  | .null => true
  | _ => false

def asString : Json → Option String
  | .string value => some value
  | _ => none

def stringChoices (schema : Schema) : Option (List String) :=
  match schema.lookup "const" with
  | some (.string value) => some [value]
  | _ =>
    match schema.lookup "enum" with
    | some (.array values) =>
      let values := values.filter fun value => !isNull value
      if values.isEmpty then none else values.mapM asString
    | _ => none

def mergeKinds : FlagKind → FlagKind → FlagKind
  | .choice left, .choice right => .choice (left ++ right).eraseDups
  | .string, .string => .string
  | .integer, .integer => .integer
  | .number, .number => .number
  | .boolean, .boolean => .boolean
  | _, _ => .json

/-- `[resolved.type]`, or the types of the list, but for `null`. -/
def schemaTypes (schema : Schema) : List (Option Json) :=
  let types := match schema.lookup "type" with
    | some (.array types) => types.map some
    | type => [type]
  types.filter fun
    | some (.string "null") => false
    | _ => true

def typeKind (schema : Schema) : FlagKind :=
  match schemaTypes schema with
  | [some (.string "string")] => .string
  | [some (.string "integer")] => .integer
  | [some (.string "number")] => .number
  | [some (.string "boolean")] => .boolean
  | _ => .json

/-- `branch.type !== 'null'`. -/
def isNullType (schema : Schema) : Bool :=
  match schema.lookup "type" with
  | some (.string "null") => true
  | _ => false

def flagKind (contract : ApiContract) : Nat → Schema → Option FlagKind
  | 0, _ => none
  | fuel + 1, schema => do
    let resolved ← resolve contract (fuel + 1) schema
    match stringChoices resolved with
    | some choices => some (.choice choices)
    | none =>
      match unionBranches resolved with
      | none => some (typeKind resolved)
      | some branches => do
        let branches ← branches.mapM (resolve contract (fuel + 1))
        let kinds ← (branches.filter fun branch => !isNullType branch).mapM (flagKind contract fuel)
        match kinds with
        | [] => some .json
        | first :: rest => some (rest.foldl mergeKinds first)

/-- The union branches, the properties and the items. -/
def nestedSchemas (schema : Schema) : List Schema :=
  (unionBranches schema).getD [] ++
  (match schema.lookup "properties" with
    | some (.object properties) => properties.filterMap fun property => asObject property.2
    | _ => []) ++
  (match schema.lookup "items" with
    | some (.object items) => [items]
    | _ => [])

/-- `schemas.some(check)`, with the schemas that are seen on the way. -/
def someSchema (check : List Schema → Schema → Option (Bool × List Schema)) :
    List Schema → List Schema → Option (Bool × List Schema)
  | seen, [] => some (false, seen)
  | seen, schema :: schemas => do
    let (found, seen) ← check seen schema
    if found then some (true, seen) else someSchema check seen schemas

/-- Is it secret, or a branch, property or item of it? Schemas that are the same are seen once. -/
def isSecret (contract : ApiContract) : Nat → List Schema → Schema → Option (Bool × List Schema)
  | 0, _, _ => none
  | fuel + 1, seen, schema => do
    let resolved ← resolve contract (fuel + 1) schema
    if seen.any fun other => Json.same (.object resolved) (.object other) then some (false, seen)
    else
      let seen := resolved :: seen
      match resolved.lookup "format" with
      | some (.string "password") => some (true, seen)
      | _ => someSchema (isSecret contract fuel) seen (nestedSchemas resolved)

/-! ### Fields of the body -/

def bodyObjects (contract : ApiContract) (fuel : Nat) (body : Schema) : Option (List Schema) := do
  let root ← resolve contract fuel body
  ((unionBranches root).getD [root]).mapM (resolve contract fuel)

def objectProperties (schema : Schema) : Option (List (String × Json)) :=
  (schema.lookup "properties").bind asObject

/-- `not: {}`, which nothing satisfies. -/
def excluded (resolved : Schema) : Bool :=
  match resolved.lookup "not" with
  | some (.object []) => true
  | _ => false

/-- The properties with an object schema, but for those that are excluded. -/
def admittedProperties (contract : ApiContract) (fuel : Nat) : List (String × Json) → Option (List (String × Schema))
  | [] => some []
  | (key, value) :: properties => do
    let admitted ← admittedProperties contract fuel properties
    match asObject value with
    | none => some admitted
    | some schema => do
      let resolved ← resolve contract fuel schema
      some (if excluded resolved then admitted else (key, schema) :: admitted)

structure BodyField where
  kind : FlagKind
  secret : Bool
  description : Option String

/-- Another branch's schema for a field. -/
def addField (contract : ApiContract) (fuel : Nat) (fields : Table String BodyField) (property : String × Schema) :
    Option (Table String BodyField) := do
  let kind ← flagKind contract fuel property.2
  let (secret, _) ← isSecret contract fuel [] property.2
  let description := (property.2.lookup "description").bind asString
  some (fields.set property.1 (match fields.get? property.1 with
    | none => ⟨kind, secret, description⟩
    | some existing => ⟨mergeKinds existing.kind kind, existing.secret || secret, existing.description.or description⟩))

/-- `stringArray(branch.required).includes(key)`. -/
def requires (key : String) (branch : Schema) : Bool :=
  match branch.lookup "required" with
  | some required => required.strings.contains key
  | none => false

/-- The flags for the fields of an object body, or of every object branch of a union body. -/
def bodyFlags (casing : Text.Casing) (contract : ApiContract) (fuel : Nat) (operation : ApiOperation) :
    Option (List InputFlag) :=
  match operation.body with
  | none => some []
  | some body => do
    let objects ← bodyObjects contract fuel body
    match objects.mapM objectProperties with
    | none => some []
    | some properties => do
      let admitted ← properties.mapM (admittedProperties contract fuel)
      let fields ← admitted.flatten.foldlM (addField contract fuel) .empty
      some (fields.entries.map fun (key, field) =>
        ⟨kebab casing key, .body, key, field.kind, objects.all (requires key), field.secret, field.description⟩)

/-! ### Inputs of an operation -/

def operationParameters (contract : ApiContract) (operation : ApiOperation) : List ApiParameter :=
  operation.parameters.filterMap contract.parameters.get?

/-- Where a parameter's flag writes; path parameters have none. -/
def flagTarget : ParameterLocation → Option FlagTarget
  | .path => none
  | .query => some .query
  | .header => some .header

def parameterFlag (casing : Text.Casing) (contract : ApiContract) (fuel : Nat) (parameter : ApiParameter)
    (target : FlagTarget) : Option InputFlag := do
  let kind ← flagKind contract fuel parameter.schema
  let (secret, _) ← isSecret contract fuel [] parameter.schema
  some ⟨kebab casing parameter.name, target, parameter.name, kind, parameter.required, secret, parameter.description⟩

def parameterFlags (casing : Text.Casing) (contract : ApiContract) (fuel : Nat) :
    List ApiParameter → Option (List InputFlag)
  | [] => some []
  | parameter :: parameters => do
    let flags ← parameterFlags casing contract fuel parameters
    match flagTarget parameter.location with
    | none => some flags
    | some target =>
      if parameter.name = CONTEXT_HEADER then some flags
      else do
        let flag ← parameterFlag casing contract fuel parameter target
        some (flag :: flags)

def usedFlag (operation : ApiOperation) (candidate : InputFlag) (name : String) : String :=
  s!"{operation.id}: {candidate.target.text} field {candidate.key} maps to the already used flag --{name}"

/-- The candidate's name, with its target in front where the name is used. -/
def flagName (taken : List String) (candidate : InputFlag) : String :=
  if candidate.name ∈ RESERVED_FLAG_NAMES ∨ candidate.name ∈ taken then candidate.target.text ++ "-" ++ candidate.name
  else candidate.name

def nameFlags (operation : ApiOperation) (taken : List String) : List InputFlag → Except String (List InputFlag)
  | [] => .ok []
  | candidate :: candidates =>
    let name := flagName taken candidate
    if name ∈ RESERVED_FLAG_NAMES ∨ name ∈ taken then .error (usedFlag operation candidate name)
    else do
      let flags ← nameFlags operation (name :: taken) candidates
      .ok ({ candidate with name } :: flags)

def usedFileFlag (operation : ApiOperation) (flag : InputFlag) (fileFlag : String) : String :=
  s!"{operation.id}: secret flag --{flag.name} needs the already used --{fileFlag}"

/-- The `-file` names of the secret flags are free. -/
def checkFileFlags (operation : ApiOperation) (taken : List String) : List InputFlag → Except String Unit
  | [] => .ok ()
  | flag :: flags =>
    let fileFlag := flag.name ++ SECRET_FILE_SUFFIX
    if fileFlag ∈ RESERVED_FLAG_NAMES ∨ fileFlag ∈ taken then .error (usedFileFlag operation flag fileFlag)
    else checkFileFlags operation (fileFlag :: taken) flags

def operationInputs (casing : Text.Casing) (contract : ApiContract) (operation : ApiOperation) (fuel : Nat) :
    Option (Except String OperationInputs) := do
  let parameters := operationParameters contract operation
  let ofParameters ← parameterFlags casing contract fuel parameters
  let ofBody ← bodyFlags casing contract fuel operation
  some do
    let flags ← nameFlags operation [] (ofParameters ++ ofBody)
    checkFileFlags operation (flags.map InputFlag.name) (flags.filter InputFlag.secret)
    .ok {
      arguments := (parameters.filter fun parameter => parameter.location = .path).map fun parameter =>
        ⟨parameter.name, parameter.description⟩
      flags
      context := parameters.any fun parameter => parameter.location = .header ∧ parameter.name = CONTEXT_HEADER }

/-! ### Writing the inputs -/

structure Assignment where
  partition : String
  key : String
  value : Json

/-- The values that are given, each with what it is given for. -/
def given {α : Type} : List α → List (Option Json) → List (α × Json)
  | input :: inputs, some value :: values => (input, value) :: given inputs values
  | _ :: inputs, none :: values => given inputs values
  | _, _ => []

structure ResolvedInputs where
  args : List (Option Json)
  flags : List (Option Json)

def assignments (inputs : OperationInputs) (parsed : ResolvedInputs) : List Assignment :=
  (given inputs.arguments parsed.args).map (fun (argument, value) => ⟨PATH_PARTITION, argument.name, value⟩) ++
    (given inputs.flags parsed.flags).map fun (flag, value) => ⟨partitionOf flag.target, flag.key, value⟩

/-- `asJsonRecord`, and an empty record for a partition that is not there. -/
def partitionRecord : Option Json → Option (List (String × Json))
  | none => some []
  | some value => asObject value

structure Issue where
  path : List String
  message : String

/-- The envelope so far, and the partitions that are no objects. -/
def assign (state : Table String Json × List String) (a : Assignment) : Table String Json × List String :=
  match partitionRecord (state.1.get? a.partition) with
  | none => (state.1, if a.partition ∈ state.2 then state.2 else state.2 ++ [a.partition])
  | some record => (state.1.set a.partition (.object (Table.insert a.key a.value record)), state.2)

def applyInputs (inputs : OperationInputs) (base : Table String Json) (parsed : ResolvedInputs) :
    Except (List Issue) (Table String Json) :=
  let (envelope, conflicts) := (assignments inputs parsed).foldl assign (base, [])
  if conflicts.length = 0 then .ok envelope
  else .error (conflicts.map fun partition => ⟨[partition], "Expected a JSON object to merge flags into"⟩)

/-! ### Lossless inputs -/

/-- What a flag writes. -/
def InputFlag.slot (flag : InputFlag) : FlagTarget × String := (flag.target, flag.key)

/-- Exactly one of the flags writes a slot. -/
def OneFlag (flags : List InputFlag) (target : FlagTarget) (key : String) : Prop :=
  (flags.filter fun flag => flag.target = target ∧ flag.key = key).length = 1

def Assignment.slot (a : Assignment) : String × String := (a.partition, a.key)

/-- The names on the command line: the flags', and the `-file` names of the secret flags. -/
def OperationInputs.names (inputs : OperationInputs) : List String :=
  inputs.flags.map InputFlag.name ++
    (inputs.flags.filter InputFlag.secret).map fun flag => flag.name ++ SECRET_FILE_SUFFIX

/-- The partition and key that each argument and flag writes. -/
def OperationInputs.slots (inputs : OperationInputs) : List (String × String) :=
  inputs.arguments.map (fun argument => (PATH_PARTITION, argument.name)) ++
    inputs.flags.map fun flag => (partitionOf flag.target, flag.key)

/-- A property with an object schema, which is not `not: {}`. -/
def AdmittedIn (contract : ApiContract) (properties : List (String × Json)) (key : String) : Prop :=
  ∃ fuel schema resolved, (key, .object schema) ∈ properties ∧ resolve contract fuel schema = some resolved ∧
    excluded resolved = false

/-- A field of the body, or of a branch of a union body whose branches all have properties. -/
def Admitted (contract : ApiContract) (operation : ApiOperation) (key : String) : Prop :=
  ∃ fuel body objects properties, operation.body = some body ∧ bodyObjects contract fuel body = some objects ∧
    objects.mapM objectProperties = some properties ∧ ∃ entries ∈ properties, AdmittedIn contract entries key

/-- The document has something else than an object there. -/
def Blocked (base : Table String Json) (partition : String) : Prop := partitionRecord (base.get? partition) = none

/-- Every value is in the envelope, and everything else is as in the document. -/
structure Written (base envelope : Table String Json) (values : List Assignment) : Prop where
  present : ∀ a ∈ values, ∃ record, envelope.get? a.partition = some (.object record) ∧ record.lookup a.key = some a.value
  partitions : ∀ partition ∉ values.map Assignment.partition, envelope.get? partition = base.get? partition
  fields : ∀ partition record, envelope.get? partition = some (.object record) →
    partition ∈ values.map Assignment.partition → ∀ key, (partition, key) ∉ values.map Assignment.slot →
      record.lookup key = ((partitionRecord (base.get? partition)).getD []).lookup key

/-- The command's inputs lose nothing of the operation, and write what is given and nothing else; they
    refuse just the documents with a partition to write to that is no object. -/
structure Lossless (contract : ApiContract) (operation : ApiOperation) (inputs : OperationInputs) : Prop where
  names : inputs.names.Nodup
  unreserved : ∀ name ∈ inputs.names, name ∉ RESERVED_FLAG_NAMES
  parameters : ∀ parameter ∈ operationParameters contract operation, ∀ target,
    flagTarget parameter.location = some target → ¬ (parameter.location = .header ∧ parameter.name = CONTEXT_HEADER) →
      OneFlag inputs.flags target parameter.name
  fields : ∀ key, Admitted contract operation key → OneFlag inputs.flags .body key
  slots : inputs.slots.Nodup
  written : ∀ base parsed envelope, applyInputs inputs base parsed = .ok envelope →
    Written base envelope (assignments inputs parsed)
  refused : ∀ base parsed, (∃ issues, applyInputs inputs base parsed = .error issues) ↔
    ∃ a ∈ assignments inputs parsed, Blocked base a.partition

/-! ### Names -/

/-- A candidate is named, or its name is used; the others are named after it. -/
theorem nameFlags_cons {operation : ApiOperation} {taken : List String} {candidate : InputFlag}
    {candidates flags : List InputFlag} (h : nameFlags operation taken (candidate :: candidates) = .ok flags) :
    ¬ (flagName taken candidate ∈ RESERVED_FLAG_NAMES ∨ flagName taken candidate ∈ taken) ∧
      ∃ rest, nameFlags operation (flagName taken candidate :: taken) candidates = .ok rest ∧
        flags = { candidate with name := flagName taken candidate } :: rest := by
  rw [nameFlags] at h
  split at h
  · cases h
  · rename_i hfree
    cases hrest : nameFlags operation (flagName taken candidate :: taken) candidates with
    | error message =>
      rw [hrest] at h
      cases h
    | ok rest =>
      rw [hrest] at h
      cases h
      exact ⟨hfree, rest, rfl, rfl⟩

theorem nameFlags_slots {operation : ApiOperation} {taken : List String} {candidates flags : List InputFlag}
    (h : nameFlags operation taken candidates = .ok flags) :
    flags.map InputFlag.slot = candidates.map InputFlag.slot := by
  induction candidates generalizing taken flags with
  | nil => cases h; rfl
  | cons candidate candidates ih =>
    obtain ⟨-, rest, hrest, rfl⟩ := nameFlags_cons h
    rw [List.map_cons, List.map_cons, ih hrest]
    rfl

/-- New names that differ from each other, none reserved. -/
def Fresh (taken names : List String) : Prop :=
  names.Nodup ∧ ∀ name ∈ names, name ∉ RESERVED_FLAG_NAMES ∧ name ∉ taken

theorem fresh_nil (taken : List String) : Fresh taken [] :=
  ⟨List.nodup_nil, fun _ h => absurd h List.not_mem_nil⟩

/-- A free name, and names that are fresh once it is taken. -/
theorem fresh_cons {taken names : List String} {name : String}
    (hfree : ¬ (name ∈ RESERVED_FLAG_NAMES ∨ name ∈ taken)) (h : Fresh (name :: taken) names) :
    Fresh taken (name :: names) := by
  rw [not_or] at hfree
  refine ⟨List.nodup_cons.mpr ⟨fun hmem => (h.2 _ hmem).2 List.mem_cons_self, h.1⟩, fun other hother => ?_⟩
  rcases List.mem_cons.mp hother with rfl | hother
  · exact hfree
  · exact ⟨(h.2 other hother).1, fun hmem => (h.2 other hother).2 (List.mem_cons_of_mem _ hmem)⟩

theorem nameFlags_fresh {operation : ApiOperation} {taken : List String} {candidates flags : List InputFlag}
    (h : nameFlags operation taken candidates = .ok flags) : Fresh taken (flags.map InputFlag.name) := by
  induction candidates generalizing taken flags with
  | nil =>
    cases h
    exact fresh_nil taken
  | cons candidate candidates ih =>
    obtain ⟨hfree, rest, hrest, rfl⟩ := nameFlags_cons h
    exact fresh_cons hfree (ih hrest)

theorem checkFileFlags_fresh {operation : ApiOperation} {taken : List String} {flags : List InputFlag}
    (h : checkFileFlags operation taken flags = .ok ()) :
    Fresh taken (flags.map fun flag => flag.name ++ SECRET_FILE_SUFFIX) := by
  induction flags generalizing taken with
  | nil => exact fresh_nil taken
  | cons flag flags ih =>
    rw [checkFileFlags] at h
    split at h
    · cases h
    · rename_i hfree
      exact fresh_cons hfree (ih h)

/-! ### Slots -/

/-- The slot of a parameter's flag. -/
def parameterSlot (parameter : ApiParameter) : Option (FlagTarget × String) :=
  if parameter.name = CONTEXT_HEADER then none
  else (flagTarget parameter.location).map fun target => (target, parameter.name)

theorem parameterFlag_slot {casing : Text.Casing} {contract : ApiContract} {fuel : Nat} {parameter : ApiParameter}
    {target : FlagTarget} {flag : InputFlag} (h : parameterFlag casing contract fuel parameter target = some flag) :
    flag.slot = (target, parameter.name) := by
  simp only [parameterFlag, Option.bind_eq_bind, Option.bind_eq_some_iff, Option.some.injEq] at h
  obtain ⟨kind, -, secret, -, rfl⟩ := h
  rfl

theorem parameterFlags_slots {casing : Text.Casing} {contract : ApiContract} {fuel : Nat}
    {parameters : List ApiParameter} {flags : List InputFlag}
    (h : parameterFlags casing contract fuel parameters = some flags) :
    flags.map InputFlag.slot = parameters.filterMap parameterSlot := by
  induction parameters generalizing flags with
  | nil => cases h; rfl
  | cons parameter parameters ih =>
    rw [parameterFlags] at h
    obtain ⟨rest, hrest, h⟩ := Option.bind_eq_some_iff.mp h
    have hslots := ih hrest
    split at h
    · rename_i hpath
      cases h
      rw [List.filterMap_cons_none (by simp [parameterSlot, hpath]), hslots]
    · rename_i target htarget
      split at h
      · rename_i hcontext
        cases h
        rw [List.filterMap_cons_none (by simp [parameterSlot, hcontext]), hslots]
      · rename_i hcontext
        obtain ⟨flag, hflag, h⟩ := Option.bind_eq_some_iff.mp h
        cases h
        rw [List.filterMap_cons_some (b := (target, parameter.name)) (by simp [parameterSlot, hcontext, htarget]),
          List.map_cons, hslots, parameterFlag_slot hflag]

theorem parameterSlot_eq_some {parameter : ApiParameter} {slot : FlagTarget × String} :
    parameterSlot parameter = some slot ↔
      parameter.name ≠ CONTEXT_HEADER ∧ flagTarget parameter.location = some slot.1 ∧ parameter.name = slot.2 := by
  rw [parameterSlot]
  split
  · rename_i hcontext
    exact iff_of_false (fun h => by cases h) fun h => h.1 hcontext
  · rename_i hcontext
    rw [Option.map_eq_some_iff]
    constructor
    · rintro ⟨target, htarget, rfl⟩
      exact ⟨hcontext, htarget, rfl⟩
    · rintro ⟨-, htarget, hname⟩
      exact ⟨slot.1, htarget, Prod.ext rfl hname⟩

theorem flagTarget_inj {location other : ParameterLocation} {target : FlagTarget} (h : flagTarget location = some target)
    (hother : flagTarget other = some target) : location = other := by
  cases location <;> cases other <;> cases h <;> first | rfl | cases hother

theorem mem_parameterSlots {parameters : List ApiParameter} {target : FlagTarget} {name : String} :
    (target, name) ∈ parameters.filterMap parameterSlot ↔
      name ≠ CONTEXT_HEADER ∧ ∃ parameter ∈ parameters, flagTarget parameter.location = some target ∧ parameter.name = name := by
  rw [List.mem_filterMap]
  constructor
  · rintro ⟨parameter, hmem, hslot⟩
    obtain ⟨hcontext, htarget, rfl⟩ := parameterSlot_eq_some.mp hslot
    exact ⟨hcontext, parameter, hmem, htarget, rfl⟩
  · rintro ⟨hcontext, parameter, hmem, htarget, rfl⟩
    exact ⟨parameter, hmem, parameterSlot_eq_some.mpr ⟨hcontext, htarget, rfl⟩⟩

/-- Parameters of different places or names have different slots. -/
theorem nodup_parameterSlots {parameters : List ApiParameter}
    (h : (parameters.map fun parameter => (parameter.location, parameter.name)).Nodup) :
    (parameters.filterMap parameterSlot).Nodup := by
  refine List.Pairwise.filterMap parameterSlot ?_ (List.pairwise_map.mp h)
  rintro parameter other hne slot hslot slot' hslot' rfl
  obtain ⟨-, htarget, hname⟩ := parameterSlot_eq_some.mp hslot
  obtain ⟨-, htarget', hname'⟩ := parameterSlot_eq_some.mp hslot'
  exact hne (Prod.ext (flagTarget_inj htarget htarget') (hname.trans hname'.symm))

/-! ### Fields -/

theorem resolve_mono {contract : ApiContract} {fuel more : Nat} (hle : fuel ≤ more) {schema resolved : Schema}
    (h : resolve contract fuel schema = some resolved) : resolve contract more schema = some resolved := by
  induction fuel generalizing more schema with
  | zero => cases h
  | succ fuel ih =>
    obtain ⟨more, rfl⟩ : ∃ m, more = m + 1 := ⟨more - 1, by omega⟩
    rw [resolve] at h ⊢
    cases href : schema.lookup "$ref" with
    | none =>
      rw [href] at h
      exact h
    | some value =>
      rw [href] at h
      cases value with
      | null | bool _ | number _ | array _ | object _ => exact h
      | string ref =>
        dsimp only at h ⊢
        split at h
        · rename_i hlocal
          rw [if_pos hlocal]
          split at h
          · exact h
          · exact ih (by omega) h
        · rename_i hlocal
          rw [if_neg hlocal]
          exact h

/-- With enough fuel a schema has one resolution. -/
theorem resolve_unique {contract : ApiContract} {fuel other : Nat} {schema a b : Schema}
    (ha : resolve contract fuel schema = some a) (hb : resolve contract other schema = some b) : a = b := by
  have ha := resolve_mono (Nat.le_max_left fuel other) ha
  have hb := resolve_mono (Nat.le_max_right fuel other) hb
  exact Option.some.inj (ha.symm.trans hb)

theorem forall₂_of_mapM {α β : Type} {f : α → Option β} {l : List α} {m : List β} (h : l.mapM f = some m) :
    List.Forall₂ (fun x y => f x = some y) l m := by
  induction l generalizing m with
  | nil => cases h; exact .nil
  | cons x l ih =>
    rw [List.mapM_cons] at h
    obtain ⟨y, hy, h⟩ := Option.bind_eq_some_iff.mp h
    obtain ⟨ys, hys, h⟩ := Option.bind_eq_some_iff.mp h
    cases h
    exact .cons hy (ih hys)

theorem exists_of_mem_left {α β : Type} {r : α → β → Prop} {l : List α} {m : List β} (h : List.Forall₂ r l m) {x : α}
    (hx : x ∈ l) : ∃ y ∈ m, r x y := by
  induction h with
  | nil => cases hx
  | cons hr _ ih =>
    rcases List.mem_cons.mp hx with rfl | hx
    · exact ⟨_, List.mem_cons_self, hr⟩
    · obtain ⟨y, hy, hr⟩ := ih hx
      exact ⟨y, List.mem_cons_of_mem _ hy, hr⟩

theorem exists_of_mem_right {α β : Type} {r : α → β → Prop} {l : List α} {m : List β} (h : List.Forall₂ r l m) {y : β}
    (hy : y ∈ m) : ∃ x ∈ l, r x y :=
  exists_of_mem_left h.flip hy

theorem mapM_resolve_unique {contract : ApiContract} {fuel other : Nat} {schemas as bs : List Schema}
    (ha : schemas.mapM (resolve contract fuel) = some as) (hb : schemas.mapM (resolve contract other) = some bs) :
    as = bs := by
  have hfirst := forall₂_of_mapM ha
  have hsecond := forall₂_of_mapM hb
  clear ha hb
  induction hfirst generalizing bs with
  | nil => cases hsecond; rfl
  | cons h _ ih =>
    cases hsecond with
    | cons h' hrest => rw [resolve_unique h h', ih hrest]

theorem bodyObjects_unique {contract : ApiContract} {fuel other : Nat} {body : Schema} {as bs : List Schema}
    (ha : bodyObjects contract fuel body = some as) (hb : bodyObjects contract other body = some bs) : as = bs := by
  obtain ⟨root, hroot, ha⟩ := Option.bind_eq_some_iff.mp ha
  obtain ⟨root', hroot', hb⟩ := Option.bind_eq_some_iff.mp hb
  rw [resolve_unique hroot' hroot] at hb
  exact mapM_resolve_unique ha hb

theorem mem_admittedProperties {contract : ApiContract} {fuel : Nat} {properties : List (String × Json)}
    {admitted : List (String × Schema)} (h : admittedProperties contract fuel properties = some admitted) {key : String} :
    key ∈ admitted.map Prod.fst ↔ AdmittedIn contract properties key := by
  induction properties generalizing admitted with
  | nil =>
    cases h
    exact iff_of_false List.not_mem_nil fun ⟨_, _, _, hmem, _⟩ => absurd hmem List.not_mem_nil
  | cons property properties ih =>
    obtain ⟨name, value⟩ := property
    simp only [admittedProperties, Option.bind_eq_bind, Option.bind_eq_some_iff] at h
    obtain ⟨rest, hrest, h⟩ := h
    have hkeys := ih hrest
    -- the first property has no object schema, is excluded, or is admitted
    have hskip : (∀ fuel schema resolved, value = .object schema → resolve contract fuel schema = some resolved →
        excluded resolved = true) → (key ∈ rest.map Prod.fst ↔ AdmittedIn contract ((name, value) :: properties) key) := by
      intro hvalue
      rw [hkeys]
      constructor
      · rintro ⟨fuel, schema, resolved, hmem, hresolved, hadmitted⟩
        exact ⟨fuel, schema, resolved, List.mem_cons_of_mem _ hmem, hresolved, hadmitted⟩
      · rintro ⟨fuel, schema, resolved, hmem, hresolved, hadmitted⟩
        rcases List.mem_cons.mp hmem with he | hmem
        · cases he
          rw [hvalue fuel schema resolved rfl hresolved] at hadmitted
          cases hadmitted
        · exact ⟨fuel, schema, resolved, hmem, hresolved, hadmitted⟩
    split at h
    · rename_i hvalue
      cases h
      refine hskip fun _ schema _ he => ?_
      rw [he] at hvalue
      cases hvalue
    · rename_i schema hvalue
      obtain rfl : value = .object schema := by
        cases value with
        | object entries => cases hvalue; rfl
        | null | bool _ | number _ | string _ | array _ => cases hvalue
      obtain ⟨resolved, hresolved, hlist⟩ := Option.bind_eq_some_iff.mp h
      rw [Option.some.injEq] at hlist
      split at hlist
      · rename_i hexcluded
        subst hlist
        refine hskip fun fuel' schema' resolved' he hresolved' => ?_
        cases he
        rw [resolve_unique hresolved' hresolved]
        exact hexcluded
      · rename_i hadmitted
        subst hlist
        rw [List.map_cons, List.mem_cons, hkeys]
        constructor
        · rintro (rfl | ⟨fuel', schema', resolved', hmem, hresolved', hadmitted'⟩)
          · exact ⟨fuel, schema, resolved, List.mem_cons_self, hresolved, by simpa using hadmitted⟩
          · exact ⟨fuel', schema', resolved', List.mem_cons_of_mem _ hmem, hresolved', hadmitted'⟩
        · rintro ⟨fuel', schema', resolved', hmem, hresolved', hadmitted'⟩
          rcases List.mem_cons.mp hmem with he | hmem
          · cases he
            exact .inl rfl
          · exact .inr ⟨fuel', schema', resolved', hmem, hresolved', hadmitted'⟩

theorem keys_addField {contract : ApiContract} {fuel : Nat} {properties : List (String × Schema)}
    {fields result : Table String BodyField} (h : properties.foldlM (addField contract fuel) fields = some result)
    {key : String} : key ∈ result.keys ↔ key ∈ fields.keys ∨ key ∈ properties.map Prod.fst := by
  induction properties generalizing fields with
  | nil =>
    cases h
    simp
  | cons property properties ih =>
    rw [List.foldlM_cons] at h
    obtain ⟨next, hnext, h⟩ := Option.bind_eq_some_iff.mp h
    have hkeys : key ∈ next.keys ↔ key ∈ fields.keys ∨ key = property.1 := by
      simp only [addField, Option.bind_eq_bind, Option.bind_eq_some_iff, Option.some.injEq] at hnext
      obtain ⟨kind, -, secret, -, rfl⟩ := hnext
      rw [← Table.has_iff, Table.has, Table.get?_set, ← Table.has_iff, Table.has]
      split
      · rename_i he
        simp [he]
      · rename_i hne
        simp [hne]
    rw [ih h, hkeys, List.map_cons, List.mem_cons, or_assoc]

/-- The body has a flag for each of its fields. -/
theorem bodyFlags_slots {casing : Text.Casing} {contract : ApiContract} {fuel : Nat} {operation : ApiOperation}
    {flags : List InputFlag} (h : bodyFlags casing contract fuel operation = some flags) :
    ∃ keys : List String, flags.map InputFlag.slot = keys.map (FlagTarget.body, ·) ∧ keys.Nodup ∧
      ∀ key, key ∈ keys ↔ Admitted contract operation key := by
  rw [bodyFlags] at h
  split at h
  · rename_i hbody
    cases h
    refine ⟨[], rfl, List.nodup_nil, fun key => iff_of_false List.not_mem_nil ?_⟩
    rintro ⟨_, body, _, _, hbody', _⟩
    rw [hbody] at hbody'
    cases hbody'
  · rename_i body hbody
    obtain ⟨objects, hobjects, h⟩ := Option.bind_eq_some_iff.mp h
    split at h
    · rename_i hproperties
      cases h
      refine ⟨[], rfl, List.nodup_nil, fun key => iff_of_false List.not_mem_nil ?_⟩
      rintro ⟨fuel', body', objects', properties, hbody', hobjects', hproperties', _⟩
      obtain rfl : body = body' := Option.some.inj (hbody.symm.trans hbody')
      rw [bodyObjects_unique hobjects' hobjects, hproperties] at hproperties'
      cases hproperties'
    · rename_i properties hproperties
      obtain ⟨admitted, hadmitted, h⟩ := Option.bind_eq_some_iff.mp h
      obtain ⟨fields, hfields, h⟩ := Option.bind_eq_some_iff.mp h
      rw [Option.some.injEq] at h
      subst h
      refine ⟨fields.keys, ?_, fields.nodup, fun key => ?_⟩
      · rw [List.map_map, Table.keys, List.map_map]
        rfl
      · have hempty : key ∉ (Table.empty : Table String BodyField).keys := List.not_mem_nil
        rw [keys_addField hfields, or_iff_right hempty, List.map_flatten, List.mem_flatten]
        have hpairs := forall₂_of_mapM hadmitted
        constructor
        · rintro ⟨names, hnames, hkey⟩
          obtain ⟨entries, hentries, rfl⟩ := List.mem_map.mp hnames
          obtain ⟨properties', hproperties', hentries'⟩ := exists_of_mem_right hpairs hentries
          exact ⟨fuel, body, objects, properties, hbody, hobjects, hproperties, properties', hproperties',
            (mem_admittedProperties hentries').mp hkey⟩
        · rintro ⟨fuel', body', objects', properties', hbody', hobjects', hproperties', entries, hentries, hfield⟩
          obtain rfl : body = body' := Option.some.inj (hbody.symm.trans hbody')
          obtain rfl := bodyObjects_unique hobjects hobjects'
          obtain rfl : properties = properties' := Option.some.inj (hproperties.symm.trans hproperties')
          obtain ⟨fields', hfields', hadmitted'⟩ := exists_of_mem_left hpairs hentries
          exact ⟨fields'.map Prod.fst, List.mem_map_of_mem hfields', (mem_admittedProperties hadmitted').mpr hfield⟩

/-! ### Envelopes -/

/-- The record with the values written into it. -/
def merged (record : List (String × Json)) (values : List Assignment) : List (String × Json) :=
  values.foldl (fun record a => Table.insert a.key a.value record) record

theorem lookup_merged_of_notMem {values : List Assignment} {key : String} (h : key ∉ values.map Assignment.key)
    (record : List (String × Json)) : (merged record values).lookup key = record.lookup key := by
  induction values generalizing record with
  | nil => rfl
  | cons a values ih =>
    rw [List.map_cons, List.mem_cons, not_or] at h
    have hrest := ih h.2 (Table.insert a.key a.value record)
    rw [merged, List.foldl_cons, ← merged, hrest, Table.lookup_insert, if_neg h.1]

/-- Of values for different keys each is in the record. -/
theorem lookup_merged {values : List Assignment} (hnodup : (values.map Assignment.key).Nodup) {a : Assignment}
    (ha : a ∈ values) (record : List (String × Json)) : (merged record values).lookup a.key = some a.value := by
  induction values generalizing record with
  | nil => cases ha
  | cons b values ih =>
    rw [List.map_cons, List.nodup_cons] at hnodup
    rw [merged, List.foldl_cons, ← merged]
    rcases List.mem_cons.mp ha with rfl | ha
    · rw [lookup_merged_of_notMem hnodup.1, Table.lookup_insert, if_pos rfl]
    · exact ih hnodup.2 ha _

/-- The values of a partition. -/
def valuesIn (partition : String) (values : List Assignment) : List Assignment :=
  values.filter fun a => a.partition = partition

/-- A partition after the values: as it was, where it has none of them or is no object. -/
def partitionAfter (base : Table String Json) (values : List Assignment) (partition : String) : Option Json :=
  match partitionRecord (base.get? partition) with
  | none => base.get? partition
  | some record =>
    if valuesIn partition values = [] then base.get? partition
    else some (.object (merged record (valuesIn partition values)))

theorem partitionRecord_after (base : Table String Json) (values : List Assignment) (partition : String) :
    partitionRecord (partitionAfter base values partition) =
      (partitionRecord (base.get? partition)).map fun record => merged record (valuesIn partition values) := by
  rw [partitionAfter]
  cases hbase : partitionRecord (base.get? partition) with
  | none => simp [hbase]
  | some record =>
    dsimp only
    split
    · rename_i hnil
      rw [hbase, hnil]
      rfl
    · rfl

theorem valuesIn_concat (partition : String) (values : List Assignment) (a : Assignment) :
    valuesIn partition (values ++ [a]) = valuesIn partition values ++ if partition = a.partition then [a] else [] := by
  rw [valuesIn, List.filter_append, ← valuesIn]
  split
  · rename_i he
    simp [he]
  · rename_i hne
    simp [Ne.symm hne]

theorem partitionAfter_concat_of_ne {partition : String} {a : Assignment} (h : partition ≠ a.partition)
    (base : Table String Json) (values : List Assignment) :
    partitionAfter base (values ++ [a]) partition = partitionAfter base values partition := by
  rw [partitionAfter, partitionAfter, valuesIn_concat, if_neg h, List.append_nil]

/-- Another value of a partition that is an object. -/
theorem partitionAfter_concat_self {base : Table String Json} {values : List Assignment} {a : Assignment}
    {record : List (String × Json)} (h : partitionRecord (partitionAfter base values a.partition) = some record) :
    partitionAfter base (values ++ [a]) a.partition = some (.object (Table.insert a.key a.value record)) := by
  rw [partitionRecord_after] at h
  obtain ⟨record', hbase, rfl⟩ := Option.map_eq_some_iff.mp h
  simp [partitionAfter, hbase, valuesIn_concat, merged]

theorem partitionAfter_concat_blocked {base : Table String Json} {a : Assignment} (h : Blocked base a.partition)
    (values : List Assignment) :
    partitionAfter base (values ++ [a]) a.partition = partitionAfter base values a.partition := by
  rw [Blocked] at h
  simp [partitionAfter, h]

/-- What writing the values does to each partition, and which ones it reports. -/
theorem assign_run (base : Table String Json) (values : List Assignment) :
    (∀ partition, (values.foldl assign (base, [])).1.get? partition = partitionAfter base values partition) ∧
      ∀ partition, partition ∈ (values.foldl assign (base, [])).2 ↔
        ∃ a ∈ values, a.partition = partition ∧ Blocked base partition := by
  induction values using List.reverseRecOn with
  | nil =>
    refine ⟨fun partition => ?_, fun partition => ?_⟩
    · rw [partitionAfter]
      split <;> rfl
    · simp
  | append_singleton values a ih =>
    obtain ⟨hget, hconflicts⟩ := ih
    rw [List.foldl_append, List.foldl_cons, List.foldl_nil, assign]
    have hrecord := partitionRecord_after base values a.partition
    rw [hget a.partition]
    split
    · rename_i hnone
      have hblocked : Blocked base a.partition := by
        rwa [hrecord, Option.map_eq_none_iff] at hnone
      refine ⟨fun partition => ?_, fun partition => ?_⟩
      · rw [hget]
        by_cases hp : partition = a.partition
        · rw [hp, partitionAfter_concat_blocked hblocked]
        · rw [partitionAfter_concat_of_ne hp]
      · have hmem : partition ∈ (if a.partition ∈ (values.foldl assign (base, [])).2
            then (values.foldl assign (base, [])).2 else (values.foldl assign (base, [])).2 ++ [a.partition]) ↔
            partition ∈ (values.foldl assign (base, [])).2 ∨ partition = a.partition := by
          split
          · rename_i hthere
            exact ⟨.inl, fun h => h.elim id fun he => he ▸ hthere⟩
          · simp
        rw [hmem, hconflicts]
        simp only [List.mem_append, or_and_right, exists_or]
        refine or_congr_right ⟨?_, ?_⟩
        · rintro rfl
          exact ⟨a, List.mem_singleton_self a, rfl, hblocked⟩
        · rintro ⟨b, hb, rfl, -⟩
          rw [List.mem_singleton.mp hb]
    · rename_i record hsome
      refine ⟨fun partition => ?_, fun partition => ?_⟩
      · rw [Table.get?_set]
        split
        · rename_i hp
          rw [hp, partitionAfter_concat_self hsome]
        · rename_i hp
          rw [hget, partitionAfter_concat_of_ne hp]
      · rw [hconflicts]
        simp only [List.mem_append, or_and_right, exists_or]
        rw [or_iff_left]
        rintro ⟨b, hb, rfl, hblocked⟩
        rw [List.mem_singleton.mp hb, Blocked] at hblocked
        rw [hrecord, hblocked] at hsome
        cases hsome

theorem applyInputs_refused (inputs : OperationInputs) (base : Table String Json) (parsed : ResolvedInputs) :
    (∃ issues, applyInputs inputs base parsed = .error issues) ↔
      ∃ a ∈ assignments inputs parsed, Blocked base a.partition := by
  have hconflicts := (assign_run base (assignments inputs parsed)).2
  rw [applyInputs]
  generalize (assignments inputs parsed).foldl assign (base, []) = state at hconflicts
  constructor
  · rintro ⟨issues, h⟩
    have hne : state.2 ≠ [] := by
      intro hnil
      simp [hnil] at h
    obtain ⟨partition, hmem⟩ := List.exists_mem_of_ne_nil _ hne
    obtain ⟨a, ha, rfl, hblocked⟩ := (hconflicts partition).mp hmem
    exact ⟨a, ha, hblocked⟩
  · rintro ⟨a, ha, hblocked⟩
    have hmem := (hconflicts a.partition).mpr ⟨a, ha, rfl, hblocked⟩
    have hne : state.2.length ≠ 0 := List.length_pos_of_mem hmem |>.ne'
    exact ⟨_, if_neg hne⟩

theorem keys_valuesIn {values : List Assignment} (h : (values.map Assignment.slot).Nodup) (partition : String) :
    ((valuesIn partition values).map Assignment.key).Nodup := by
  have hslots : ((valuesIn partition values).map Assignment.slot).Nodup :=
    h.sublist (List.filter_sublist.map _)
  have hkeys : (valuesIn partition values).map Assignment.slot =
      ((valuesIn partition values).map Assignment.key).map fun key => (partition, key) := by
    rw [List.map_map]
    refine List.map_congr_left fun a ha => ?_
    have hp : a.partition = partition := by simpa using (List.mem_filter.mp ha).2
    exact Prod.ext hp rfl
  rw [hkeys] at hslots
  exact List.Nodup.of_map _ hslots

/-- Values for different slots are all there, and nothing else has changed. -/
theorem applyInputs_written {inputs : OperationInputs} {base : Table String Json} {parsed : ResolvedInputs}
    {envelope : Table String Json} (hnodup : ((assignments inputs parsed).map Assignment.slot).Nodup)
    (h : applyInputs inputs base parsed = .ok envelope) : Written base envelope (assignments inputs parsed) := by
  have hfree : ∀ a ∈ assignments inputs parsed, ¬ Blocked base a.partition := by
    intro a ha hblocked
    obtain ⟨issues, herror⟩ := (applyInputs_refused inputs base parsed).mpr ⟨a, ha, hblocked⟩
    rw [h] at herror
    cases herror
  have hget := (assign_run base (assignments inputs parsed)).1
  have henvelope : ((assignments inputs parsed).foldl assign (base, [])).1 = envelope := by
    rw [applyInputs] at h
    generalize (assignments inputs parsed).foldl assign (base, []) = state at h
    dsimp only at h
    split at h
    · exact Except.ok.inj h
    · cases h
  rw [henvelope] at hget
  generalize assignments inputs parsed = values at hnodup hfree hget
  have hafter : ∀ a ∈ values, ∃ record, partitionRecord (base.get? a.partition) = some record ∧
      envelope.get? a.partition = some (.object (merged record (valuesIn a.partition values))) := by
    intro a ha
    obtain ⟨record, hrecord⟩ := Option.ne_none_iff_exists'.mp (hfree a ha)
    have hne : valuesIn a.partition values ≠ [] := List.ne_nil_of_mem (List.mem_filter.mpr ⟨ha, by simp⟩)
    exact ⟨record, hrecord, by rw [hget, partitionAfter, hrecord]; exact if_neg hne⟩
  refine ⟨fun a ha => ?_, fun partition hp => ?_, fun partition record hrecord hp key hkey => ?_⟩
  · obtain ⟨record, -, henv⟩ := hafter a ha
    refine ⟨_, henv, lookup_merged (keys_valuesIn hnodup _) (List.mem_filter.mpr ⟨ha, by simp⟩) record⟩
  · have hnil : valuesIn partition values = [] := by
      refine List.filter_eq_nil_iff.mpr fun a ha he => hp ?_
      exact List.mem_map.mpr ⟨a, ha, by simpa using he⟩
    rw [hget, partitionAfter, hnil]
    split <;> rfl
  · obtain ⟨a, ha, rfl⟩ := List.mem_map.mp hp
    obtain ⟨record', hbase, henv⟩ := hafter a ha
    rw [henv, Option.some.injEq, Json.object.injEq] at hrecord
    subst hrecord
    rw [hbase, Option.getD_some]
    refine lookup_merged_of_notMem (fun hmem => hkey ?_) record'
    obtain ⟨b, hb, rfl⟩ := List.mem_map.mp hmem
    obtain ⟨hb, hpartition⟩ := List.mem_filter.mp hb
    have hpartition : b.partition = a.partition := by simpa using hpartition
    exact List.mem_map.mpr ⟨b, hb, Prod.ext hpartition rfl⟩

theorem given_sublist {α : Type} : ∀ (inputs : List α) (values : List (Option Json)),
    ((given inputs values).map Prod.fst).Sublist inputs
  | [], _ => by simp [given]
  | input :: inputs, [] => by simp [given]
  | input :: inputs, none :: values => (given_sublist inputs values).cons input
  | input :: inputs, some value :: values => (given_sublist inputs values).cons_cons input

theorem assignments_slots (inputs : OperationInputs) (parsed : ResolvedInputs) :
    ((assignments inputs parsed).map Assignment.slot).Sublist inputs.slots := by
  have harguments := (given_sublist inputs.arguments parsed.args).map fun argument => (PATH_PARTITION, argument.name)
  have hflags := (given_sublist inputs.flags parsed.flags).map fun flag => (partitionOf flag.target, flag.key)
  rw [List.map_map] at harguments hflags
  rw [assignments, List.map_append, List.map_map, List.map_map]
  exact harguments.append hflags

/-! ### Operations -/

theorem partitionOf_injective : Function.Injective partitionOf := by
  intro a b h
  cases a <;> cases b <;> first | rfl | exact absurd h (by decide)

theorem partitionOf_ne_path (target : FlagTarget) : PATH_PARTITION ≠ partitionOf target := by
  cases target <;> decide

/-- The parts of an operation's inputs. -/
theorem operationInputs_parts {casing : Text.Casing} {contract : ApiContract} {operation : ApiOperation} {fuel : Nat}
    {inputs : OperationInputs} (h : operationInputs casing contract operation fuel = some (.ok inputs)) :
    ∃ ofParameters ofBody, parameterFlags casing contract fuel (operationParameters contract operation) = some ofParameters ∧
      bodyFlags casing contract fuel operation = some ofBody ∧
      nameFlags operation [] (ofParameters ++ ofBody) = .ok inputs.flags ∧
      checkFileFlags operation (inputs.flags.map InputFlag.name) (inputs.flags.filter InputFlag.secret) = .ok () ∧
      inputs.arguments = ((operationParameters contract operation).filter fun parameter => parameter.location = .path).map
        fun parameter => ⟨parameter.name, parameter.description⟩ := by
  rw [operationInputs] at h
  obtain ⟨ofParameters, hparameters, h⟩ := Option.bind_eq_some_iff.mp h
  obtain ⟨ofBody, hbody, h⟩ := Option.bind_eq_some_iff.mp h
  refine ⟨ofParameters, ofBody, hparameters, hbody, ?_⟩
  rw [Option.some.injEq] at h
  cases hflags : nameFlags operation [] (ofParameters ++ ofBody) with
  | error message =>
    rw [hflags] at h
    cases h
  | ok flags =>
    rw [hflags] at h
    cases hfiles : checkFileFlags operation (flags.map InputFlag.name) (flags.filter InputFlag.secret) with
    | error message =>
      have h : (checkFileFlags operation (flags.map InputFlag.name) (flags.filter InputFlag.secret) >>= _) = _ := h
      rw [hfiles] at h
      cases h
    | ok _ =>
      have h : (checkFileFlags operation (flags.map InputFlag.name) (flags.filter InputFlag.secret) >>= _) = _ := h
      rw [hfiles] at h
      cases h
      exact ⟨rfl, hfiles, rfl⟩

/-- Where the flags write different slots, one of them writes each slot there is. -/
theorem oneFlag_iff {flags : List InputFlag} (h : (flags.map InputFlag.slot).Nodup) {target : FlagTarget} {key : String} :
    OneFlag flags target key ↔ (target, key) ∈ flags.map InputFlag.slot := by
  induction flags with
  | nil => simp [OneFlag]
  | cons flag flags ih =>
    obtain ⟨hflag, hflags⟩ := List.nodup_cons.mp h
    rw [List.map_cons, List.mem_cons, OneFlag]
    by_cases hslot : (target, key) = flag.slot
    · have hnone : (flags.filter fun other => other.target = target ∧ other.key = key) = [] := by
        refine List.filter_eq_nil_iff.mpr fun other hother hsame => hflag ?_
        have hsame : other.target = target ∧ other.key = key := by simpa using hsame
        exact List.mem_map.mpr ⟨other, hother, (Prod.ext hsame.1 hsame.2 : other.slot = (target, key)).trans hslot⟩
      cases hslot
      rw [List.filter_cons_of_pos (by simp), hnone]
      exact iff_of_true rfl (.inl rfl)
    · rw [List.filter_cons_of_neg, ← OneFlag, ih hflags, or_iff_right hslot]
      intro hsame
      have hsame : flag.target = target ∧ flag.key = key := by simpa using hsame
      exact hslot (Prod.ext hsame.1.symm hsame.2.symm)

theorem slots_nodup {contract : ApiContract} {operation : ApiOperation} {inputs : OperationInputs}
    (hdistinct : ((operationParameters contract operation).map fun parameter => (parameter.location, parameter.name)).Nodup)
    (harguments : inputs.arguments =
      ((operationParameters contract operation).filter fun parameter => parameter.location = .path).map
        fun parameter => ⟨parameter.name, parameter.description⟩)
    (hflags : (inputs.flags.map InputFlag.slot).Nodup) : inputs.slots.Nodup := by
  have hpath : (((operationParameters contract operation).filter fun parameter => parameter.location = .path).map
      fun parameter => (PATH_PARTITION, parameter.name)).Nodup := by
    have hsub := hdistinct.sublist (List.filter_sublist (p := fun parameter => parameter.location = .path) |>.map _)
    have hnames : (((operationParameters contract operation).filter fun parameter => parameter.location = .path).map
        fun parameter => (parameter.location, parameter.name)) =
        (((operationParameters contract operation).filter fun parameter => parameter.location = .path).map
          fun parameter => (PATH_PARTITION, parameter.name)).map fun slot => (ParameterLocation.path, slot.2) := by
      rw [List.map_map]
      refine List.map_congr_left fun parameter hmem => ?_
      have hlocation : parameter.location = .path := by simpa using (List.mem_filter.mp hmem).2
      exact Prod.ext hlocation rfl
    rw [hnames] at hsub
    exact hsub.of_map _
  have hpartitions : (inputs.flags.map fun flag => (partitionOf flag.target, flag.key)).Nodup := by
    have hmap := hflags.map (f := fun slot => (partitionOf slot.1, slot.2)) fun slot other he => by
      obtain ⟨htarget, hkey⟩ := Prod.mk.inj he
      exact Prod.ext (partitionOf_injective htarget) hkey
    rwa [List.map_map] at hmap
  rw [OperationInputs.slots, harguments, List.map_map]
  refine List.nodup_append.mpr ⟨hpath, hpartitions, ?_⟩
  rintro slot hslot slot' hslot' rfl
  obtain ⟨parameter, -, rfl⟩ := List.mem_map.mp hslot
  obtain ⟨flag, -, he⟩ := List.mem_map.mp hslot'
  exact partitionOf_ne_path flag.target (Prod.mk.inj he).1.symm

/-- Nothing is lost just when no query parameter has the name of the context header. -/
theorem inputs_lossless_iff {casing : Text.Casing} {contract : ApiContract} {operation : ApiOperation} {fuel : Nat}
    {inputs : OperationInputs}
    (hdistinct : ((operationParameters contract operation).map fun parameter => (parameter.location, parameter.name)).Nodup)
    (h : operationInputs casing contract operation fuel = some (.ok inputs)) :
    Lossless contract operation inputs ↔
      ∀ parameter ∈ operationParameters contract operation, parameter.location = .query → parameter.name ≠ CONTEXT_HEADER := by
  obtain ⟨ofParameters, ofBody, hparameters, hbody, hnamed, hfiles, harguments⟩ := operationInputs_parts h
  obtain ⟨keys, hkeys, hkeysNodup, hadmitted⟩ := bodyFlags_slots hbody
  have hslots : inputs.flags.map InputFlag.slot =
      (operationParameters contract operation).filterMap parameterSlot ++ keys.map (FlagTarget.body, ·) := by
    rw [nameFlags_slots hnamed, List.map_append, parameterFlags_slots hparameters, hkeys]
  have hbodySlot : ∀ name, (FlagTarget.body, name) ∉ (operationParameters contract operation).filterMap parameterSlot := by
    intro name hmem
    obtain ⟨-, parameter, -, htarget, -⟩ := mem_parameterSlots.mp hmem
    cases hlocation : parameter.location <;> rw [hlocation] at htarget <;> cases htarget
  have hnodup : (inputs.flags.map InputFlag.slot).Nodup := by
    rw [hslots]
    refine List.nodup_append.mpr ⟨nodup_parameterSlots hdistinct, hkeysNodup.map (fun _ _ he => (Prod.mk.inj he).2), ?_⟩
    rintro slot hslot slot' hslot' rfl
    obtain ⟨key, -, rfl⟩ := List.mem_map.mp hslot'
    exact hbodySlot key hslot
  have hslotsNodup := slots_nodup hdistinct harguments hnodup
  have hflagsFresh := nameFlags_fresh hnamed
  have hfilesFresh := checkFileFlags_fresh hfiles
  constructor
  · intro hlossless parameter hmem hquery hname
    have hcount := hlossless.parameters parameter hmem .query (by rw [hquery]; rfl) fun hheader => by
      rw [hquery] at hheader
      cases hheader.1
    rw [oneFlag_iff hnodup, hslots, List.mem_append] at hcount
    rcases hcount with hslot | hslot
    · exact (mem_parameterSlots.mp hslot).1 hname
    · obtain ⟨key, -, he⟩ := List.mem_map.mp hslot
      cases he
  · intro hquery
    refine ⟨?_, ?_, ?_, ?_, hslotsNodup, ?_, applyInputs_refused inputs⟩
    · refine List.nodup_append.mpr ⟨hflagsFresh.1, hfilesFresh.1, ?_⟩
      rintro name hname name' hname' rfl
      exact (hfilesFresh.2 name hname').2 hname
    · intro name hname
      rcases List.mem_append.mp hname with hname | hname
      · exact (hflagsFresh.2 name hname).1
      · exact (hfilesFresh.2 name hname).1
    · intro parameter hmem target htarget hheader
      rw [oneFlag_iff hnodup, hslots]
      refine List.mem_append_left _ (mem_parameterSlots.mpr ⟨fun hname => ?_, parameter, hmem, htarget, rfl⟩)
      cases hlocation : parameter.location with
      | path =>
        rw [hlocation] at htarget
        cases htarget
      | query => exact hquery parameter hmem hlocation hname
      | header => exact hheader ⟨hlocation, hname⟩
    · intro key hkey
      rw [oneFlag_iff hnodup, hslots]
      exact List.mem_append_right _ (List.mem_map_of_mem ((hadmitted key).mpr hkey))
    · intro base parsed envelope happly
      exact applyInputs_written (hslotsNodup.sublist (assignments_slots inputs parsed)) happly

theorem no_slash_singleton (_ : List Char) (c : Char) (_ : List Char) (h : ¬ c.toNat < 128) : '/' ∉ [c] := by
  intro hslash
  obtain rfl := List.mem_singleton.mp hslash
  exact h (by decide)

/-- Texts beyond ASCII as they are. -/
def asciiCasing : Text.Casing where
  lower _ c _ := [c]
  no_slash := no_slash_singleton

/-- A cluster is resumed: `akua clusters resume <id> --if-match .. --dry-run ..`. -/
def clusters : ApiContract where
  parameters := .ofList [
    ("path:id", ⟨"id", .path, true, none, [("type", .string "string")]⟩),
    ("header:if-match", ⟨"if-match", .header, true, none, [("type", .string "string")]⟩),
    ("query:akua-context", ⟨"akua-context", .query, false, none, [("type", .string "string")]⟩)]
  definitions := .ofList [
    ("Resume", [("properties", .object [("dryRun", .object [("type", .string "boolean")])])])]

def resume : ApiOperation :=
  ⟨"clusters.resume", ["path:id", "header:if-match"], some [("$ref", .string "#/$defs/Resume")]⟩

def resumeInputs : OperationInputs where
  arguments := [⟨"id", none⟩]
  flags := [
    ⟨"if-match", .header, "if-match", .string, true, false, none⟩,
    ⟨"dry-run", .body, "dryRun", .boolean, false, false, none⟩]
  context := false

theorem resume_lossless : Lossless clusters resume resumeInputs := by
  have hinputs : operationInputs asciiCasing clusters resume 2 = some (.ok resumeInputs) := by rfl
  exact (inputs_lossless_iff (by decide) hinputs).mpr (by decide)

/-- A query parameter with the context header's name has no flag. -/
theorem query_context_lost :
    operationInputs asciiCasing clusters ⟨"clusters.list", ["query:akua-context"], none⟩ 1 = some (.ok ⟨[], [], false⟩) ∧
      ¬ Lossless clusters ⟨"clusters.list", ["query:akua-context"], none⟩ ⟨[], [], false⟩ := by
  refine ⟨by rfl, fun h => ?_⟩
  have hflag := h.parameters ⟨"akua-context", .query, false, none, [("type", .string "string")]⟩ ?_ .query rfl ?_
  · cases hflag
  · exact List.mem_singleton.mpr rfl
  · exact fun hheader => by cases hheader.1

end Akua.Api
