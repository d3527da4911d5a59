import Akua.ValuesSchema
import Mathlib.Data.List.Perm.Basic

/-! The names of generated schemas. The name of a nested object is made of the names on the path to it,
    one behind the other, and nothing keeps two paths from the same name: the names of a chart's module
    are distinct exactly when no two objects of the schema come to one name. -/

namespace Akua.ValuesSchema

/-! ### Paths -/

/-- A step from a schema to one inside it. -/
inductive Step where
  | property (name : String)
  | item
deriving DecidableEq

def Step.text : Step → String
  | .property name => pascalCase name
  | .item => "Item"

/-- The name of the schema of the object at a path. -/
def nameAt (path : List Step) : String := path.foldl (fun name step => name ++ step.text) "Values"

theorem nameAt_concat (path : List Step) (step : Step) : nameAt (path ++ [step]) = nameAt path ++ step.text := by
  rw [nameAt, List.foldl_append]
  rfl

mutual

/-- The paths of the objects within a type that get a schema of their own. -/
def objects (path : List Step) : JsonSchema → List (List Step)
  | ⟨type, properties, _, items, _, _, _⟩ =>
    if isSeveral type ∧ 1 < ((members type).filter (· ≠ "null")).length then []
    else if primaryType type = "object" then propertyObjects path properties ++ [path]
    else if primaryType type = "array" then itemObjects (path ++ [.item]) items
    else []

def itemObjects (path : List Step) : Option JsonSchema → List (List Step)
  | none => []
  | some schema => objects path schema

def propertyObjects (path : List Step) : List (String × JsonSchema) → List (List Step)
  | [] => []
  | (property, schema) :: properties =>
    objects (path ++ [.property property]) schema ++ propertyObjects path properties

end

/-- The objects of a `values.schema.json`, none when the root is not an object. -/
def Schema.objects (schema : Schema) : List (List Step) :=
  if primaryType schema.root.type ≠ "object" then [] else propertyObjects [] schema.root.properties ++ [[]]

/-! ### Paths are distinct -/

mutual

theorem objects_below {path : List Step} : ∀ {schema : JsonSchema}, ∀ object ∈ objects path schema, path <+: object
  | ⟨type, properties, _, items, _, _, _⟩, object, h => by
    rw [objects] at h
    split at h
    · cases h
    · split at h
      · rcases List.mem_append.mp h with h | h
        · obtain ⟨_, _, rest, rfl⟩ := propertyObjects_below object h
          exact ⟨_, rfl⟩
        · have heq := List.mem_singleton.mp h
          exact heq ▸ List.prefix_refl path
      · split at h
        · exact (List.prefix_append path [.item]).trans (itemObjects_below object h)
        · cases h

theorem itemObjects_below {path : List Step} : ∀ {items : Option JsonSchema}, ∀ object ∈ itemObjects path items,
    path <+: object
  | none, _, h => by cases h
  | some _, object, h => objects_below object h

theorem propertyObjects_below {path : List Step} : ∀ {properties : List (String × JsonSchema)},
    ∀ object ∈ propertyObjects path properties,
      ∃ property ∈ properties.map Prod.fst, ∃ rest, object = path ++ .property property :: rest
  | [], _, h => by cases h
  | (property, _) :: _, object, h => by
    rcases List.mem_append.mp h with h | h
    · obtain ⟨rest, rfl⟩ := objects_below object h
      exact ⟨property, by simp, rest, by simp⟩
    · obtain ⟨other, hother, rest, rfl⟩ := propertyObjects_below object h
      exact ⟨other, by simp [hother], rest, rfl⟩

end

mutual

theorem objects_nodup {path : List Step} : ∀ {schema : JsonSchema}, Decoded schema → (objects path schema).Nodup
  | ⟨type, properties, _, items, _, _, _⟩, h => by
    rw [objects]
    split
    · exact List.nodup_nil
    · split
      · refine List.nodup_append.mpr ⟨propertyObjects_nodup h.1 h.2.2.1, List.nodup_singleton _, ?_⟩
        rintro object hobject _ (_ | ⟨_, ⟨⟩⟩) rfl
        obtain ⟨_, _, rest, heq⟩ := propertyObjects_below _ hobject
        exact absurd heq (by simp)
      · split
        · exact itemObjects_nodup h.2.2.2
        · exact List.nodup_nil

theorem itemObjects_nodup {path : List Step} : ∀ {items : Option JsonSchema}, DecodedItems items →
    (itemObjects path items).Nodup
  | none, _ => List.nodup_nil
  | some schema, h => @objects_nodup path schema h

theorem propertyObjects_nodup {path : List Step} : ∀ {properties : List (String × JsonSchema)},
    (properties.map Prod.fst).Nodup → DecodedProperties properties → (propertyObjects path properties).Nodup
  | [], _, _ => List.nodup_nil
  | (property, schema) :: properties, hnodup, h => by
    obtain ⟨hfresh, hnodup⟩ := List.nodup_cons.mp hnodup
    refine List.nodup_append.mpr ⟨objects_nodup h.1, propertyObjects_nodup hnodup h.2, ?_⟩
    rintro object hobject _ hother rfl
    obtain ⟨rest, rfl⟩ := objects_below object hobject
    obtain ⟨other, hmem, rest', heq⟩ := propertyObjects_below _ hother
    rw [List.append_assoc, List.append_cancel_left_eq] at heq
    obtain rfl : property = other := by simpa using (List.cons.inj heq).1
    exact hfresh hmem

end

theorem Schema.objects_nodup (schema : Schema) : schema.objects.Nodup := by
  have hdecoded := schema.decoded
  obtain ⟨⟨type, properties, required, items, default, description, closed⟩, _⟩ := schema
  rw [Schema.objects]
  split
  · exact List.nodup_nil
  refine List.nodup_append.mpr ⟨propertyObjects_nodup hdecoded.1 hdecoded.2.2.1, List.nodup_singleton _, ?_⟩
  rintro object hobject _ (_ | ⟨_, ⟨⟩⟩) rfl
  obtain ⟨_, _, rest, heq⟩ := propertyObjects_below _ hobject
  exact absurd heq (by simp)

/-! ### Names and references -/

/-- The schemas a type refers to. -/
def Annotation.references : Annotation → List String
  | .schema name => [name]
  | .list item => item.references
  | _ => []

def Declaration.references (declaration : Declaration) : List String :=
  declaration.fields.flatMap fun field => field.type.references

/-- The schemas that are emitted for these objects, which hold all they refer to, and `references`. -/
structure Emits (schemas : List Declaration) (paths : List (List Step)) (references : List String) : Prop where
  names : (schemas.map Declaration.name).Perm (paths.map nameAt)
  inner : ∀ declaration ∈ schemas, ∀ reference ∈ declaration.references, reference ∈ schemas.map Declaration.name
  outer : ∀ reference ∈ references, reference ∈ schemas.map Declaration.name

theorem Emits.nothing : Emits [] [] [] :=
  ⟨List.Perm.nil, fun _ h => absurd h List.not_mem_nil, fun _ h => absurd h List.not_mem_nil⟩

theorem Emits.append {schemas schemas' : List Declaration} {paths paths' : List (List Step)}
    {references references' : List String} (h : Emits schemas paths references)
    (h' : Emits schemas' paths' references') :
    Emits (schemas ++ schemas') (paths ++ paths') (references ++ references') := by
  refine ⟨by simpa using h.names.append h'.names, fun declaration hd reference hr => ?_, fun reference hr => ?_⟩
  · rw [List.map_append, List.mem_append]
    rcases List.mem_append.mp hd with hd | hd
    · exact Or.inl (h.inner declaration hd reference hr)
    · exact Or.inr (h'.inner declaration hd reference hr)
  · rw [List.map_append, List.mem_append]
    rcases List.mem_append.mp hr with hr | hr
    · exact Or.inl (h.outer reference hr)
    · exact Or.inr (h'.outer reference hr)

/-- The schema of an object comes after those of the objects in it. -/
theorem Emits.emit {name : String} {description : Option String} {closed : Bool} {path : List Step}
    {paths : List (List Step)} {properties : List (String × Rendered)} (hname : name = nameAt path)
    (hproperties : ∀ rendered : List (List Declaration × Field),
      List.Forall₂ (fun property r => property.2 = .ok r) properties rendered →
        Emits (rendered.flatMap Prod.fst) paths (rendered.flatMap fun r => r.2.type.references))
    {schemas : List Declaration} (h : emit name description closed properties = .ok schemas) :
    Emits schemas (paths ++ [path]) [name] := by
  obtain ⟨sorted, hsorted, rfl⟩ := emit_eq_ok.mp h
  obtain ⟨rendered, hall, hperm⟩ := List.perm_comp_forall₂ (List.perm_insertionSort _ properties).symm hsorted
  have hnested := hproperties rendered hall
  have hmem : ∀ reference, reference ∈ (rendered.flatMap Prod.fst).map Declaration.name →
      reference ∈ (sorted.flatMap Prod.fst ++
        [(⟨name, description, closed, sorted.map Prod.snd⟩ : Declaration)]).map Declaration.name := by
    intro reference hr
    rw [List.map_append, List.mem_append]
    exact Or.inl (((hperm.flatMap_right Prod.fst).map Declaration.name).mem_iff.mp hr)
  refine ⟨?_, fun declaration hd reference hr => hmem _ ?_, fun reference hr => ?_⟩
  · rw [List.map_append, List.map_append]
    refine List.Perm.append ?_ (by rw [List.map_singleton, List.map_singleton, hname])
    exact ((hperm.flatMap_right Prod.fst).map Declaration.name).symm.trans hnested.names
  · rcases List.mem_append.mp hd with hd | hd
    · exact hnested.inner declaration ((hperm.flatMap_right Prod.fst).mem_iff.mpr hd) reference hr
    · rw [List.mem_singleton.mp hd] at hr
      obtain ⟨field, hfield, hr⟩ := List.mem_flatMap.mp hr
      obtain ⟨r, hmemr, rfl⟩ := List.mem_map.mp hfield
      exact hnested.outer reference (List.mem_flatMap.mpr ⟨r, hperm.mem_iff.mpr hmemr, hr⟩)
  · rw [List.mem_singleton.mp hr]
    simp

mutual

/-- A type emits the schemas of its objects. -/
theorem renderType_emits {path : List Step} {name : String} (hname : name = nameAt path) :
    ∀ {schema : JsonSchema} {rendered}, renderType name schema = .ok rendered →
      Emits rendered.1 (objects path schema) rendered.2.references
  | ⟨type, properties, required, items, default, description, closed⟩, rendered, h => by
    rw [renderType] at h
    rw [objects]
    split at h
    · rename_i hseveral
      rw [if_pos hseveral]
      split at h <;> (rw [← Except.ok.inj h]; exact Emits.nothing)
    · rename_i hseveral
      rw [if_neg hseveral]
      split at h
      · rename_i hobject
        rw [if_pos hobject]
        obtain ⟨schemas, hemit, rfl⟩ := except_map_eq_ok.mp h
        exact Emits.emit hname (fun _ => renderProperties_emit hname) hemit
      · rename_i hobject
        rw [if_neg hobject]
        split at h
        · rename_i harray
          rw [if_pos harray]
          obtain ⟨inner, hitems, rfl⟩ := except_map_eq_ok.mp h
          have hitem : name ++ "Item" = nameAt (path ++ [.item]) := by
            rw [hname, nameAt_concat]
            rfl
          have hemits := renderItems_emit hitem hitems
          exact hemits
        · rename_i harray
          rw [if_neg harray, ← Except.ok.inj h]
          exact Emits.nothing

theorem renderItems_emit {path : List Step} {name : String} (hname : name = nameAt path) :
    ∀ {items : Option JsonSchema} {rendered}, renderItems name items = .ok rendered →
      Emits rendered.1 (itemObjects path items) rendered.2.references
  | none, _, h => by
    rw [← Except.ok.inj h]
    exact Emits.nothing
  | some schema, _, h => @renderType_emits path name hname schema _ h

theorem renderProperties_emit {path : List Step} {name : String} {required : List String} (hname : name = nameAt path) :
    ∀ {properties : List (String × JsonSchema)} {rendered : List (List Declaration × Field)},
      List.Forall₂ (fun property r => property.2 = .ok r) (renderProperties name required properties) rendered →
        Emits (rendered.flatMap Prod.fst) (propertyObjects path properties)
          (rendered.flatMap fun r => r.2.type.references)
  | [], _, h => by
    cases h
    exact Emits.nothing
  | (property, schema) :: properties, _, h => by
    obtain _ | ⟨heq, hrest⟩ := h
    simp only at heq
    split at heq
    · obtain ⟨inner, hinner, rfl⟩ := except_map_eq_ok.mp heq
      have hproperty : name ++ pascalCase property = nameAt (path ++ [.property property]) := by
        rw [hname, nameAt_concat]
        rfl
      exact (renderType_emits hproperty hinner).append (renderProperties_emit hname hrest)
    · cases heq

end

/-! ### Modules -/

/-- The schemas of a chart's module, with typed values or without. -/
def moduleNames (schemas : Option (List Declaration)) : List String :=
  (schemas.getD []).map Declaration.name ++ ["TemplateOpts"]

/-- The schemas it refers to: in its attributes, as the type of `values` and of `template`'s options. -/
def moduleReferences (schemas : Option (List Declaration)) : List String :=
  (schemas.getD []).flatMap Declaration.references ++ (if schemas.isSome then ["Values"] else []) ++ ["TemplateOpts"]

theorem nameAt_starts (path : List Step) : ∃ rest, nameAt path = "Values" ++ rest := by
  induction path using List.reverseRecOn with
  | nil => exact ⟨"", rfl⟩
  | append_singleton path step ih =>
    obtain ⟨rest, hrest⟩ := ih
    exact ⟨rest ++ step.text, by rw [nameAt_concat, hrest, String.append_assoc]⟩

theorem nameAt_ne_templateOpts (path : List Step) : nameAt path ≠ "TemplateOpts" := by
  obtain ⟨rest, hrest⟩ := nameAt_starts path
  intro h
  rw [hrest] at h
  have h := congrArg String.toList h
  rw [String.toList_append] at h
  exact absurd (List.cons.inj h).1 (by decide)

theorem declarations_emit {schema : Schema} {schemas : Option (List Declaration)}
    (h : declarations schema = .ok schemas) :
    Emits (schemas.getD []) schema.objects (if schemas.isSome then ["Values"] else []) := by
  rw [declarations] at h
  rw [Schema.objects]
  split at h
  · rename_i hroot
    obtain rfl : none = schemas := Except.ok.inj h
    rw [if_pos hroot]
    exact Emits.nothing
  · rename_i hroot
    obtain ⟨emitted, hemit, rfl⟩ := except_map_eq_ok.mp h
    rw [if_neg hroot]
    exact Emits.emit rfl (fun _ => renderProperties_emit rfl) hemit

/-- The schema names of a chart's module are distinct, and each schema it refers to is defined once,
    exactly when no two objects of its `values.schema.json` come to one name. -/
theorem schema_names_iff (schema : Schema) {schemas : Option (List Declaration)}
    (h : declarations schema = .ok schemas) :
    ((moduleNames schemas).Nodup ∧
        ∀ reference ∈ moduleReferences schemas, (moduleNames schemas).count reference = 1) ↔
      ∀ a ∈ schema.objects, ∀ b ∈ schema.objects, nameAt a = nameAt b → a = b := by
  have hemits := declarations_emit h
  have hnodup : (moduleNames schemas).Nodup ↔
      ∀ a ∈ schema.objects, ∀ b ∈ schema.objects, nameAt a = nameAt b → a = b := by
    have hopts : "TemplateOpts" ∉ (schemas.getD []).map Declaration.name := by
      intro hmem
      obtain ⟨path, -, hpath⟩ := List.mem_map.mp (hemits.names.mem_iff.mp hmem)
      exact nameAt_ne_templateOpts path hpath
    rw [moduleNames, ← List.concat_eq_append, List.nodup_concat, hemits.names.nodup_iff,
      List.nodup_map_iff_inj_on schema.objects_nodup]
    exact ⟨fun h => h.2, fun h => ⟨hopts, h⟩⟩
  rw [← hnodup]
  refine and_iff_left_of_imp fun hnodup reference href => ?_
  refine List.count_eq_one_of_mem hnodup ?_
  rw [moduleNames, List.mem_append]
  rcases List.mem_append.mp href with hr | hr
  · rcases List.mem_append.mp hr with hr | hr
    · obtain ⟨declaration, hd, hr⟩ := List.mem_flatMap.mp hr
      exact Or.inl (hemits.inner declaration hd reference hr)
    · exact Or.inl (hemits.outer reference hr)
  · exact Or.inr hr

/-- An object without properties. -/
def emptyObject : JsonSchema := ⟨some (.one "object"), [], [], none, none, none, false⟩

/-- A schema with two objects in it. -/
def twoObjects (first second : String) (h : first ≠ second) : Schema where
  root := ⟨some (.one "object"), [(first, emptyObject), (second, emptyObject)], [], none, none, none, false⟩
  decoded := by simp [Decoded, DecodedProperties, DecodedItems, emptyObject, h]

/-- The properties `a_b` and `aB` come to one name, which is defined twice. -/
theorem two_schemas_of_one_name :
    ∃ schemas, declarations (twoObjects "a_b" "aB" (by decide)) = .ok (some schemas) ∧
      moduleNames (some schemas) = ["ValuesAB", "ValuesAB", "Values", "TemplateOpts"] ∧
      "ValuesAB" ∈ moduleReferences (some schemas) ∧ (moduleNames (some schemas)).count "ValuesAB" = 2 :=
  ⟨_, rfl, by decide, by decide, by decide⟩

/-- The properties `image` and `service` do not. -/
theorem two_schemas_of_two_names :
    ∃ schemas, (moduleNames schemas).Nodup ∧
      ∀ reference ∈ moduleReferences schemas, (moduleNames schemas).count reference = 1 :=
  ⟨_, (schema_names_iff (twoObjects "image" "service" (by decide)) rfl).mpr (by decide)⟩

end Akua.ValuesSchema
