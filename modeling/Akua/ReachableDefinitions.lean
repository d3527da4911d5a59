import Akua.ContractSchemas
import Akua.Lib.Worklist

/-! The definitions that the generated contract carries: the component schemas that its operations and
    parameters refer to, each cleaned, and those that these refer to in turn. They are collected in a
    plain object, in which every name of `Object.prototype` seems to be there already. -/

namespace Akua.Contract

/-- The names that `name in definitions` finds in any plain object. -/
def INHERITED : List String :=
  ["constructor", "__defineGetter__", "__defineSetter__", "hasOwnProperty", "__lookupGetter__", "__lookupSetter__",
    "isPrototypeOf", "propertyIsEnumerable", "toString", "valueOf", "__proto__", "toLocaleString"]

/-- What an object refers to itself. -/
def ownReference (entries : List (String × Json)) : List String :=
  match entries.lookup "$ref" with
  | some (.string reference) =>
    if Text.startsWith reference DEFINITION_PREFIX then [Text.after reference DEFINITION_PREFIX] else []
  | _ => []

mutual

def definitionReferences : Json → List String
  | .array values => referencesIn values
  | .object entries => ownReference entries ++ referencesOf entries
  | _ => []

def referencesIn : List Json → List String
  | [] => []
  | value :: values => definitionReferences value ++ referencesIn values

def referencesOf : List (String × Json) → List String
  | [] => []
  | (_, value) :: entries => definitionReferences value ++ referencesOf entries

end

/-- What a component schema becomes, and the names it puts on the stack, the last one on top. -/
def expandComponent (component : List (String × Json)) : List (String × Json) × List String :=
  let cleaned := cleanSchema component
  (cleaned, (definitionReferences (.object cleaned)).reverse)

/-- Sorted by `left.localeCompare(right)`. -/
def sortKeys {α : Type} (localeCompare : String → String → Bool) (record : Table String α) : Table String α :=
  .ofList (record.entries.mergeSort fun left right => localeCompare left.1 right.1)

/-- The definitions that the roots need, out of `document.components.schemas`. -/
def reachableDefinitions (localeCompare : String → String → Bool) (schemas : Table String (List (String × Json)))
    (roots : Json) : Except String (Table String (List (String × Json))) :=
  match Worklist.run schemas expandComponent (fun name => name ∈ INHERITED) .empty
      (definitionReferences roots).reverse with
  | .error name => .error s!"Missing component schema {name}"
  | .ok definitions => .ok (sortKeys localeCompare definitions)

/-! ### References -/

/-- A document somewhere in another. -/
inductive Inside : Json → Json → Prop where
  | here {value : Json} : Inside value value
  | item {value item : Json} {values : List Json} (h : Inside value item) (hitem : item ∈ values) :
      Inside value (.array values)
  | entry {value item : Json} {key : String} {entries : List (String × Json)} (h : Inside value item)
      (hentry : (key, item) ∈ entries) : Inside value (.object entries)

/-- A `$ref` to `#/$defs/name` somewhere in the document. -/
def Refers (value : Json) (name : String) : Prop :=
  ∃ entries, Inside (.object entries) value ∧ entries.lookup "$ref" = some (.string (DEFINITION_PREFIX ++ name))

theorem mem_ownReference {entries : List (String × Json)} {name : String} :
    name ∈ ownReference entries ↔ entries.lookup "$ref" = some (.string (DEFINITION_PREFIX ++ name)) := by
  rw [ownReference]
  split
  · rename_i reference hreference
    rw [hreference, Option.some.injEq, Json.string.injEq]
    split
    · rename_i hstarts
      obtain ⟨rest, rfl⟩ := Text.startsWith_iff.mp hstarts
      rw [Text.after_append, List.mem_singleton, String.append_right_inj, eq_comm]
    · rename_i hstarts
      refine iff_of_false List.not_mem_nil fun h => hstarts ?_
      exact Text.startsWith_iff.mpr ⟨name, h⟩
  · rename_i hnone
    exact iff_of_false List.not_mem_nil fun h => hnone _ h

mutual

theorem mem_definitionReferences {name : String} : ∀ value : Json, name ∈ definitionReferences value ↔ Refers value name
  | .null | .bool _ | .number _ | .string _ => by
      refine iff_of_false List.not_mem_nil ?_
      rintro ⟨entries, hinside, -⟩
      cases hinside
  | .array values => by
      rw [definitionReferences, mem_referencesIn]
      constructor
      · rintro ⟨value, hvalue, entries, hinside, href⟩
        exact ⟨entries, .item hinside hvalue, href⟩
      · rintro ⟨entries, hinside, href⟩
        cases hinside with
        | item h hitem => exact ⟨_, hitem, entries, h, href⟩
  | .object entries => by
      rw [definitionReferences, List.mem_append, mem_ownReference, mem_referencesOf]
      constructor
      · rintro (href | ⟨key, value, hvalue, inner, hinside, href⟩)
        · exact ⟨entries, .here, href⟩
        · exact ⟨inner, .entry hinside hvalue, href⟩
      · rintro ⟨inner, hinside, href⟩
        cases hinside with
        | here => exact .inl href
        | entry h hentry => exact .inr ⟨_, _, hentry, inner, h, href⟩

theorem mem_referencesIn {name : String} : ∀ values : List Json,
    name ∈ referencesIn values ↔ ∃ value ∈ values, Refers value name
  | [] => by simp [referencesIn]
  | value :: values => by
      rw [referencesIn, List.mem_append, mem_definitionReferences value, mem_referencesIn values, List.exists_mem_cons_iff]

theorem mem_referencesOf {name : String} : ∀ entries : List (String × Json),
    name ∈ referencesOf entries ↔ ∃ key value, (key, value) ∈ entries ∧ Refers value name
  | [] => by simp [referencesOf]
  | (key, value) :: entries => by
      rw [referencesOf, List.mem_append, mem_definitionReferences value, mem_referencesOf entries]
      constructor
      · rintro (h | ⟨key', value', hmem, h⟩)
        · exact ⟨key, value, List.mem_cons_self, h⟩
        · exact ⟨key', value', List.mem_cons_of_mem _ hmem, h⟩
      · rintro ⟨key', value', hmem, h⟩
        rcases List.mem_cons.mp hmem with heq | hmem
        · obtain ⟨rfl, rfl⟩ := Prod.mk.inj heq
          exact .inl h
        · exact .inr ⟨key', value', hmem, h⟩

end

/-! ### Closure -/

/-- A name that the roots refer to, or a component schema that one of them leads to. -/
inductive Reachable (schemas : Table String (List (String × Json))) (roots : Json) : String → Prop where
  | root {name : String} (h : Refers roots name) : Reachable schemas roots name
  | step {name next : String} {component : List (String × Json)} (h : Reachable schemas roots name)
      (hcomponent : schemas.get? name = some component) (hnext : Refers (.object (cleanSchema component)) next) :
      Reachable schemas roots next

/-- Every reference has a definition, and every definition is reached. -/
structure Closed (schemas definitions : Table String (List (String × Json))) (roots : Json) : Prop where
  fromRoots : ∀ name, Refers roots name → name ∈ definitions.keys
  fromDefinitions : ∀ name schema, definitions.get? name = some schema → ∀ next, Refers (.object schema) next →
    next ∈ definitions.keys
  reachable : ∀ name ∈ definitions.keys, Reachable schemas roots name

theorem keys_sortKeys {α : Type} (localeCompare : String → String → Bool) (record : Table String α) :
    (sortKeys localeCompare record).entries.Perm record.entries := by
  have hperm := List.mergeSort_perm record.entries fun left right => localeCompare left.1 right.1
  rw [sortKeys, Table.entries_ofList ((hperm.map Prod.fst).nodup_iff.mpr record.nodup)]
  exact hperm

theorem reached_iff {schemas : Table String (List (String × Json))} {roots : Json} {name : String} :
    Worklist.Reached schemas expandComponent (definitionReferences roots).reverse name ↔
      Reachable schemas roots name := by
  constructor
  · intro h
    induction h with
    | start h => exact .root ((mem_definitionReferences _).mp (List.mem_reverse.mp h))
    | next _ hnode hm ih => exact .step ih hnode ((mem_definitionReferences _).mp (List.mem_reverse.mp hm))
  · intro h
    induction h with
    | root h => exact .start (List.mem_reverse.mpr ((mem_definitionReferences _).mpr h))
    | step _ hcomponent hnext ih =>
      exact .next ih hcomponent (List.mem_reverse.mpr ((mem_definitionReferences _).mpr hnext))

/-- The definitions that are returned are closed just when no name that is reached is one that every plain
    object has. -/
theorem definitions_closed_iff {localeCompare : String → String → Bool}
    {schemas definitions : Table String (List (String × Json))} {roots : Json}
    (h : reachableDefinitions localeCompare schemas roots = .ok definitions) :
    Closed schemas definitions roots ↔ ∀ name, Reachable schemas roots name → name ∉ INHERITED := by
  rw [reachableDefinitions] at h
  split at h
  · cases h
  rename_i found hrun
  have hperm : definitions.entries.Perm found.entries := by
    rw [← Except.ok.inj h]
    exact keys_sortKeys localeCompare found
  have hkeys : ∀ name, name ∈ definitions.keys ↔ name ∈ found.keys := fun name => (hperm.map Prod.fst).mem_iff
  have hget : ∀ name schema, definitions.get? name = some schema ↔ found.get? name = some schema := by
    intro name schema
    rw [Table.get?_eq_some, Table.get?_eq_some, hperm.mem_iff]
  have hinv := Worklist.run_inv Worklist.inv_start hrun
  constructor
  · intro hclosed
    -- every name that is reached has a definition, and no definition has such a name
    have hdefined : ∀ name, Reachable schemas roots name → name ∈ definitions.keys := by
      intro name hname
      induction hname with
      | root h => exact hclosed.fromRoots _ h
      | step _ hcomponent hnext ih =>
        obtain ⟨schema, hschema⟩ := Option.isSome_iff_exists.mp (Table.has_iff.mpr ih)
        obtain ⟨-, node, hnode, rfl, -⟩ := hinv.valued _ _ ((hget _ _).mp hschema)
        obtain rfl := Option.some.inj (hcomponent.symm.trans hnode)
        exact hclosed.fromDefinitions _ _ hschema _ hnext
    intro name hname hinherited
    obtain ⟨schema, hschema⟩ := Option.isSome_iff_exists.mp (Table.has_iff.mpr (hdefined name hname))
    have hpass := (hinv.valued _ _ ((hget _ _).mp hschema)).1
    exact absurd hinherited (of_decide_eq_false hpass)
  · intro hnames
    have hmem : ∀ name, name ∈ definitions.keys ↔ Reachable schemas roots name := by
      intro name
      rw [hkeys, Worklist.mem_keys_iff hrun fun m hm => decide_eq_false (hnames m (reached_iff.mp hm)), reached_iff]
    refine ⟨fun name hname => (hmem name).mpr (.root hname), fun name schema hschema next hnext => ?_,
      fun name hname => (hmem name).mp hname⟩
    obtain ⟨-, node, hnode, rfl, -⟩ := hinv.valued _ _ ((hget _ _).mp hschema)
    have hreached := (hmem name).mp (Table.has_iff.mp (Option.isSome_iff_exists.mpr ⟨_, hschema⟩))
    exact (hmem next).mpr (.step hreached hnode hnext)

/-- A request body that refers to a schema by its name. -/
def referring (name : String) : Json :=
  .object [("body", .object [("$ref", .string (DEFINITION_PREFIX ++ name))])]

/-- A schema of lists of itself. -/
def treeSchemas : Table String (List (String × Json)) where
  entries := [("Tree", [("items", .object [("$ref", .string "#/components/schemas/Tree")])])]
  nodup := by simp

/-- What is returned for it. -/
def treeDefinitions : Table String (List (String × Json)) where
  entries := [("Tree", [("items", .object [("$ref", .string "#/$defs/Tree")])])]
  nodup := by simp

theorem references_referring (name : String) (h : ownReference [("$ref", .string (DEFINITION_PREFIX ++ name))] = [name]) :
    definitionReferences (referring name) = [name] := by
  simp only [referring, definitionReferences, referencesOf, h, List.append_nil]
  rfl

theorem references_tree :
    expandComponent [("items", .object [("$ref", .string "#/components/schemas/Tree")])] =
      ([("items", .object [("$ref", .string "#/$defs/Tree")])], ["Tree"]) := by
  rfl

theorem reachableDefinitions_tree :
    reachableDefinitions (fun a b => !Text.less b a) treeSchemas (referring "Tree") = .ok treeDefinitions := by
  have hnode : treeSchemas.get? "Tree" = some [("items", .object [("$ref", .string "#/components/schemas/Tree")])] := rfl
  rw [reachableDefinitions, references_referring "Tree" (by decide), List.reverse_singleton,
    Worklist.run_new (by decide) hnode, references_tree, List.append_nil, Worklist.run_skip (.inl (by decide)), Worklist.run_nil]
  refine congrArg Except.ok (Table.ext ?_)
  rw [sortKeys, Table.entries_ofList (by simp [Table.set, Table.insert, Table.empty])]
  exact List.mergeSort_singleton _

/-- The definitions of the lists are closed. -/
theorem tree_definitions_closed : Closed treeSchemas treeDefinitions (referring "Tree") ∧
    ∀ name, Reachable treeSchemas (referring "Tree") name → name ∉ INHERITED := by
  have hnames : ∀ name, Reachable treeSchemas (referring "Tree") name → name = "Tree" := by
    intro name hname
    induction hname with
    | root h =>
      have hmem := (mem_definitionReferences _).mpr h
      rw [references_referring "Tree" (by decide)] at hmem
      exact List.mem_singleton.mp hmem
    | step _ hcomponent hnext ih =>
      subst ih
      obtain rfl := Option.some.inj hcomponent
      have hmem : _ ∈ (expandComponent [("items", .object [("$ref", .string "#/components/schemas/Tree")])]).2 :=
        List.mem_reverse.mpr ((mem_definitionReferences _).mpr hnext)
      rw [references_tree] at hmem
      exact List.mem_singleton.mp hmem
  have hinherited : ∀ name, Reachable treeSchemas (referring "Tree") name → name ∉ INHERITED := by
    intro name hname
    rw [hnames name hname]
    decide
  exact ⟨(definitions_closed_iff reachableDefinitions_tree).mpr hinherited, hinherited⟩

/-- One schema, with the name of a method that every object has. -/
def methodSchemas : Table String (List (String × Json)) := ⟨[("toString", [])], by simp⟩

/-- It gets no definition, though an operation refers to it. -/
theorem inherited_name_missing :
    reachableDefinitions (fun a b => !Text.less b a) methodSchemas (referring "toString") = .ok .empty ∧
      ¬ Closed methodSchemas .empty (referring "toString") := by
  constructor
  · rw [reachableDefinitions, references_referring "toString" (by decide), List.reverse_singleton,
      Worklist.run_skip (.inr (by decide)), Worklist.run_nil]
    refine congrArg Except.ok (Table.ext ?_)
    rw [sortKeys, Table.entries_ofList (by simp [Table.empty])]
    exact List.mergeSort_nil
  · intro h
    have hrefers : Refers (referring "toString") "toString" := by
      refine (mem_definitionReferences _).mp ?_
      rw [references_referring "toString" (by decide)]
      exact List.mem_cons_self
    exact absurd (h.fromRoots _ hrefers) List.not_mem_nil

end Akua.Contract
