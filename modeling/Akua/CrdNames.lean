import Akua.CrdSchemas
import Akua.Lib.Cutting
import Akua.SchemaDefaults

/-! The schema names of generated CRD packages. The emitter of a package gives out distinct names that
    are no keywords, and each type refers to one of them; but it does not know the `ObjectMeta` that
    `meta/v1` holds already, so the names of that package clash when a kind there comes to it. -/

namespace Akua.CrdSchemas

open Naming
open ValuesSchema (Numbers sortedEntries mem_sortedEntries pascalFrom)

/-! ### Names that go on from others -/

/-- A name goes on from another with no lower-case letter. -/
def Extends (hint name : String) : Prop :=
  ∃ t, name.toList = hint.toList ++ t ∧ ∀ c ∈ t.head?, c.isLower = false

theorem Extends.refl (name : String) : Extends name name := ⟨[], (List.append_nil _).symm, fun _ h => by cases h⟩

theorem Extends.trans {a b c : String} (hab : Extends a b) (hbc : Extends b c) : Extends a c := by
  obtain ⟨s, hs, hhead⟩ := hab
  obtain ⟨t, ht, htail⟩ := hbc
  refine ⟨s ++ t, by rw [ht, hs, List.append_assoc], fun x hx => ?_⟩
  cases s with
  | nil => exact htail x hx
  | cons y s => exact hhead x hx

theorem extends_append {hint s : String} (h : ∀ c ∈ s.toList.head?, c.isLower = false) : Extends hint (hint ++ s) :=
  ⟨s.toList, String.toList_append, h⟩

theorem Extends.length_le {hint name : String} (h : Extends hint name) : hint.toList.length ≤ name.toList.length := by
  obtain ⟨t, ht, -⟩ := h
  rw [ht, List.length_append]
  omega

theorem isLower_of_isDigit {c : Char} (h : c.isDigit = true) : c.isLower = false := by
  have hdigit := Text.isDigit_iff.mp h
  rw [Bool.eq_false_iff, ne_eq, Text.isLower_iff]
  omega

theorem isLower_toUpper (c : Char) : c.toUpper.isLower = false := by
  rw [Bool.eq_false_iff, ne_eq]
  by_cases hlower : c.isLower = true
  · have hrange := Text.isLower_iff.mp hlower
    have hup : c.toUpper.toNat = c.toNat - 32 := by
      have hval : 'a'.val ≤ c.val ∧ c.val ≤ 'z'.val := hrange
      have hdiff : ('A'.val - 'a'.val).toNat = 4294967264 := by decide
      unfold Char.toUpper
      rw [dif_pos hval, Char.toNat, UInt32.toNat_add, hdiff]
      rw [Char.toNat] at hrange ⊢
      omega
    rw [Text.isLower_iff, hup]
    omega
  · have hsame : c.toUpper = c := by
      unfold Char.toUpper
      exact dif_neg fun hval => hlower (Text.isLower_iff.mpr hval)
    rw [hsame]
    exact hlower

theorem digit_head_toString {n : Nat} {c : Char} (h : c ∈ (toString n).toList) : c.isDigit = true := by
  rw [Nat.toString_eq_ofList_toDigits, String.toList_ofList] at h
  exact Nat.isDigit_of_mem_toDigits (by decide) (by decide) h

theorem extends_numbered (hint : String) (i : Nat) : Extends hint (numbered hint i) := by
  cases i with
  | zero => exact Extends.refl hint
  | succ i =>
    exact extends_append fun c hc => isLower_of_isDigit (digit_head_toString (List.mem_of_mem_head? hc))

theorem extends_fresh (taken : List String) (hint : String) : Extends hint (fresh taken (numbered hint)) := by
  obtain ⟨i, hi⟩ := fresh_eq_candidate taken (numbered hint)
  rw [hi]
  exact extends_numbered hint i

theorem pascalFrom_head (l : List Char) : ∀ c ∈ (pascalFrom true l).head?, c.isLower = false := by
  induction l with
  | nil => simp [pascalFrom]
  | cons d l ih =>
    rw [pascalFrom]
    split
    · intro c hc
      obtain rfl : d.toUpper = c := by simpa using hc
      exact isLower_toUpper d
    · exact ih

/-- A Pascal-cased name is not empty and does not begin with a lower-case letter. -/
theorem pascalCase_head (text : String) : ∃ c cs, (pascalCase text).toList = c :: cs ∧ c.isLower = false := by
  simp only [pascalCase, ValuesSchema.pascalCase]
  split
  · exact ⟨'_', [], rfl, by decide⟩
  · rename_i hne
    rw [String.toList_ofList]
    split
    · exact ⟨'_', _, rfl, by decide⟩
    · obtain ⟨c, cs, hc⟩ := List.exists_cons_of_ne_nil hne
      exact ⟨c, cs, hc, pascalFrom_head text.toList c (by rw [hc]; rfl)⟩

theorem extends_pascalCase (hint text : String) : Extends hint (hint ++ pascalCase text) := by
  obtain ⟨c, cs, hcs, hc⟩ := pascalCase_head text
  refine extends_append fun x hx => ?_
  rw [hcs] at hx
  obtain rfl := Option.some.inj hx
  exact hc

/-- `ObjectMeta` goes on from `Object` and itself only. -/
theorem extends_objectMeta {hint : String} (h : Extends hint "ObjectMeta") (hne : hint ≠ "") :
    hint = "Object" ∨ hint = "ObjectMeta" := by
  have hall : ∀ n ≤ 10, (("ObjectMeta".toList.drop n).head?.all fun c => c.isLower = false) = true →
      n = 0 ∨ n = 6 ∨ n = 10 := by
    decide +kernel
  obtain ⟨t, ht, hhead⟩ := h
  have hlen : hint.toList.length ≤ 10 := (Extends.length_le ⟨t, ht, hhead⟩)
  have hdrop : "ObjectMeta".toList.drop hint.toList.length = t := by rw [ht, List.drop_left]
  have htake : hint.toList = "ObjectMeta".toList.take hint.toList.length := by rw [ht, List.take_left]
  have hupper : (("ObjectMeta".toList.drop hint.toList.length).head?.all fun c => c.isLower = false) = true := by
    rw [hdrop, Option.all_eq_true]
    exact fun c hc => decide_eq_true (hhead c hc)
  rcases hall _ hlen hupper with hn | hn | hn <;> rw [hn] at htake
  · exact absurd (String.toList_inj.mp htake) hne
  · exact Or.inl (String.toList_inj.mp htake)
  · exact Or.inr (String.toList_inj.mp htake)

theorem extends_object {hint : String} (h : Extends hint "Object") (hne : hint ≠ "") : hint = "Object" := by
  have hmeta : Extends "Object" "ObjectMeta" := ⟨"Meta".toList, rfl, fun c hc => Option.some.inj hc ▸ rfl⟩
  rcases extends_objectMeta (h.trans hmeta) hne with rfl | rfl
  · rfl
  · exact absurd h.length_le (by decide)

/-- A name without a digit at its end has no number. -/
theorem fresh_eq_of_last {taken : List String} {hint name : String} (h : fresh taken (numbered hint) = name)
    (hlast : ∀ c ∈ name.toList.getLast?, c.isDigit = false) : hint = name := by
  obtain ⟨i, hi⟩ := fresh_eq_candidate taken (numbered hint)
  rw [hi] at h
  cases i with
  | zero => exact h
  | succ i =>
    obtain ⟨c, hc⟩ : ∃ c, (toString (i + 2)).toList.getLast? = some c :=
      ⟨_, List.getLast?_eq_some_getLast (toString_ne_nil _)⟩
    have hmem : c ∈ name.toList.getLast? := by
      rw [← h, numbered, String.toList_append, List.getLast?_append, hc]
      rfl
    have := hlast c hmem
    rw [digit_head_toString (List.mem_of_getLast? hc)] at this
    cases this

/-! ### Emitters are sound -/

/-- The schemas a type refers to. -/
def TypeText.references : TypeText → List String
  | .builtin _ => []
  | .list item => item.references
  | .dict value => value.references
  | .schema name => [name]

def Block.references (block : Block) : List String :=
  block.attributes.flatMap (fun attr => attr.type.references) ++ (block.rest.map TypeText.references).getD []

/-- The names and references of generated schemas. -/
def schemas : Naming.Language Block := ⟨Block.name, Block.references, KEYWORDS⟩

variable {N : Numbers}

/-- An emitter that is sound under every hint. -/
def SoundAt {α : Type} (out : α → List String) (emit : String → Emit Block α) : Prop :=
  ∀ hint, Sound schemas (Extends hint) [] (emit hint) out

def attributeReferences (attr : Attribute) : List String := attr.type.references

theorem sound_builtin {hint text : String} :
    Sound schemas (Extends hint) [] (pure (.builtin text) : Emit Block TypeText) TypeText.references :=
  Sound.pure fun _ hr => hr

/-- A hint that goes on serves as well. -/
theorem SoundAt.under {α : Type} {out : α → List String} {emit : String → Emit Block α} (h : SoundAt out emit)
    {hint hint' : String} (hext : Extends hint hint') {known : List String} :
    Sound schemas (Extends hint) known (emit hint') out :=
  (h hint').mono (fun _ hn => hext.trans hn) (List.nil_subset _) fun _ => List.Subset.refl _

theorem extends_value (hint : String) : Extends hint (hint ++ "Value") := extends_append (by simp)

theorem extends_item (hint : String) : Extends hint (hint ++ "Item") := extends_append (by simp)

/-- The attributes of a schema, each under its own hint. -/
theorem sound_attributes {name : String} {properties : List (String × (String → Emit Block Attribute))}
    (h : ∀ property ∈ properties, SoundAt attributeReferences property.2) :
    Sound schemas (Extends name) []
      (forEach (fun property => property.2 (name ++ pascalCase property.1)) properties)
      (fun attributes => attributes.flatMap attributeReferences) :=
  Sound.pass fun property hproperty => (h property hproperty).under (extends_pascalCase name property.1)

theorem objectBlock_sound {description : Option String} {isOpen : Bool}
    {properties : List (String × (String → Emit Block Attribute))}
    {additional : Option (String → Emit Block TypeText)}
    (hproperties : ∀ property ∈ properties, SoundAt attributeReferences property.2)
    (hadditional : ∀ value ∈ additional, SoundAt TypeText.references value) :
    SoundAt Block.references (objectBlock description isOpen properties additional) := by
  intro name
  refine Sound.bind (sound_attributes fun property hproperty =>
    hproperties property (mem_sortedEntries.mp hproperty)) fun attributes => ?_
  cases additional with
  | none =>
    refine Sound.pure fun r hr => ?_
    cases isOpen <;> simpa [Block.references, attributeReferences, TypeText.references] using hr
  | some value =>
    refine Sound.bind ((hadditional value rfl).under (extends_value _)) fun type => Sound.pure fun r hr => ?_
    simpa [Block.references, attributeReferences] using hr

/-- A block under a free name, of those that go on from a hint. -/
theorem declare_sound {body : String → Emit Block Block} (h : SoundAt Block.references body)
    (hname : ∀ name used, (body name used).value.name = name) :
    SoundAt (fun name => [name]) fun hint => declareAs KEYWORDS hint body := by
  intro hint
  refine Sound.declare (L := schemas) (fun used => extends_fresh _ hint) hname fun used => ?_
  exact (h _).mono (fun n hn => (extends_fresh _ hint).trans hn) (List.Subset.refl _) fun _ => List.Subset.refl _

theorem emitObject_sound {type description : Option String} {preserve isOpen : Bool}
    {properties : List (String × (String → Emit Block Attribute))}
    {additional : Option (String → Emit Block TypeText)}
    (hproperties : ∀ property ∈ properties, SoundAt attributeReferences property.2)
    (hadditional : ∀ value ∈ additional, SoundAt TypeText.references value) :
    SoundAt TypeText.references fun hint =>
      emitObject hint type description preserve isOpen properties additional := by
  intro hint
  simp only [emitObject]
  split
  · cases additional with
    | none => exact sound_builtin
    | some value =>
      exact ((hadditional value rfl).under (extends_value hint)).map fun _ => List.Subset.refl _
  · have hblock : SoundAt Block.references (objectBlock description isOpen properties additional) :=
      objectBlock_sound hproperties hadditional
    exact (declare_sound hblock (fun name used => by cases additional <;> rfl) hint).map
      fun _ => List.Subset.refl _

/-- The type of a property is written as it is, or is a list, or an object. -/
theorem emitType_cases (schema : OpenApi) (hint : String) :
    (∃ text, emitType N schema hint = pure (.builtin text)) ∨
      emitType N schema hint = TypeText.list <$> emitItems N schema.items (hint ++ "Item") ∨
      (emitType N schema hint = emitObject hint schema.type schema.description schema.preserveUnknownFields
          (openEnded schema.preserveUnknownFields schema.embeddedResource schema.additionalProperties)
          (emitAttributes N schema.required schema.properties) (emitAdditional N schema.additionalProperties) ∧
        schema.intOrString = false ∧ enumLiterals N schema.type schema.enum = none ∧
        (schema.type = some "object" ∨ schema.type = none)) := by
  obtain ⟨type, description, properties, required, items, additional, enum, _, intOrString, preserve, embedded⟩ :=
    schema
  simp only [emitType]
  by_cases hstring : intOrString = true
  · exact Or.inl ⟨_, by rw [if_pos hstring]⟩
  rw [if_neg hstring]
  cases henum : enumLiterals N type enum with
  | some literals => exact Or.inl ⟨_, rfl⟩
  | none =>
    by_cases htype : type = some "object" ∨ type = none
    · right; right
      refine ⟨?_, by simpa using hstring, rfl, htype⟩
      rcases htype with rfl | rfl <;> rfl
    · simp only [if_neg htype]
      split
      · exact Or.inl ⟨_, rfl⟩
      split
      · exact Or.inl ⟨_, rfl⟩
      split
      · exact Or.inl ⟨_, rfl⟩
      split
      · exact Or.inl ⟨_, rfl⟩
      split
      · exact Or.inr (Or.inl rfl)
      · exact Or.inl ⟨_, rfl⟩

mutual

theorem emitType_sound : ∀ schema : OpenApi, SoundAt TypeText.references (emitType N schema)
  | ⟨type, description, properties, required, items, additional, enum, nullable, intOrString, preserve, embedded⟩,
    hint => by
    rcases emitType_cases (N := N) ⟨type, description, properties, required, items, additional, enum, nullable,
      intOrString, preserve, embedded⟩ hint with ⟨text, heq⟩ | heq | ⟨heq, -⟩ <;> rw [heq]
    · exact sound_builtin
    · exact ((emitItems_sound items).under (extends_item hint)).map fun _ => List.Subset.refl _
    · exact emitObject_sound (emitAttributes_sound required properties) (emitAdditional_sound additional) hint

theorem emitItems_sound : ∀ items : Option OpenApi, SoundAt TypeText.references (emitItems N items)
  | none, _ => sound_builtin
  | some schema, hint => emitType_sound schema hint

theorem emitAdditional_sound : ∀ additional : Option (Bool ⊕ OpenApi),
    ∀ value ∈ emitAdditional N additional, SoundAt TypeText.references value
  | none, _, h => by cases h
  | some (.inl _), _, h => by cases h
  | some (.inr schema), value, h => by
    obtain rfl := Option.some.inj h
    exact emitType_sound schema

theorem emitAttributes_sound (required : List String) : ∀ properties : List (String × OpenApi),
    ∀ property ∈ emitAttributes N required properties, SoundAt attributeReferences property.2
  | [], _, h => absurd h List.not_mem_nil
  | (key, schema) :: properties, property, h => by
    rw [emitAttributes] at h
    rcases List.mem_cons.mp h with rfl | h
    · exact fun hint => Sound.bind (emitType_sound schema hint) fun type => Sound.pure fun r hr => hr
    · exact emitAttributes_sound required properties property h

end

/-- A property of a kind is one of its schema's, and not one every kind has. -/
theorem mem_emitAttributes {required : List String} {properties : List (String × OpenApi)}
    {property : String × (String → Emit Block Attribute)} (h : property ∈ emitAttributes N required properties) :
    ∃ p ∈ properties, property.1 = p.1 ∧ ∃ attr : TypeText → Attribute, ∀ hint,
      property.2 hint = emitType N p.2 hint >>= fun type => pure (attr type) := by
  induction properties with
  | nil => cases h
  | cons p properties ih =>
    rw [emitAttributes] at h
    rcases List.mem_cons.mp h with rfl | h
    · exact ⟨p, List.mem_cons_self, rfl, _, fun _ => rfl⟩
    · obtain ⟨q, hq, hrest⟩ := ih h
      exact ⟨q, List.mem_cons_of_mem _ hq, hrest⟩

theorem emitAttributes_of_mem (required : List String) {properties : List (String × OpenApi)} {p : String × OpenApi}
    (h : p ∈ properties) : ∃ property ∈ emitAttributes N required properties, property.1 = p.1 ∧
      ∃ attr : TypeText → Attribute, ∀ hint,
        property.2 hint = emitType N p.2 hint >>= fun type => pure (attr type) := by
  induction properties with
  | nil => cases h
  | cons q properties ih =>
    rw [emitAttributes]
    rcases List.mem_cons.mp h with rfl | h
    · exact ⟨_, List.mem_cons_self, rfl, _, fun _ => rfl⟩
    · obtain ⟨property, hproperty, hrest⟩ := ih h
      exact ⟨property, List.mem_cons_of_mem _ hproperty, hrest⟩

theorem kindProperties_sound {version : CrdVersion} :
    ∀ property ∈ kindProperties N version, SoundAt attributeReferences property.2 := by
  intro property hproperty
  have hmem := mem_sortedEntries.mp (List.mem_of_mem_filter hproperty)
  cases hschema : version.schema with
  | none =>
    rw [hschema] at hmem
    cases hmem
  | some root =>
    rw [hschema] at hmem
    exact emitAttributes_sound root.required root.properties property hmem

theorem kindBlock_sound {version : CrdVersion} (name : String) :
    Sound schemas (Extends name) [] (kindBlock N version name) Block.references := by
  refine Sound.bind (sound_attributes kindProperties_sound) fun attributes => Sound.pure fun r hr => ?_
  rw [Block.references] at hr
  rcases List.mem_append.mp hr with hr | hr
  · exact List.mem_append_right _ hr
  · cases hopen : kindOpen version <;> simp [hopen, TypeText.references] at hr

theorem emitKind_sound (version : CrdVersion) :
    Sound schemas (Extends (pascalCase version.kind)) [] (emitKind N version) (fun name => [name]) :=
  declare_sound kindBlock_sound (fun _ _ => rfl) _

/-! ### Which kinds come to `ObjectMeta` -/

variable (N) in
/-- The type of a property is a schema of its own. -/
def OpenApi.makesSchema (schema : OpenApi) : Bool :=
  !schema.intOrString && (enumLiterals N schema.type schema.enum).isNone &&
    (schema.type = some "object" || schema.type = none) && !schema.properties.isEmpty

/-- A type that declares the name it is given as a hint makes a schema of its own. -/
theorem makesSchema_of_declared {schema : OpenApi} {hint : String} {used : List String} {block : Block}
    (hblock : block ∈ (emitType N schema hint used).declarations) (hname : block.name = hint) :
    schema.makesSchema N = true := by
  have hlonger : ∀ {emit : String → Emit Block TypeText} {s : String}, SoundAt TypeText.references emit → s ≠ "" →
      block ∉ (emit (hint ++ s) used).declarations ++ [] := by
    intro emit s hsound hs hmem
    rw [List.append_nil] at hmem
    have hlength := ((hsound (hint ++ s)).free used _ (List.mem_map_of_mem hmem)).2.2.length_le
    have heq : schemas.name block = hint := hname
    rw [heq, String.toList_append, List.length_append] at hlength
    exact hs (String.toList_eq_nil_iff.mp (List.eq_nil_of_length_eq_zero (by omega)))
  rcases emitType_cases (N := N) schema hint with ⟨text, heq⟩ | heq | ⟨heq, hint', henum, htype⟩ <;>
    rw [heq] at hblock
  · cases hblock
  · exact absurd hblock (hlonger (emitItems_sound schema.items) (by decide))
  · simp only [emitObject] at hblock
    split at hblock
    · cases hadditional : emitAdditional N schema.additionalProperties with
      | none =>
        rw [hadditional] at hblock
        cases hblock
      | some value =>
        rw [hadditional] at hblock
        exact absurd hblock (hlonger (emitAdditional_sound _ value hadditional) (by decide))
    · rename_i hproperties
      have hne : schema.properties ≠ [] := by
        intro hnil
        rw [hnil] at hproperties
        exact hproperties rfl
      simp [OpenApi.makesSchema, hint', henum, htype, hne]

/-- A type with a schema of its own gives out its hint. -/
theorem names_of_makesSchema {schema : OpenApi} (h : schema.makesSchema N = true) {hint : String}
    (hkeyword : hint ∉ KEYWORDS) : Names hint (emitType N schema hint) := by
  simp only [OpenApi.makesSchema, Bool.and_eq_true, Bool.not_eq_true', Option.isNone_iff_eq_none, Bool.or_eq_true,
    decide_eq_true_eq] at h
  obtain ⟨⟨⟨hstring, henum⟩, htype⟩, hproperties⟩ := h
  have heq : emitType N schema hint = emitObject hint schema.type schema.description schema.preserveUnknownFields
      (openEnded schema.preserveUnknownFields schema.embeddedResource schema.additionalProperties)
      (emitAttributes N schema.required schema.properties) (emitAdditional N schema.additionalProperties) := by
    obtain ⟨type, description, properties, required, items, additional, enum, _, intOrString, preserve, embedded⟩ :=
      schema
    simp only [emitType]
    rw [if_neg (by simpa using hstring), henum]
    rcases htype with rfl | rfl <;> rfl
  have hgrows : ∀ name, Grows (objectBlock schema.description
      (openEnded schema.preserveUnknownFields schema.embeddedResource schema.additionalProperties)
      (emitAttributes N schema.required schema.properties) (emitAdditional N schema.additionalProperties) name) :=
    fun name => (objectBlock_sound (emitAttributes_sound _ _) (emitAdditional_sound _) name).grows
  rw [heq]
  simp only [emitObject]
  rw [if_neg]
  · exact (Names.declare hkeyword hgrows).bind fun _ _ => List.Subset.refl _
  · cases hlist : schema.properties with
    | nil =>
      rw [hlist] at hproperties
      cases hproperties
    | cons p ps => simp [emitAttributes]

/-- A property of a kind that comes to `ObjectMeta` behind `Object`. -/
def CrdVersion.namesMeta (N : Numbers) (version : CrdVersion) : Prop :=
  ∃ root, version.schema = some root ∧ ∃ p ∈ root.properties,
    p.1 ∉ reserved ∧ pascalCase p.1 = "Meta" ∧ p.2.makesSchema N = true

theorem mem_kindProperties {version : CrdVersion} {property : String × (String → Emit Block Attribute)}
    (h : property ∈ kindProperties N version) : ∃ root, version.schema = some root ∧ ∃ p ∈ root.properties,
      p.1 ∉ reserved ∧ property.1 = p.1 ∧ ∃ attr : TypeText → Attribute, ∀ hint,
        property.2 hint = emitType N p.2 hint >>= fun type => pure (attr type) := by
  obtain ⟨hmem, hreserved⟩ := List.mem_filter.mp h
  have hmem := mem_sortedEntries.mp hmem
  cases hschema : version.schema with
  | none =>
    rw [hschema] at hmem
    cases hmem
  | some root =>
    rw [hschema] at hmem
    obtain ⟨p, hp, hname, hrest⟩ := mem_emitAttributes hmem
    exact ⟨root, rfl, p, hp, by rw [← hname]; simpa using hreserved, hname, hrest⟩

theorem kindProperties_of_mem {version : CrdVersion} {root : OpenApi} (hroot : version.schema = some root)
    {p : String × OpenApi} (hp : p ∈ root.properties) (hreserved : p.1 ∉ reserved) :
    ∃ property ∈ kindProperties N version, property.1 = p.1 ∧ ∃ attr : TypeText → Attribute, ∀ hint,
      property.2 hint = emitType N p.2 hint >>= fun type => pure (attr type) := by
  obtain ⟨property, hmem, hname, hrest⟩ := emitAttributes_of_mem (N := N) root.required hp
  refine ⟨property, List.mem_filter.mpr ⟨mem_sortedEntries.mpr ?_, ?_⟩, hname, hrest⟩
  · rw [hroot]
    exact hmem
  · rw [hname]
    simpa using hreserved

/-- The names of a kind: its own, and those of its block, which go on from it. -/
theorem emitKind_names (version : CrdVersion) (used : List String) :
    (emitKind N version used).declarations.map Block.name =
      fresh (used ++ KEYWORDS) (numbered (pascalCase version.kind)) ::
        (kindBlock N version (fresh (used ++ KEYWORDS) (numbered (pascalCase version.kind)))
          (used ++ [fresh (used ++ KEYWORDS) (numbered (pascalCase version.kind))])).declarations.map Block.name := rfl

theorem extends_of_declared {version : CrdVersion} {used : List String} {name : String}
    (h : name ∈ (emitKind N version used).declarations.map Block.name) :
    Extends (fresh (used ++ KEYWORDS) (numbered (pascalCase version.kind))) name := by
  rw [emitKind_names] at h
  rcases List.mem_cons.mp h with rfl | h
  · exact Extends.refl _
  · exact ((kindBlock_sound _).free _ _ h).2.2

theorem fresh_ne_empty (used : List String) (kind : String) :
    fresh (used ++ KEYWORDS) (numbered (pascalCase kind)) ≠ "" := by
  intro h
  have hlength := (extends_fresh (used ++ KEYWORDS) (pascalCase kind)).length_le
  obtain ⟨c, cs, hcs, -⟩ := pascalCase_head kind
  rw [h, hcs] at hlength
  exact absurd hlength (by simp)

/-- A kind gives out `Object` when its own name is, and no kind before it had it. -/
theorem object_of_declared {version : CrdVersion} {used : List String}
    (h : "Object" ∈ (emitKind N version used).declarations.map Block.name) : pascalCase version.kind = "Object" :=
  fresh_eq_of_last (extends_object (extends_of_declared h) (fresh_ne_empty used version.kind)) (by simp)

theorem names_kind {version : CrdVersion} {name : String} (h : pascalCase version.kind = name)
    (hkeyword : name ∉ KEYWORDS) : Names name (emitKind N version) := by
  rw [← h] at hkeyword ⊢
  exact Names.declare hkeyword fun name => (kindBlock_sound name).grows

/-- A kind gives out `ObjectMeta` when it comes to it, or to `Object` with a property that comes to `Meta`. -/
theorem objectMeta_of_declared {version : CrdVersion} {used : List String}
    (h : "ObjectMeta" ∈ (emitKind N version used).declarations.map Block.name) :
    pascalCase version.kind = "ObjectMeta" ∨
      pascalCase version.kind = "Object" ∧ "Object" ∉ used ∧ version.namesMeta N := by
  rcases extends_objectMeta (extends_of_declared h) (fresh_ne_empty used version.kind) with hname | hname
  · right
    have hkind := fresh_eq_of_last hname (by simp)
    have hfree : "Object" ∉ used := by
      have hnot : fresh (used ++ KEYWORDS) (numbered (pascalCase version.kind)) ∉ used ++ KEYWORDS :=
        fresh_not_mem (numbered_injective _)
      rw [hname, List.mem_append, not_or] at hnot
      exact hnot.1
    refine ⟨hkind, hfree, ?_⟩
    rw [emitKind_names, hname] at h
    rcases List.mem_cons.mp h with h | h
    · exact absurd h (by decide)
    obtain ⟨block, hblock, hblockname⟩ := List.mem_map.mp h
    change block ∈ (forEach (fun property : String × (String → Emit Block Attribute) =>
      property.2 ("Object" ++ pascalCase property.1)) (kindProperties N version) _).declarations ++ [] at hblock
    rw [List.append_nil] at hblock
    obtain ⟨property, hproperty, used', hdeclared⟩ := mem_declarations_pass hblock
    obtain ⟨root, hroot, p, hp, hreserved, hpname, attr, hattr⟩ := mem_kindProperties hproperty
    rw [hattr, hpname] at hdeclared
    change block ∈ (emitType N p.2 ("Object" ++ pascalCase p.1) used').declarations ++ [] at hdeclared
    rw [List.append_nil] at hdeclared
    have hextends : Extends ("Object" ++ pascalCase p.1) "ObjectMeta" := by
      have := (emitType_sound p.2 ("Object" ++ pascalCase p.1)).free used' _ (List.mem_map_of_mem hdeclared)
      have hn : schemas.name block = "ObjectMeta" := hblockname
      rw [hn] at this
      exact this.2.2
    obtain ⟨c, cs, hcs, -⟩ := pascalCase_head p.1
    have hmeta : "Object" ++ pascalCase p.1 = "ObjectMeta" := by
      rcases extends_objectMeta hextends (by
        intro heq
        have := congrArg String.toList heq
        rw [String.toList_append] at this
        cases this) with heq | heq
      · have heq := congrArg String.toList heq
        rw [String.toList_append, hcs] at heq
        exact absurd (congrArg List.length heq) (by simp)
      · exact heq
    refine ⟨root, hroot, p, hp, hreserved, ?_, makesSchema_of_declared hdeclared (hblockname.trans hmeta.symm)⟩
    have hmeta := congrArg String.toList hmeta
    rw [String.toList_append] at hmeta
    exact String.toList_inj.mp (List.append_cancel_left hmeta)
  · exact Or.inl (fresh_eq_of_last hname (by simp))

/-- And then it does. -/
theorem names_objectMeta {version : CrdVersion} {used : List String} (hkind : pascalCase version.kind = "Object")
    (hused : "Object" ∉ used) (h : version.namesMeta N) : "ObjectMeta" ∈ (emitKind N version used).names := by
  obtain ⟨root, hroot, p, hp, hreserved, hmeta, hmakes⟩ := h
  obtain ⟨property, hproperty, hpname, attr, hattr⟩ := kindProperties_of_mem (N := N) hroot hp hreserved
  have hname : fresh (used ++ KEYWORDS) (numbered (pascalCase version.kind)) = "Object" := by
    rw [hkind]
    exact fresh_of_not_mem (by rw [List.mem_append, not_or]; exact ⟨hused, by decide⟩)
  change "ObjectMeta" ∈ (kindBlock N version (fresh (used ++ KEYWORDS) (numbered (pascalCase version.kind))) _).names
  rw [hname]
  have hhint : "Object" ++ pascalCase property.1 = "ObjectMeta" := by
    rw [hpname, hmeta]
    rfl
  have hattribute : Names "ObjectMeta" (property.2 ("Object" ++ pascalCase property.1)) := by
    rw [hhint, hattr]
    exact (names_of_makesSchema hmakes (by decide)).bind fun _ _ => List.Subset.refl _
  have hpass : Names "ObjectMeta" (forEach (fun property : String × (String → Emit Block Attribute) =>
      property.2 ("Object" ++ pascalCase property.1)) (kindProperties N version)) :=
    Names.pass hproperty hattribute fun property hproperty => (kindProperties_sound property hproperty _).grows
  exact hpass _

/-! ### Packages -/

variable (N) in
/-- The names a package's emitter has given out behind some kinds. -/
def packageNames (versions : List CrdVersion) : List String :=
  versions.foldl (fun used version => (emitKind N version used).names) []

variable (N) in
/-- The kinds of `meta/v1` do not come to `ObjectMeta`: not by name, and not by a property `Meta` of the
    first that comes to `Object`. -/
def Clash (versions : List CrdVersion) : Prop :=
  (∃ version ∈ versions, pascalCase version.kind = "ObjectMeta") ∨
    ∃ version, versions.find? (fun version => pascalCase version.kind = "Object") = some version ∧ version.namesMeta N

theorem packageNames_concat (versions : List CrdVersion) (version : CrdVersion) :
    packageNames N (versions ++ [version]) = (emitKind N version (packageNames N versions)).names := by
  rw [packageNames, List.foldl_append]
  rfl

/-- The names of a kind come behind those of the kinds before it. -/
theorem packageNames_append (versions : List CrdVersion) (version : CrdVersion) :
    packageNames N (versions ++ [version]) = packageNames N versions ++
      (emitKind N version (packageNames N versions)).declarations.map Block.name := by
  rw [packageNames_concat]
  exact (emitKind_sound _).names _

theorem packageNames_nodup (versions : List CrdVersion) :
    (packageNames N versions).Nodup ∧ ∀ name ∈ packageNames N versions, name ∉ KEYWORDS := by
  induction versions using List.reverseRecOn with
  | nil => exact ⟨List.nodup_nil, fun _ h => absurd h List.not_mem_nil⟩
  | append_singleton versions version ih =>
    rw [packageNames_append]
    have hfree := (emitKind_sound (N := N) version).free (packageNames N versions)
    refine ⟨List.nodup_append.mpr ⟨ih.1, (emitKind_sound _).nodup _, ?_⟩, fun name hname => ?_⟩
    · rintro name hname _ hnew rfl
      exact (hfree name hnew).1 hname
    · rcases List.mem_append.mp hname with hname | hname
      · exact ih.2 name hname
      · exact (hfree name hname).2.1

theorem object_mem_packageNames (versions : List CrdVersion) :
    "Object" ∈ packageNames N versions ↔ ∃ version ∈ versions, pascalCase version.kind = "Object" := by
  induction versions using List.reverseRecOn with
  | nil => simp [packageNames]
  | append_singleton versions version ih =>
    constructor
    · intro h
      rw [packageNames_append] at h
      rcases List.mem_append.mp h with h | h
      · obtain ⟨other, hother, hkind⟩ := ih.mp h
        exact ⟨other, List.mem_append_left _ hother, hkind⟩
      · exact ⟨version, by simp, object_of_declared h⟩
    · rintro ⟨other, hother, hkind⟩
      rcases List.mem_append.mp hother with hother | hother
      · rw [packageNames_append]
        exact List.mem_append_left _ (ih.mpr ⟨other, hother, hkind⟩)
      · rw [List.mem_singleton.mp hother] at hkind
        rw [packageNames_concat]
        exact names_kind hkind (by decide) _

/-- A package gives out `ObjectMeta` exactly when its kinds clash with it. -/
theorem objectMeta_mem_packageNames (versions : List CrdVersion) :
    "ObjectMeta" ∈ packageNames N versions ↔ Clash N versions := by
  induction versions using List.reverseRecOn with
  | nil => simp [packageNames, Clash]
  | append_singleton versions version ih =>
    have hobject := object_mem_packageNames (N := N) versions
    have hnone : versions.find? (fun version => pascalCase version.kind = "Object") = none ↔
        "Object" ∉ packageNames N versions := by
      rw [hobject]
      simp
    constructor
    · intro h
      rw [packageNames_append] at h
      rcases List.mem_append.mp h with h | h
      · rcases ih.mp h with ⟨other, hother, hkind⟩ | ⟨other, hfind, hmeta⟩
        · exact Or.inl ⟨other, List.mem_append_left _ hother, hkind⟩
        · exact Or.inr ⟨other, by rw [List.find?_append, hfind]; rfl, hmeta⟩
      · rcases objectMeta_of_declared h with hkind | ⟨hkind, hfree, hmeta⟩
        · exact Or.inl ⟨version, by simp, hkind⟩
        · refine Or.inr ⟨version, ?_, hmeta⟩
          rw [List.find?_append, hnone.mpr hfree]
          simp [hkind]
    · rintro (⟨other, hother, hkind⟩ | ⟨other, hfind, hmeta⟩)
      · rcases List.mem_append.mp hother with hother | hother
        · rw [packageNames_append]
          exact List.mem_append_left _ (ih.mpr (Or.inl ⟨other, hother, hkind⟩))
        · rw [List.mem_singleton.mp hother] at hkind
          rw [packageNames_concat]
          exact names_kind hkind (by decide) _
      · rw [List.find?_append] at hfind
        cases hfound : versions.find? (fun version => pascalCase version.kind = "Object") with
        | some first =>
          rw [hfound] at hfind
          rw [packageNames_append]
          exact List.mem_append_left _ (ih.mpr (Or.inr ⟨other, by rw [hfound]; exact hfind, hmeta⟩))
        | none =>
          rw [hfound, Option.none_or] at hfind
          have hkind := List.find?_some hfind
          obtain rfl : other = version := List.mem_singleton.mp (List.mem_of_find?_eq_some hfind)
          rw [packageNames_concat]
          exact names_objectMeta (by simpa using hkind) (hnone.mp hfound) hmeta

/-! ### The tree -/

/-- The directory of a file. -/
def dirname (path : String) : String := ((Text.cutLast path '/').map Prod.fst).getD ""

def Content.names : Content → List String
  | .objectMeta => ["ObjectMeta"]
  | .kind _ _ blocks => blocks.map Block.name

/-- The schemas of a package: those of all files of its directory. -/
def namesIn (files : Table String Content) (directory : String) : List String :=
  files.entries.flatMap fun file => if dirname file.1 = directory then file.2.names else []

/-- The schemas that a file refers to, with their packages: its own package's, and the object metadata. -/
def references (file : String × Content) : List (String × String) :=
  match file.2 with
  | .objectMeta => []
  | .kind _ _ blocks => ("meta/v1", "ObjectMeta") :: blocks.flatMap fun block =>
      block.references.map fun name => (dirname file.1, name)

/-- Every package's schemas have distinct names that are no keywords, and every reference is to one. -/
def NamesUnique (files : Table String Content) : Prop :=
  (∀ directory, (namesIn files directory).Nodup ∧ ∀ name ∈ namesIn files directory, name ∉ KEYWORDS) ∧
    ∀ file ∈ files.entries, ∀ reference ∈ references file, (namesIn files reference.1).count reference.2 = 1

theorem insert_new {κ α : Type} [DecidableEq κ] {key : κ} {value : α} {l : List (κ × α)}
    (h : key ∉ l.map Prod.fst) : Table.insert key value l = l ++ [(key, value)] := by
  induction l with
  | nil => rfl
  | cons entry l ih =>
    rw [List.map_cons, List.mem_cons, not_or] at h
    rw [Table.insert, if_neg (fun heq => h.1 heq.symm), ih h.2]
    rfl

theorem fileName_injective (base : String) : Function.Injective (fileName base) := by
  have hunder : ∀ i, (fileName base (i + 1)).toList = base.toList ++ ('_' :: (toString (i + 2)).toList ++ ".k".toList) := by
    intro i
    simp [fileName]
  have hne : ∀ i, fileName base (i + 1) ≠ fileName base 0 := by
    intro i h
    have h := congrArg String.toList h
    rw [hunder, fileName, String.toList_append] at h
    exact absurd (List.cons.inj (List.append_cancel_left h)).1 (by decide)
  intro i j h
  rcases i with _ | i <;> rcases j with _ | j
  · rfl
  · exact absurd h.symm (hne j)
  · exact absurd h (hne i)
  · have h := congrArg String.toList h
    rw [hunder, hunder] at h
    have hnumber := List.append_cancel_right (List.cons.inj (List.append_cancel_left h)).2
    have := toString_injective hnumber
    omega

variable {casing : Text.Casing}

theorem slash_not_mem_snakeCase (kind : String) : '/' ∉ (snakeCase casing kind).toList := by
  rw [snakeCase, String.toList_ofList, List.mem_flatMap]
  rintro ⟨c, -, hc⟩
  split at hc
  · rename_i hword
    rw [← List.mem_singleton.mp hc] at hword
    exact absurd hword (by decide)
  · exact absurd (List.eq_of_mem_replicate hc) (by decide)

/-- A kind's file is in its package's directory. -/
theorem dirname_fileName {directory kind : String} (i : Nat) :
    dirname (fileName (directory ++ "/" ++ snakeCase casing kind) i) = directory := by
  obtain ⟨tail, htail, hslash⟩ : ∃ tail, fileName (directory ++ "/" ++ snakeCase casing kind) i =
      directory ++ "/" ++ (snakeCase casing kind ++ tail) ∧ '/' ∉ tail.toList := by
    cases i with
    | zero => exact ⟨".k", by simp [fileName, String.append_assoc], by decide⟩
    | succ i =>
      refine ⟨"_" ++ toString (i + 2) ++ ".k", by simp [fileName, String.append_assoc], ?_⟩
      simp only [String.toList_append, List.mem_append, not_or]
      exact ⟨⟨by decide, fun h => absurd (digit_head_toString h) (by decide)⟩, by decide⟩
  have hname : '/' ∉ (snakeCase casing kind ++ tail).toList := by
    rw [String.toList_append, List.mem_append, not_or]
    exact ⟨slash_not_mem_snakeCase kind, hslash⟩
  rw [htail, dirname, Text.cutLast_append hname "/" rfl]
  rfl

theorem newFile_not_mem (files : Table String Content) (version : CrdVersion) :
    newFile casing files version ∉ files.keys := fresh_not_mem (fileName_injective _)

theorem dirname_newFile (files : Table String Content) (version : CrdVersion) :
    dirname (newFile casing files version) = directoryOf casing version := by
  obtain ⟨i, hi⟩ := fresh_eq_candidate files.keys
    (fileName (directoryOf casing version ++ "/" ++ snakeCase casing version.kind))
  rw [newFile, hi]
  exact dirname_fileName i

/-- A version adds a file with the schemas of its kind. -/
theorem entries_addVersion (dependency : String) (generated : Generated) (version : CrdVersion) :
    ∃ metaModule, (addVersion casing N dependency generated version).files.entries =
      generated.files.entries ++ [(newFile casing generated.files version, .kind version.crd metaModule
        (emitKind N version (emitterOf generated (directoryOf casing version))).declarations)] := by
  have hnew : newFile casing generated.files version ∉ generated.files.entries.map Prod.fst :=
    newFile_not_mem generated.files version
  simp only [addVersion, Table.set, insert_new hnew]
  exact ⟨_, rfl⟩

theorem emitters_addVersion (dependency : String) (generated : Generated) (version : CrdVersion) :
    (addVersion casing N dependency generated version).emitters =
      generated.emitters.set (directoryOf casing version)
        (emitKind N version (emitterOf generated (directoryOf casing version))).names := rfl

variable (casing) in
/-- The versions of a package. -/
def ofDirectory (directory : String) (versions : List CrdVersion) : List CrdVersion :=
  versions.filter fun version => directoryOf casing version = directory

theorem ofDirectory_concat (directory : String) (versions : List CrdVersion) (version : CrdVersion) :
    ofDirectory casing directory (versions ++ [version]) = ofDirectory casing directory versions ++
      if directoryOf casing version = directory then [version] else [] := by
  by_cases heq : directoryOf casing version = directory
  · rw [if_pos heq, ofDirectory, List.filter_append, List.filter_cons_of_pos (by simpa using heq), List.filter_nil]
    rfl
  · rw [if_neg heq, ofDirectory, List.filter_append, List.filter_cons_of_neg (by simpa using heq), List.filter_nil]
    rfl

/-- What the tree holds while it is generated: in each package the names that its emitter has given out,
    and the object metadata in `meta/v1`. -/
structure Holds (casing : Text.Casing) (N : Numbers) (versions : List CrdVersion) (generated : Generated) : Prop where
  emitters : ∀ directory, emitterOf generated directory = packageNames N (ofDirectory casing directory versions)
  names : ∀ directory, namesIn generated.files directory = (if directory = "meta/v1" then ["ObjectMeta"] else []) ++
    packageNames N (ofDirectory casing directory versions)
  references : ∀ file ∈ generated.files.entries, ∀ crd metaModule blocks, file.2 = .kind crd metaModule blocks →
    ∀ block ∈ blocks, ∀ name ∈ block.references, name ∈ blocks.map Block.name

theorem holds_empty : Holds casing N [] ⟨Table.empty.set "meta/v1/object_meta.k" .objectMeta, Table.empty, Table.empty⟩ where
  emitters _ := rfl
  names directory := by
    have hdir : dirname "meta/v1/object_meta.k" = "meta/v1" := by decide
    change (if dirname "meta/v1/object_meta.k" = directory then ["ObjectMeta"] else []) ++ [] = _
    rw [hdir]
    simp only [eq_comm]
    rfl
  references file hfile crd metaModule blocks heq := by
    rw [List.mem_singleton.mp hfile] at heq
    cases heq

theorem Holds.add {versions : List CrdVersion} {generated : Generated} (h : Holds casing N versions generated)
    (dependency : String) (version : CrdVersion) :
    Holds casing N (versions ++ [version]) (addVersion casing N dependency generated version) := by
  obtain ⟨metaModule, hentries⟩ := entries_addVersion (N := N) dependency generated version
  refine ⟨fun directory => ?_, fun directory => ?_, fun file hfile crd metaModule blocks heq => ?_⟩
  · rw [emitterOf, emitters_addVersion, Table.get?_set, ofDirectory_concat]
    by_cases heq : directory = directoryOf casing version
    · rw [if_pos heq, if_pos heq.symm, packageNames_concat, heq, ← h.emitters]
      rfl
    · rw [if_neg heq, if_neg (fun h => heq h.symm), List.append_nil]
      exact h.emitters directory
  · rw [namesIn, hentries, List.flatMap_append, List.flatMap_singleton, ofDirectory_concat, dirname_newFile]
    change namesIn generated.files directory ++ _ = _
    rw [h.names]
    by_cases heq : directoryOf casing version = directory
    · rw [if_pos heq, if_pos heq, packageNames_append, List.append_assoc, ← heq, ← h.emitters]
      rfl
    · rw [if_neg heq, if_neg heq, List.append_nil, List.append_nil]
  · rw [hentries] at hfile
    rcases List.mem_append.mp hfile with hfile | hfile
    · exact h.references file hfile crd metaModule blocks heq
    · rw [List.mem_singleton.mp hfile] at heq
      obtain ⟨-, -, rfl⟩ := Content.kind.inj heq
      intro block hblock name hname
      exact ((emitKind_sound _).inner _ block hblock name hname).resolve_left List.not_mem_nil

theorem crdSchemaTree_holds (dependency : String) (versions : List CrdVersion) :
    Holds casing N versions (crdSchemaTree casing N dependency versions) := by
  induction versions using List.reverseRecOn with
  | nil => exact holds_empty
  | append_singleton versions version ih =>
    rw [crdSchemaTree, List.foldl_append]
    exact ih.add dependency version

/-- The schema names of every generated package are distinct and no keywords, and every reference is to one
    schema, exactly when no kind of `meta/v1` comes to the `ObjectMeta` that is there. -/
theorem crd_names_iff (casing : Text.Casing) (N : Numbers) (dependency : String) (versions : List CrdVersion) :
    NamesUnique (crdSchemaTree casing N dependency versions).files ↔
      ¬ Clash N (ofDirectory casing "meta/v1" versions) := by
  have hholds : Holds casing N versions _ := crdSchemaTree_holds dependency versions
  rw [← objectMeta_mem_packageNames]
  constructor
  · rintro ⟨hnames, -⟩ hmem
    have hnodup := (hnames "meta/v1").1
    rw [hholds.names, if_pos rfl, List.singleton_append] at hnodup
    exact (List.nodup_cons.mp hnodup).1 hmem
  · intro hfree
    have hnames : ∀ directory, (namesIn (crdSchemaTree casing N dependency versions).files directory).Nodup ∧
        ∀ name ∈ namesIn (crdSchemaTree casing N dependency versions).files directory, name ∉ KEYWORDS := by
      intro directory
      obtain ⟨hnodup, hkeywords⟩ := packageNames_nodup (N := N) (ofDirectory casing directory versions)
      rw [hholds.names]
      by_cases heq : directory = "meta/v1"
      · subst heq
        rw [if_pos rfl, List.singleton_append]
        refine ⟨List.nodup_cons.mpr ⟨hfree, hnodup⟩, fun name hname => ?_⟩
        rcases List.mem_cons.mp hname with rfl | hname
        · decide
        · exact hkeywords name hname
      · rw [if_neg heq, List.nil_append]
        exact ⟨hnodup, hkeywords⟩
    refine ⟨hnames, fun file hfile reference href => ?_⟩
    refine List.count_eq_one_of_mem (hnames reference.1).1 ?_
    obtain ⟨path, content⟩ := file
    cases content with
    | objectMeta => cases href
    | kind crd metaModule blocks =>
      rcases List.mem_cons.mp href with rfl | href
      · rw [hholds.names, if_pos rfl]
        exact List.mem_append_left _ (List.mem_singleton.mpr rfl)
      · obtain ⟨block, hblock, href⟩ := List.mem_flatMap.mp href
        obtain ⟨name, hname, rfl⟩ := List.mem_map.mp href
        refine List.mem_flatMap.mpr ⟨_, hfile, ?_⟩
        rw [if_pos rfl]
        exact hholds.references _ hfile crd metaModule blocks rfl block hblock name hname

/-- Texts beyond ASCII in lower case already. -/
def lowerCased : Text.Casing where
  lower _ c _ := [c]
  no_slash _ c _ h := by
    rw [List.mem_singleton]
    rintro rfl
    exact h (by decide)

/-- A kind of the group `meta` in version `v1`. -/
def metaKind (kind : String) : CrdVersion := ⟨"meta", "v1", kind, kind ++ ".meta", false, none, none⟩

/-- The kind `ObjectMeta` of `meta/v1` is there twice. -/
theorem objectMeta_twice :
    namesIn (crdSchemaTree lowerCased ValuesSchema.wholeNumbers "web" [metaKind "ObjectMeta"]).files "meta/v1" =
        ["ObjectMeta", "ObjectMeta"] ∧
      ¬ NamesUnique (crdSchemaTree lowerCased ValuesSchema.wholeNumbers "web" [metaKind "ObjectMeta"]).files := by
  have hnames : namesIn (crdSchemaTree lowerCased ValuesSchema.wholeNumbers "web" [metaKind "ObjectMeta"]).files
      "meta/v1" = ["ObjectMeta", "ObjectMeta"] := by
    decide
  refine ⟨hnames, fun h => ?_⟩
  have hnodup := (h.1 "meta/v1").1
  rw [hnames] at hnodup
  exact absurd hnodup (by decide)

end Akua.CrdSchemas
