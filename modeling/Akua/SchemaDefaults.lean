import Akua.ValuesSchema
import Mathlib.Algebra.Group.Int.Defs

/-! The defaults of generated schemas. Types and literals are printed by two recursions over one
    schema: a literal is right when KCL reads it as data that the type beside it takes, and that is the
    default of the schema. Numbers are where they part: a default is rounded to a double when the schema
    is read, and printed with an exponent from 10^21 on, an integer like any other. -/

namespace Akua.ValuesSchema

open Literal

/-! ### What a type takes -/

def Primitive.Admits : Primitive → Data → Prop
  | .str, data => ∃ text, data = .text text
  | .int, data => ∃ n, data = .int n
  | .float, data => (∃ n, data = .int n) ∨ ∃ x, data = .float x
  | .bool, data => ∃ value, data = .bool value
  | .any, _ => True

/-- The data a type takes; the instances of a generated schema are dictionaries. -/
def Annotation.Admits : Annotation → Data → Prop
  | .primitive type, data => type.Admits data
  | .union types, data => ∃ type ∈ types, type.Admits data
  | .list item, data => ∃ items, data = .list items ∧ ∀ x ∈ items, item.Admits x
  | .schema _, data => ∃ entries, data = .dict entries

/-- An integer stays one under the type; under `float` it becomes a float. -/
def Annotation.keepsIntegers : Annotation → Bool
  | .primitive type => type = .int || type = .any
  | .union types => types.any fun type => type = .int || type = .any
  | _ => false

def Annotation.takesFloats : Annotation → Bool
  | .primitive type => type = .float || type = .any
  | .union types => types.any fun type => type = .float || type = .any
  | _ => false

variable (N : Numbers) (D : Dialect)

mutual

/-- Data of KCL is data of a document; a float is the double next to the document's number. -/
def Denotes : Json → Data → Prop
  | .null, data => data = .none
  | .bool value, data => data = .bool value
  | .number q, data => (∃ n : Int, data = .int n ∧ (n : Rat) = q) ∨ ∃ x, data = .float x ∧ N.double q = some x
  | .string s, data => data = .text s.toList
  | .array values, data => ∃ items, data = .list items ∧ DenoteItems values items
  | .object entries, data => ∃ dict, data = .dict dict ∧ dict.length = entries.length ∧ DenoteEntries entries dict

def DenoteItems : List Json → List Data → Prop
  | [], items => items = []
  | value :: values, items => ∃ x xs, items = x :: xs ∧ Denotes value x ∧ DenoteItems values xs

def DenoteEntries : List (String × Json) → List (List Char × Data) → Prop
  | [], _ => True
  | (key, value) :: entries, dict => (∃ x, (key.toList, x) ∈ dict ∧ Denotes value x) ∧ DenoteEntries entries dict

end

/-- The literal of a default is right: KCL reads it as one literal, of data that the type takes and that
    the default denotes. -/
def Inhabits (type : Annotation) (value : Json) (literal : String) : Prop :=
  ∃ data, N.Reads D literal.toList data ∧ type.Admits data ∧
    (Denotes N value data ∨
      type.keepsIntegers = false ∧ ∃ (q : Rat) (n : Int), value = .number q ∧ data = .int n ∧ N.double n = N.double q)

/-! ### What a literal reads as -/

/-- A literal of digits. -/
def wholeData (n : Int) : Option Data := if N.holds n then some (.int n) else none

/-- A printed number; `whole` gives the digits of a whole one. -/
def printedData (whole : Rat → Int) (q : Rat) : Option Data :=
  (N.double q).bind fun x => if isDigits x then wholeData N (whole x) else some (.float x)

/-- A text without expressions. -/
def textData (s : String) : Option (List Char) := (D.join s.toList).bind Value.text?

def entryData (entry : String × Option Data) : Option (List Char × Data) :=
  (textData D entry.1).bind fun key => entry.2.map fun value => (key, value)

mutual

def literalData : Json → Option Data
  | .null => some .none
  | .bool value => some (.bool value)
  | .number q => printedData N N.shortest q
  | .string s => (textData D s).map .text
  | .array values => (Literal.sequence (literalsData values)).map .list
  | .object entries => (Literal.sequence ((sortedEntries (entriesData entries)).map (entryData D))).map .dict

def literalsData : List Json → List (Option Data)
  | [] => []
  | value :: values => literalData value :: literalsData values

def entriesData : List (String × Json) → List (String × Option Data)
  | [] => []
  | (key, value) :: entries => (key, literalData value) :: entriesData entries

end

variable {N D}

/-- The text of a number is an atom that reads as it does. -/
structure ReadsNumber (N : Numbers) (l : List Char) (data : Option Data) : Prop where
  ne_nil : l ≠ []
  atoms : ∀ c ∈ l, isAtom c = true
  atom : N.atom l = data

theorem isAtom_of_isDigit {c : Char} (h : c.isDigit = true) : isAtom c = true := by
  simp [isAtom, Char.isAlphanum, h]

theorem isAtom_of_isNumeral {c : Char} (h : isNumeral c = true) : isAtom c = true := by
  rw [isNumeral] at h
  simp only [Bool.or_eq_true, decide_eq_true_eq] at h
  rcases h with ((((h | rfl) | rfl) | rfl) | rfl) | rfl
  · exact isAtom_of_isDigit h
  all_goals decide

/-- A word is no number. -/
theorem word_eq_none {l : List Char} (h : ∀ c ∈ l, isNumeral c = true) : word l = none := by
  have hne : ∀ t : String, (∃ c ∈ t.toList, isNumeral c = false) → l ≠ t.toList := by
    rintro t ⟨c, hc, hfalse⟩ rfl
    rw [h c hc] at hfalse
    cases hfalse
  rw [word, if_neg (hne _ ⟨'N', by simp, by decide⟩), if_neg (hne _ ⟨'T', by simp, by decide⟩),
    if_neg (hne _ ⟨'F', by simp, by decide⟩)]

theorem isNumeral_of_isDigit {c : Char} (h : c.isDigit = true) : isNumeral c = true := by
  simp [isNumeral, h]

theorem digits_numeral (n : Int) : ∀ c ∈ Numerals.digits n, isNumeral c = true := by
  intro c hc
  rw [Numerals.digits] at hc
  split at hc
  · rcases List.mem_cons.mp hc with rfl | hc
    · decide
    · exact isNumeral_of_isDigit (Nat.isDigit_of_mem_toDigits (by decide) (by decide) hc)
  · exact isNumeral_of_isDigit (Nat.isDigit_of_mem_toDigits (by decide) (by decide) hc)

theorem reads_digits (n : Int) : ReadsNumber N (Numerals.digits n) (wholeData N n) := by
  refine ⟨?_, fun c hc => isAtom_of_isNumeral (digits_numeral n c hc), ?_⟩
  · rw [Numerals.digits]
    split
    · simp
    · exact Nat.toDigits_ne_nil
  · rw [Numerals.atom, word_eq_none (digits_numeral n), Option.none_or, Numerals.number,
      Numerals.integer_digits]
    rfl

/-- What JavaScript prints for a number is no literal when it is beyond the doubles. -/
theorem reads_numberText (q : Rat) : ReadsNumber N (numberText N q) (printedData N N.shortest q) := by
  rw [numberText, printedData]
  rcases hx : N.double q with _ | x
  · by_cases hq : q < 0
    · simp only [if_pos hq]
      exact ⟨by decide +kernel, List.all_eq_true.mp (by decide), by rw [Numerals.atom, Numerals.number]; rfl⟩
    · simp only [if_neg hq]
      exact ⟨by decide +kernel, List.all_eq_true.mp (by decide), by rw [Numerals.atom, Numerals.number]; rfl⟩
  · simp only [Option.bind_some]
    cases hdigits : isDigits x with
    | true =>
      rw [if_pos rfl, if_pos rfl]
      exact reads_digits _
    | false =>
      rw [if_neg Bool.false_ne_true, if_neg Bool.false_ne_true]
      have hnumeral := N.text_numeral q x hx hdigits
      refine ⟨N.text_ne_nil q x hx hdigits, fun c hc => isAtom_of_isNumeral (hnumeral c hc), ?_⟩
      rw [Numerals.atom, word_eq_none hnumeral, Option.none_or, Numerals.number,
        N.text_not_integer q x hx hdigits]
      simp only [List.all_eq_true.mpr hnumeral, if_true, N.float_text q x hx hdigits, Option.map_some]

/-- `toFixed` and `String` differ in the digits of a whole number only. -/
theorem reads_toFixed (q : Rat) : ReadsNumber N (toFixed N q) (printedData N Rat.num q) := by
  have hnumber := reads_numberText (N := N) q
  rw [toFixed, printedData]
  rw [printedData] at hnumber
  rcases hx : N.double q with _ | x
  · rw [hx] at hnumber
    exact hnumber
  · rw [hx, Option.bind_some] at hnumber
    simp only [Option.bind_some]
    cases hdigits : isDigits x with
    | true =>
      rw [if_pos rfl, if_pos rfl]
      exact reads_digits _
    | false =>
      rw [hdigits, if_neg Bool.false_ne_true] at hnumber
      rw [if_neg Bool.false_ne_true, if_neg Bool.false_ne_true]
      exact hnumber

theorem ReadsNumber.denotes {l : List Char} {data : Option Data} (h : ReadsNumber N l data) :
    N.Denotes D l data := by
  rw [← h.atom]
  exact Numerals.denotes_atom h.ne_nil h.atoms

theorem ReadsNumber.leads {l : List Char} {data : Option Data} (h : ReadsNumber N l data) : Numerals.Leads l := by
  obtain ⟨c, cs, rfl⟩ := List.exists_cons_of_ne_nil h.ne_nil
  have hc := h.atoms c (by simp)
  refine ⟨c, cs, rfl, ?_, ?_, ?_⟩ <;> rintro rfl <;> exact absurd hc (by decide)

theorem reads_string (s : String) : Numerals.ReadsString D (Kcl.kclStringLiteral s).toList (textData D s) := by
  refine ⟨by rw [Kcl.toList_kclStringLiteral]; rfl, fun rest hrest => ?_⟩
  rw [Numerals.string, Kcl.read_kclStringLiteral D s rest (fun _ => hrest), textData]
  cases D.join s.toList <;> rfl

theorem leads_string (s : String) : Numerals.Leads (Kcl.kclStringLiteral s).toList :=
  ⟨'"', _, Kcl.toList_kclStringLiteral s, by decide, by decide, by decide⟩

/-- Entries with the same keys are sorted alike. -/
theorem forall₂_sortedEntries {α β : Type} {R : String × α → String × β → Prop} (hkey : ∀ a b, R a b → a.1 = b.1)
    {l : List (String × α)} {m : List (String × β)} (h : List.Forall₂ R l m) :
    List.Forall₂ R (sortedEntries l) (sortedEntries m) := by
  have hinsert : ∀ {a b} {l : List (String × α)} {m : List (String × β)}, R a b → List.Forall₂ R l m →
      List.Forall₂ R (l.orderedInsert (fun a b => Text.atMost a.1 b.1) a)
        (m.orderedInsert (fun a b => Text.atMost a.1 b.1) b) := by
    intro a b l m hab h
    induction h with
    | nil => exact .cons hab .nil
    | @cons c d l m hcd hrest ih =>
      simp only [List.orderedInsert_cons, hkey a b hab, hkey c d hcd]
      split
      · exact .cons hab (.cons hcd hrest)
      · exact .cons hcd ih
  induction h with
  | nil => exact .nil
  | cons hab _ ih => exact hinsert hab ih

mutual

/-- A literal reads as its data, whatever follows it. -/
theorem kclLiteral_denotes : ∀ value : Json, N.Denotes D (kclLiteral N value).toList (literalData N D value) ∧
    Numerals.Leads (kclLiteral N value).toList
  | .null => by
    rw [kclLiteral, literalData]
    exact ⟨Numerals.denotes_atom (N := N.toNumerals) (l := "None".toList) (by simp)
        (List.all_eq_true.mp (by decide)),
      ⟨'N', _, rfl, by decide, by decide, by decide⟩⟩
  | .bool value => by
    rw [kclLiteral, literalData]
    cases value with
    | true => exact ⟨Numerals.denotes_atom (N := N.toNumerals) (l := "True".toList) (by simp)
        (List.all_eq_true.mp (by decide)),
        ⟨'T', _, rfl, by decide, by decide, by decide⟩⟩
    | false => exact ⟨Numerals.denotes_atom (N := N.toNumerals) (l := "False".toList) (by simp)
        (List.all_eq_true.mp (by decide)),
        ⟨'F', _, rfl, by decide, by decide, by decide⟩⟩
  | .number q => by
    rw [kclLiteral, literalData, String.toList_ofList]
    exact ⟨(reads_numberText q).denotes, (reads_numberText q).leads⟩
  | .string s => by
    rw [kclLiteral, literalData]
    exact ⟨Numerals.denotes_string (reads_string s), leads_string s⟩
  | .array values => by
    have htext : (kclLiteral N (.array values)).toList =
        '[' :: ([',', ' '].intercalate ((kclLiterals N values).map String.toList) ++ [']']) := by
      simp [kclLiteral]
    rw [htext, literalData]
    exact ⟨Numerals.denotes_list (kclLiterals_denote values), ⟨'[', _, rfl, by decide, by decide, by decide⟩⟩
  | .object entries => by
    have htext : (kclLiteral N (.object entries)).toList =
        '\x7b' :: ([',', ' '].intercalate ((sortedEntries (entryLiterals N entries)).map fun entry =>
          (Kcl.kclStringLiteral entry.1).toList ++ ([':', ' '] ++ entry.2.toList)) ++ ['\x7d']) := by
      simp [kclLiteral, Function.comp_def]
    rw [htext, literalData]
    have hsorted := forall₂_sortedEntries (fun a b h => h.1) (entryLiterals_denote entries)
    refine ⟨Numerals.denotes_dict ?_, ⟨'\x7b', _, rfl, by decide, by decide, by decide⟩⟩
    rw [List.forall₂_map_left_iff, List.forall₂_map_right_iff]
    refine hsorted.imp fun entry data h => ?_
    refine ⟨_, _, _, _, rfl, reads_string entry.1, h.2, ?_⟩
    rw [entryData, h.1]

theorem kclLiterals_denote : ∀ values : List Json, List.Forall₂
    (fun l data => N.Denotes D l data ∧ Numerals.Leads l) ((kclLiterals N values).map String.toList)
    (literalsData N D values)
  | [] => .nil
  | value :: values => .cons (kclLiteral_denotes value) (kclLiterals_denote values)

theorem entryLiterals_denote : ∀ entries : List (String × Json), List.Forall₂
    (fun entry data => entry.1 = data.1 ∧ N.Denotes D entry.2.toList data.2 ∧ Numerals.Leads entry.2.toList)
    (entryLiterals N entries) (entriesData N D entries)
  | [] => .nil
  | (_, value) :: entries => .cons ⟨rfl, kclLiteral_denotes value⟩ (entryLiterals_denote entries)

end

/-! ### What a literal denotes -/

/-- The number is within the doubles; if it is printed as digits, they are its own and KCL holds it. -/
def Printed (N : Numbers) (whole : Rat → Int) (q : Rat) : Prop :=
  ∃ x, N.double q = some x ∧ (isDigits x = true → N.holds (whole x) = true ∧ (whole x : Rat) = q)

mutual

/-- Each number of a default is printed as it is, and nothing in a text is evaluated. -/
def Plain (N : Numbers) (D : Dialect) : Json → Prop
  | .number q => Printed N N.shortest q
  | .string s => D.NoExpression s.toList
  | .array values => PlainItems N D values
  | .object entries => PlainEntries N D entries
  | _ => True

def PlainItems (N : Numbers) (D : Dialect) : List Json → Prop
  | [] => True
  | value :: values => Plain N D value ∧ PlainItems N D values

def PlainEntries (N : Numbers) (D : Dialect) : List (String × Json) → Prop
  | [] => True
  | (key, value) :: entries => (D.NoExpression key.toList ∧ Plain N D value) ∧ PlainEntries N D entries

end

theorem plainEntries_iff {entries : List (String × Json)} :
    PlainEntries N D entries ↔ ∀ entry ∈ entries, D.NoExpression entry.1.toList ∧ Plain N D entry.2 := by
  induction entries with
  | nil => simp [PlainEntries]
  | cons entry entries ih => simp [PlainEntries, ih]

theorem denoteEntries_iff {entries : List (String × Json)} {dict : List (List Char × Data)} :
    DenoteEntries N entries dict ↔ ∀ entry ∈ entries, ∃ x, (entry.1.toList, x) ∈ dict ∧ Denotes N entry.2 x := by
  induction entries with
  | nil => simp [DenoteEntries]
  | cons entry entries ih => simp [DenoteEntries, ih]

theorem entriesData_eq (entries : List (String × Json)) :
    entriesData N D entries = entries.map fun entry => (entry.1, literalData N D entry.2) := by
  induction entries with
  | nil => rfl
  | cons entry entries ih => rw [entriesData, ih, List.map_cons]

theorem textData_eq_some_iff {s : String} {text : List Char} :
    textData D s = some text ↔ text = s.toList ∧ D.NoExpression s.toList := by
  rw [textData, Option.bind_eq_some_iff]
  constructor
  · rintro ⟨value, hjoin, htext⟩
    cases value with
    | joined _ => cases htext
    | plain t =>
      obtain rfl : t = text := Option.some.inj htext
      obtain ⟨rfl, hno⟩ := Dialect.join_eq_plain_iff.mp hjoin
      exact ⟨rfl, hno⟩
  · rintro ⟨rfl, hno⟩
    exact ⟨.plain s.toList, Dialect.join_eq_plain_iff.mpr ⟨rfl, hno⟩, rfl⟩

theorem wholeData_eq_some_iff {n : Int} {data : Data} :
    wholeData N n = some data ↔ N.holds n = true ∧ data = .int n := by
  rw [wholeData]
  split
  · rename_i h
    exact ⟨fun heq => ⟨h, (Option.some.inj heq).symm⟩, fun heq => by rw [heq.2]⟩
  · rename_i h
    exact ⟨fun heq => (by cases heq), fun heq => absurd heq.1 h⟩

/-- A number reads as an integer that KCL holds, or as a float. -/
theorem printedData_eq_some_iff {whole : Rat → Int} {q : Rat} {data : Data} :
    printedData N whole q = some data ↔ ∃ x, N.double q = some x ∧
      ((isDigits x = true ∧ N.holds (whole x) = true ∧ data = .int (whole x)) ∨
        isDigits x = false ∧ data = .float x) := by
  rw [printedData, Option.bind_eq_some_iff]
  refine exists_congr fun x => and_congr_right fun _ => ?_
  cases isDigits x with
  | true => simp [wholeData_eq_some_iff]
  | false =>
    rw [if_neg Bool.false_ne_true, Option.some.injEq, @eq_comm _ (Data.float x)]
    simp

theorem number_denotes_iff {whole : Rat → Int} {q : Rat} :
    (∃ data, printedData N whole q = some data ∧ Denotes N (.number q) data) ↔ Printed N whole q := by
  constructor
  · rintro ⟨data, hdata, hdenotes⟩
    obtain ⟨x, hx, ⟨hdigits, hholds, rfl⟩ | ⟨hdigits, rfl⟩⟩ := printedData_eq_some_iff.mp hdata
    · refine ⟨x, hx, fun _ => ⟨hholds, ?_⟩⟩
      rcases hdenotes with ⟨n, hn, hq⟩ | ⟨y, hy, -⟩
      · rwa [Data.int.inj hn]
      · cases hy
    · exact ⟨x, hx, fun h => by rw [hdigits] at h; cases h⟩
  · rintro ⟨x, hx, h⟩
    cases hdigits : isDigits x with
    | true =>
      obtain ⟨hholds, hq⟩ := h hdigits
      exact ⟨.int (whole x), printedData_eq_some_iff.mpr ⟨x, hx, Or.inl ⟨hdigits, hholds, rfl⟩⟩,
        Or.inl ⟨_, rfl, hq⟩⟩
    | false =>
      exact ⟨.float x, printedData_eq_some_iff.mpr ⟨x, hx, Or.inr ⟨hdigits, rfl⟩⟩, Or.inr ⟨x, rfl, hx⟩⟩

/-- A dictionary denotes an object when its entries do, wherever they are sorted to. -/
theorem object_denotes_iff {entries : List (String × Json)} (hnodup : (entries.map Prod.fst).Nodup)
    (h : ∀ entry ∈ entries, (∃ data, literalData N D entry.2 = some data ∧ Denotes N entry.2 data) ↔
      Plain N D entry.2) :
    (∃ data, literalData N D (.object entries) = some data ∧ Denotes N (.object entries) data) ↔
      PlainEntries N D entries := by
  have hsorted : ∀ entry, entry ∈ sortedEntries (entriesData N D entries) ↔
      ∃ e ∈ entries, (e.1, literalData N D e.2) = entry := by
    intro entry
    rw [sortedEntries, List.mem_insertionSort, entriesData_eq, List.mem_map]
  rw [plainEntries_iff, literalData]
  constructor
  · rintro ⟨data, hdata, dict', rfl, -, hdenotes⟩ entry hentry
    obtain ⟨dict, hdict, hdata⟩ := Option.map_eq_some_iff.mp hdata
    obtain rfl := Data.dict.inj hdata
    obtain ⟨x, hx, hvalue⟩ := denoteEntries_iff.mp hdenotes entry hentry
    -- the entry of the dictionary comes from one of this key, which is this one
    have hmem : some (entry.1.toList, x) ∈ (sortedEntries (entriesData N D entries)).map (entryData D) := by
      rw [sequence_eq_some_iff.mp hdict]
      exact List.mem_map_of_mem hx
    obtain ⟨pair, hpair, hread⟩ := List.mem_map.mp hmem
    obtain ⟨other, hother, rfl⟩ := (hsorted pair).mp hpair
    obtain ⟨key, hkey, hread⟩ := Option.bind_eq_some_iff.mp hread
    obtain ⟨y, hy, heq⟩ := Option.map_eq_some_iff.mp hread
    obtain ⟨rfl, rfl⟩ := Prod.mk.inj heq
    obtain ⟨hname, hno⟩ := textData_eq_some_iff.mp hkey
    obtain rfl : entry = other := List.inj_on_of_nodup_map hnodup hentry hother (String.toList_inj.mp hname)
    exact ⟨hno, (h entry hentry).mp ⟨_, hy, hvalue⟩⟩
  · intro hplain
    have hread : ∀ entry ∈ entries, ∃ data, literalData N D entry.2 = some data ∧ Denotes N entry.2 data ∧
        entryData D (entry.1, literalData N D entry.2) = some (entry.1.toList, data) := by
      intro entry hentry
      obtain ⟨hno, hvalue⟩ := hplain entry hentry
      obtain ⟨data, hdata, hdenotes⟩ := (h entry hentry).mpr hvalue
      refine ⟨data, hdata, hdenotes, ?_⟩
      rw [entryData, textData_eq_some_iff.mpr ⟨rfl, hno⟩, hdata]
      rfl
    have hall : ∀ value ∈ (sortedEntries (entriesData N D entries)).map (entryData D), ∃ a, value = some a := by
      intro value hvalue
      obtain ⟨pair, hpair, rfl⟩ := List.mem_map.mp hvalue
      obtain ⟨entry, hentry, rfl⟩ := (hsorted pair).mp hpair
      obtain ⟨data, -, -, hdata⟩ := hread entry hentry
      exact ⟨_, hdata⟩
    obtain ⟨dict, hdict⟩ := exists_sequence hall
    have hmap := sequence_eq_some_iff.mp hdict
    refine ⟨.dict dict, by rw [hdict]; rfl, dict, rfl, ?_, denoteEntries_iff.mpr fun entry hentry => ?_⟩
    · have hlength := congrArg List.length hmap
      rw [List.length_map, List.length_map, sortedEntries, List.length_insertionSort, entriesData_eq,
        List.length_map] at hlength
      exact hlength.symm
    · obtain ⟨data, -, hdenotes, hdata⟩ := hread entry hentry
      refine ⟨data, ?_, hdenotes⟩
      have hmem : entryData D (entry.1, literalData N D entry.2) ∈ dict.map some := by
        rw [← hmap]
        exact List.mem_map_of_mem ((hsorted _).mpr ⟨entry, hentry, rfl⟩)
      rw [hdata] at hmem
      obtain ⟨pair, hpair, heq⟩ := List.mem_map.mp hmem
      rwa [← Option.some.inj heq]

mutual

/-- A literal denotes its default exactly when the default is plain. -/
theorem value_denotes_iff : ∀ value : Json, DistinctKeys value →
    ((∃ data, literalData N D value = some data ∧ Denotes N value data) ↔ Plain N D value)
  | .null, _ => iff_of_true ⟨.none, rfl, rfl⟩ trivial
  | .bool value, _ => iff_of_true ⟨.bool value, rfl, rfl⟩ trivial
  | .number q, _ => number_denotes_iff
  | .string s, _ => by
    rw [Plain, literalData]
    constructor
    · rintro ⟨data, hdata, -⟩
      obtain ⟨text, htext, -⟩ := Option.map_eq_some_iff.mp hdata
      exact (textData_eq_some_iff.mp htext).2
    · intro h
      exact ⟨.text s.toList, by rw [textData_eq_some_iff.mpr ⟨rfl, h⟩]; rfl, rfl⟩
  | .array values, h => by
    rw [Plain, literalData, ← items_denote_iff values h]
    constructor
    · rintro ⟨data, hdata, items, rfl, hdenotes⟩
      obtain ⟨items, hitems, heq⟩ := Option.map_eq_some_iff.mp hdata
      obtain rfl := Data.list.inj heq
      exact ⟨items, hitems, hdenotes⟩
    · rintro ⟨items, hitems, hdenotes⟩
      exact ⟨.list items, by rw [hitems]; rfl, items, rfl, hdenotes⟩
  | .object entries, h => object_denotes_iff h.1 (entries_denote_iff entries h.2)

theorem items_denote_iff : ∀ values : List Json, DistinctItems values →
    ((∃ items, Literal.sequence (literalsData N D values) = some items ∧ DenoteItems N values items) ↔
      PlainItems N D values)
  | [], _ => iff_of_true ⟨[], rfl, rfl⟩ trivial
  | value :: values, h => by
    rw [PlainItems, ← value_denotes_iff value h.1, ← items_denote_iff values h.2]
    simp only [literalsData, Literal.sequence, Option.bind_eq_some_iff, Option.map_eq_some_iff, DenoteItems]
    constructor
    · rintro ⟨items, ⟨x, hx, xs, hxs, rfl⟩, y, ys, heq, hy, hys⟩
      obtain ⟨rfl, rfl⟩ := List.cons.inj heq
      exact ⟨⟨x, hx, hy⟩, xs, hxs, hys⟩
    · rintro ⟨⟨x, hx, hdenotes⟩, xs, hxs, hrest⟩
      exact ⟨x :: xs, ⟨x, hx, xs, hxs, rfl⟩, x, xs, rfl, hdenotes, hrest⟩

theorem entries_denote_iff : ∀ entries : List (String × Json), DistinctEntries entries → ∀ entry ∈ entries,
    ((∃ data, literalData N D entry.2 = some data ∧ Denotes N entry.2 data) ↔ Plain N D entry.2)
  | [], _, _, h => absurd h List.not_mem_nil
  | (key, value) :: entries, hdistinct, entry, h => by
    rcases List.mem_cons.mp h with rfl | h
    · exact value_denotes_iff value hdistinct.1
    · exact entries_denote_iff entries hdistinct.2 entry h

end

/-! ### Types of attributes -/

/-- The types that take no literal, or none of a number. -/
def otherTypes : List String := ["null", "boolean", "string", "array", "object"]

/-- How the digits of a number are chosen: by the first type that a number may have. -/
def digitsOf (N : Numbers) (types : List String) : Rat → Int :=
  if types.find? (· ∉ otherTypes) = some "integer" then Rat.num else N.shortest

theorem renderType_untyped {name : String} {schema : JsonSchema} {schemas : List Declaration} {type : Annotation}
    (h : renderType name schema = .ok (schemas, type)) (hnone : schema.type = none) :
    type = .primitive .any := by
  obtain ⟨keyword, _, _, _, _, _, _⟩ := schema
  obtain rfl : keyword = none := hnone
  exact (Prod.mk.inj (Except.ok.inj h)).2.symm

/-- An attribute that may have a primitive type has `any` beside an object or an array, the union of its types,
    or that type alone. -/
theorem renderType_cases {name : String} {schema : JsonSchema} {schemas : List Declaration} {type : Annotation}
    (h : renderType name schema = .ok (schemas, type)) {member : String} (hmember : member ∈ members schema.type)
    (hscalar : member ∉ ["null", "array", "object"]) :
    (type = .primitive .any ∧ ∃ other ∈ members schema.type, other = "object" ∨ other = "array") ∨
      type = .union (((members schema.type).filter (· ≠ "null")).map primitive) ∨
      (type = .primitive (primitive member) ∧ (members schema.type).filter (· ≠ "null") = [member]) := by
  obtain ⟨keyword, properties, required, items, default, description, closed⟩ := schema
  simp only [List.mem_cons, List.not_mem_nil, or_false, not_or] at hscalar
  have hnonNull : member ∈ (members keyword).filter (· ≠ "null") :=
    List.mem_filter.mpr ⟨hmember, by simpa using hscalar.1⟩
  rw [renderType] at h
  split at h
  · split at h
    · rename_i hstructure
      obtain ⟨other, hother, hkind⟩ := List.any_eq_true.mp hstructure
      exact Or.inl ⟨(Prod.mk.inj (Except.ok.inj h)).2.symm, other, (List.mem_filter.mp hother).1, by simpa using hkind⟩
    · exact Or.inr (Or.inl (Prod.mk.inj (Except.ok.inj h)).2.symm)
  · rename_i hone
    have hlength : ((members keyword).filter (· ≠ "null")).length ≤ 1 := by
      cases keyword with
      | none => simp [members]
      | some keyword =>
        cases keyword with
        | one _ => exact le_trans (List.length_filter_le _ _) (le_refl _)
        | several names =>
          have : isSeveral (some (.several names)) = true := rfl
          by_contra hlt
          exact hone ⟨this, Nat.lt_of_not_le hlt⟩
    have hfilter : (members keyword).filter (· ≠ "null") = [member] := by
      match hl : (members keyword).filter (· ≠ "null"), hnonNull, hlength with
      | [x], hmem, _ => rw [List.mem_singleton.mp hmem]
    have hprimary : primaryType keyword = member := by
      rw [primaryType, ← List.head?_filter, hfilter]
      rfl
    rw [hprimary, if_neg hscalar.2.2, if_neg hscalar.2.1] at h
    exact Or.inr (Or.inr ⟨(Prod.mk.inj (Except.ok.inj h)).2.symm, hfilter⟩)

/-- A type annotation takes what any declared primitive type takes. -/
theorem renderType_admits {name : String} {schema : JsonSchema} {schemas : List Declaration} {type : Annotation}
    (h : renderType name schema = .ok (schemas, type)) {member : String} (hmember : member ∈ members schema.type)
    (hscalar : member ∉ ["null", "array", "object"]) {data : Data} (hdata : (primitive member).Admits data) :
    type.Admits data := by
  rcases renderType_cases h hmember hscalar with ⟨rfl, -⟩ | rfl | ⟨rfl, -⟩
  · trivial
  · have hnull : member ≠ "null" := fun hnull => hscalar (by simp [hnull])
    exact ⟨_, List.mem_map_of_mem (List.mem_filter.mpr ⟨hmember, decide_eq_true hnull⟩), hdata⟩
  · exact hdata

/-- A declared type that becomes `any`. -/
def untyped (name : String) : Bool := name ∉ ["null", "boolean", "string", "integer", "number"]

/-- The keyword allows values of the type: it is declared, or one that becomes `any`, or none is. -/
def mayBe (name : String) (type : Option TypeKeyword) : Bool :=
  type.isNone || (members type).any fun member => member = name || untyped member

/-- Whether an annotation has a type of numbers, or `any`, in it is told by the keyword. -/
theorem renderType_mayBe {name : String} {schema : JsonSchema} {schemas : List Declaration} {type : Annotation}
    (h : renderType name schema = .ok (schemas, type)) {member : String} (hmember : member ∈ members schema.type)
    (hscalar : member ∉ ["null", "array", "object"]) {p : Primitive} {number : String} (hnumber : number ≠ "null")
    (hp : ∀ member ≠ "null", (primitive member = p || primitive member = .any : Bool) =
      (member = number || untyped member : Bool))
    {takes : Annotation → Bool} (hprimitive : ∀ type, takes (.primitive type) = (type = p || type = .any : Bool))
    (hunion : ∀ types, takes (.union types) = types.any fun type => type = p || type = .any) :
    takes type = mayBe number schema.type := by
  have htyped : schema.type.isNone = false := by
    cases htype : schema.type with
    | none => exact absurd hmember (by simp [htype, members])
    | some _ => rfl
  -- `null` itself is no type for numbers
  have hany : mayBe number schema.type = ((members schema.type).filter (· ≠ "null")).any
      fun member => member = number || untyped member := by
    rw [mayBe, htyped, Bool.false_or, List.any_filter]
    refine congrArg (List.any _) (funext fun member => ?_)
    by_cases hnull : member = "null"
    · simp [hnull, untyped, hnumber.symm]
    · simp [hnull]
  rw [hany]
  rcases renderType_cases h hmember hscalar with ⟨rfl, other, hother, hkind⟩ | rfl | ⟨rfl, hfilter⟩
  · have huntyped : untyped other = true ∧ other ≠ "null" := by
      rcases hkind with rfl | rfl <;> simp [untyped]
    rw [hprimitive, decide_eq_true (rfl : Primitive.any = .any), Bool.or_true]
    exact (List.any_eq_true.mpr ⟨other, List.mem_filter.mpr ⟨hother, decide_eq_true huntyped.2⟩,
      by rw [huntyped.1, Bool.or_true]⟩).symm
  · rw [hunion, List.any_map, Bool.eq_iff_iff, List.any_eq_true, List.any_eq_true]
    exact exists_congr fun member => and_congr_right fun hmem => by
      rw [← hp member (of_decide_eq_true (List.mem_filter.mp hmem).2)]
      rfl
  · have hnull : member ≠ "null" := fun hnull => hscalar (by simp [hnull])
    rw [hprimitive, hfilter, List.any_cons, List.any_nil, Bool.or_false]
    exact hp member hnull

theorem renderType_numbers {name : String} {schema : JsonSchema} {schemas : List Declaration} {type : Annotation}
    (h : renderType name schema = .ok (schemas, type)) {member : String} (hmember : member ∈ members schema.type)
    (hscalar : member ∉ ["null", "array", "object"]) :
    type.keepsIntegers = mayBe "integer" schema.type ∧ type.takesFloats = mayBe "number" schema.type := by
  constructor
  · refine renderType_mayBe h hmember hscalar (by decide) (fun member hnull => ?_) (fun _ => rfl) fun _ => rfl
    unfold primitive untyped
    split_ifs <;> simp_all
  · refine renderType_mayBe h hmember hscalar (by decide) (fun member hnull => ?_) (fun _ => rfl) fun _ => rfl
    unfold primitive untyped
    split_ifs <;> simp_all

theorem admits_float_iff {type : Annotation} {x : Rat} :
    type.Admits (.float x) ↔ type.takesFloats = true := by
  have hprimitive : ∀ type : Primitive, type.Admits (.float x) ↔ (type = .float || type = .any) = true := by
    intro type
    cases type <;> simp [Primitive.Admits]
  cases type with
  | primitive type => exact hprimitive type
  | union types =>
    rw [ Annotation.takesFloats, List.any_eq_true]
    exact exists_congr fun type => and_congr_right fun _ => hprimitive type
  | list item => simp [ Annotation.Admits, Annotation.takesFloats]
  | schema name => simp [ Annotation.Admits, Annotation.takesFloats]

/-! ### Literals of attributes -/

/-- A type takes a default of its kind; an unknown type takes any. -/
theorem defaultForType_eq_some {value : Json} {type literal : String} (h : defaultForType N value type = some literal) :
    (type = "boolean" ∧ (∃ b, value = .bool b) ∧ literal = kclLiteral N value) ∨
      (type = "string" ∧ (∃ s, value = .string s) ∧ literal = kclLiteral N value) ∨
      (type = "integer" ∧ ∃ q, value = .number q ∧ isInteger N q = true ∧ literal = String.ofList (toFixed N q)) ∨
      (type = "number" ∧ (∃ q, value = .number q) ∧ literal = kclLiteral N value) ∨
      (type ∉ KNOWN_TYPES ∧ literal = kclLiteral N value) := by
  unfold defaultForType at h
  split at h
  · rename_i htype
    cases value <;> cases h
    exact Or.inl ⟨htype, ⟨_, rfl⟩, rfl⟩
  split at h
  · rename_i htype
    cases value <;> cases h
    exact Or.inr (Or.inl ⟨htype, ⟨_, rfl⟩, rfl⟩)
  split at h
  · rename_i htype
    cases value with
    | number q =>
      simp only [Option.ite_none_right_eq_some, Option.some.injEq] at h
      exact Or.inr (Or.inr (Or.inl ⟨htype, q, rfl, h.1, h.2.symm⟩))
    | _ => cases h
  split at h
  · rename_i htype
    cases value <;> cases h
    exact Or.inr (Or.inr (Or.inr (Or.inl ⟨htype, ⟨_, rfl⟩, rfl⟩)))
  · rw [Option.ite_none_left_eq_some] at h
    exact Or.inr (Or.inr (Or.inr (Or.inr ⟨h.1, (Option.some.inj h.2).symm⟩)))

/-- A type that is neither known nor `integer` gives a number by `String`. -/
theorem defaultForType_number {q : Rat} {type : String} (hother : type ∉ otherTypes) (hinteger : type ≠ "integer") :
    defaultForType N (.number q) type = some (String.ofList (numberText N q)) := by
  simp only [otherTypes, List.mem_cons, List.not_mem_nil, or_false, not_or] at hother
  rw [defaultForType, if_neg hother.2.1, if_neg hother.2.2.1, if_neg hinteger]
  split
  · rfl
  · rename_i hnumber
    rw [if_neg (by simp [KNOWN_TYPES, hother, hinteger, hnumber]), kclLiteral]

theorem defaultForType_other {q : Rat} {type : String} (hother : type ∈ otherTypes) :
    defaultForType N (.number q) type = none := by
  simp only [otherTypes, List.mem_cons, List.not_mem_nil, or_false] at hother
  rcases hother with rfl | rfl | rfl | rfl | rfl <;> rfl

/-- A number without a whole double is printed alike by `toFixed` and `String`. -/
theorem printedData_of_not_isInteger {whole whole' : Rat → Int} {q : Rat} (h : isInteger N q = false) :
    printedData N whole q = printedData N whole' q := by
  rw [printedData, printedData]
  refine Option.bind_congr fun x hx => ?_
  rw [isInteger, hx, Option.any_some, decide_eq_false_iff_not] at h
  rw [isDigits, decide_eq_false h, Bool.false_and]
  rfl

/-- The default of a number reads by the digits of the first type that a number may have. -/
theorem reads_numberDefault {q : Rat} {literal : String} {types : List String}
    (h : types.findSome? (defaultForType N (.number q)) = some literal) :
    ReadsNumber N literal.toList (printedData N (digitsOf N types) q) := by
  induction types with
  | nil => cases h
  | cons type types ih =>
    rw [List.findSome?_cons] at h
    by_cases hother : type ∈ otherTypes
    · rw [defaultForType_other hother] at h
      have hdigits : digitsOf N (type :: types) = digitsOf N types := by
        rw [digitsOf, digitsOf, List.find?_cons_of_neg (by simpa using hother)]
      rw [hdigits]
      exact ih h
    · have hfind : (type :: types).find? (· ∉ otherTypes) = some type :=
        List.find?_cons_of_pos (by simpa using hother)
      by_cases hinteger : type = "integer"
      · subst hinteger
        rw [digitsOf, hfind, if_pos rfl]
        cases hwhole : isInteger N q with
        | true =>
          have hliteral : defaultForType N (.number q) "integer" = some (String.ofList (toFixed N q)) := by
            rw [defaultForType, if_neg (by decide), if_neg (by decide), if_pos rfl]
            simp only [hwhole, if_true]
          rw [hliteral] at h
          rw [← Option.some.inj h, String.toList_ofList]
          exact reads_toFixed q
        | false =>
          have hnone : defaultForType N (.number q) "integer" = none := by
            rw [defaultForType, if_neg (by decide), if_neg (by decide), if_pos rfl]
            simp only [hwhole, Bool.false_eq_true, if_false]
          rw [hnone] at h
          rw [printedData_of_not_isInteger hwhole]
          exact ih h
      · rw [defaultForType_number hother hinteger] at h
        rw [digitsOf, hfind, if_neg (by simpa using hinteger), ← Option.some.inj h, String.toList_ofList]
        exact reads_numberText q

theorem unknown_type {member : String} (h : member ∉ KNOWN_TYPES) :
    primitive member = .any ∧ member ∉ ["null", "array", "object"] := by
  simp only [KNOWN_TYPES, List.mem_cons, List.not_mem_nil, or_false, not_or] at h
  refine ⟨?_, by simp [h]⟩
  simp [primitive, h]

/-- The type of a number's default takes integers. -/
theorem defaultForType_integer {q : Rat} {member literal : String}
    (h : defaultForType N (.number q) member = some literal) :
    member ∉ ["null", "array", "object"] ∧ ∀ n, (primitive member).Admits (.int n) := by
  rcases defaultForType_eq_some h with ⟨-, ⟨_, hb⟩, -⟩ | ⟨-, ⟨_, hs⟩, -⟩ | ⟨rfl, -⟩ | ⟨rfl, -⟩ | ⟨hunknown, -⟩
  · cases hb
  · cases hs
  · exact ⟨by decide, fun n => ⟨n, rfl⟩⟩
  · exact ⟨by decide, fun n => Or.inl ⟨n, rfl⟩⟩
  · rw [(unknown_type hunknown).1]
    exact ⟨(unknown_type hunknown).2, fun _ => trivial⟩

/-- The type of any other default takes it; the literal is the plain one. -/
theorem defaultForType_value {value : Json} (hnumber : ∀ q, value ≠ .number q) {member literal : String}
    (h : defaultForType N value member = some literal) :
    literal = kclLiteral N value ∧ member ∉ ["null", "array", "object"] ∧
      ∀ data, literalData N D value = some data → (primitive member).Admits data := by
  rcases defaultForType_eq_some h with ⟨rfl, ⟨b, rfl⟩, hliteral⟩ | ⟨rfl, ⟨s, rfl⟩, hliteral⟩ | ⟨-, q, hq, -⟩ |
    ⟨-, ⟨q, hq⟩, -⟩ | ⟨hunknown, hliteral⟩
  · exact ⟨hliteral, by decide, fun data hdata => ⟨b, (Option.some.inj hdata).symm⟩⟩
  · refine ⟨hliteral, by decide, fun data hdata => ?_⟩
    obtain ⟨text, -, rfl⟩ := Option.map_eq_some_iff.mp hdata
    exact ⟨text, rfl⟩
  · exact absurd hq (hnumber q)
  · exact absurd hq (hnumber q)
  · refine ⟨hliteral, (unknown_type hunknown).2, fun data _ => ?_⟩
    rw [(unknown_type hunknown).1]
    trivial

variable (N D) in
/-- When the literal of an attribute's default is right, by the `type` keyword. A number must be within the
    doubles; digits must be an integer that KCL holds, and the default's own unless the type makes a float
    of it; an exponent needs a type for fractions. Nothing in a text may be evaluated. -/
def Fits (type : Option TypeKeyword) : Json → Prop
  | .number q => ∃ x, N.double q = some x ∧
      (isDigits x = true → N.holds (digitsOf N (members type) x) = true ∧
        (mayBe "integer" type = true → (digitsOf N (members type) x : Rat) = q)) ∧
      (isDigits x = false → mayBe "number" type = true)
  | value => Plain N D value

/-- Digits that are chosen either way are next to the double. -/
theorem double_digitsOf {types : List String} {q x : Rat} (hx : N.double q = some x) (hdigits : isDigits x = true) :
    N.double (digitsOf N types x) = some x := by
  rw [digitsOf]
  split
  · have hden : x.den = 1 := by
      rw [isDigits, Bool.and_eq_true, decide_eq_true_eq] at hdigits
      exact hdigits.1
    rw [Rat.coe_int_num_of_den_eq_one hden]
    exact N.double_double q x hx
  · exact N.double_shortest q x hx hdigits

theorem number_inhabits_iff {field : Field} {q : Rat} {literal : String}
    (hread : N.Denotes D literal.toList (printedData N (digitsOf N (members field.schema.type)) q))
    (hinteger : ∀ n, field.type.Admits (.int n))
    (htype : field.type.keepsIntegers = mayBe "integer" field.schema.type ∧
      field.type.takesFloats = mayBe "number" field.schema.type) :
    Inhabits N D field.type (.number q) literal ↔ Fits N D field.schema.type (.number q) := by
  rw [Fits, ← htype.1, ← htype.2]
  constructor
  · rintro ⟨data, hreads, hadmits, hdenotes⟩
    obtain ⟨x, hx, ⟨hdigits, hholds, rfl⟩ | ⟨hdigits, rfl⟩⟩ :=
      printedData_eq_some_iff.mp ((Numerals.reads_iff_of_denotes hread).mp hreads)
    · refine ⟨x, hx, fun _ => ⟨hholds, fun hkeeps => ?_⟩, fun h => by rw [hdigits] at h; cases h⟩
      rcases hdenotes with (⟨n, hn, hq⟩ | ⟨y, hy, -⟩) | ⟨hfloat, -⟩
      · rwa [Data.int.inj hn]
      · cases hy
      · rw [hkeeps] at hfloat
        cases hfloat
    · exact ⟨x, hx, fun h => (by rw [hdigits] at h; cases h), fun _ => admits_float_iff.mp hadmits⟩
  · rintro ⟨x, hx, hwhole, hfloat⟩
    have hreads : ∀ data, printedData N (digitsOf N (members field.schema.type)) q = some data →
        N.Reads D literal.toList data := fun data h => (Numerals.reads_iff_of_denotes hread).mpr h
    cases hdigits : isDigits x with
    | false =>
      exact ⟨.float x, hreads _ (printedData_eq_some_iff.mpr ⟨x, hx, Or.inr ⟨hdigits, rfl⟩⟩),
        admits_float_iff.mpr (hfloat hdigits), Or.inl (Or.inr ⟨x, rfl, hx⟩)⟩
    | true =>
      obtain ⟨hholds, hexact⟩ := hwhole hdigits
      refine ⟨.int _, hreads _ (printedData_eq_some_iff.mpr ⟨x, hx, Or.inl ⟨hdigits, hholds, rfl⟩⟩),
        hinteger _, ?_⟩
      cases hkeeps : field.type.keepsIntegers with
      | true => exact Or.inl (Or.inl ⟨_, rfl, hexact hkeeps⟩)
      | false =>
        exact Or.inr ⟨rfl, q, _, rfl, rfl, by rw [hx, double_digitsOf hx hdigits]⟩

theorem value_inhabits_iff {field : Field} {value : Json} (hnumber : ∀ q, value ≠ .number q)
    (hdistinct : DistinctKeys value)
    (hadmits : ∀ data, literalData N D value = some data → field.type.Admits data) :
    Inhabits N D field.type value (kclLiteral N value) ↔ Plain N D value := by
  rw [← value_denotes_iff value hdistinct]
  refine exists_congr fun data => ?_
  rw [Numerals.reads_iff_of_denotes (kclLiteral_denotes value).1]
  constructor
  · rintro ⟨hdata, -, hdenotes | ⟨-, q, -, hq, -⟩⟩
    · exact ⟨hdata, hdenotes⟩
    · exact absurd hq (hnumber q)
  · rintro ⟨hdata, hdenotes⟩
    exact ⟨hdata, hadmits data hdata, Or.inl hdenotes⟩

/-- The literal beside an attribute's type is right exactly when its default fits. -/
theorem fallback_inhabits_iff {field : Field} (hrendering : Rendering field) {literal : String}
    (h : field.fallback N = some literal) :
    ∃ value, field.schema.default = some value ∧
      (Inhabits N D field.type value literal ↔ Fits N D field.schema.type value) := by
  obtain ⟨hdecoded, name, schemas, htype⟩ := hrendering
  obtain ⟨value, hvalue, hliteral⟩ := Option.bind_eq_some_iff.mp h
  have hdistinct : DistinctKeys value := by
    revert hdecoded hvalue
    cases field.schema
    intro hdecoded hvalue
    exact hdecoded.2.1 value hvalue
  refine ⟨value, hvalue, ?_⟩
  by_cases hnumber : ∃ q, value = .number q
  · obtain ⟨q, rfl⟩ := hnumber
    split at hliteral
    · rename_i hnone
      have hnone := Option.isNone_iff_eq_none.mp hnone
      rw [← Option.some.inj hliteral]
      refine number_inhabits_iff ?_ (fun n => ?_) ?_
      · rw [hnone, kclLiteral, String.toList_ofList]
        exact (reads_numberText q).denotes
      · rw [renderType_untyped htype hnone]
        trivial
      · rw [renderType_untyped htype hnone, hnone]
        exact ⟨rfl, rfl⟩
    · obtain ⟨member, hmember, hdefault⟩ := List.exists_of_findSome?_eq_some hliteral
      obtain ⟨hscalar, hinteger⟩ := defaultForType_integer hdefault
      exact number_inhabits_iff (reads_numberDefault hliteral).denotes
        (fun n => renderType_admits htype hmember hscalar (hinteger n)) (renderType_numbers htype hmember hscalar)
  · have hother : ∀ q, value ≠ .number q := fun q hq => hnumber ⟨q, hq⟩
    have hfits : Fits N D field.schema.type value ↔ Plain N D value := by
      cases value with
      | number q => exact absurd rfl (hother q)
      | _ => rfl
    rw [hfits]
    split at hliteral
    · rename_i hnone
      rw [← Option.some.inj hliteral]
      refine value_inhabits_iff hother hdistinct fun data _ => ?_
      rw [renderType_untyped htype (Option.isNone_iff_eq_none.mp hnone)]
      trivial
    · obtain ⟨member, hmember, hdefault⟩ := List.exists_of_findSome?_eq_some hliteral
      obtain ⟨rfl, hscalar, hadmits⟩ := defaultForType_value (D := D) hother hdefault
      exact value_inhabits_iff hother hdistinct fun data hdata =>
        renderType_admits htype hmember hscalar (hadmits data hdata)

/-- In every schema that is emitted, the literal beside a type is right exactly when the default fits the
    attribute. -/
theorem defaults_inhabit_iff (N : Numbers) (D : Literal.Dialect) (schema : Schema) {schemas : List Declaration}
    (h : declarations schema = .ok (some schemas)) :
    ∀ declaration ∈ schemas, ∀ field ∈ declaration.fields, ∀ literal, field.fallback N = some literal →
      ∃ value, field.schema.default = some value ∧
        (Inhabits N D field.type value literal ↔ Fits N D field.schema.type value) :=
  fun declaration hdeclaration field hfield _ hliteral =>
    fallback_inhabits_iff (declarations_rendering h declaration hdeclaration field hfield) hliteral

/-- The doubles up to 2^53 without a fraction, and 10^21; KCL holds integers of 64 bits. -/
def wholeNumbers : Numbers where
  float l := if l = "1e+21".toList then some ((10 ^ 21 : Int) : Rat) else none
  holds n := decide (-(2 ^ 63) ≤ n ∧ n < 2 ^ 63)
  double q := if (q.den = 1 ∧ q.num.natAbs ≤ 2 ^ 53) ∨ q = ((10 ^ 21 : Int) : Rat) then some q else none
  shortest := Rat.num
  text _ := "1e+21".toList
  double_double q x h := by
    obtain ⟨-, heq⟩ := Option.ite_none_right_eq_some.mp h
    obtain rfl := Option.some.inj heq
    exact h
  double_shortest q x h hdigits := by
    obtain ⟨hq, heq⟩ := Option.ite_none_right_eq_some.mp h
    obtain rfl := Option.some.inj heq
    rw [isDigits, Bool.and_eq_true, decide_eq_true_eq] at hdigits
    rw [Rat.coe_int_num_of_den_eq_one hdigits.1]
    exact h
  text_ne_nil _ _ _ _ := by decide
  text_numeral _ _ _ _ := List.all_eq_true.mp (by decide)
  text_not_integer _ _ _ _ := by decide
  float_text q x h hdigits := by
    obtain ⟨hq, heq⟩ := Option.ite_none_right_eq_some.mp h
    obtain rfl := Option.some.inj heq
    rcases hq with ⟨hden, hnum⟩ | rfl
    · have hlt : q.num.natAbs < 10 ^ 21 := lt_of_le_of_lt hnum (by decide)
      rw [isDigits, decide_eq_true hden, decide_eq_true hlt] at hdigits
      cases hdigits
    · exact if_pos rfl

/-- A schema with one property `n` of the type `integer`. -/
def integerSchema (value : Rat) : Schema where
  root := ⟨some (.one "object"), [("n", ⟨some (.one "integer"), [], [], none, some (.number value), none, false⟩)], [],
    none, none, none, false⟩
  decoded := by simp [Decoded, DecodedProperties, DecodedItems, DistinctKeys]

/-- What is emitted for it. -/
def integerField (value : Rat) : Field :=
  ⟨"n", false, .primitive .int, ⟨some (.one "integer"), [], [], none, some (.number value), none, false⟩⟩

theorem declarations_integerSchema (value : Rat) :
    declarations (integerSchema value) = .ok (some [⟨"Values", none, false, [integerField value]⟩]) := by
  rfl

/-- The default 10^21 of an integer is printed with an exponent, and reads as a float. -/
theorem integer_printed_as_float :
    declarations (integerSchema ((10 ^ 21 : Int) : Rat)) =
        .ok (some [⟨"Values", none, false, [integerField ((10 ^ 21 : Int) : Rat)]⟩]) ∧
      (integerField ((10 ^ 21 : Int) : Rat)).fallback wholeNumbers = some "1e+21" ∧
      ¬ Inhabits wholeNumbers Dialect.usual (.primitive .int) (.number ((10 ^ 21 : Int) : Rat)) "1e+21" := by
  have hfallback : (integerField ((10 ^ 21 : Int) : Rat)).fallback wholeNumbers = some "1e+21" := by
    decide
  refine ⟨declarations_integerSchema _, hfallback, fun h => ?_⟩
  have hrendering : Rendering (integerField ((10 ^ 21 : Int) : Rat)) :=
    declarations_rendering (declarations_integerSchema _) _ (List.mem_singleton.mpr rfl) _
      (List.mem_singleton.mpr rfl)
  obtain ⟨value, hvalue, hiff⟩ := fallback_inhabits_iff (D := Dialect.usual) hrendering hfallback
  obtain rfl := Option.some.inj hvalue
  obtain ⟨x, hx, -, hfloat⟩ := hiff.mp h
  have hdouble : wholeNumbers.double ((10 ^ 21 : Int) : Rat) = some ((10 ^ 21 : Int) : Rat) := by
    decide
  obtain rfl := Option.some.inj (hdouble.symm.trans hx)
  cases hfloat (by decide)

/-- The default 3 is printed as it is. -/
theorem integer_printed :
    ∃ value, (integerField 3).schema.default = some value ∧
      (Inhabits wholeNumbers Dialect.usual (.primitive .int) value "3" ↔
        Fits wholeNumbers Dialect.usual (integerField 3).schema.type value) :=
  defaults_inhabit_iff wholeNumbers Dialect.usual (integerSchema 3) (declarations_integerSchema 3)
    ⟨"Values", none, false, [integerField 3]⟩ (List.mem_singleton.mpr rfl) (integerField 3)
    (List.mem_singleton.mpr rfl) "3" (by decide)

end Akua.ValuesSchema
