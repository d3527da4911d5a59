import Akua.Lib.DataLiterals
import Akua.Value

/-! Reading the texts `JSON.stringify` writes, which have no white space: what such a text denotes,
    the keys of each mapping in the order of the text. A text that is written reads back. -/

namespace Akua.Value

open Literal.Numerals (series series_join Takes Ends Leads)

/-! ### Strings -/

/-- The number of a hexadecimal digit. -/
def hexValue (c : Char) : Option Nat :=
  let i := "0123456789abcdef".toList.idxOf c
  if i < 16 then some i else none

/-- The character of four hexadecimal digits. -/
def hexChar (digits : List Char) : Option Char := do
  let values ← digits.mapM hexValue
  let code := values.foldl (fun n digit => n * 16 + digit) 0
  if code.isValidChar then some (Char.ofNat code) else none

/-- The character of an escape of one letter. -/
def letterEscape : Char → Option Char
  | '"' => some '"'
  | '\\' => some '\\'
  | '/' => some '/'
  | 'n' => some '\n'
  | 'r' => some '\r'
  | 't' => some '\t'
  | 'b' => some '\x08'
  | 'f' => some '\x0c'
  | _ => none

/-- The content of a string up to its closing quote, and what follows. -/
def readContent : List Char → Option (List Char × List Char)
  | [] => none
  | '"' :: rest => some ([], rest)
  | '\\' :: 'u' :: a :: b :: c :: d :: rest =>
    (hexChar [a, b, c, d]).bind fun x => (readContent rest).map fun p => (x :: p.1, p.2)
  | '\\' :: c :: rest => (letterEscape c).bind fun x => (readContent rest).map fun p => (x :: p.1, p.2)
  | c :: rest => if c.toNat < 0x20 then none else (readContent rest).map fun p => (c :: p.1, p.2)

def readString (l : List Char) : Option (String × List Char) :=
  if l.head? = some '"' then (readContent l.tail).map fun p => (String.ofList p.1, p.2) else none

/-! ### Values -/

def isNumberChar (c : Char) : Bool := c.isDigit || c = '-' || c = '+' || c = '.' || c = 'e' || c = 'E'

/-- A word or a number. -/
def readAtom (l : List Char) : Option (Value × List Char) :=
  if "null".toList.isPrefixOf l then some (.null, l.drop 4)
  else if "true".toList.isPrefixOf l then some (.bool true, l.drop 4)
  else if "false".toList.isPrefixOf l then some (.bool false, l.drop 5)
  else if l.takeWhile isNumberChar = [] then none
  else some (.number (String.ofList (l.takeWhile isNumberChar)), l.dropWhile isNumberChar)

/-- An entry of a mapping. -/
def readEntry (element : List Char → Option (Value × List Char)) (l : List Char) :
    Option ((String × Value) × List Char) :=
  (readString l).bind fun key =>
    if key.2.head? = some ':' then (element key.2.tail).map fun p => ((key.1, p.1), p.2) else none

/-- The value at the start of a text, and the text behind it. -/
def readValue : Nat → List Char → Option (Value × List Char)
  | 0, _ => none
  | fuel + 1, l =>
    if l.head? = some '"' then (readString l).map fun p => (.string p.1, p.2)
    else if l.head? = some '[' then (series ']' (readValue fuel) fuel l.tail).map fun p => (.array p.1, p.2)
    else if l.head? = some '\x7b' then
      (series '\x7d' (readEntry (readValue fuel)) fuel l.tail).map fun p => (.object p.1, p.2)
    else readAtom l

/-- The value a text denotes: with enough fuel it is read to its end. -/
def Reads (text : String) (value : Value) : Prop :=
  ∃ enough, ∀ fuel ≥ enough, readValue fuel text.toList = some (value, [])

theorem reads_unique {text : String} {v w : Value} (hv : Reads text v) (hw : Reads text w) : v = w := by
  obtain ⟨m, hm⟩ := hv
  obtain ⟨n, hn⟩ := hw
  have h := hm (max m n) (le_max_left _ _)
  rw [hn (max m n) (le_max_right _ _)] at h
  exact (congrArg Prod.fst (Option.some.inj h)).symm

/-! ### JSON values -/

mutual

/-- Every leaf of a value satisfies `leaf`, and the keys of every mapping in it satisfy `keys`. -/
def Each (leaf : Value → Prop) (keys : List String → Prop) : Value → Prop
  | .array values => EachAll leaf keys values
  | .object entries => keys (entries.map Prod.fst) ∧ EachEntries leaf keys entries
  | value => leaf value

def EachAll (leaf : Value → Prop) (keys : List String → Prop) : List Value → Prop
  | [] => True
  | value :: values => Each leaf keys value ∧ EachAll leaf keys values

def EachEntries (leaf : Value → Prop) (keys : List String → Prop) : List (String × Value) → Prop
  | [] => True
  | (_, value) :: entries => Each leaf keys value ∧ EachEntries leaf keys entries

end

/-- A leaf JSON has. -/
def JsonLeaf : Value → Prop
  | .number text => text.toList ≠ [] ∧ ∀ c ∈ text.toList, isNumberChar c = true
  | .date _ => False
  | _ => True

/-- A JSON value: the keys of each mapping are distinct. -/
def IsJson (value : Value) : Prop := value.Each JsonLeaf List.Nodup

/-! ### What is written reads back -/

theorem hexValue_hexDigit : ∀ n < 16, hexValue (hexDigit n) = some n := by decide

theorem hexChar_control {c : Char} (h : c.toNat < 0x20) :
    hexChar ['0', '0', hexDigit (c.toNat / 16), hexDigit (c.toNat % 16)] = some c := by
  have hzero : hexValue '0' = some 0 := by decide
  have hcode : ((0 * 16 + 0) * 16 + c.toNat / 16) * 16 + c.toNat % 16 = c.toNat := by omega
  simp only [hexChar, List.mapM_cons, List.mapM_nil, hzero, hexValue_hexDigit _ (show c.toNat / 16 < 16 by omega),
    hexValue_hexDigit _ (show c.toNat % 16 < 16 by omega), Option.bind_eq_bind, Option.bind_some,
    Option.pure_def, List.foldl_cons, List.foldl_nil, Nat.zero_mul, Nat.zero_add] at hcode ⊢
  have hvalid : c.toNat.isValidChar := c.valid
  rw [hcode, if_pos hvalid, Char.ofNat_toNat]

theorem readContent_escapeJson (c : Char) (rest : List Char) :
    readContent (escapeJson c ++ rest) = (readContent rest).map fun p => (c :: p.1, p.2) := by
  unfold escapeJson
  split
  iterate 7 · simp [readContent, letterEscape]
  split
  · rename_i hcontrol
    rw [List.cons_append, List.cons_append, List.cons_append, List.cons_append, List.cons_append,
      List.cons_append, List.nil_append, readContent, hexChar_control hcontrol, Option.bind_some]
  · rename_i hplain
    rw [List.singleton_append, readContent.eq_def]
    split <;> simp_all

theorem readContent_escaped (text rest : List Char) :
    readContent (text.flatMap escapeJson ++ '"' :: rest) = some (text, rest) := by
  induction text with
  | nil => rfl
  | cons c cs ih =>
    rw [List.flatMap_cons, List.append_assoc, readContent_escapeJson, ih]
    rfl

theorem toList_quoteJson (text : String) :
    (quoteJson text).toList = '"' :: (text.toList.flatMap escapeJson ++ ['"']) := by
  simp [quoteJson]

theorem readString_quoteJson (text : String) (rest : List Char) :
    readString ((quoteJson text).toList ++ rest) = some (text, rest) := by
  rw [toList_quoteJson, List.cons_append, readString, List.head?_cons, if_pos rfl, List.tail_cons,
    List.append_assoc, List.singleton_append, readContent_escaped]
  simp

/-- With enough fuel a text is taken for a value, whatever ends it. -/
def Denotes (l : List Char) (value : Value) : Prop :=
  (∃ enough, ∀ fuel ≥ enough, Takes (readValue fuel) l (some value)) ∧ Leads l

theorem denotes_of_reading {l : List Char} {value : Value} (hlead : Leads l)
    (h : ∀ fuel rest, Ends rest → readValue (fuel + 1) (l ++ rest) = some (value, rest)) : Denotes l value := by
  refine ⟨⟨1, fun fuel hfuel rest hrest => ?_⟩, hlead⟩
  obtain ⟨fuel, rfl⟩ : ∃ n, fuel = n + 1 := ⟨fuel - 1, by omega⟩
  exact h fuel rest hrest

theorem denotes_string (text : String) : Denotes (quoteJson text).toList (.string text) := by
  refine denotes_of_reading ⟨'"', _, toList_quoteJson text, by decide, by decide, by decide⟩
    fun fuel rest _ => ?_
  have hhead : ((quoteJson text).toList ++ rest).head? = some '"' := by
    rw [toList_quoteJson, List.cons_append, List.head?_cons]
  rw [readValue, if_pos hhead, readString_quoteJson]
  rfl

/-- A word or a number is read up to what ends it. -/
theorem denotes_atom {l : List Char} {value : Value} (hlead : Leads l) (hquote : l.head? ≠ some '"')
    (hbracket : l.head? ≠ some '[') (hbrace : l.head? ≠ some '\x7b')
    (h : ∀ rest, Ends rest → readAtom (l ++ rest) = some (value, rest)) : Denotes l value := by
  refine denotes_of_reading hlead fun fuel rest hrest => ?_
  obtain ⟨c, cs, rfl, -⟩ := hlead
  have hhead : ∀ d, (c :: cs).head? ≠ some d → ¬ (c :: cs ++ rest).head? = some d := fun d hd => by
    rwa [List.cons_append, List.head?_cons] at *
  rw [readValue, if_neg (hhead _ hquote), if_neg (hhead _ hbracket), if_neg (hhead _ hbrace), h rest hrest]

theorem denotes_null : Denotes "null".toList .null :=
  denotes_atom ⟨'n', "ull".toList, rfl, by decide, by decide, by decide⟩ (by decide) (by decide) (by decide)
    fun rest _ => by simp [readAtom]

theorem denotes_bool (b : Bool) : Denotes (stringify (.bool b)).toList (.bool b) := by
  cases b
  · exact denotes_atom ⟨'f', "alse".toList, rfl, by decide, by decide, by decide⟩ (by decide) (by decide)
      (by decide) fun rest _ => by simp [readAtom, stringify]
  · exact denotes_atom ⟨'t', "rue".toList, rfl, by decide, by decide, by decide⟩ (by decide) (by decide)
      (by decide) fun rest _ => by simp [readAtom, stringify]

theorem denotes_number {text : String} (hne : text.toList ≠ [])
    (h : ∀ c ∈ text.toList, isNumberChar c = true) : Denotes text.toList (.number text) := by
  obtain ⟨c, cs, hcs⟩ := List.exists_cons_of_ne_nil hne
  have hc : ∀ d, isNumberChar d = false → c ≠ d := by
    rintro d hd rfl
    rw [h c (by rw [hcs]; exact List.mem_cons_self)] at hd
    cases hd
  have hhead : ∀ d, isNumberChar d = false → text.toList.head? ≠ some d := by
    intro d hd hhead
    rw [hcs] at hhead
    exact hc d hd (Option.some.inj hhead)
  refine denotes_atom ⟨c, cs, hcs, hc _ (by decide), hc _ (by decide), hc _ (by decide)⟩
    (hhead _ (by decide)) (hhead _ (by decide)) (hhead _ (by decide)) fun rest hrest => ?_
  have hword : ∀ (word : String) (d : Char) (ds : List Char), word.toList = d :: ds → isNumberChar d = false →
      ¬ word.toList.isPrefixOf (text.toList ++ rest) = true := by
    intro word d ds hword hd hpre
    rw [hword, hcs, List.cons_append, List.isPrefixOf_cons_cons, Bool.and_eq_true, beq_iff_eq] at hpre
    exact hc d hd hpre.1.symm
  have htake : (text.toList ++ rest).takeWhile isNumberChar = text.toList ∧
      (text.toList ++ rest).dropWhile isNumberChar = rest := by
    rw [List.takeWhile_append_of_pos h, List.dropWhile_append_of_pos h]
    cases rest with
    | nil => simp
    | cons d ds =>
      have hd : isNumberChar d = false := by
        rcases hrest d rfl with rfl | rfl | rfl <;> decide
      simp [hd]
  rw [readAtom, if_neg (hword "null" 'n' "ull".toList rfl (by decide)),
    if_neg (hword "true" 't' "rue".toList rfl (by decide)),
    if_neg (hword "false" 'f' "alse".toList rfl (by decide)), htake.1, htake.2, if_neg hne, String.ofList_toList]

/-- Elements are read one by one; each brings the fuel it needs. -/
theorem denotes_array {texts : List (List Char)} {values : List Value}
    (h : List.Forall₂ Denotes texts values) :
    Denotes ('[' :: ([','].intercalate texts ++ [']'])) (.array values) := by
  have hsome : List.Forall₂ (fun l d => ∃ enough, ∀ fuel ≥ enough, Takes (readValue fuel) l d ∧ Leads l) texts
      (values.map some) := by
    rw [List.forall₂_map_right_iff]
    exact h.imp fun _ _ hl => hl.1.imp fun _ hn fuel hfuel => ⟨hn fuel hfuel, hl.2⟩
  obtain ⟨enough, henough⟩ := Literal.Numerals.enough_for_all hsome
  refine ⟨⟨max enough (texts.length + 1) + 1, fun fuel hfuel rest _ => ?_⟩,
    '[', _, rfl, by decide, by decide, by decide⟩
  obtain ⟨fuel, rfl⟩ : ∃ n, fuel = n + 1 := ⟨fuel - 1, by omega⟩
  have hfuel := Nat.le_of_succ_le_succ hfuel
  have hseries := series_join (show ∀ c ∈ [], c = ' ' by simp) (Or.inl rfl)
    (henough fuel (le_trans (le_max_left _ _) hfuel)) (le_trans (le_max_right _ _) hfuel) rest
  rw [List.cons_append, List.append_assoc, List.singleton_append, readValue, List.head?_cons,
    if_neg (by decide), if_pos rfl, List.tail_cons, hseries, Literal.sequence_eq_some_iff.mpr rfl]
  rfl

/-- The text of an entry. -/
def entryText (key : String) (l : List Char) : List Char := (quoteJson key).toList ++ ':' :: l

theorem takes_entry {element : List Char → Option (Value × List Char)} {l : List Char} {value : Value}
    (key : String) (h : Takes element l (some value)) :
    Takes (readEntry element) (entryText key l) (some (key, value)) := by
  intro rest hrest
  rw [readEntry, entryText, List.append_assoc, readString_quoteJson, Option.bind_some, List.cons_append,
    List.head?_cons, if_pos rfl, List.tail_cons, h rest hrest]
  rfl

theorem leads_entryText (key : String) (l : List Char) : Leads (entryText key l) :=
  ⟨'"', _, by rw [entryText, toList_quoteJson, List.cons_append], by decide, by decide, by decide⟩

theorem denotes_object {texts : List (List Char)} {entries : List (String × Value)}
    (h : List.Forall₂ (fun l p => ∃ t, l = entryText p.1 t ∧ Denotes t p.2) texts entries) :
    Denotes ('\x7b' :: ([','].intercalate texts ++ ['\x7d'])) (.object entries) := by
  have hsome : List.Forall₂ (fun l d => ∃ enough, ∀ fuel ≥ enough,
      Takes (readEntry (readValue fuel)) l d ∧ Leads l) texts (entries.map some) := by
    rw [List.forall₂_map_right_iff]
    refine h.imp ?_
    rintro _ p ⟨t, rfl, ⟨enough, htakes⟩, -⟩
    exact ⟨enough, fun fuel hfuel => ⟨takes_entry p.1 (htakes fuel hfuel), leads_entryText _ _⟩⟩
  obtain ⟨enough, henough⟩ := Literal.Numerals.enough_for_all hsome
  refine ⟨⟨max enough (texts.length + 1) + 1, fun fuel hfuel rest _ => ?_⟩,
    '\x7b', _, rfl, by decide, by decide, by decide⟩
  obtain ⟨fuel, rfl⟩ : ∃ n, fuel = n + 1 := ⟨fuel - 1, by omega⟩
  have hfuel := Nat.le_of_succ_le_succ hfuel
  have hseries := series_join (show ∀ c ∈ [], c = ' ' by simp) (Or.inr rfl)
    (henough fuel (le_trans (le_max_left _ _) hfuel)) (le_trans (le_max_right _ _) hfuel) rest
  rw [List.cons_append, List.append_assoc, List.singleton_append, readValue, List.head?_cons,
    if_neg (by decide), if_neg (by decide), if_pos rfl, List.tail_cons, hseries,
    Literal.sequence_eq_some_iff.mpr rfl]
  rfl

/-! ### Whole values -/

theorem toList_intercalate (texts : List String) :
    (",".intercalate texts).toList = [','].intercalate (texts.map String.toList) := by
  rw [String.toList_intercalate]
  rfl

mutual

/-- A JSON value's text denotes it. -/
theorem denotes_stringify : ∀ {value : Value}, value.IsJson → Denotes value.stringify.toList value
  | .null, _ => denotes_null
  | .bool b, _ => denotes_bool b
  | .string text, _ => denotes_string text
  | .number text, h => denotes_number h.1 h.2
  | .date _, h => absurd h (by simp [IsJson, Each, JsonLeaf])
  | .array values, h => by
    have hall := @denotes_stringifyAll values h
    rw [stringify, String.toList_append, String.toList_append, toList_intercalate]
    exact denotes_array hall
  | .object entries, h => by
    have hall := @denotes_stringifyEntries entries h.2
    rw [stringify, String.toList_append, String.toList_append, toList_intercalate]
    exact denotes_object hall

theorem denotes_stringifyAll : ∀ {values : List Value}, EachAll JsonLeaf List.Nodup values →
    List.Forall₂ Denotes ((stringifyAll values).map String.toList) values
  | [], _ => .nil
  | _ :: _, h => .cons (denotes_stringify h.1) (denotes_stringifyAll h.2)

theorem denotes_stringifyEntries : ∀ {entries : List (String × Value)},
    EachEntries JsonLeaf List.Nodup entries →
    List.Forall₂ (fun l p => ∃ t, l = entryText p.1 t ∧ Denotes t p.2)
      ((stringifyEntries entries).map String.toList) entries
  | [], _ => .nil
  | (key, value) :: _, h =>
    .cons ⟨value.stringify.toList, by simp [entryText], denotes_stringify h.1⟩ (denotes_stringifyEntries h.2)

end

/-- Reading gives back what was written, with its keys in their order. -/
theorem reads_stringify {value : Value} (h : value.IsJson) : Reads value.stringify value := by
  obtain ⟨⟨enough, htakes⟩, -⟩ := denotes_stringify h
  refine ⟨enough, fun fuel hfuel => ?_⟩
  have hread := htakes fuel hfuel [] (by simp [Ends])
  rwa [List.append_nil] at hread

end Akua.Value
