import Akua.Lib.Literals
import Mathlib.Data.Rat.Defs

/-! Literals of plain data: `None`, truth values, numbers, strings, lists and dictionaries, as a
    configuration language reads them. A string with an expression in it is no plain data. Reading has
    fuel, and each list or dictionary takes some for its entries. -/

namespace Literal

inductive Data where
  | none
  | bool (value : Bool)
  | int (value : Int)
  | float (value : Rat)
  | text (value : List Char)
  | list (items : List Data)
  | dict (entries : List (List Char × Data))

/-- The numbers of a language. -/
structure Numerals where
  /-- What a literal with a fraction or an exponent denotes. -/
  float : List Char → Option Rat
  /-- The integers it has. -/
  holds : Int → Bool

def isNumeral (c : Char) : Bool := c.isDigit || c = '-' || c = '+' || c = '.' || c = 'e' || c = 'E'

/-- A character of a word or a number. -/
def isAtom (c : Char) : Bool := c.isAlphanum || c = '_' || c = '-' || c = '+' || c = '.'

/-- A literal of digits. -/
def natural (l : List Char) : Option Nat :=
  if l ≠ [] ∧ l.all Char.isDigit then some (Nat.ofDigitChars 10 l 0) else none

def integer (l : List Char) : Option Int :=
  if l.head? = some '-' then (natural l.tail).map fun n : Nat => -(n : Int) else (natural l).map Int.ofNat

/-- The text of a value without expressions. -/
def Value.text? : Value → Option (List Char)
  | .plain text => some text
  | .joined _ => none

/-- All values, when there are all. -/
def sequence {α : Type} : List (Option α) → Option (List α)
  | [] => some []
  | value :: values => value.bind fun a => (sequence values).map (a :: ·)

theorem sequence_eq_some_iff {α : Type} {values : List (Option α)} {l : List α} :
    sequence values = some l ↔ values = l.map some := by
  induction values generalizing l with
  | nil => cases l <;> simp [sequence]
  | cons value values ih =>
    rw [sequence, Option.bind_eq_some_iff]
    constructor
    · rintro ⟨a, rfl, h⟩
      obtain ⟨l, hl, rfl⟩ := Option.map_eq_some_iff.mp h
      rw [ih.mp hl, List.map_cons]
    · intro h
      cases l with
      | nil => cases h
      | cons a l =>
        obtain ⟨hvalue, hvalues⟩ := List.cons.inj h
        exact ⟨a, hvalue, Option.map_eq_some_iff.mpr ⟨l, ih.mpr hvalues, rfl⟩⟩

theorem exists_sequence {α : Type} {values : List (Option α)} (h : ∀ value ∈ values, ∃ a, value = some a) :
    ∃ l, sequence values = some l := by
  induction values with
  | nil => exact ⟨[], rfl⟩
  | cons value values ih =>
    obtain ⟨a, rfl⟩ := h value (by simp)
    obtain ⟨l, hl⟩ := ih fun v hv => h v (by simp [hv])
    exact ⟨a :: l, by rw [sequence, hl]; rfl⟩

def word (l : List Char) : Option Data :=
  if l = "None".toList then some .none
  else if l = "True".toList then some (.bool true)
  else if l = "False".toList then some (.bool false)
  else none

namespace Numerals

variable (N : Numerals)

def number (l : List Char) : Option Data :=
  match integer l with
  | some n => if N.holds n then some (.int n) else none
  | none => if l.all isNumeral then (N.float l).map .float else none

def atom (l : List Char) : Option Data := (word l).or (N.number l)

variable (D : Dialect)

/-- A string without an expression. -/
def string (l : List Char) : Option (List Char × List Char) :=
  (D.read l).bind fun p => p.1.text?.map (·, p.2)

/-- The elements up to a closing bracket, behind the opening one or a comma. -/
def series {α : Type} (close : Char) (element : List Char → Option (α × List Char)) :
    Nat → List Char → Option (List α × List Char)
  | 0, _ => none
  | fuel + 1, l =>
    if l.head? = some close then some ([], l.tail)
    else (element l).bind fun p =>
      if p.2.head? = some ',' then
        (series close element fuel (p.2.tail.dropWhile (· = ' '))).map fun q => (p.1 :: q.1, q.2)
      else if p.2.head? = some close then some ([p.1], p.2.tail)
      else none

/-- An entry of a dictionary. -/
def entry {α : Type} (element : List Char → Option (α × List Char)) (l : List Char) :
    Option ((List Char × α) × List Char) :=
  (string D l).bind fun key =>
    if key.2.head? = some ':' then
      (element (key.2.tail.dropWhile (· = ' '))).map fun p => ((key.1, p.1), p.2)
    else none

/-- The literal at the start of a text, and the text behind it. -/
def read : Nat → List Char → Option (Data × List Char)
  | 0, _ => none
  | fuel + 1, l =>
    if l.head? = some '"' then (string D l).map fun p => (.text p.1, p.2)
    else if l.head? = some '[' then (series ']' (read fuel) fuel l.tail).map fun p => (.list p.1, p.2)
    else if l.head? = some '\x7b' then
      (series '\x7d' (entry D (read fuel)) fuel l.tail).map fun p => (.dict p.1, p.2)
    else (N.atom (l.takeWhile isAtom)).map fun data => (data, l.dropWhile isAtom)

/-- A text is one literal: with enough fuel it is read to its end. -/
def Reads (l : List Char) (data : Data) : Prop := ∃ enough, ∀ fuel ≥ enough, N.read D fuel l = some (data, [])

/-- What may stand behind a literal. -/
def Ends (rest : List Char) : Prop := ∀ c ∈ rest.head?, c = ',' ∨ c = ']' ∨ c = '\x7d'

/-- A reader takes a text for its own, whatever stands behind it. -/
def Takes {α : Type} (element : List Char → Option (α × List Char)) (l : List Char) (data : Option α) : Prop :=
  ∀ rest, Ends rest → element (l ++ rest) = data.map (·, rest)

/-- What a text reads as, when reading ends: the same with all fuel from some on. -/
def Denotes (l : List Char) (data : Option Data) : Prop := ∃ enough, ∀ fuel ≥ enough, Takes (N.read D fuel) l data

variable {N D}

theorem reads_iff_of_denotes {l : List Char} {data : Option Data} (h : N.Denotes D l data) {value : Data} :
    N.Reads D l value ↔ data = some value := by
  obtain ⟨enough, h⟩ := h
  have hend : ∀ fuel ≥ enough, N.read D fuel l = data.map (·, []) := by
    intro fuel hfuel
    have := h fuel hfuel [] (by simp [Ends])
    rwa [List.append_nil] at this
  constructor
  · rintro ⟨n, hn⟩
    have hread := hn (max n enough) (le_max_left _ _)
    rw [hend _ (le_max_right _ _)] at hread
    obtain ⟨v, hv, hpair⟩ := Option.map_eq_some_iff.mp hread
    rw [hv, (Prod.mk.inj hpair).1]
  · rintro rfl
    exact ⟨enough, hend⟩

/-! ### Digits -/

theorem natural_toDigits (n : Nat) : natural (Nat.toDigits 10 n) = some n := by
  have hall : (Nat.toDigits 10 n).all Char.isDigit = true :=
    List.all_eq_true.mpr fun c hc => Nat.isDigit_of_mem_toDigits (by decide) (by decide) hc
  rw [natural, if_pos ⟨Nat.toDigits_ne_nil, hall⟩, Nat.ofDigitChars_ten_toDigits]

/-- The digits of an integer, behind a sign. -/
def digits (n : Int) : List Char :=
  if n < 0 then '-' :: Nat.toDigits 10 n.natAbs else Nat.toDigits 10 n.natAbs

theorem integer_digits (n : Int) : integer (digits n) = some n := by
  rw [digits]
  split
  · rename_i h
    rw [integer, List.head?_cons, if_pos rfl, List.tail_cons, natural_toDigits]
    simp only [Option.map_some, Option.some.injEq]
    omega
  · rename_i h
    have hhead : (Nat.toDigits 10 n.natAbs).head? ≠ some '-' := by
      intro hhead
      have := Nat.isDigit_of_mem_toDigits (b := 10) (by decide) (by decide) (List.mem_of_mem_head? hhead)
      revert this
      decide
    rw [integer, if_neg hhead, natural_toDigits]
    simp only [Option.map_some, Option.some.injEq, Int.ofNat_eq_natCast]
    omega

/-! ### Atoms, strings, lists and dictionaries -/

/-- What a literal in a list or dictionary starts with. -/
def Leads (l : List Char) : Prop := ∃ c cs, l = c :: cs ∧ c ≠ ' ' ∧ c ≠ ']' ∧ c ≠ '\x7d'

theorem not_isAtom_of_ends {rest : List Char} (h : Ends rest) : ∀ c ∈ rest.head?, isAtom c = false := by
  intro c hc
  rcases h c hc with rfl | rfl | rfl <;> decide

theorem denotes_atom {l : List Char} (hne : l ≠ []) (h : ∀ c ∈ l, isAtom c = true) :
    N.Denotes D l (N.atom l) := by
  refine ⟨1, fun fuel hfuel rest hrest => ?_⟩
  obtain ⟨fuel, rfl⟩ : ∃ n, fuel = n + 1 := ⟨fuel - 1, by omega⟩
  obtain ⟨c, cs, rfl⟩ := List.exists_cons_of_ne_nil hne
  have hhead : ∀ d, isAtom d = false → ¬ ((c :: cs) ++ rest).head? = some d := by
    intro d hd hc
    obtain rfl : c = d := Option.some.inj hc
    rw [h c (by simp)] at hd
    cases hd
  have htake : ((c :: cs) ++ rest).takeWhile isAtom = c :: cs ∧ ((c :: cs) ++ rest).dropWhile isAtom = rest := by
    rw [List.takeWhile_append_of_pos h, List.dropWhile_append_of_pos h]
    cases rest with
    | nil => simp
    | cons d ds => simp [not_isAtom_of_ends hrest d rfl]
  rw [read, if_neg (hhead _ (by decide)), if_neg (hhead _ (by decide)), if_neg (hhead _ (by decide)), htake.1,
    htake.2]

/-- A string literal is read by itself. -/
def ReadsString (D : Dialect) (l : List Char) (text : Option (List Char)) : Prop :=
  l.head? = some '"' ∧ ∀ rest, rest.head? ≠ some '"' → string D (l ++ rest) = text.map (·, rest)

theorem denotes_string {l : List Char} {text : Option (List Char)} (h : ReadsString D l text) :
    N.Denotes D l (text.map .text) := by
  refine ⟨1, fun fuel hfuel rest hrest => ?_⟩
  obtain ⟨fuel, rfl⟩ : ∃ n, fuel = n + 1 := ⟨fuel - 1, by omega⟩
  obtain ⟨hquote, h⟩ := h
  have hne : rest.head? ≠ some '"' := by
    intro hc
    rcases hrest _ hc with h | h | h <;> cases h
  rw [read, if_pos (by rw [List.head?_append, hquote]; rfl), h rest hne, Option.map_map, Option.map_map]
  rfl

/-- Elements with commas between them, and blanks behind these, are read one by one. -/
theorem series_join {α : Type} {close : Char} {element : List Char → Option (α × List Char)}
    {blanks : List Char} (hblanks : ∀ c ∈ blanks, c = ' ')
    (hclose : close = ']' ∨ close = '\x7d') {texts : List (List Char)} {data : List (Option α)}
    (h : List.Forall₂ (fun l d => Takes element l d ∧ Leads l) texts data) {fuel : Nat}
    (hfuel : texts.length < fuel) (rest : List Char) :
    series close element fuel ((',' :: blanks).intercalate texts ++ close :: rest) =
      (sequence data).map (·, rest) := by
  induction h generalizing fuel with
  | nil =>
    obtain ⟨fuel, rfl⟩ : ∃ n, fuel = n + 1 := ⟨fuel - 1, by omega⟩
    simp [series, sequence]
  | @cons l d texts data hl htail ih =>
    obtain ⟨fuel, rfl⟩ : ∃ n, fuel = n + 1 := ⟨fuel - 1, by omega⟩
    obtain ⟨htakes, c, cs, rfl, -, hc⟩ := hl
    have hhead : ∀ m, ¬ ((c :: cs) ++ m).head? = some close := by
      intro m hm
      obtain rfl : c = close := Option.some.inj hm
      rcases hclose with h | h
      · exact hc.1 h
      · exact hc.2 h
    have hcomma : close ≠ ',' := by rcases hclose with rfl | rfl <;> decide
    cases htail with
    | nil =>
      rw [List.intercalate_singleton, series, if_neg (hhead _),
        htakes (close :: rest) (fun x hx => by rw [← Option.some.inj hx]; exact Or.inr hclose)]
      cases d <;> simp [sequence, hcomma]
    | @cons l' d' texts data hl' htail =>
      obtain ⟨-, c', cs', rfl, hspace, -⟩ := hl'
      have hmore := @ih fuel (by simp only [List.length_cons] at hfuel ⊢; omega)
      have hskip : (blanks ++ ((',' :: blanks).intercalate ((c' :: cs') :: texts) ++ close :: rest)).dropWhile
          (· = ' ') = (',' :: blanks).intercalate ((c' :: cs') :: texts) ++ close :: rest := by
        rw [List.dropWhile_append_of_pos (by simpa using hblanks)]
        cases texts <;> simp [List.intercalate, hspace]
      rw [List.intercalate_cons_cons, List.append_assoc, List.append_assoc, series, if_neg (hhead _),
        htakes _ (fun x hx => Or.inl (by simpa using hx.symm))]
      cases d with
      | none => rfl
      | some a =>
        rw [sequence, Option.map_some, Option.bind_some, Option.bind_some, List.cons_append, List.head?_cons,
          if_pos rfl, List.tail_cons, hskip, hmore, Option.map_map, Option.map_map]
        rfl

/-- An entry is its key, a colon and its value. -/
theorem takes_entry {α : Type} {element : List Char → Option (α × List Char)} {k v : List Char}
    {key : Option (List Char)} {value : Option α} (hkey : ReadsString D k key) (hvalue : Takes element v value)
    (hlead : Leads v) :
    Takes (entry D element) (k ++ ([':', ' '] ++ v)) (key.bind fun key => value.map fun value => (key, value)) := by
  intro rest hrest
  obtain ⟨c, cs, rfl, hspace, -⟩ := hlead
  rw [entry, List.append_assoc, hkey.2 _ (by simp)]
  cases key with
  | none => rfl
  | some key =>
    have hskip : (' ' :: (c :: cs ++ rest)).dropWhile (· = ' ') = c :: cs ++ rest := by simp [hspace]
    rw [Option.map_some, Option.bind_some, Option.bind_some, List.append_assoc, List.cons_append, List.head?_cons,
      if_pos rfl, List.tail_cons, List.cons_append, List.nil_append, hskip, hvalue rest hrest]
    cases value <;> rfl

/-- Fuel that is enough for each of some texts is enough for all. -/
theorem enough_for_all {α β : Type} {P : Nat → α → β → Prop} {as : List α} {bs : List β}
    (h : List.Forall₂ (fun a b => ∃ enough, ∀ fuel ≥ enough, P fuel a b) as bs) :
    ∃ enough, ∀ fuel ≥ enough, List.Forall₂ (P fuel) as bs := by
  induction h with
  | nil => exact ⟨0, fun _ _ => .nil⟩
  | cons hl _ ih =>
    obtain ⟨n, hn⟩ := hl
    obtain ⟨m, hm⟩ := ih
    exact ⟨max n m, fun fuel hfuel => .cons (hn fuel (le_trans (le_max_left _ _) hfuel))
      (hm fuel (le_trans (le_max_right _ _) hfuel))⟩

theorem denotes_list {texts : List (List Char)} {data : List (Option Data)}
    (h : List.Forall₂ (fun l d => N.Denotes D l d ∧ Leads l) texts data) :
    N.Denotes D ('[' :: ([',', ' '].intercalate texts ++ [']'])) ((sequence data).map .list) := by
  obtain ⟨enough, henough⟩ := enough_for_all (P := fun fuel l d => Takes (N.read D fuel) l d ∧ Leads l)
    (h.imp fun _ _ hl => hl.1.imp fun _ hn fuel hfuel => ⟨hn fuel hfuel, hl.2⟩)
  refine ⟨max enough (texts.length + 1) + 1, fun fuel hfuel rest _ => ?_⟩
  obtain ⟨fuel, rfl⟩ : ∃ n, fuel = n + 1 := ⟨fuel - 1, by omega⟩
  have hfuel := Nat.le_of_succ_le_succ hfuel
  have hseries := series_join (show ∀ c ∈ [' '], c = ' ' by simp) (Or.inl rfl) (henough fuel (le_trans (le_max_left _ _) hfuel))
    (le_trans (le_max_right _ _) hfuel) rest
  rw [List.cons_append, List.append_assoc, List.singleton_append, read, List.head?_cons, if_neg (by decide),
    if_pos rfl, List.tail_cons, hseries, Option.map_map, Option.map_map]
  rfl

/-- The text of an entry, and what it reads as. -/
def ReadsEntry (N : Numerals) (D : Dialect) (l : List Char) (data : Option (List Char × Data)) : Prop :=
  ∃ k v key value, l = k ++ ([':', ' '] ++ v) ∧ ReadsString D k key ∧ (N.Denotes D v value ∧ Leads v) ∧
    data = key.bind fun key => value.map fun value => (key, value)

theorem denotes_dict {texts : List (List Char)} {data : List (Option (List Char × Data))}
    (h : List.Forall₂ (ReadsEntry N D) texts data) :
    N.Denotes D ('\x7b' :: ([',', ' '].intercalate texts ++ ['\x7d'])) ((sequence data).map .dict) := by
  have hentry : ∀ l d, ReadsEntry N D l d → ∃ enough, ∀ fuel ≥ enough,
      Takes (entry D (N.read D fuel)) l d ∧ Leads l := by
    rintro _ _ ⟨k, v, key, value, rfl, hkey, ⟨⟨enough, hvalue⟩, hlead⟩, rfl⟩
    obtain ⟨cs, rfl⟩ : ∃ cs, k = '"' :: cs := List.head?_eq_some_iff.mp hkey.1
    exact ⟨enough, fun fuel hfuel => ⟨takes_entry hkey (hvalue fuel hfuel) hlead,
      ⟨'"', _, rfl, by decide, by decide, by decide⟩⟩⟩
  obtain ⟨enough, henough⟩ := enough_for_all (h.imp hentry)
  refine ⟨max enough (texts.length + 1) + 1, fun fuel hfuel rest _ => ?_⟩
  obtain ⟨fuel, rfl⟩ : ∃ n, fuel = n + 1 := ⟨fuel - 1, by omega⟩
  have hfuel := Nat.le_of_succ_le_succ hfuel
  have hseries := series_join (show ∀ c ∈ [' '], c = ' ' by simp) (Or.inr rfl) (henough fuel (le_trans (le_max_left _ _) hfuel))
    (le_trans (le_max_right _ _) hfuel) rest
  rw [List.cons_append, List.append_assoc, List.singleton_append, read, List.head?_cons, if_neg (by decide),
    if_neg (by decide), if_pos rfl, List.tail_cons, hseries, Option.map_map, Option.map_map]
  rfl

end Numerals

end Literal
