import Mathlib.Algebra.Ring.Nat
import Mathlib.Data.List.Lex
import Mathlib.Data.List.Sort

/-! Strings as JavaScript programs use them, over Lean's `String`. Every operation goes through the
    characters, so that it evaluates in the kernel and has the list lemmas; the order is the one of
    `<` on JavaScript strings, by UTF-16 code units, which is not the order of code points. -/

namespace Text

/-- `s.startsWith(p)`. -/
def startsWith (s p : String) : Bool := p.toList.isPrefixOf s.toList

/-- `s.endsWith(p)`. -/
def endsWith (s p : String) : Bool := p.toList.isSuffixOf s.toList

/-- `s.includes(c)`, for one character. -/
def includes (s : String) (c : Char) : Bool := s.toList.contains c

/-- `s.slice(p.length)` for a string that starts with `p`. -/
def after (s p : String) : String := String.ofList (s.toList.drop p.toList.length)

/-- `s.replace(/^p/, "")`. -/
def stripPrefix (s p : String) : String := if startsWith s p then after s p else s

/-- `s.slice(0, -p.length)` for a string that ends with `p`. -/
def before (s p : String) : String :=
  String.ofList (s.toList.take (s.toList.length - p.toList.length))

/-- `s.replace(/c+$/, "")`. -/
def trimEnd (s : String) (c : Char) : String := String.ofList (s.toList.reverse.dropWhile (· == c)).reverse

/-- `s.replace(/^c+/, "")`. -/
def trimStart (s : String) (c : Char) : String := String.ofList (s.toList.dropWhile (· == c))

/-- `s.split(c)`. -/
def split (s : String) (c : Char) : List String := (s.toList.splitOn c).map String.ofList

/-- `parts.join(c)`. -/
def join (parts : List String) (c : Char) : String :=
  String.ofList ([c].intercalate (parts.map String.toList))

/-- What stands before and after the first place `p` is found. -/
def cutList (p : List Char) : List Char → Option (List Char × List Char)
  | [] => if p = [] then some ([], []) else none
  | c :: cs =>
    if p.isPrefixOf (c :: cs) then some ([], (c :: cs).drop p.length)
    else (cutList p cs).map fun q => (c :: q.1, q.2)

/-- `s` before and after the first `p` in it: `s.slice(0, i)` and `s.slice(i + p.length)` for
    `i = s.indexOf(p)`, none when that is `-1`. -/
def cut (s p : String) : Option (String × String) :=
  (cutList p.toList s.toList).map fun q => (String.ofList q.1, String.ofList q.2)

/-- `s` before and after the last `c` in it. -/
def cutLast (s : String) (c : Char) : Option (String × String) :=
  (cutList [c] s.toList.reverse).map fun q =>
    (String.ofList q.2.reverse, String.ofList q.1.reverse)

/-- What lower-casing makes of a character beyond ASCII, which can depend on the text before and
    after it. No such character has a `/` in its lower-case form. -/
structure Casing where
  lower : List Char → Char → List Char → List Char
  no_slash : ∀ before c after, ¬ c.toNat < 128 → '/' ∉ lower before c after

def lowerList (casing : Casing) (before : List Char) : List Char → List Char
  | [] => []
  | c :: cs =>
    (if c.toNat < 128 then [c.toLower] else casing.lower before c cs) ++
      lowerList casing (before ++ [c]) cs

/-- `s.toLowerCase()`. -/
def toLowerCase (casing : Casing) (s : String) : String := String.ofList (lowerList casing [] s.toList)

/-- `String(n).padStart(width, "0")`. -/
def padded (width n : Nat) : String :=
  String.ofList (List.replicate (width - (Nat.toDigits 10 n).length) '0' ++ Nat.toDigits 10 n)

/-! ### Prefixes -/

theorem startsWith_iff {s p : String} : startsWith s p = true ↔ ∃ t, s = p ++ t := by
  rw [startsWith, List.isPrefixOf_iff_prefix]
  constructor
  · rintro ⟨t, ht⟩
    exact ⟨String.ofList t, String.toList_inj.mp (by simp [ht])⟩
  · rintro ⟨t, rfl⟩
    exact ⟨t.toList, by simp⟩

@[simp] theorem startsWith_append (p t : String) : startsWith (p ++ t) p = true :=
  startsWith_iff.mpr ⟨t, rfl⟩

@[simp] theorem after_append (p t : String) : after (p ++ t) p = t := by
  simp [after]

@[simp] theorem stripPrefix_append (p t : String) : stripPrefix (p ++ t) p = t := by
  simp [stripPrefix]

/-! ### Splitting and joining -/

theorem split_ne_nil (s : String) (c : Char) : split s c ≠ [] := by
  simp [split, List.splitOn_ne_nil]

theorem split_of_not_mem {s : String} {c : Char} (h : c ∉ s.toList) : split s c = [s] := by
  simp [split, List.splitOn_eq_singleton h]

/-- Splitting at a separator between two strings. -/
theorem split_append {a b sep : String} {c : Char} (h : sep.toList = [c]) :
    split (a ++ sep ++ b) c = split a c ++ split b c := by
  simp only [split, String.toList_append, h, List.append_assoc, List.singleton_append,
    List.splitOn_append_cons_self, List.map_append]

theorem split_join {parts : List String} {c : Char} (hne : parts ≠ [])
    (h : ∀ p ∈ parts, c ∉ p.toList) : split (join parts c) c = parts := by
  have hl : ∀ l ∈ parts.map String.toList, c ∉ l := by
    simpa using h
  rw [split, join, String.toList_ofList, List.splitOn_intercalate c hl (by simpa using hne)]
  simp [List.map_map, Function.comp_def]

theorem join_split (s : String) (c : Char) : join (split s c) c = s := by
  simp [join, split, List.map_map, Function.comp_def, List.intercalate_splitOn]

/-- A piece of a split has no separator in it. -/
theorem not_mem_of_mem_split {s p : String} {c : Char} (h : p ∈ split s c) : c ∉ p.toList := by
  suffices ∀ (l : List Char), ∀ q ∈ l.splitOn c, c ∉ q by
    obtain ⟨q, hq, rfl⟩ := List.mem_map.mp h
    simpa using this _ q hq
  intro l
  induction l with
  | nil => simp [List.splitOn_nil]
  | cons x xs ih =>
    rw [List.splitOn_cons_eq_if_modifyHead]
    split
    · rintro q (_ | ⟨_, hq⟩)
      · simp
      · exact ih q hq
    · rename_i hx
      rcases hs : xs.splitOn c with _ | ⟨y, ys⟩
      · simp
      · rw [hs] at ih
        rintro q (_ | ⟨_, hq⟩)
        · have := ih y List.mem_cons_self
          simp only [List.mem_cons, not_or]
          exact ⟨fun hc => hx (by simp [hc]), this⟩
        · exact ih q (List.mem_cons_of_mem _ hq)

theorem mem_join {parts : List String} {sep x : Char} :
    x ∈ (join parts sep).toList → x = sep ∨ ∃ p ∈ parts, x ∈ p.toList := by
  rw [join, String.toList_ofList]
  induction parts with
  | nil => simp
  | cons p parts ih =>
    cases parts with
    | nil => intro h; exact Or.inr ⟨p, by simp, by simpa using h⟩
    | cons q parts =>
      intro h
      simp only [List.map_cons, List.intercalate_cons_cons, List.mem_append, List.mem_singleton] at h
      rcases h with (h | h) | h
      · exact Or.inr ⟨p, by simp, h⟩
      · exact Or.inl h
      · rcases ih h with h | ⟨p', hp', hx⟩
        · exact Or.inl h
        · exact Or.inr ⟨p', List.mem_cons_of_mem _ hp', hx⟩

theorem mem_join_of_mem {parts : List String} {sep x : Char} {p : String} (hp : p ∈ parts)
    (hx : x ∈ p.toList) : x ∈ (join parts sep).toList := by
  rw [join, String.toList_ofList]
  induction parts with
  | nil => simp at hp
  | cons q parts ih =>
    cases parts with
    | nil => simpa [List.mem_singleton.mp hp] using hx
    | cons r parts =>
      simp only [List.map_cons, List.intercalate_cons_cons, List.mem_append, List.mem_singleton]
      rcases List.mem_cons.mp hp with rfl | hp
      · exact Or.inl (Or.inl hx)
      · exact Or.inr (ih hp)

@[simp] theorem join_singleton (p : String) (c : Char) : join [p] c = p := by
  simp [join]

theorem join_cons_cons (p q : String) (parts : List String) (c : Char) :
    join (p :: q :: parts) c = p ++ (String.ofList [c] ++ join (q :: parts) c) := by
  apply String.toList_inj.mp
  simp only [join, List.map_cons, List.intercalate_cons_cons, String.toList_ofList,
    String.toList_append, List.append_assoc]

/-- Text behind the last piece is behind the joined pieces. -/
theorem join_append_last (last x : String) (c : Char) : ∀ parts : List String,
    join (parts ++ [last ++ x]) c = join (parts ++ [last]) c ++ x
  | [] => by simp
  | [p] => by
      rw [List.singleton_append, List.singleton_append, join_cons_cons, join_cons_cons,
        join_singleton, join_singleton]
      simp only [String.append_assoc]
  | p :: q :: parts => by
      have ih := join_append_last last x c (q :: parts)
      rw [List.cons_append, List.cons_append] at ih ⊢
      rw [List.cons_append, List.cons_append, join_cons_cons, join_cons_cons, ih]
      simp only [String.append_assoc]

/-- One more piece comes behind a separator. -/
theorem join_concat {parts : List String} (last : String) (c : Char) (hne : parts ≠ []) :
    join (parts ++ [last]) c = join parts c ++ (String.ofList [c] ++ last) := by
  induction parts with
  | nil => exact absurd rfl hne
  | cons p parts ih =>
    cases parts with
    | nil => rw [List.singleton_append, join_cons_cons, join_singleton, join_singleton]
    | cons q parts =>
      have ih := ih (List.cons_ne_nil q parts)
      rw [List.cons_append] at ih
      rw [List.cons_append, List.cons_append, join_cons_cons, ih, join_cons_cons]
      simp only [String.append_assoc]

/-- The characters of the pieces are the string's, without the separator. -/
theorem mem_of_mem_split {s p : String} {c x : Char} (hp : p ∈ split s c) (hx : x ∈ p.toList) :
    x ∈ s.toList := by
  rw [← join_split s c]
  exact mem_join_of_mem hp hx

theorem mem_split_of_mem {s : String} {c x : Char} (hx : x ∈ s.toList) (hne : x ≠ c) :
    ∃ p ∈ split s c, x ∈ p.toList := by
  rw [← join_split s c] at hx
  exact (mem_join hx).resolve_left hne

/-- `s.split(c)[0]`: what stands before the first separator. -/
theorem head_split (s : String) (c : Char) :
    (split s c).headD "" = String.ofList (s.toList.takeWhile (· ≠ c)) := by
  suffices ∀ l : List Char, (l.splitOn c).headD [] = l.takeWhile (· ≠ c) by
    rw [← this, split]
    rcases hs : s.toList.splitOn c with _ | ⟨first, rest⟩
    · exact absurd hs (List.splitOn_ne_nil _ _)
    · rfl
  intro l
  induction l with
  | nil => simp [List.splitOn_nil]
  | cons x xs ih =>
    rw [List.splitOn_cons_eq_if_modifyHead]
    by_cases hx : x = c
    · simp [hx]
    · rcases hs : xs.splitOn c with _ | ⟨first, rest⟩
      · exact absurd hs (List.splitOn_ne_nil _ _)
      · rw [hs] at ih
        simp only [List.headD_cons] at ih
        simp [hx, ih]

/-! ### Letters and digits -/

theorem isUpper_iff {c : Char} : c.isUpper = true ↔ 65 ≤ c.toNat ∧ c.toNat ≤ 90 := by
  change decide (c.val ≥ 'A'.val ∧ c.val ≤ 'Z'.val) = true ↔ _
  rw [decide_eq_true_eq]
  exact Iff.rfl

theorem isLower_iff {c : Char} : c.isLower = true ↔ 97 ≤ c.toNat ∧ c.toNat ≤ 122 := by
  change (decide (c.val ≥ 'a'.val) && decide (c.val ≤ 'z'.val)) = true ↔ _
  rw [Bool.and_eq_true, decide_eq_true_eq, decide_eq_true_eq]
  exact Iff.rfl

theorem isDigit_iff {c : Char} : c.isDigit = true ↔ 48 ≤ c.toNat ∧ c.toNat ≤ 57 := by
  change (decide (c.val ≥ '0'.val) && decide (c.val ≤ '9'.val)) = true ↔ _
  rw [Bool.and_eq_true, decide_eq_true_eq, decide_eq_true_eq]
  exact Iff.rfl

theorem isAlphanum_iff {c : Char} : c.isAlphanum = true ↔
    (65 ≤ c.toNat ∧ c.toNat ≤ 90) ∨ (97 ≤ c.toNat ∧ c.toNat ≤ 122) ∨ (48 ≤ c.toNat ∧ c.toNat ≤ 57) := by
  rw [← isUpper_iff, ← isLower_iff, ← isDigit_iff]
  change (c.isUpper || c.isLower || c.isDigit) = true ↔ _
  rw [Bool.or_eq_true, Bool.or_eq_true, or_assoc]

theorem toLower_eq_slash {c : Char} : c.toLower = '/' ↔ c = '/' := by
  unfold Char.toLower
  split
  · rename_i h
    refine iff_of_false (fun he => ?_) (by rintro rfl; revert h; decide)
    have hv : c.val + ('a'.val - 'A'.val) = '/'.val := congrArg Char.val he
    simp only [UInt32.le_iff_toNat_le, ← UInt32.toNat_inj, UInt32.toNat_add] at h hv
    simp at h hv
    omega
  · exact Iff.rfl

/-- Lower-casing neither adds nor drops a separator. -/
theorem slash_mem_toLowerCase {casing : Casing} {s : String} :
    '/' ∈ (toLowerCase casing s).toList ↔ '/' ∈ s.toList := by
  suffices ∀ (l before : List Char), '/' ∈ lowerList casing before l ↔ '/' ∈ l by
    simpa [toLowerCase] using this s.toList []
  intro l
  induction l with
  | nil => simp [lowerList]
  | cons c cs ih =>
    intro before
    rw [lowerList, List.mem_append, ih, List.mem_cons]
    refine or_congr_left ?_
    split
    · rw [List.mem_singleton, eq_comm, toLower_eq_slash, eq_comm]
    · rename_i hc
      refine iff_of_false (casing.no_slash _ _ _ hc) ?_
      rintro rfl
      exact hc (by decide)

/-- The digits of a number in a base up to ten are below the base. -/
theorem digit_of_mem_toDigits {b : Nat} (hb : 1 < b) (hb' : b ≤ 10) {n : Nat} {c : Char}
    (h : c ∈ Nat.toDigits b n) : '0'.toNat ≤ c.toNat ∧ c.toNat < '0'.toNat + b := by
  have hdigit : ∀ d < 10, d.digitChar.toNat = '0'.toNat + d := by decide
  induction n using Nat.strong_induction_on with
  | _ n ih =>
    rw [Nat.toDigits_eq_if hb] at h
    split at h
    · rename_i hn
      rw [List.mem_singleton.mp h, hdigit n (by omega)]
      omega
    · rename_i hn
      rcases List.mem_append.mp h with h | h
      · exact ih (n / b) (Nat.div_lt_self (by omega) hb) h
      · have hmod : n % b < b := Nat.mod_lt n (by omega)
        rw [List.mem_singleton.mp h, hdigit (n % b) (by omega)]
        omega

theorem isDigit_of_mem_padded {width n : Nat} {c : Char} (h : c ∈ (padded width n).toList) :
    c.isDigit = true := by
  rw [padded, String.toList_ofList, List.mem_append] at h
  rcases h with h | h
  · rw [List.eq_of_mem_replicate h]; decide
  · exact Nat.isDigit_of_mem_toDigits (by decide) (by decide) h

/-- A padded number reads back. -/
theorem padded_injective (width : Nat) : Function.Injective (padded width) := by
  intro m n h
  have hval : ∀ k, Nat.ofDigitChars 10 (padded width k).toList 0 = k := fun k => by
    simp [padded, Nat.ofDigitChars_append, Nat.ofDigitChars_replicate_zero]
  rw [← hval m, h, hval n]

/-! ### Order -/

/-- The UTF-16 code units of a character: itself, or its surrogate pair. -/
def utf16 (c : Char) : List Nat :=
  if c.toNat < 0x10000 then [c.toNat]
  else [0xD800 + (c.toNat - 0x10000) / 0x400, 0xDC00 + (c.toNat - 0x10000) % 0x400]

/-- The UTF-16 code units of a string. -/
def units (s : String) : List Nat := s.toList.flatMap utf16

/-- Every character is below 128. -/
def isAscii (s : String) : Bool := s.toList.all fun c => decide (c.toNat < 128)

theorem isAscii_iff {s : String} : isAscii s = true ↔ ∀ c ∈ s.toList, c.toNat < 128 := by
  simp [isAscii]

/-- `a < b`. -/
def less (a b : String) : Bool := decide (units a < units b)

/-- `a <= b`. -/
def atMost (a b : String) : Prop := ¬ less b a = true

instance : DecidableRel atMost := fun a b => inferInstanceAs (Decidable (¬ less b a = true))

/-- `strings.toSorted()`. -/
def sorted (l : List String) : List String := l.insertionSort atMost

theorem utf16_head_ne {c d : Char} (hc : c.toNat < 0x10000) (hd : ¬ d.toNat < 0x10000) :
    (utf16 c).head? ≠ (utf16 d).head? := by
  have hv := c.valid
  have hc' : c.val.toNat = c.toNat := rfl
  have hw := d.valid
  have hd' : d.val.toNat = d.toNat := rfl
  simp only [utf16, if_pos hc, if_neg hd, List.head?_cons, ne_eq, Option.some.injEq]
  simp only [UInt32.isValidChar, Nat.isValidChar] at hv hw
  omega

theorem utf16_append_inj {c d : Char} {l m : List Nat} (h : utf16 c ++ l = utf16 d ++ m) :
    c = d ∧ l = m := by
  have hhead : (utf16 c).head? = (utf16 d).head? := by
    have hne : ∀ e : Char, ∃ x xs, utf16 e = x :: xs := fun e => by
      unfold utf16; split <;> exact ⟨_, _, rfl⟩
    obtain ⟨x, xs, hx⟩ := hne c
    obtain ⟨y, ys, hy⟩ := hne d
    rw [hx, hy, List.cons_append, List.cons_append, List.cons.injEq] at h
    rw [hx, hy, List.head?_cons, List.head?_cons, h.1]
  by_cases hc : c.toNat < 0x10000 <;> by_cases hd : d.toNat < 0x10000
  · simp only [utf16, if_pos hc, if_pos hd, List.cons_append, List.nil_append,
      List.cons.injEq] at h
    exact ⟨Char.toNat_inj.mp h.1, h.2⟩
  · exact absurd hhead (utf16_head_ne hc hd)
  · exact absurd hhead.symm (utf16_head_ne hd hc)
  · simp only [utf16, if_neg hc, if_neg hd, List.cons_append, List.nil_append,
      List.cons.injEq] at h
    exact ⟨Char.toNat_inj.mp (by omega), h.2.2⟩

theorem units_injective : Function.Injective units := by
  suffices ∀ l m : List Char, l.flatMap utf16 = m.flatMap utf16 → l = m by
    intro a b h
    exact String.toList_inj.mp (this _ _ h)
  intro l
  induction l with
  | nil =>
    intro m h
    cases m with
    | nil => rfl
    | cons d m => unfold utf16 at h; simp only [List.flatMap_nil, List.flatMap_cons] at h; split at h <;> simp at h
  | cons c l ih =>
    intro m h
    cases m with
    | nil => unfold utf16 at h; simp only [List.flatMap_nil, List.flatMap_cons] at h; split at h <;> simp at h
    | cons d m =>
      obtain ⟨rfl, h'⟩ := utf16_append_inj h
      rw [ih m h']

theorem less_irrefl (a : String) : less a a = false := by
  simp [less]

theorem less_trans {a b c : String} (hab : less a b = true) (hbc : less b c = true) :
    less a c = true := by
  simp only [less, decide_eq_true_eq] at *
  exact List.lt_trans hab hbc

/-- Two strings neither of which is less are equal: the order is total. -/
theorem eq_of_not_less {a b : String} (hab : less a b = false) (hba : less b a = false) :
    a = b := by
  simp only [less, decide_eq_false_iff_not, List.not_lt] at *
  exact units_injective (List.le_antisymm hba hab)

theorem atMost_iff {a b : String} : atMost a b ↔ units a ≤ units b := by
  simp [atMost, less]

instance : Std.Total atMost := ⟨fun a b => by
  simp only [atMost_iff]; exact le_total _ _⟩

instance : IsTrans String atMost := ⟨fun a b c h h' => by
  rw [atMost_iff] at *
  exact le_trans h h'⟩

@[simp] theorem mem_sorted {l : List String} {s : String} : s ∈ sorted l ↔ s ∈ l :=
  List.mem_insertionSort _

example : split "a/b//c" '/' = ["a", "b", "", "c"] := by decide

/-- A character outside the basic plane sorts before the last ones of it, as its surrogates do. -/
example : less "😀" "\uFFFD" = true := by decide

end Text
