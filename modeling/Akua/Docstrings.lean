import Akua.Cosign
import Akua.Lib.Literals
import Mathlib.Algebra.Group.Nat.Even

/-! The docstrings of generated schemas, whose text is a chart's or a CRD author's. The values-schema
    generator writes an ordinary triple-quoted literal and escapes quotes; the CRD generator writes a
    raw one and replaces them. A docstring closes where it should when its literal, read from its
    opening quotes, ends with the docstring. -/

namespace Akua

open Literal

/-- The lines of a text, the way `split(/\r?\n/)` gives them. -/
def splitLines (text : List Char) : List (List Char) :=
  let lines := text.splitOn '\n'
  lines.dropLast.map (Text.stripSuffix ['\r']) ++ lines.getLast?.toList

/-- `lines.join("\n")`. -/
def joinLines (lines : List (List Char)) : List Char := ['\n'].intercalate lines

/-- `"""`, and with the prefix of a raw literal. -/
def tripleQuotes : List Char := ['"', '"', '"']

def rawQuotes : List Char := ['r', '"', '"', '"']

/-- White space stands before the closing quotes of a docstring of several lines. -/
theorem last_of_indented {l indent : List Char} {c : Char} (h : c ∈ (l ++ ['\n'] ++ indent).getLast?) :
    c = '\n' ∨ c ∈ indent := by
  rcases List.eq_nil_or_concat indent with rfl | ⟨m, x, rfl⟩
  · rw [List.append_nil, List.getLast?_concat] at h
    exact Or.inl (Option.some.inj h).symm
  · rw [List.concat_eq_append, ← List.append_assoc, List.getLast?_concat] at h
    rw [Option.some.inj h]
    exact Or.inr (by simp)

/-! ### Values schemas -/

namespace ValuesSchema

/-- Quotes next to a quote or at an edge of the text are escaped; `before` is the character before. -/
def neutralizeFrom (before : Option Char) : List Char → List Char
  | [] => []
  | c :: cs =>
    (if c = '"' ∧ ((before = some '"' ∨ cs.head? = some '"') ∨ (before = none ∨ cs = [])) then ['\\', '"']
      else [c]) ++ neutralizeFrom (some c) cs

def neutralizeTripleQuotes (text : List Char) : List Char := neutralizeFrom none text

/-- A docstring under a field, of a text without white space around it. -/
def docstringOf (lines : List Char → List (List Char)) (trimmed : List Char) (indent : Nat) : List Char :=
  let pad := List.replicate indent ' '
  let trimmed := neutralizeTripleQuotes trimmed
  if '\n' ∈ trimmed then
    pad ++ tripleQuotes ++ ['\n'] ++ joinLines ((lines trimmed).map (pad ++ ·)) ++ ['\n'] ++ pad ++ tripleQuotes
  else pad ++ tripleQuotes ++ trimmed ++ tripleQuotes

def docstring (text : String) (indent : Nat) : List Char :=
  docstringOf (·.splitOn '\n') (trim text).toList indent

end ValuesSchema

namespace Rust

/-- `char::is_whitespace`. -/
def isWhitespace (c : Char) : Bool :=
  c.toNat ∈ [0x09, 0x0a, 0x0b, 0x0c, 0x0d, 0x20, 0x85, 0xa0, 0x1680, 0x2028, 0x2029, 0x202f, 0x205f,
    0x3000] || (0x2000 ≤ c.toNat && c.toNat ≤ 0x200a)

def trim (text : List Char) : List Char := (text.dropWhile isWhitespace).rdropWhile isWhitespace

/-- `str::lines`: no empty line behind a final line break, and no `\r` before one. -/
def lines (text : List Char) : List (List Char) :=
  let pieces := text.splitOn '\n'
  pieces.dropLast.map (Text.stripSuffix ['\r']) ++ (pieces.getLast?.filter (· ≠ [])).toList

def formatDocstring (text : String) (indent : Nat) : List Char :=
  ValuesSchema.docstringOf lines (trim text.toList) indent

end Rust

/-! ### CRD schemas -/

namespace CrdSchemas

/-- `text.replaceAll("\"\"\"", "'''")`; `skip` characters are already replaced. -/
def replaceTriples : Nat → List Char → List Char
  | _, [] => []
  | skip + 1, _ :: cs => replaceTriples skip cs
  | 0, c :: cs =>
    if tripleQuotes.isPrefixOf (c :: cs) then ['\'', '\'', '\''] ++ replaceTriples 2 cs
    else c :: replaceTriples 0 cs

/-- The text of the docstring: no `"""` in it, and spaces where a quote or a backslash would stand next
    to the delimiters. -/
def docstringBody (text : String) : List Char :=
  let body := replaceTriples 0 (trim text).toList
  let body := if body.getLast? = some '"' ∨ body.getLast? = some '\\' then body ++ [' '] else body
  if body.head? = some '"' then ' ' :: body else body

/-- A raw docstring: no escapes or expressions inside, and nothing that could close it early. -/
def docstring (text indent : String) : List Char :=
  if trim text = "" then []
  else
    let body := docstringBody text
    let lines := splitLines body
    if lines.length = 1 then indent.toList ++ rawQuotes ++ body ++ tripleQuotes ++ ['\n']
    else indent.toList ++ rawQuotes ++ ['\n'] ++
      joinLines (lines.map fun line => if line.all isSpace then [] else indent.toList ++ line.rdropWhile isSpace) ++
      ['\n'] ++ indent.toList ++ tripleQuotes ++ ['\n']

/-- A quote that is left is one of the text. -/
theorem replaceTriples_eq_quote {l t : List Char} (h : replaceTriples 0 l = '"' :: t) :
    ∃ m, l = '"' :: m ∧ t = replaceTriples 0 m := by
  cases l with
  | nil => cases h
  | cons c cs =>
    rw [replaceTriples] at h
    split at h
    · cases h
    · obtain ⟨rfl, rfl⟩ := List.cons.inj h
      exact ⟨cs, rfl, rfl⟩

/-- No three quotes in a row are left, also none that the replacement put together. -/
theorem replaceTriples_free (l : List Char) : ∀ skip, ¬ tripleQuotes <:+: replaceTriples skip l := by
  induction l with
  | nil =>
    intro skip h
    cases skip <;> exact absurd (List.eq_nil_of_infix_nil h) (by decide)
  | cons c cs ih =>
    intro skip h
    cases skip with
    | succ skip => exact ih skip h
    | zero =>
      rw [replaceTriples] at h
      split at h
      · exact ih 2 (Text.infix_of_append (by simp [tripleQuotes]) h)
      · rename_i hno
        rcases List.infix_cons_iff.mp h with hpre | h
        · obtain ⟨hc, hpre⟩ := List.cons_prefix_cons.mp hpre
          obtain ⟨t, ht⟩ := hpre
          obtain ⟨m, hm, hrest⟩ := replaceTriples_eq_quote ht.symm
          obtain ⟨m', hm', -⟩ := replaceTriples_eq_quote hrest.symm
          refine hno (List.isPrefixOf_iff_prefix.mpr ⟨m', ?_⟩)
          rw [← hc, hm, hm']
          rfl
        · exact ih 0 h

/-- The text with a space behind a last quote or backslash. -/
theorem padded_last {l : List Char} :
    ¬ tripleQuotes <:+: l →
    (¬ tripleQuotes <:+: if l.getLast? = some '"' ∨ l.getLast? = some '\\' then l ++ [' '] else l) ∧
      ∀ c ∈ (if l.getLast? = some '"' ∨ l.getLast? = some '\\' then l ++ [' '] else l).getLast?,
        c ≠ '"' ∧ c ≠ '\\' := by
  intro hfree
  split
  · refine ⟨fun h => ?_, fun c hc => ?_⟩
    · rcases Text.infix_append_cons (by decide) h with h | h
      · exact hfree h
      · exact absurd (List.eq_nil_of_infix_nil h) (by decide)
    · rw [List.getLast?_concat] at hc
      obtain rfl := Option.some.inj hc
      decide
  · rename_i hlast
    refine ⟨hfree, fun c hc => ⟨?_, ?_⟩⟩
    · rintro rfl
      exact hlast (Or.inl hc)
    · rintro rfl
      exact hlast (Or.inr hc)

/-- What stands between the delimiters of a docstring of one line. -/
theorem docstringBody_closes (text : String) : ¬ tripleQuotes <:+: docstringBody text ∧
    ∀ c ∈ (docstringBody text).getLast?, c ≠ '"' ∧ c ≠ '\\' := by
  obtain ⟨hfree, hlast⟩ := padded_last (replaceTriples_free (trim text).toList 0)
  rw [docstringBody]
  generalize (if (replaceTriples 0 (trim text).toList).getLast? = some '"' ∨
    (replaceTriples 0 (trim text).toList).getLast? = some '\\' then
    replaceTriples 0 (trim text).toList ++ [' '] else replaceTriples 0 (trim text).toList) = body at hfree hlast ⊢
  split
  · refine ⟨fun h => hfree (Text.infix_of_append (a := [' ']) (by simp [tripleQuotes]) h), fun c hc => ?_⟩
    cases body with
    | nil => rename_i h; cases h
    | cons x xs => exact hlast c (by rwa [List.getLast?_cons_cons] at hc)
  · exact ⟨hfree, hlast⟩

theorem infix_of_mem_splitLines {text line : List Char} (h : line ∈ splitLines text) : line <:+: text := by
  rw [splitLines] at h
  rcases List.mem_append.mp h with h | h
  · obtain ⟨piece, hpiece, rfl⟩ := List.mem_map.mp h
    exact (Text.stripSuffix_prefix _ _).isInfix.trans
      (Text.infix_of_mem_splitOn ((List.dropLast_sublist _).subset hpiece))
  · exact Text.infix_of_mem_splitOn (List.mem_of_getLast? (Option.mem_toList.mp h))

/-- What stands between the delimiters of a docstring of several lines. -/
theorem lines_close {text indent : List Char} (hquote : '"' ∉ indent) (hbackslash : '\\' ∉ indent)
    (hfree : ¬ tripleQuotes <:+: text) :
    let inner := ['\n'] ++ joinLines ((splitLines text).map fun line =>
      if line.all isSpace then [] else indent ++ line.rdropWhile isSpace) ++ ['\n'] ++ indent
    ¬ tripleQuotes <:+: inner ∧ ∀ c ∈ inner.getLast?, c ≠ '"' ∧ c ≠ '\\' := by
  have hout : ∀ c ∈ indent, c ∉ tripleQuotes := by
    intro c hc h
    obtain rfl := List.eq_of_mem_replicate (n := 3) h
    exact hquote hc
  have hindent : ¬ tripleQuotes <:+: indent := by
    intro h
    rw [← List.append_nil indent] at h
    exact absurd (List.eq_nil_of_infix_nil (Text.infix_of_append hout h)) (by decide)
  constructor
  · intro h
    have h : tripleQuotes <:+: ['\n'] ++ (joinLines ((splitLines text).map fun line =>
        if line.all isSpace then [] else indent ++ line.rdropWhile isSpace) ++ '\n' :: indent) := by
      simpa using h
    have h := Text.infix_of_append (by simp [tripleQuotes]) h
    rcases Text.infix_append_cons (by decide) h with h | h
    · rcases Text.infix_intercalate (by decide) h with h | ⟨line, hline, h⟩
      · exact absurd h (by decide)
      · obtain ⟨l, hl, rfl⟩ := List.mem_map.mp hline
        split at h
        · exact absurd (List.eq_nil_of_infix_nil h) (by decide)
        · have h := Text.infix_of_append hout h
          exact hfree ((h.trans (List.rdropWhile_prefix _ _).isInfix).trans (infix_of_mem_splitLines hl))
    · exact hindent h
  · intro c hc
    have hmem := last_of_indented hc
    rcases hmem with rfl | hmem
    · decide
    · refine ⟨?_, ?_⟩
      · rintro rfl
        exact hquote hmem
      · rintro rfl
        exact hbackslash hmem

/-- A raw literal, read with or without a backslash taking the next character. -/
def raw (escapes : Bool) : Quoting := ⟨3, escapes, true, Nat.succ_pos 2⟩

/-- The docstring of a text is none, for a text of white space, or one raw literal: no `"""` in its
    body, no quote and no backslash before the closing quotes, and it is read to the docstring's end. -/
theorem docstring_closes (text indent : String) (hquote : '"' ∉ indent.toList) (hbackslash : '\\' ∉ indent.toList) :
    (trim text = "" ∧ docstring text indent = []) ∨
      ∃ body, docstring text indent = indent.toList ++ rawQuotes ++ body ++ tripleQuotes ++ ['\n'] ∧
        ¬ tripleQuotes <:+: body ∧ (∀ c ∈ body.getLast?, c ≠ '"' ∧ c ≠ '\\') ∧
        ∀ escapes, (raw escapes).scan false (body ++ tripleQuotes ++ ['\n']) = some (body, ['\n']) := by
  rw [docstring]
  split
  · rename_i hempty
    exact Or.inl ⟨hempty, rfl⟩
  · right
    have hread : ∀ body : List Char, ¬ tripleQuotes <:+: body → (∀ c ∈ body.getLast?, c ≠ '"' ∧ c ≠ '\\') →
        ∀ escapes, (raw escapes).scan false (body ++ tripleQuotes ++ ['\n']) = some (body, ['\n']) :=
      fun body hfree hlast escapes =>
        Quoting.scan_of_no_closer (q := raw escapes) rfl hfree hlast (by simp) ['\n']
    obtain ⟨hfree, hlast⟩ := docstringBody_closes text
    dsimp only
    split
    · exact ⟨_, rfl, hfree, hlast, hread _ hfree hlast⟩
    · obtain ⟨hfree', hlast'⟩ := lines_close hquote hbackslash hfree
      exact ⟨_, by simp only [List.append_assoc], hfree', hlast', hread _ hfree' hlast'⟩

theorem quoted_docstring_closes :
    ∃ body, docstring "ends in \"\"\"\\" "    " =
        "    ".toList ++ rawQuotes ++ body ++ tripleQuotes ++ ['\n'] ∧
      ¬ tripleQuotes <:+: body ∧ (∀ c ∈ body.getLast?, c ≠ '"' ∧ c ≠ '\\') ∧
      ∀ escapes, (raw escapes).scan false (body ++ tripleQuotes ++ ['\n']) = some (body, ['\n']) :=
  (docstring_closes "ends in \"\"\"\\" "    " (by decide) (by decide)).resolve_left fun h =>
    absurd h.1 (by decide)

end CrdSchemas

/-! ### Where a values-schema docstring closes -/

namespace ValuesSchema

/-- A text read to the end as the inside of a literal, with the quotes escaped as the generator does:
    the last character is no backslash that takes a closing quote, and no quote whose escape another
    backslash takes. -/
def settles : Bool → List Char → Bool
  | escaped, [] => !escaped
  | true, c :: cs => (decide (cs ≠ []) || decide (c ≠ '"')) && settles false cs
  | false, c :: cs => settles (decide (c = '\\')) cs

/-- The backslashes at the end of a text, before its last quote if it ends in one. -/
def backslashes (text : List Char) : Nat := ((Text.stripSuffix ['"'] text).rtakeWhile (· = '\\')).length

theorem stripSuffix_cons (c : Char) {cs : List Char} (h : cs ≠ []) :
    Text.stripSuffix ['"'] (c :: cs) = c :: Text.stripSuffix ['"'] cs := by
  rcases Text.stripSuffix_cases ['"'] cs with ⟨x, hx, hstrip⟩ | ⟨hno, hstrip⟩
  · rw [hstrip, hx, ← List.cons_append, Text.stripSuffix_append]
  · rw [hstrip, Text.stripSuffix_of_not]
    intro hs
    rcases List.suffix_cons_iff.mp hs with heq | hs
    · exact h (List.cons.inj heq).2.symm
    · exact hno hs

/-- Two backslashes more change nothing. -/
theorem even_rtakeWhile_pair (l : List Char) : Even (('\\' :: '\\' :: l).rtakeWhile (· = '\\')).length ↔
    Even (l.rtakeWhile (· = '\\')).length := by
  induction l using List.reverseRecOn with
  | nil => decide
  | append_singleton l x ih =>
    rw [← List.cons_append, ← List.cons_append, List.rtakeWhile_concat, List.rtakeWhile_concat]
    split
    · simp only [List.length_append, List.length_singleton, Nat.even_add_one, ih]
    · exact Iff.rfl

/-- The text settles when the number of those backslashes is even. -/
theorem settles_iff (text : List Char) :
    (settles false text = true ↔ Even ((Text.stripSuffix ['"'] text).rtakeWhile (· = '\\')).length) ∧
      (settles true text = true ↔ Even (('\\' :: Text.stripSuffix ['"'] text).rtakeWhile (· = '\\')).length) := by
  induction text with
  | nil => exact ⟨by decide, by decide⟩
  | cons c cs ih =>
    obtain ⟨ihfalse, ihtrue⟩ := ih
    by_cases hcs : cs = []
    · subst hcs
      by_cases hc : c = '\\'
      · subst hc
        exact ⟨by decide, by decide⟩
      · by_cases hquote : c = '"'
        · subst hquote
          exact ⟨by decide, by decide⟩
        · have hstrip : Text.stripSuffix ['"'] [c] = [c] :=
            Text.stripSuffix_of_not fun h => hquote (by simpa [eq_comm] using h.subset (List.mem_singleton_self _))
          have hrun : ∀ l : List Char, (l ++ [c]).rtakeWhile (· = '\\') = [] := fun l =>
            Text.rtakeWhile_append_cons (by simpa using hc) l []
          have hone := hrun []
          have htwo := hrun ['\\']
          rw [List.nil_append] at hone
          rw [List.singleton_append] at htwo
          rw [hstrip, hone, htwo]
          exact ⟨by simp [settles, hc], by simp [settles, hquote]⟩
    · rw [stripSuffix_cons c hcs]
      have htrue : settles true (c :: cs) = settles false cs := by simp [settles, hcs]
      by_cases hc : c = '\\'
      · subst hc
        exact ⟨ihtrue, by rw [even_rtakeWhile_pair, ← ihfalse, htrue]⟩
      · have hfalse : settles false (c :: cs) = settles false cs := by simp [settles, hc]
        have hrun : ∀ a : List Char, (a ++ c :: Text.stripSuffix ['"'] cs).rtakeWhile (· = '\\') =
            (Text.stripSuffix ['"'] cs).rtakeWhile (· = '\\') := fun a =>
          Text.rtakeWhile_append_cons (by simpa using hc) a _
        have hone := hrun []
        have htwo := hrun ['\\']
        rw [List.nil_append] at hone
        rw [List.singleton_append] at htwo
        rw [hone, htwo, hfalse, htrue]
        exact ⟨ihfalse, ihfalse⟩

/-- The literal is read to the end of the text. -/
def Closes (read : Option (List Char × List Char)) : Prop := ∃ body, read = some (body, [])

theorem closes_map {read : Option (List Char × List Char)} (f : List Char → List Char) :
    Closes (read.map fun p => (f p.1, p.2)) ↔ Closes read := by
  constructor
  · rintro ⟨body, h⟩
    obtain ⟨⟨b, r⟩, hread, hpair⟩ := Option.map_eq_some_iff.mp h
    obtain rfl : r = [] := (Prod.mk.inj hpair).2
    exact ⟨b, hread⟩
  · rintro ⟨body, h⟩
    exact ⟨f body, by rw [h]; rfl⟩

/-- A character of the text that is not escaped before the literal's reader. -/
theorem closes_taken (c : Char) (rest : List Char) :
    Closes (long.scan true (c :: rest)) ↔ Closes (long.scan false rest) := by
  rw [Quoting.scan]
  exact closes_map (c :: ·)

theorem closes_char {c : Char} (hquote : c ≠ '"') (rest : List Char) :
    Closes (long.scan false (c :: rest)) ↔ Closes (long.scan (decide (c = '\\')) rest) := by
  rw [Quoting.scan, Quoting.not_closer hquote, if_neg Bool.false_ne_true, if_neg (by simp [long])]
  refine (closes_map (c :: ·)).trans ?_
  rw [show long.escapes = true from rfl, Bool.and_true]

theorem closes_quote {d : Char} (hd : d ≠ '"') (rest : List Char) :
    Closes (long.scan false ('"' :: d :: rest)) ↔ Closes (long.scan false (d :: rest)) := by
  rw [Quoting.scan_quote]
  · exact closes_map ('"' :: ·)
  · intro h
    exact hd (List.cons_prefix_cons.mp (List.cons_prefix_cons.mp h).2).1.symm

/-- Behind a quote the text goes on with a backslash or another character, never with a quote. -/
theorem neutralizeFrom_quote {cs : List Char} (h : cs ≠ []) :
    ∃ d rest, d ≠ '"' ∧ neutralizeFrom (some '"') cs = d :: rest := by
  cases cs with
  | nil => exact absurd rfl h
  | cons c cs =>
    by_cases hc : c = '"'
    · exact ⟨'\\', '"' :: neutralizeFrom (some c) cs, by decide, by simp [neutralizeFrom, hc]⟩
    · exact ⟨c, neutralizeFrom (some c) cs, hc, by simp [neutralizeFrom, hc]⟩

/-- Reading the escaped text and the closing quotes: the reader is where the text is, or a backslash of
    the text has taken what comes next. -/
theorem closes_neutralized (text : List Char) : ∀ (before : Option Char) (escaped : Bool),
    (escaped = true → before = some '\\') →
    (Closes (long.scan escaped (neutralizeFrom before text ++ tripleQuotes)) ↔
      settles escaped text = true) := by
  induction text with
  | nil =>
    intro before escaped _
    cases escaped with
    | true => exact iff_of_false (by rintro ⟨_, h⟩; cases h) (by simp [settles])
    | false => exact iff_of_true ⟨[], Quoting.scan_closer (q := long) []⟩ rfl
  | cons c cs ih =>
    intro before escaped hbefore
    by_cases hquote : c = '"'
    · subst hquote
      by_cases hplain : cs ≠ [] ∧ cs.head? ≠ some '"' ∧ before ≠ none ∧ before ≠ some '"'
      · -- a quote between two other characters stays as it is
        obtain ⟨hcs, hnext, hnone, hprev⟩ := hplain
        obtain ⟨d, rest, hd, hrest⟩ := neutralizeFrom_quote hcs
        have hout : neutralizeFrom before ('"' :: cs) = '"' :: neutralizeFrom (some '"') cs := by
          simp [neutralizeFrom, hcs, hnext, hnone, hprev]
        rw [hout, List.cons_append]
        cases escaped with
        | true =>
          rw [closes_taken, ih _ false (by simp)]
          simp [settles, hcs]
        | false =>
          have hih := ih (some '"') false (by simp)
          rw [hrest, List.cons_append] at hih ⊢
          rw [closes_quote hd, hih]
          simp [settles]
      · have hout : neutralizeFrom before ('"' :: cs) = '\\' :: '"' :: neutralizeFrom (some '"') cs := by
          rw [neutralizeFrom, if_pos]
          · rfl
          · refine ⟨rfl, ?_⟩
            by_contra h
            simp only [not_or] at h
            exact hplain ⟨h.2.2, h.1.2, h.2.1, h.1.1⟩
        rw [hout, List.cons_append, List.cons_append]
        cases escaped with
        | true =>
          rw [closes_taken]
          by_cases hcs : cs = []
          · -- the escape of the last quote is taken, and the quote joins the closing ones
            subst hcs
            have hread : long.scan false ('"' :: (neutralizeFrom (some '"') [] ++ tripleQuotes)) =
                some ([], ['"']) := rfl
            refine iff_of_false ?_ (by simp [settles])
            rintro ⟨_, h⟩
            rw [hread] at h
            cases (Prod.mk.inj (Option.some.inj h)).2
          · obtain ⟨d, rest, hd, hrest⟩ := neutralizeFrom_quote hcs
            have hih := ih (some '"') false (by simp)
            rw [hrest, List.cons_append] at hih ⊢
            rw [closes_quote hd, hih]
            simp [settles, hcs]
        | false =>
          rw [closes_char (by decide), decide_eq_true rfl, closes_taken, ih _ false (by simp)]
          simp [settles]
    · have hout : neutralizeFrom before (c :: cs) = c :: neutralizeFrom (some c) cs := by
        simp [neutralizeFrom, hquote]
      rw [hout, List.cons_append]
      cases escaped with
      | true =>
        rw [closes_taken, ih _ false (by simp)]
        simp [settles, hquote]
      | false =>
        rw [closes_char hquote, ih _ _ (fun h => by rw [of_decide_eq_true h])]
        rfl

theorem newline_mem_neutralizeFrom (text : List Char) : ∀ before,
    '\n' ∈ neutralizeFrom before text ↔ '\n' ∈ text := by
  induction text with
  | nil => intro _; exact Iff.rfl
  | cons c cs ih =>
    intro before
    rw [neutralizeFrom, List.mem_append, ih, List.mem_cons]
    refine or_congr_left ?_
    split
    · rename_i h
      exact iff_of_false (by decide) (by rw [h.1]; decide)
    · exact List.mem_singleton

/-- No two quotes stand next to each other. -/
theorem neutralizeFrom_free (text : List Char) : ∀ before, ¬ ['"', '"'] <:+: neutralizeFrom before text := by
  induction text with
  | nil => intro _ h; exact absurd (List.eq_nil_of_infix_nil h) (by decide)
  | cons c cs ih =>
    have hquote : ¬ ['"', '"'] <:+: '"' :: neutralizeFrom (some '"') cs := by
      intro h
      rcases List.infix_cons_iff.mp h with hpre | h
      · have hpre := (List.cons_prefix_cons.mp hpre).2
        by_cases hcs : cs = []
        · rw [hcs] at hpre
          exact absurd (List.prefix_nil.mp hpre) (by decide)
        · obtain ⟨d, rest, hd, hrest⟩ := neutralizeFrom_quote hcs
          rw [hrest] at hpre
          exact hd (List.cons_prefix_cons.mp hpre).1.symm
      · exact ih _ h
    intro before h
    rw [neutralizeFrom] at h
    split at h
    · rename_i hc
      rw [hc.1] at h
      exact hquote (Text.infix_of_append (a := ['\\']) (by simp) h)
    · by_cases hc : c = '"'
      · rw [hc] at h
        exact hquote h
      · exact ih _ (Text.infix_of_append (a := [c]) (by simpa using hc) h)

/-- The docstring is its indentation and one literal that ends where the docstring does. -/
def IsLiteral (docstring : List Char) (indent : Nat) : Prop :=
  ∃ inside, docstring = List.replicate indent ' ' ++ tripleQuotes ++ inside ∧ Closes (long.scan false inside)

theorem isLiteral_append {inside : List Char} {indent : Nat} :
    IsLiteral (List.replicate indent ' ' ++ tripleQuotes ++ inside) indent ↔ Closes (long.scan false inside) := by
  constructor
  · rintro ⟨inside', h, hclose⟩
    rwa [List.append_cancel_left h]
  · exact fun h => ⟨inside, rfl, h⟩

/-- A docstring of several lines always closes: its lines have no two quotes in a row, and white space
    stands before the closing ones. -/
theorem several_lines_close (indent : Nat) (parts : List (List Char))
    (hparts : ∀ part ∈ parts, ¬ ['"', '"'] <:+: part) :
    Closes (long.scan false (['\n'] ++ joinLines (parts.map (List.replicate indent ' ' ++ ·)) ++ ['\n'] ++
      List.replicate indent ' ' ++ tripleQuotes)) := by
  have hpad : ∀ c ∈ List.replicate indent ' ', c ∉ tripleQuotes := by
    intro c hc
    rw [List.eq_of_mem_replicate hc]
    decide
  have hread : ∀ body : List Char, ¬ tripleQuotes <:+: body → (∀ c ∈ body.getLast?, c ≠ '"' ∧ c ≠ '\\') →
      Closes (long.scan false (body ++ tripleQuotes)) := by
    intro body hfree hlast
    have h := Quoting.scan_of_no_closer (q := long) (e := false) rfl hfree hlast (by simp) []
    rw [List.append_nil] at h
    exact ⟨body, h⟩
  refine hread _ ?_ ?_
  · intro h
    have h : tripleQuotes <:+: ['\n'] ++ (joinLines (parts.map (List.replicate indent ' ' ++ ·)) ++
        '\n' :: (List.replicate indent ' ' ++ [])) := by
      simpa using h
    rcases Text.infix_append_cons (by simp [tripleQuotes]) (Text.infix_of_append (by simp [tripleQuotes]) h) with h | h
    · rcases Text.infix_intercalate (by decide) h with h | ⟨line, hline, h⟩
      · exact absurd h (by decide)
      · obtain ⟨part, hpart, rfl⟩ := List.mem_map.mp hline
        have htwo : ['"', '"'] <:+: tripleQuotes := ⟨[], ['"'], rfl⟩
        exact hparts part hpart (htwo.trans (Text.infix_of_append hpad h))
    · exact absurd (List.eq_nil_of_infix_nil (Text.infix_of_append hpad h)) (by decide)
  · intro c hc
    have hmem := last_of_indented hc
    rcases hmem with rfl | hmem
    · decide
    · rw [List.eq_of_mem_replicate hmem]
      decide

theorem docstringOf_literal_iff {lines : List Char → List (List Char)}
    (hlines : ∀ text, ∀ part ∈ lines text, part <:+: text) (trimmed : List Char) (indent : Nat) :
    IsLiteral (docstringOf lines trimmed indent) indent ↔ '\n' ∈ trimmed ∨ Even (backslashes trimmed) := by
  rw [docstringOf, neutralizeTripleQuotes]
  split
  · rename_i hmem
    rw [newline_mem_neutralizeFrom] at hmem
    refine iff_of_true ?_ (Or.inl hmem)
    have hclose := several_lines_close indent (lines (neutralizeFrom none trimmed))
      fun part hpart h => neutralizeFrom_free _ _ (h.trans (hlines _ part hpart))
    simp only [List.append_assoc] at hclose ⊢
    rw [← List.append_assoc]
    exact isLiteral_append.mpr hclose
  · rename_i hmem
    rw [newline_mem_neutralizeFrom] at hmem
    rw [List.append_assoc, isLiteral_append, closes_neutralized trimmed none false (by simp),
      (settles_iff trimmed).1, backslashes]
    exact ⟨Or.inr, fun h => h.resolve_left hmem⟩

theorem rustLines_infix {text line : List Char} (h : line ∈ Rust.lines text) : line <:+: text := by
  rw [Rust.lines] at h
  rcases List.mem_append.mp h with h | h
  · obtain ⟨piece, hpiece, rfl⟩ := List.mem_map.mp h
    exact (Text.stripSuffix_prefix _ _).isInfix.trans
      (Text.infix_of_mem_splitOn ((List.dropLast_sublist _).subset hpiece))
  · have h := (Option.filter_eq_some_iff.mp (Option.mem_toList.mp h)).1
    exact Text.infix_of_mem_splitOn (List.mem_of_getLast? h)

/-- A values-schema docstring is one complete literal exactly when its text, without white space around
    it, has several lines or an even number of backslashes at its end, a last quote aside. -/
theorem docstring_literal_iff (text : String) (indent : Nat) :
    (IsLiteral (docstring text indent) indent ↔
      '\n' ∈ (trim text).toList ∨ Even (backslashes (trim text).toList)) ∧
    (IsLiteral (Rust.formatDocstring text indent) indent ↔
      '\n' ∈ Rust.trim text.toList ∨ Even (backslashes (Rust.trim text.toList))) :=
  ⟨docstringOf_literal_iff (fun _ _ => Text.infix_of_mem_splitOn) _ _,
    docstringOf_literal_iff (fun _ _ => rustLines_infix) _ _⟩

/-- A description that ends in a backslash: the backslash takes the first closing quote. -/
theorem backslash_opens :
    long.scan false ((docstring "C:\\" 4).drop 7) = none ∧
      long.scan false ((Rust.formatDocstring "C:\\" 4).drop 7) = none ∧
      ¬ IsLiteral (docstring "C:\\" 4) 4 := by
  have hnone : long.scan false ((docstring "C:\\" 4).drop 7) = none := by decide
  refine ⟨hnone, by decide, ?_⟩
  rintro ⟨inside, h, body, hread⟩
  obtain rfl : (docstring "C:\\" 4).drop 7 = inside := by rw [h]; simp [tripleQuotes]
  rw [hnone] at hread
  cases hread

end ValuesSchema

end Akua
