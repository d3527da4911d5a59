import Akua.Decorators

/-! What `extractSchemas` keeps of a `package.k`. It tells statements by the first characters of a line;
    against it stands a scan of the strings and brackets that go on over lines. Where every line that starts
    at the left begins a statement, the two agree. -/

namespace Akua

namespace PackageStubs

open Decorators

/-! ### Statements -/

/-- Where a line begins. -/
structure Place where
  state : State := .code
  /-- The brackets that are open. -/
  depth : Nat := 0
  /-- The line before ends in a backslash. -/
  continued : Bool := false

/-- No string, bracket or backslash holds the line to the one before. -/
def Place.top (place : Place) : Bool := place.state = .code && place.depth = 0 && !place.continued

/-- Where the next line begins. -/
def scan : State → Nat → Nat → List Char → Place
  | .short quote, skip, depth, [] => ⟨if skip = 0 then .code else .short quote, depth, false⟩
  | state, _, depth, [] => ⟨state, depth, false⟩
  | state, skip + 1, depth, _ :: cs => scan state skip depth cs
  | .code, 0, depth, c :: cs =>
    if [c, c, c].isPrefixOf (c :: cs) ∧ (c = '"' ∨ c = '\'') then scan (.long c) 2 depth cs
    else if c = '"' ∨ c = '\'' then scan (.short c) 0 depth cs
    else if c = '(' ∨ c = '[' ∨ c = '\x7b' then scan .code 0 (depth + 1) cs
    else if c = ')' ∨ c = ']' ∨ c = '\x7d' then scan .code 0 (depth - 1) cs
    else if c = '#' then ⟨.code, depth, false⟩
    else if c = '\\' ∧ cs = [] then ⟨.code, depth, true⟩
    else scan .code 0 depth cs
  | .short quote, 0, depth, c :: cs =>
    if c = '\\' then scan (.short quote) 1 depth cs
    else scan (if c = quote then .code else .short quote) 0 depth cs
  | .long quote, 0, depth, c :: cs =>
    if [quote, quote, quote].isPrefixOf (c :: cs) then scan .code 2 depth cs
    else scan (.long quote) 0 depth cs

/-- What a line belongs to: the block of a schema or protocol, an import, or another statement. -/
inductive Kind where
  | block
  | imported
  | other
deriving DecidableEq

def blankOf (c : Char) : Bool := c = ' ' || c = '\t'

/-- The word, and white space behind it. -/
def keyword (word : String) (line : List Char) : Bool :=
  startsWith line word && ((line.drop word.length).head?.map blankOf).getD false

/-- Something stands at the left of the line, and no comment. -/
def flush : List Char → Bool
  | [] => false
  | c :: _ => !blankOf c && c ≠ '#'

/-- The statement that begins on a line. -/
def statementKind (line : List Char) : Kind :=
  if keyword "import" line then .imported
  else if keyword "schema" line || keyword "protocol" line then .block
  else .other

/-- The kind of a line that belongs to the statement before. -/
def goesOn (inBlock : Bool) : Kind := if inBlock then .block else .other

/-- The lines with their kinds, from the place of the first, in or outside a block. -/
def marked : Place → Bool → List (List Char) → List (List Char × Kind)
  | _, _, [] => []
  | place, inBlock, line :: rest =>
    let kind := if place.top && flush line then statementKind line else goesOn inBlock
    (line, kind) :: marked (scan place.state 0 place.depth line) (kind = .block) rest

/-! ### Imports -/

def words (text : List Char) : List (List Char) := (text.splitOnP blankOf).filter (· ≠ [])

/-- The words of an import, but for a comment behind it. -/
def importWords (line : List Char) : List (List Char) := words (line.takeWhile (· ≠ '#'))

/-- What an import imports, and the name it binds. -/
def importOf (line : List Char) : Option (List Char × List Char) :=
  match importWords line with
  | [_, path] => some (path, path.rtakeWhile (· ≠ '.'))
  | [_, path, word, name] => if word = "as".toList then some (path, name) else none
  | _ => none

/-- The places of a text outside comments and strings: the character before, and the text from there. -/
def codePlaces : State → Bool → Nat → Option Char → List Char → List (Option Char × List Char)
  | _, _, _, _, [] => []
  | state, comment, skip + 1, _, c :: cs => codePlaces state comment skip (some c) cs
  | state, true, 0, _, c :: cs => codePlaces state (decide (c ≠ '\n')) 0 (some c) cs
  | .code, false, 0, before, c :: cs =>
    if c = '#' then codePlaces .code true 0 (some c) cs
    else if c = '"' ∨ c = '\'' then
      if [c, c, c].isPrefixOf (c :: cs) then codePlaces (.long c) false 2 (some c) cs
      else codePlaces (.short c) false 0 (some c) cs
    else (before, c :: cs) :: codePlaces .code false 0 (some c) cs
  | .short quote, false, 0, _, c :: cs =>
    if c = '\\' then codePlaces (.short quote) false 1 (some c) cs
    else codePlaces (if c = quote then .code else .short quote) false 0 (some c) cs
  | .long quote, false, 0, _, c :: cs =>
    if [quote, quote, quote].isPrefixOf (c :: cs) then codePlaces .code false 2 (some c) cs
    else codePlaces (.long quote) false 0 (some c) cs

/-- The text has the name, as a whole word and with a `.` behind it, outside comments and strings. -/
def uses (text name : List Char) : Bool :=
  (codePlaces .code false 0 none text).any fun place =>
    (name ++ ['.']).isPrefixOf place.2 && !(place.1.map isWord).getD false

/-- An import of something else than a chart, whose name the text uses. -/
def keeps (text line : List Char) : Bool :=
  ((importOf line).map fun entry => !startsWith entry.1 "charts." && uses text entry.2).getD false

/-! ### What the code takes for statements -/

abbrev blank (line : List Char) : Prop := trimStart line = []

abbrev indented (line : List Char) : Prop := line.head? = some ' ' ∨ line.head? = some '\t'

abbrev comment (line : List Char) : Prop := (trimStart line).head? = some '#'

/-- The kind a line has for the code. -/
def foundKind (inSchema : Bool) (line : List Char) : Kind :=
  if inSchema ∧ (blank line ∨ indented line ∨ comment line) then .block
  else if blank line ∨ indented line then .other
  else if startsWith (trimStart line) "import " then .imported
  else if startsWith (trimStart line) "schema " ∨ startsWith (trimStart line) "protocol " then .block
  else .other

def foundMarked : Bool → List (List Char) → List (List Char × Kind)
  | _, [] => []
  | inSchema, line :: rest =>
    (line, foundKind inSchema line) :: foundMarked (foundKind inSchema line = .block) rest

/-- A line of a block is written; of the blank lines between other statements at most one is. -/
def layLine (text : List Char) (entry : List Char × Kind) : List Char :=
  if entry.2 = .block then text ++ entry.1 ++ ['\n']
  else if blank entry.1 ∧ ¬ ['\n', '\n'].isSuffixOf text then text ++ ['\n']
  else text

def laidOut (entries : List (List Char × Kind)) : List Char := entries.foldl layLine []

/-- The imports, but for those of charts, with the names they bind for the code. -/
def foundImports (entries : List (List Char × Kind)) : List (List Char × List Char) :=
  entries.flatMap fun entry =>
    if entry.2 = .imported ∧ ¬ startsWith (trimStart entry.1) "import charts."
    then [(entry.1, importedName (trimStart entry.1))] else []

theorem extractLine_eq (found : Extracted) (line : List Char) :
    let kind := foundKind found.inSchema line
    extractLine found line = {
      imports := found.imports ++ foundImports [(line, kind)]
      schemas := layLine found.schemas (line, kind)
      inSchema := kind = .block } := by
  dsimp only
  rw [extractLine, foundKind]
  by_cases hin : found.inSchema = true ∧ (blank line ∨ indented line ∨ comment line)
  · rw [if_pos hin, if_pos hin]
    simp [foundImports, layLine, hin.1]
  rw [if_neg hin, if_neg hin]
  by_cases hblank : blank line
  · rw [if_pos (Or.inl hblank)]
    simp only [if_pos hblank, foundImports, layLine]
    split <;> simp_all
  by_cases hindented : indented line
  · rw [if_pos (Or.inr hindented)]
    simp [hblank, hindented, foundImports, layLine]
  rw [if_neg (not_or.mpr ⟨hblank, hindented⟩)]
  simp only [if_neg hblank, if_neg hindented]
  by_cases himport : startsWith (trimStart line) "import " = true
  · rw [if_pos himport, if_pos himport]
    split <;> simp_all [foundImports, layLine]
  rw [if_neg himport, if_neg himport]
  split <;> simp_all [foundImports, layLine]

theorem foldl_extractLine (all : List (List Char)) (found : Extracted) :
    (all.foldl extractLine found).imports = found.imports ++ foundImports (foundMarked found.inSchema all) ∧
      (all.foldl extractLine found).schemas = (foundMarked found.inSchema all).foldl layLine found.schemas := by
  induction all generalizing found with
  | nil => simp [foundMarked, foundImports]
  | cons line rest ih =>
    obtain ⟨himports, hschemas⟩ := ih (extractLine found line)
    rw [List.foldl_cons, himports, hschemas, extractLine_eq]
    simp [foundMarked, foundImports]

/-- The lines of blocks. -/
def blockLines (entries : List (List Char × Kind)) : List (List Char) :=
  (entries.filter fun entry => entry.2 = .block).map (·.1)

def nonblank (all : List (List Char)) : List (List Char) := all.filter fun line => decide (¬ blank line)

theorem written_append (a b : List (List Char)) : written (a ++ b) = written a ++ written b := by
  simp [written]

theorem layLine_written (text : List Char) (entry : List Char × Kind) :
    ∃ all, layLine text entry = text ++ written all ∧ nonblank all = nonblank (blockLines [entry]) := by
  rw [layLine]
  by_cases hblock : entry.2 = .block
  · exact ⟨[entry.1], by simp [hblock, written], by simp [blockLines, hblock]⟩
  rw [if_neg hblock]
  split
  · exact ⟨[[]], by simp [written], by simp [blockLines, hblock, nonblank, trimStart]⟩
  · exact ⟨[], by simp [written], by simp [blockLines, hblock, nonblank]⟩

/-- Of what is written only the lines of blocks are not blank. -/
theorem foldl_layLine (entries : List (List Char × Kind)) (text : List Char) :
    ∃ all, entries.foldl layLine text = text ++ written all ∧ nonblank all = nonblank (blockLines entries) := by
  induction entries generalizing text with
  | nil => exact ⟨[], by simp [written], rfl⟩
  | cons entry rest ih =>
    obtain ⟨first, hfirst, hblank⟩ := layLine_written text entry
    obtain ⟨all, hall, hrest⟩ := ih (layLine text entry)
    refine ⟨first ++ all, ?_, ?_⟩
    · rw [List.foldl_cons, hall, hfirst, written_append, List.append_assoc]
    · have hsplit : blockLines (entry :: rest) = blockLines [entry] ++ blockLines rest := by
        rw [blockLines, ← List.singleton_append, List.filter_append, List.map_append]
        rfl
      rw [hsplit, nonblank, nonblank, List.filter_append, List.filter_append]
      exact congrArg₂ _ hblank hrest

/-- Lines of blocks that follow one another are written one behind another. -/
theorem infix_of_run {entries : List (List Char × Kind)} {run : List (List Char)}
    (h : run.map (fun line => (line, Kind.block)) <:+: entries) : written run <:+: laidOut entries := by
  obtain ⟨before, after, rfl⟩ := h
  have hrun (text : List Char) : (run.map fun line => (line, Kind.block)).foldl layLine text = text ++ written run := by
    induction run generalizing text with
    | nil => simp [written]
    | cons line rest ih => simp [ih, layLine, written]
  obtain ⟨all, hall, -⟩ := foldl_layLine after (before.foldl layLine [] ++ written run)
  rw [laidOut, List.foldl_append, List.foldl_append, hrun, hall]
  exact ⟨before.foldl layLine [], written all, rfl⟩

theorem suffix_written {all : List (List Char)} (h : all ≠ []) : ['\n'] <:+ written all := by
  obtain ⟨init, last, rfl⟩ := (List.eq_nil_or_concat all).resolve_left h
  refine ⟨written init ++ last, ?_⟩
  rw [List.concat_eq_append, written_append]
  simp [written]

/-- The stub is the imports that are used and the blocks. -/
theorem extractSchemas_eq (source : List Char) :
    let entries := foundMarked false (lines (stripAkuaDecorators source))
    let used := ((foundImports entries).filter fun entry => referencesModule (laidOut entries) entry.2).map (·.1)
    ∃ separator : List (List Char), nonblank separator = [] ∧
      extractSchemas source = written (used ++ separator) ++ laidOut entries := by
  intro entries used
  obtain ⟨himports, hschemas⟩ := foldl_extractLine (lines (stripAkuaDecorators source)) {}
  obtain ⟨all, hall, -⟩ := foldl_layLine entries []
  have hlaid : laidOut entries = written all := hall
  have hused : ((foundImports entries).filter fun entry => referencesModule (laidOut entries) entry.2).flatMap
      (fun entry => entry.1 ++ ['\n']) = written used := by
    simp [used, written, List.flatMap_map]
  have hblank : nonblank [[]] = [] := by simp [nonblank, trimStart]
  obtain ⟨separator, hseparator, hout⟩ : ∃ separator : List (List Char), nonblank separator = [] ∧
      (if written used ≠ [] ∧ trimmed (laidOut entries) ≠ [] then ['\n'] else []) = written separator := by
    split
    · exact ⟨[[]], hblank, rfl⟩
    · exact ⟨[], rfl, rfl⟩
  have hform : extractSchemas source =
      (let out := written used ++ (if written used ≠ [] ∧ trimmed (laidOut entries) ≠ [] then ['\n'] else []) ++
        laidOut entries
       if ['\n'].isSuffixOf out then out else out ++ ['\n']) := by
    rw [extractSchemas, himports, hschemas, ← hused]
    rfl
  rw [hform]
  dsimp only
  rw [hout, hlaid, ← written_append, ← written_append]
  by_cases hempty : used ++ separator ++ all = []
  · obtain ⟨hhead, rfl⟩ := List.append_eq_nil_iff.mp hempty
    obtain ⟨hnone, rfl⟩ := List.append_eq_nil_iff.mp hhead
    refine ⟨[[]], hblank, ?_⟩
    rw [hnone]
    rfl
  · refine ⟨separator, hseparator, ?_⟩
    rw [if_pos (List.isSuffixOf_iff_suffix.mpr (suffix_written hempty)), written_append _ all]

/-! ### Reading alike -/

theorem isPrefixOf_append_dot (name text : List Char) :
    (name ++ ['.']).isPrefixOf text = (name.isPrefixOf text && decide ((text.drop name.length).head? = some '.')) := by
  induction name generalizing text with
  | nil =>
    cases text with
    | nil => rfl
    | cons d text =>
      have hdot : ('.' == d) = decide (d = '.') := by
        rw [Bool.beq_eq_decide_eq, decide_eq_decide]
        exact eq_comm
      simp [List.isPrefixOf, hdot]
  | cons c name ih =>
    cases text with
    | nil => rfl
    | cons d text => simp only [List.cons_append, List.isPrefixOf_cons_cons, ih, List.length_cons, List.drop_succ_cons,
        Bool.and_assoc]

theorem referencesFrom_eq (name : List Char) (state : State) (comment : Bool) (skip : Nat) (before : Option Char)
    (text : List Char) : referencesFrom name state comment skip before text =
      (codePlaces state comment skip before text).any fun place =>
        (name ++ ['.']).isPrefixOf place.2 && !(place.1.map isWord).getD false := by
  induction text generalizing state comment skip before with
  | nil => cases skip <;> cases comment <;> cases state <;> rfl
  | cons c cs ih =>
    cases skip with
    | succ skip => cases comment <;> cases state <;> exact ih _ _ _ _
    | zero =>
      cases comment with
      | true => cases state <;> exact ih _ _ _ _
      | false =>
        cases state with
        | code =>
          rw [referencesFrom, codePlaces]
          split_ifs
          · exact ih _ _ _ _
          · exact ih _ _ _ _
          · exact ih _ _ _ _
          · rw [List.any_cons, isPrefixOf_append_dot, ih, Bool.and_right_comm]
        | short quote =>
          rw [referencesFrom, codePlaces]
          split <;> exact ih _ _ _ _
        | long quote =>
          rw [referencesFrom, codePlaces]
          split <;> exact ih _ _ _ _

theorem referencesModule_eq (text name : List Char) : referencesModule text name = uses text name :=
  referencesFrom_eq name .code false 0 none text

/-! ### The convention -/

/-- One of the words the code looks for begins the line. -/
abbrev opens (line : List Char) : Prop := startsWith line "schema " ∨ startsWith line "protocol "

/-- What stands at the left of a line begins a statement, with a blank behind a keyword; or in a string or
    brackets, it does not look like what the code takes for the end of a block, or for the beginning of one. -/
def Orderly (place : Place) (inBlock : Bool) (line : List Char) : Prop :=
  flush line → trimStart line = line ∧
    if place.top then statementKind line ≠ .other → startsWith line "import " ∨ opens line
    else if inBlock then opens line
    else ¬ (startsWith line "import " ∨ opens line)

/-- The convention for the lines of a source. -/
def Conforms : Place → Bool → List (List Char) → Prop
  | _, _, [] => True
  | place, inBlock, line :: rest =>
    let kind := if place.top && flush line then statementKind line else goesOn inBlock
    Orderly place inBlock line ∧ Conforms (scan place.state 0 place.depth line) (kind = .block) rest

theorem keyword_of_startsWith {word : String} {line : List Char} (h : startsWith line (word ++ " ") = true) :
    keyword word line = true := by
  rw [startsWith, String.toList_append] at h
  obtain ⟨rest, rfl⟩ := List.isPrefixOf_iff_prefix.mp h
  have hstart : startsWith (word.toList ++ " ".toList ++ rest) word = true :=
    List.isPrefixOf_iff_prefix.mpr ⟨" ".toList ++ rest, by rw [List.append_assoc]⟩
  rw [keyword, hstart, ← String.length_toList, List.append_assoc, List.drop_left]
  rfl

/-- The first word of a line that opens a block is no other keyword. -/
theorem keyword_import_of_opens {line : List Char} (h : opens line) : keyword "import" line = false := by
  have hfirst : ∀ word : String, startsWith line word = true → word.toList.head? ≠ some 'i' → word ≠ "" →
      startsWith line "import" = false := by
    intro word hword hhead hne
    obtain ⟨rest, rfl⟩ := List.isPrefixOf_iff_prefix.mp hword
    cases hlist : word.toList with
    | nil => exact absurd (by simpa using hlist) hne
    | cons c cs =>
      rw [hlist] at hhead
      simp only [List.head?_cons, ne_eq, Option.some.injEq] at hhead
      simp [startsWith, List.isPrefixOf, Ne.symm hhead]
  rw [keyword]
  rcases h with h | h <;> rw [hfirst _ h (by decide) (by decide), Bool.false_and]

theorem statementKind_of_opens {line : List Char} (h : opens line) : statementKind line = .block := by
  have hkey : (keyword "schema" line || keyword "protocol" line) = true :=
    (Bool.or_eq_true _ _).mpr (h.imp keyword_of_startsWith keyword_of_startsWith)
  rw [statementKind, keyword_import_of_opens h, if_neg Bool.false_ne_true, if_pos hkey]

theorem statementKind_of_import {line : List Char} (h : startsWith line "import " = true) :
    statementKind line = .imported := by
  rw [statementKind, if_pos (keyword_of_startsWith h)]

theorem not_import_of_opens {line : List Char} (h : opens line) : ¬ startsWith line "import " = true := by
  intro himport
  have hblock := statementKind_of_opens h
  rw [statementKind_of_import himport] at hblock
  cases hblock

/-- A line with something at the left is told by its first word. -/
theorem foundKind_flush {line : List Char} (hflush : flush line = true) (htrim : trimStart line = line)
    (inBlock : Bool) : foundKind inBlock line =
      if startsWith line "import " then .imported else if opens line then .block else .other := by
  cases line with
  | nil => cases hflush
  | cons c cs =>
    simp only [flush, blankOf, Bool.and_eq_true, Bool.not_eq_true', Bool.or_eq_false_iff, decide_eq_false_iff_not,
      decide_eq_true_eq] at hflush
    have hblank : ¬ blank (c :: cs) := by rw [blank, htrim]; exact List.cons_ne_nil _ _
    have hindented : ¬ indented (c :: cs) := by simp [indented, hflush]
    have hcomment : ¬ comment (c :: cs) := by simp [comment, htrim, hflush]
    rw [foundKind, if_neg (fun h => by tauto), if_neg (fun h => by tauto), htrim]

/-- Nothing at the left: the line goes on with the statement before. -/
theorem foundKind_of_not_flush {line : List Char} (h : flush line = false) (inBlock : Bool) :
    foundKind inBlock line = goesOn inBlock := by
  cases line with
  | nil => cases inBlock <;> simp [foundKind, goesOn, trimStart]
  | cons c cs =>
    simp only [flush, blankOf, Bool.and_eq_false_iff, Bool.not_eq_false', Bool.or_eq_true, decide_eq_true_eq,
      decide_eq_false_iff_not, not_not] at h
    rcases h with (rfl | rfl) | rfl
    · cases inBlock <;> simp [foundKind, goesOn, indented]
    · cases inBlock <;> simp [foundKind, goesOn, indented]
    · have htrim : trimStart ('#' :: cs) = '#' :: cs := by simp [trimStart, isSpace]
      cases inBlock <;> simp [foundKind, goesOn, indented, comment, htrim, startsWith, List.isPrefixOf]

theorem foundKind_of_orderly {place : Place} {inBlock : Bool} {line : List Char} (h : Orderly place inBlock line) :
    foundKind inBlock line = if place.top && flush line then statementKind line else goesOn inBlock := by
  cases hflush : flush line with
  | false => rw [Bool.and_false, if_neg Bool.false_ne_true, foundKind_of_not_flush hflush]
  | true =>
    obtain ⟨htrim, hplace⟩ := h hflush
    rw [foundKind_flush hflush htrim, Bool.and_true]
    cases htop : place.top with
    | true =>
      rw [htop, if_pos rfl] at hplace
      rw [if_pos rfl]
      by_cases himport : startsWith line "import " = true
      · rw [if_pos himport, statementKind_of_import himport]
      by_cases hopens : opens line
      · rw [if_neg himport, if_pos hopens, statementKind_of_opens hopens]
      · rw [if_neg himport, if_neg hopens]
        by_contra hkind
        exact (hplace (Ne.symm hkind)).elim himport hopens
    | false =>
      rw [htop, if_neg Bool.false_ne_true] at hplace
      rw [if_neg Bool.false_ne_true]
      cases inBlock with
      | true =>
        rw [if_pos rfl] at hplace
        rw [if_neg (not_import_of_opens hplace), if_pos hplace]
        rfl
      | false =>
        rw [if_neg Bool.false_ne_true] at hplace
        obtain ⟨himport, hopens⟩ := not_or.mp hplace
        rw [if_neg himport, if_neg hopens]
        rfl

/-- The convention is needed: where the code tells the kind of a line, the line is orderly. -/
theorem orderly_of_foundKind {place : Place} {inBlock : Bool} {line : List Char}
    (htrim : flush line = true → trimStart line = line)
    (h : foundKind inBlock line = if place.top && flush line then statementKind line else goesOn inBlock) :
    Orderly place inBlock line := by
  intro hflush
  refine ⟨htrim hflush, ?_⟩
  rw [foundKind_flush hflush (htrim hflush), hflush, Bool.and_true] at h
  cases htop : place.top with
  | true =>
    rw [htop, if_pos rfl] at h
    rw [if_pos rfl]
    intro hkind
    by_contra hnone
    obtain ⟨himport, hopens⟩ := not_or.mp hnone
    rw [if_neg himport, if_neg hopens] at h
    exact hkind h.symm
  | false =>
    rw [htop, if_neg Bool.false_ne_true] at h
    rw [if_neg Bool.false_ne_true]
    cases inBlock with
    | true =>
      rw [if_pos rfl]
      by_contra hopens
      rw [if_neg hopens] at h
      split at h <;> cases h
    | false =>
      rw [if_neg Bool.false_ne_true]
      rintro (himport | hopens)
      · rw [if_pos himport] at h
        cases h
      · rw [if_neg (not_import_of_opens hopens), if_pos hopens] at h
        cases h

/-! ### Imports as they are written -/

/-- A path or a name: no white space in it, and no comment. -/
structure Bare (word : List Char) : Prop where
  ne_nil : word ≠ []
  free : ∀ c ∈ word, isSpace c = false ∧ c ≠ '#'

abbrev Blanks (gap : List Char) : Prop := ∀ c ∈ gap, blankOf c = true

/-- What is imported, from where and under which name: a path binds its last part, a path with `as`, a
    blank on each side of it, the name behind. -/
inductive Target : List Char → List Char → List Char → Prop where
  | plain {path : List Char} (hpath : Bare path) : Target path path (path.rtakeWhile (· ≠ '.'))
  | named {path before after name : List Char} (hpath : Bare path) (hbefore : Blanks before)
      (hafter : Blanks after) (hname : Bare name) :
      Target (path ++ (before ++ " as ".toList ++ after ++ name)) path name

/-- A line with an import: white space around it, but no second blank before a chart, and a comment. -/
structure Import where
  lead : List Char
  target : List Char
  path : List Char
  name : List Char
  gap : List Char
  comment : List Char
  imports : Target target path name
  lead_blank : Blanks lead
  chart : lead = [] ∨ startsWith path "charts." = false
  gap_blank : Blanks gap
  comment_mark : comment = [] ∨ comment.head? = some '#'

def Import.line (i : Import) : List Char := "import ".toList ++ (i.lead ++ i.target) ++ i.gap ++ i.comment

theorem isSpace_of_blankOf {c : Char} (h : blankOf c = true) : isSpace c = true := by
  simp only [blankOf, Bool.or_eq_true, decide_eq_true_eq] at h
  rcases h with rfl | rfl <;> rfl

theorem ne_hash_of_blankOf {c : Char} (h : blankOf c = true) : c ≠ '#' := by
  rintro rfl
  cases h

theorem Bare.blankOf {word : List Char} (h : Bare word) : ∀ c ∈ word, blankOf c = false := fun c hc => by
  by_contra hblank
  rw [Bool.not_eq_false] at hblank
  exact Bool.false_ne_true ((h.free c hc).1.symm.trans (isSpace_of_blankOf hblank))

theorem Bare.space {word : List Char} (h : Bare word) : ' ' ∉ word := fun hmem =>
  Bool.false_ne_true ((h.free ' ' hmem).1.symm.trans rfl)

theorem Bare.firstWord {word : List Char} (h : Bare word) : firstWord word = word :=
  List.takeWhile_eq_self_iff.mpr fun c hc => by simp [(h.free c hc).1]

theorem Bare.dropWhile {word : List Char} (h : Bare word) (rest : List Char) :
    (word ++ rest).dropWhile isSpace = word ++ rest := by
  cases word with
  | nil => exact absurd rfl h.ne_nil
  | cons c cs => exact List.dropWhile_cons_of_neg (by simp [(h.free c List.mem_cons_self).1])

theorem Bare.rdropWhile {word : List Char} (h : Bare word) (front : List Char) :
    (front ++ word).rdropWhile isSpace = front ++ word := by
  obtain ⟨init, last, hlast⟩ := (List.eq_nil_or_concat word).resolve_left h.ne_nil
  have hfree : isSpace last = false := (h.free last (by rw [hlast]; simp)).1
  rw [hlast, List.concat_eq_append, ← List.append_assoc, List.rdropWhile_concat_neg _ _ _ (by simp [hfree])]

theorem words_append {c : Char} (hc : blankOf c = true) (a b : List Char) : words (a ++ c :: b) = words a ++ words b := by
  rw [words, List.splitOnP_append_cons _ _ hc, List.filter_append]
  rfl

theorem words_lead {gap : List Char} (hgap : Blanks gap) (a : List Char) : words (gap ++ a) = words a := by
  induction gap with
  | nil => rfl
  | cons c gap ih =>
    have hc := words_append (hgap c List.mem_cons_self) [] (gap ++ a)
    rw [List.nil_append] at hc
    rw [List.cons_append, hc, ih fun x hx => hgap x (List.mem_cons_of_mem _ hx)]
    rfl

theorem words_gap {a gap : List Char} (hgap : Blanks gap) (b : List Char) :
    words (a ++ (gap ++ ' ' :: b)) = words a ++ words b := by
  cases gap with
  | nil => exact words_append rfl a b
  | cons c gap =>
    rw [List.cons_append, words_append (hgap c List.mem_cons_self),
      words_lead (fun x hx => hgap x (List.mem_cons_of_mem _ hx))]
    exact congrArg _ (words_append (c := ' ') rfl [] b)

theorem words_end {a gap : List Char} (hgap : Blanks gap) : words (a ++ gap) = words a := by
  cases gap with
  | nil => rw [List.append_nil]
  | cons c gap =>
    have hnone := words_lead (fun x hx => hgap x (List.mem_cons_of_mem _ hx)) []
    rw [List.append_nil] at hnone
    rw [words_append (hgap c List.mem_cons_self), hnone]
    exact List.append_nil _

theorem Bare.words {word : List Char} (h : Bare word) : words word = [word] := by
  rw [PackageStubs.words, List.splitOnP_eq_singleton h.blankOf]
  simp [h.ne_nil]

/-- A text that begins and ends without white space, and white space around it. -/
theorem trimmed_around {lead core gap : List Char} (hlead : Blanks lead) (hgap : Blanks gap)
    (hstart : ∀ rest, (core ++ rest).dropWhile isSpace = core ++ rest) (hend : core.rdropWhile isSpace = core) :
    trimmed (lead ++ core ++ gap) = core := by
  rw [trimmed, List.append_assoc, List.dropWhile_append_of_pos fun c hc => isSpace_of_blankOf (hlead c hc), hstart,
    Text.rdropWhile_append_of_all (fun c hc => isSpace_of_blankOf (hgap c hc)), hend]

section
variable {target path name : List Char} (h : Target target path name)
include h

theorem Target.free : ∀ c ∈ target, c ≠ '#' := by
  cases h with
  | plain hpath => exact fun c hc => (hpath.free c hc).2
  | named hpath hbefore hafter hname =>
    intro c hc
    simp only [List.mem_append] at hc
    rcases hc with hc | ((hc | hc) | hc) | hc
    · exact (hpath.free c hc).2
    · exact ne_hash_of_blankOf (hbefore c hc)
    · rintro rfl
      simp at hc
    · exact ne_hash_of_blankOf (hafter c hc)
    · exact (hname.free c hc).2

theorem Target.dropWhile (rest : List Char) : (target ++ rest).dropWhile isSpace = target ++ rest := by
  cases h with
  | plain hpath => exact hpath.dropWhile rest
  | named hpath => rw [List.append_assoc, hpath.dropWhile]

theorem Target.rdropWhile (front : List Char) : (front ++ target).rdropWhile isSpace = front ++ target := by
  cases h with
  | plain hpath => exact hpath.rdropWhile front
  | named _ _ _ hname => simp only [← List.append_assoc, hname.rdropWhile]

/-- The words of an import give its path and its name. -/
theorem Target.words_eq {word : List Char} : (match word :: words target with
    | [_, path] => some (path, path.rtakeWhile (· ≠ '.'))
    | [_, path, word, name] => if word = "as".toList then some (path, name) else none
    | _ => none) = some (path, name) := by
  cases h with
  | plain hpath => rw [hpath.words]
  | named hpath hbefore hafter hname =>
    rename_i before after
    have hwords : words (path ++ (before ++ " as ".toList ++ after ++ name)) = [path, "as".toList, name] := by
      have hsplit : path ++ (before ++ " as ".toList ++ after ++ name) =
          path ++ (before ++ ' ' :: ("as".toList ++ ' ' :: (after ++ name))) := by simp
      rw [hsplit, words_gap hbefore, words_append rfl, words_lead hafter, hpath.words, hname.words]
      rfl
    rw [hwords]
    rfl

/-- So does the last ` as ` in it. -/
theorem Target.name_eq : (match Text.cutList " as ".toList.reverse target.reverse with
    | some (name, _) => firstWord (trimmed name.reverse)
    | none => (firstWord target).rtakeWhile (· ≠ '.')) = name := by
  have hmark : " as ".toList.reverse = [' ', 's', 'a', ' '] := by decide
  cases h with
  | plain hpath =>
    have hcut : Text.cutList " as ".toList.reverse target.reverse = none := by
      have hskip := Text.cutList_skip (p := ['s', 'a', ' ']) (fun h => hpath.space (List.mem_reverse.mp h)) []
      rw [List.append_nil] at hskip
      rw [hmark, hskip]
      rfl
    rw [hcut, hpath.firstWord]
  | named hpath hbefore hafter hname =>
    rename_i before after
    have hreverse : (path ++ (before ++ " as ".toList ++ after ++ name)).reverse =
        name.reverse ++ (after.reverse ++ " as ".toList.reverse ++ (before.reverse ++ path.reverse)) := by simp
    have hafter' : 's' ∉ after.reverse := fun hmem => by cases hafter 's' (List.mem_reverse.mp hmem)
    have hcut : Text.cutList " as ".toList.reverse (path ++ (before ++ " as ".toList ++ after ++ name)).reverse =
        some (name.reverse ++ after.reverse, before.reverse ++ path.reverse) := by
      rw [hreverse, hmark, Text.cutList_skip fun h => hname.space (List.mem_reverse.mp h),
        Text.cutList_of_not_mem hafter' (by decide), Option.map_some]
    have htrim : trimmed (after ++ name ++ []) = name :=
      trimmed_around hafter (fun c hc => absurd hc List.not_mem_nil) hname.dropWhile (by simpa using hname.rdropWhile [])
    rw [hcut]
    simp only [List.reverse_append, List.reverse_reverse]
    rw [List.append_nil] at htrim
    rw [htrim, hname.firstWord]

end

theorem before_comment {text comment : List Char} (h : ∀ c ∈ text, c ≠ '#')
    (hcomment : comment = [] ∨ comment.head? = some '#') : (text ++ comment).takeWhile (· ≠ '#') = text := by
  rw [List.takeWhile_append_of_pos fun c hc => decide_eq_true (h c hc)]
  rcases hcomment with rfl | hhead
  · simp
  · obtain ⟨rest, rfl⟩ := List.head?_eq_some_iff.mp hhead
    simp

/-- A text that begins a longer one, but has no character of what comes next, begins it alone. -/
theorem isPrefixOf_append {p a b : List Char} (hb : ∀ c ∈ b.head?, c ∉ p) : p.isPrefixOf (a ++ b) = p.isPrefixOf a := by
  rw [Bool.eq_iff_iff, List.isPrefixOf_iff_prefix, List.isPrefixOf_iff_prefix]
  refine ⟨fun h => ?_, fun h => h.trans (List.prefix_append a b)⟩
  rcases List.prefix_or_prefix_of_prefix h (List.prefix_append a b) with h' | ⟨q, rfl⟩
  · exact h'
  · rw [List.prefix_append_right_inj] at h
    cases q with
    | nil => simp
    | cons c q =>
      obtain ⟨rest, rfl⟩ := h
      exact absurd (by simp) (hb c rfl)

theorem Target.path_eq {target path name : List Char} (h : Target target path name) :
    ∃ rest, target = path ++ rest ∧ ∀ c ∈ rest.head?, blankOf c = true := by
  cases h with
  | plain hpath => exact ⟨[], by simp, by simp⟩
  | named hpath hbefore hafter hname =>
    rename_i before after
    refine ⟨_, rfl, fun c hc => ?_⟩
    cases before with
    | nil =>
      obtain rfl : ' ' = c := Option.some.inj hc
      rfl
    | cons d before =>
      obtain rfl : d = c := Option.some.inj hc
      exact hbefore d List.mem_cons_self

section
variable (i : Import)

theorem Import.code_eq : i.line.takeWhile (· ≠ '#') = "import ".toList ++ (i.lead ++ i.target) ++ i.gap := by
  refine before_comment (fun c hc => ?_) i.comment_mark
  simp only [List.mem_append] at hc
  rcases hc with (hc | (hc | hc)) | hc
  · rintro rfl
    simp at hc
  · exact ne_hash_of_blankOf (i.lead_blank c hc)
  · exact i.imports.free c hc
  · exact ne_hash_of_blankOf (i.gap_blank c hc)

theorem Import.importOf_eq : importOf i.line = some (i.path, i.name) := by
  have hwords : importWords i.line = "import".toList :: words i.target := by
    rw [importWords, i.code_eq, words_end i.gap_blank]
    refine (words_append (c := ' ') rfl "import".toList (i.lead ++ i.target)).trans ?_
    rw [words_lead i.lead_blank]
    rfl
  rw [importOf, hwords]
  exact i.imports.words_eq

theorem Import.importedName_eq : importedName i.line = i.name := by
  have hend : ("import ".toList ++ (i.lead ++ i.target)).rdropWhile isSpace = "import ".toList ++ (i.lead ++ i.target) := by
    rw [← List.append_assoc]
    exact i.imports.rdropWhile _
  have houter : trimmed ([] ++ ("import ".toList ++ (i.lead ++ i.target)) ++ i.gap) =
      "import ".toList ++ (i.lead ++ i.target) :=
    trimmed_around (fun c hc => absurd hc List.not_mem_nil) i.gap_blank (fun _ => rfl) hend
  rw [List.nil_append] at houter
  have hdrop : ("import ".toList ++ (i.lead ++ i.target)).drop "import ".length = i.lead ++ i.target := List.drop_left
  have hinner : trimmed (i.lead ++ i.target ++ []) = i.target :=
    trimmed_around i.lead_blank (fun c hc => absurd hc List.not_mem_nil) i.imports.dropWhile (i.imports.rdropWhile [])
  rw [List.append_nil] at hinner
  rw [importedName, i.code_eq, houter, hdrop, hinner]
  exact i.imports.name_eq

/-- Behind the path stands a blank, a comment or nothing. -/
theorem Import.line_eq : ∃ rest, i.line = "import ".toList ++ (i.lead ++ (i.path ++ rest)) ∧
    ∀ c ∈ rest.head?, blankOf c = true ∨ c = '#' := by
  obtain ⟨rest, htarget, hrest⟩ := i.imports.path_eq
  have hhead : ∀ c ∈ (rest ++ (i.gap ++ i.comment)).head?, blankOf c = true ∨ c = '#' := by
    intro c hc
    rcases rest with _ | ⟨b, rest⟩
    · rcases hgap : i.gap with _ | ⟨b, gap⟩
      · rw [hgap] at hc
        rcases i.comment_mark with hnil | hhash
        · rw [hnil] at hc
          cases hc
        · exact Or.inr (Option.some.inj (hc.symm.trans hhash))
      · rw [hgap] at hc
        obtain rfl : b = c := Option.some.inj hc
        exact Or.inl (i.gap_blank b (by rw [hgap]; exact List.mem_cons_self))
    · obtain rfl : b = c := Option.some.inj hc
      exact Or.inl (hrest b rfl)
  refine ⟨rest ++ (i.gap ++ i.comment), ?_, hhead⟩
  unfold Import.line
  generalize "import ".toList = word
  simp only [htarget, List.append_assoc]

/-- The code tells a chart by the beginning of the line. -/
theorem Import.chart_eq : startsWith i.line "import charts." = startsWith i.path "charts." := by
  obtain ⟨rest, hline, hrest⟩ := i.line_eq
  have hword : "import charts.".toList = "import ".toList ++ "charts.".toList := rfl
  have hfree : ∀ c ∈ "charts.".toList, blankOf c = false ∧ c ≠ '#' := by simp [blankOf]
  have hstart : startsWith i.line "import charts." = "charts.".toList.isPrefixOf (i.lead ++ (i.path ++ rest)) := by
    rw [startsWith, hline, hword, Bool.eq_iff_iff, List.isPrefixOf_iff_prefix, List.isPrefixOf_iff_prefix,
      List.prefix_append_right_inj]
  rw [hstart]
  rcases hlead : i.lead with _ | ⟨d, lead⟩
  · rw [List.nil_append]
    show "charts.".toList.isPrefixOf (i.path ++ rest) = "charts.".toList.isPrefixOf i.path
    refine isPrefixOf_append fun c hc hmem => ?_
    obtain ⟨hblank, hhash⟩ := hfree c hmem
    exact (hrest c hc).elim (fun h => Bool.false_ne_true (hblank.symm.trans h)) hhash
  · have hblank : blankOf d = true := i.lead_blank d (by rw [hlead]; exact List.mem_cons_self)
    have hnot : startsWith i.path "charts." = false := i.chart.resolve_left (by rw [hlead]; exact List.cons_ne_nil _ _)
    rw [hnot]
    refine Bool.eq_false_iff.mpr fun hstart => ?_
    obtain ⟨hd, -⟩ := List.cons_prefix_cons.mp (List.isPrefixOf_iff_prefix.mp hstart)
    rw [← hd] at hblank
    cases hblank

end

theorem foundMarked_eq {all : List (List Char)} {place : Place} {inBlock : Bool} (h : Conforms place inBlock all) :
    foundMarked inBlock all = marked place inBlock all := by
  induction all generalizing place inBlock with
  | nil => rfl
  | cons line rest ih =>
    obtain ⟨hline, hrest⟩ := h
    rw [foundMarked, marked, foundKind_of_orderly hline]
    exact congrArg _ (ih hrest)

theorem marked_imports {all : List (List Char)} {place : Place} {inBlock : Bool} (h : Conforms place inBlock all) :
    ∀ entry ∈ marked place inBlock all, entry.2 = .imported →
      trimStart entry.1 = entry.1 ∧ ¬ blank entry.1 := by
  induction all generalizing place inBlock with
  | nil => exact fun entry hentry => absurd hentry List.not_mem_nil
  | cons line rest ih =>
    obtain ⟨hline, hrest⟩ := h
    intro entry hentry himport
    rw [marked] at hentry
    rcases List.mem_cons.mp hentry with rfl | hentry
    · have hflush : flush line = true := by
        by_contra hflush
        rw [Bool.not_eq_true] at hflush
        dsimp only at himport
        rw [hflush, Bool.and_false, if_neg Bool.false_ne_true] at himport
        cases inBlock <;> cases himport
      refine ⟨(hline hflush).1, ?_⟩
      rw [blank, (hline hflush).1]
      rintro rfl
      cases hflush
    · exact ih hrest entry hentry himport

/-- The import lines. -/
def importLines (entries : List (List Char × Kind)) : List (List Char) :=
  (entries.filter fun entry => entry.2 = .imported).map (·.1)

/-- The imports that the code keeps are those the text uses. -/
theorem used_eq {entries : List (List Char × Kind)} (text : List Char)
    (h : ∀ entry ∈ entries, entry.2 = .imported → trimStart entry.1 = entry.1 ∧ ¬ blank entry.1)
    (himports : ∀ line ∈ importLines entries, ∃ i : Import, i.line = line) :
    ((foundImports entries).filter fun entry => referencesModule text entry.2).map (·.1) =
      (importLines entries).filter (keeps text) := by
  induction entries with
  | nil => rfl
  | cons entry rest ih =>
    have hrest := ih fun other hother => h other (List.mem_cons_of_mem _ hother)
    obtain ⟨line, kind⟩ := entry
    by_cases hkind : kind = .imported
    · obtain ⟨htrim, -⟩ := h (line, kind) List.mem_cons_self hkind
      dsimp only at htrim
      subst hkind
      have hlines : importLines ((line, Kind.imported) :: rest) = line :: importLines rest := by simp [importLines]
      rw [hlines] at himports
      obtain ⟨⟨i, rfl⟩, hothers⟩ := List.forall_mem_cons.mp himports
      have hkeeps : keeps text i.line = (!startsWith i.path "charts." && uses text i.name) := by
        rw [keeps, i.importOf_eq]
        rfl
      rw [hlines, List.filter_cons, hkeeps, ← hrest hothers, foundImports, List.flatMap_cons, List.filter_append,
        List.map_append]
      dsimp only
      rw [htrim, i.chart_eq, i.importedName_eq]
      cases startsWith i.path "charts." with
      | true => simp [foundImports]
      | false => cases huses : uses text i.name <;> simp [foundImports, referencesModule_eq, huses]
    · have hlines : importLines ((line, kind) :: rest) = importLines rest := by simp [importLines, hkind]
      rw [hlines] at himports
      rw [hlines, ← hrest himports, foundImports, List.flatMap_cons]
      simp [hkind, foundImports]

/-! ### Exactness -/

/-- The lines of a source without its decorators, with the statements they belong to. -/
def statements (source : List Char) : List (List Char × Kind) :=
  marked {} false (blanked (lines source) (decoratorMarks .code none (lines source)))

/-- The stub has the lines of each block, one behind another, and no other line but blank ones and the imports
    that the blocks use. -/
structure ExactStub (source : List Char) : Prop where
  blocks : ∀ run, run.map (fun line => (line, Kind.block)) <:+: statements source →
    written run <:+: extractSchemas source
  only : ∃ all, extractSchemas source = written all ∧
    nonblank all = (importLines (statements source)).filter (keeps (laidOut (statements source))) ++
      nonblank (blockLines (statements source))

/-- The stub of a source that follows the convention, and whose decorators are stripped as they stand, is exact. -/
theorem extract_exact (source : List Char) (hsync : InStep isSpace .code none 0 (lines source))
    (hends : (Text.cutList "@ui(".toList source).isSome →
      ∀ line ∈ blanked (lines source) (decoratorMarks .code none (lines source)), ¬ ['\r'] <:+ line)
    (hconforms : Conforms {} false (blanked (lines source) (decoratorMarks .code none (lines source))))
    (himports : ∀ line ∈ importLines (statements source), ∃ i : Import, i.line = line) :
    ExactStub source := by
  have houtside : (0 : Int) < 0 ↔ (none : Option Nat).isSome := iff_of_false (lt_irrefl 0) Bool.false_ne_true
  have hlines := lines_strip rfl ((foundMarks_iff houtside).mpr hsync) hends
  have hmarked := marked_imports hconforms
  obtain ⟨separator, hseparator, hstub⟩ := extractSchemas_eq source
  rw [hlines, foundMarked_eq hconforms, used_eq _ hmarked himports] at hstub
  change extractSchemas source = written ((importLines (statements source)).filter
    (keeps (laidOut (statements source))) ++ separator) ++ laidOut (statements source) at hstub
  obtain ⟨all, hall, hblank⟩ := foldl_layLine (statements source) []
  refine ⟨fun run hrun => ?_, (importLines (statements source)).filter (keeps (laidOut (statements source))) ++
    separator ++ all, ?_, ?_⟩
  · rw [hstub]
    exact (infix_of_run hrun).trans (List.suffix_append _ _).isInfix
  · rw [hstub, written_append _ all, laidOut, hall]
    rfl
  · have hkept : nonblank ((importLines (statements source)).filter (keeps (laidOut (statements source)))) =
        (importLines (statements source)).filter (keeps (laidOut (statements source))) := by
      refine List.filter_eq_self.mpr fun line hline => ?_
      obtain ⟨entry, hentry, rfl⟩ := List.mem_map.mp (List.mem_of_mem_filter hline)
      obtain ⟨hmem, hkind⟩ := List.mem_filter.mp hentry
      exact decide_eq_true (hmarked entry hmem (of_decide_eq_true hkind)).2
    rw [nonblank, List.filter_append, List.filter_append]
    exact congrArg₂ _ ((congrArg₂ _ hkept hseparator).trans (List.append_nil _)) hblank

instance (place : Place) (inBlock : Bool) (line : List Char) : Decidable (Orderly place inBlock line) :=
  inferInstanceAs (Decidable (flush line = true → trimStart line = line ∧
    if place.top = true then statementKind line ≠ .other → startsWith line "import " ∨ opens line
    else if inBlock = true then opens line
    else ¬ (startsWith line "import " ∨ opens line)))

instance decidableConforms : ∀ (place : Place) (inBlock : Bool) (all : List (List Char)),
    Decidable (Conforms place inBlock all)
  | _, _, [] => isTrue trivial
  | place, inBlock, line :: rest =>
    have := decidableConforms (scan place.state 0 place.depth line) ((if place.top && flush line then
      statementKind line else goesOn inBlock) = .block) rest
    inferInstanceAs (Decidable (Orderly place inBlock line ∧ Conforms _ _ rest))

theorem bare_of_all {word : List Char} (hne : word ≠ []) (h : (word.all fun c => !isSpace c && c ≠ '#') = true) :
    Bare word := by
  refine ⟨hne, fun c hc => ?_⟩
  have hc := List.all_eq_true.mp h c hc
  simpa using hc

/-- An import under another name, a comment behind it. -/
def sharedImport : Import where
  lead := []
  target := "types.common".toList ++ ([] ++ " as ".toList ++ [] ++ "shared".toList)
  path := "types.common".toList
  name := "shared".toList
  gap := "  ".toList
  comment := "# for Place".toList
  imports := .named (bare_of_all (by decide) (by decide)) nofun nofun (bare_of_all (by decide) (by decide))
  lead_blank := nofun
  chart := .inl rfl
  gap_blank := by simp [Blanks, blankOf]
  comment_mark := .inr (by decide)

def chartImport : Import where
  lead := []
  target := "charts.web".toList
  path := "charts.web".toList
  name := "charts.web".toList.rtakeWhile (· ≠ '.')
  gap := []
  comment := []
  imports := .plain (bare_of_all (by decide) (by decide))
  lead_blank := nofun
  chart := .inl rfl
  gap_blank := nofun
  comment_mark := .inl rfl

/-- A schema with a docstring of two lines, an import that it uses, one of a chart, and a body. -/
def sharedSource : List Char :=
  ("import types.common as shared  # for Place\nimport charts.web\n\nschema Input:\n" ++
    "    \"\"\"The\n    input\"\"\"\n    place: shared.Place\n\nresources = [\n]\n").toList

set_option maxRecDepth 10000 in
theorem schema_extracted : ExactStub sharedSource := by
  have hlines : importLines (statements sharedSource) = [sharedImport.line, chartImport.line] := by decide +kernel
  refine extract_exact _ ((foundMarks_iff (by simp)).mp (by decide)) (by decide) (by decide) fun line hline => ?_
  rw [hlines] at hline
  rcases List.mem_pair.mp hline with rfl | rfl
  · exact ⟨sharedImport, rfl⟩
  · exact ⟨chartImport, rfl⟩

/-- A line of a docstring that starts at the left ends the schema: the field behind it is missing. -/
theorem docstring_truncates_schema :
    ¬ ExactStub "schema A:\n    \"\"\"\ntext\n    \"\"\"\n    x: int\n".toList := by
  intro h
  have hrun := h.blocks (lines "schema A:\n    \"\"\"\ntext\n    \"\"\"\n    x: int\n".toList)
    ⟨[], [], by decide⟩
  exact absurd hrun.length_le (by decide)

end PackageStubs

end Akua
