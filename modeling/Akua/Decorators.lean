import Akua.PackageStubs

/-! Stripping `@ui(...)` decorators from KCL source, in TypeScript and in Rust. Both look at each line by
    itself: a string that goes on over several lines is forgotten at the end of each. Against them stands
    a scan that keeps its state from line to line. -/

namespace Akua

open PackageStubs

/-! ### The Rust twin -/

namespace Rust

def trimStart (text : List Char) : List Char := text.dropWhile isWhitespace

def stripFrom (depth : Int) : List (List Char) → List Char
  | [] => []
  | line :: rest =>
    if 0 < depth then '\n' :: stripFrom (depth + parenBalance line) rest
    else if startsWith (trimStart line) "@ui(" then '\n' :: stripFrom (parenBalance line) rest
    else line ++ '\n' :: stripFrom 0 rest

def stripAkuaDecorators (source : List Char) : List Char :=
  if (Text.cutList "@ui(".toList source).isSome then stripFrom 0 (lines source) else source

end Rust

namespace Decorators

/-! ### The decorators of a source -/

/-- What a line is to its decorators. -/
inductive Mark where
  | kept
  /-- A decorator begins. -/
  | first
  /-- A decorator goes on. -/
  | more
deriving DecidableEq

/-- One of the open parentheses is closed; none is left when the decorator is. -/
def close : Option Nat → Option Nat
  | some (n + 2) => some (n + 1)
  | _ => none

/-- Read a line from a state, with the number of the decorator's open parentheses, if one is open. A string
    of three quotes goes on in the next line, one of one quote only behind a backslash. -/
def walk : State → Nat → Option Nat → List Char → State × Option Nat
  | .short quote, skip, depth, [] => (if skip = 0 then .code else .short quote, depth)
  | state, _, depth, [] => (state, depth)
  | state, skip + 1, depth, _ :: cs => walk state skip depth cs
  | .code, 0, depth, c :: cs =>
    if [c, c, c].isPrefixOf (c :: cs) ∧ (c = '"' ∨ c = '\'') then walk (.long c) 2 depth cs
    else if c = '"' ∨ c = '\'' then walk (.short c) 0 depth cs
    else if c = '(' then walk .code 0 (depth.map (· + 1)) cs
    else if c = ')' then walk .code 0 (close depth) cs
    else if c = '#' then (.code, depth)
    else walk .code 0 depth cs
  | .short quote, 0, depth, c :: cs =>
    if c = '\\' then walk (.short quote) 1 depth cs
    else walk (if c = quote then .code else .short quote) 0 depth cs
  | .long quote, 0, depth, c :: cs =>
    if [quote, quote, quote].isPrefixOf (c :: cs) then walk .code 2 depth cs
    else walk (.long quote) 0 depth cs

/-- The line is no part of a string, and its first token is `@ui(`. -/
def begins (state : State) (line : List Char) : Bool :=
  state = .code && startsWith (line.dropWhile fun c => c = ' ' || c = '\t') "@ui("

/-- The decorators of some lines, from a state and the number of open parentheses. -/
def decoratorMarks : State → Option Nat → List (List Char) → List Mark
  | _, _, [] => []
  | state, some depth, line :: rest =>
    let next := walk state 0 (some depth) line
    .more :: decoratorMarks next.1 next.2 rest
  | state, none, line :: rest =>
    if begins state line then
      let next := walk state 0 (some 0) line
      .first :: decoratorMarks next.1 next.2 rest
    else .kept :: decoratorMarks (walk state 0 none line).1 none rest

/-- The lines with those of the decorators blank. -/
def blanked (lines : List (List Char)) (marks : List Mark) : List (List Char) :=
  List.zipWith (fun line mark => if mark = Mark.kept then line else []) lines marks

/-! ### What the code takes for decorators -/

/-- `trim_start` drops the white space of `space`. -/
def foundMarks (space : Char → Bool) (depth : Int) : List (List Char) → List Mark
  | [] => []
  | line :: rest =>
    if 0 < depth then .more :: foundMarks space (depth + parenBalance line) rest
    else if startsWith (line.dropWhile space) "@ui(" then .first :: foundMarks space (parenBalance line) rest
    else .kept :: foundMarks space 0 rest

/-- A line break behind each line. -/
def written (lines : List (List Char)) : List Char := lines.flatMap (· ++ ['\n'])

/-- Stripping line by line writes the lines that are not marked. -/
theorem strip_eq {space : Char → Bool} {strip : Int → List (List Char) → List Char} (hnil : ∀ depth, strip depth [] = [])
    (hcons : ∀ depth line rest, strip depth (line :: rest) =
      if 0 < depth then '\n' :: strip (depth + parenBalance line) rest
      else if startsWith (line.dropWhile space) "@ui(" then '\n' :: strip (parenBalance line) rest
      else line ++ '\n' :: strip 0 rest) (depth : Int) (lines : List (List Char)) :
    strip depth lines = written (blanked lines (foundMarks space depth lines)) := by
  induction lines generalizing depth with
  | nil => exact hnil depth
  | cons line rest ih =>
    rw [hcons, foundMarks]
    split
    · rw [ih]
      rfl
    split
    · rw [ih]
      rfl
    · rw [ih]
      simp [blanked, written]

theorem stripFrom_eq (depth : Int) (lines : List (List Char)) :
    stripFrom depth lines = written (blanked lines (foundMarks isSpace depth lines)) :=
  strip_eq (fun _ => rfl) (fun _ _ _ => rfl) depth lines

theorem rust_stripFrom_eq (depth : Int) (lines : List (List Char)) :
    Rust.stripFrom depth lines = written (blanked lines (foundMarks Rust.isWhitespace depth lines)) :=
  strip_eq (fun _ => rfl) (fun _ _ _ => rfl) depth lines

theorem rust_lines_eq (text : List Char) : Rust.lines text = lines text := by
  obtain ⟨pieces, piece, hsplit⟩ : ∃ pieces piece, text.splitOn '\n' = pieces ++ [piece] := by
    rcases List.eq_nil_or_concat (text.splitOn '\n') with h | ⟨pieces, piece, h⟩
    · exact absurd h (List.splitOn_ne_nil _ _)
    · exact ⟨pieces, piece, by rw [h, List.concat_eq_append]⟩
  by_cases hpiece : piece = [] <;> simp [Rust.lines, lines, splitLines, hsplit, hpiece]

/-- Lines that are written are read again without a carriage return at their ends. -/
theorem lines_written {all : List (List Char)} (h : ∀ line ∈ all, '\n' ∉ line) :
    lines (written all) = all.map (Text.stripSuffix ['\r']) := by
  have hsplit : (written all).splitOn '\n' = all ++ [[]] := by
    induction all with
    | nil => simp [written]
    | cons line all ih =>
      have hwritten : written (line :: all) = line ++ '\n' :: written all := by simp [written]
      rw [hwritten, List.splitOn_append_cons_self_of_not_mem (h line List.mem_cons_self),
        ih fun other hother => h other (List.mem_cons_of_mem _ hother)]
      rfl
  simp [lines, splitLines, hsplit]

theorem newline_of_lines {source line : List Char} (h : line ∈ lines source) : '\n' ∉ line := by
  have hpiece : ∀ piece ∈ source.splitOn '\n', '\n' ∉ piece := fun piece hp hmem =>
    Text.not_mem_of_mem_split (s := String.ofList source) (p := String.ofList piece) (c := '\n')
      (List.mem_map_of_mem (by rwa [String.toList_ofList])) (by rwa [String.toList_ofList])
  have hlines : line ∈ splitLines source := by
    rw [lines] at h
    split at h
    · exact (List.dropLast_sublist _).subset h
    · exact h
  rcases List.mem_append.mp hlines with hline | hline
  · obtain ⟨piece, hp, rfl⟩ := List.mem_map.mp hline
    exact fun hmem => hpiece piece ((List.dropLast_sublist _).subset hp) ((Text.stripSuffix_prefix _ _).subset hmem)
  · exact hpiece line (List.mem_of_getLast? (Option.mem_toList.mp hline))

theorem infix_of_mem_lines {source line : List Char} (h : line ∈ lines source) : line <:+: source := by
  refine CrdSchemas.infix_of_mem_splitLines ?_
  rw [lines] at h
  split at h
  · exact (List.dropLast_sublist _).subset h
  · exact h

/-- A source without the text of a decorator has no line that starts with it, whatever stands before it. -/
theorem not_startsWith {source line : List Char} (h : Text.cutList "@ui(".toList source = none)
    (hline : line ∈ lines source) (space : Char → Bool) : startsWith (line.dropWhile space) "@ui(" = false := by
  rw [Bool.eq_false_iff]
  intro hstart
  obtain ⟨before, after, hsource⟩ := (List.isPrefixOf_iff_prefix.mp hstart).isInfix.trans
    ((List.dropWhile_suffix space).isInfix.trans (infix_of_mem_lines hline))
  obtain ⟨a, b, hcut, -⟩ := Text.cutList_of_append "@ui(".toList before after
  rw [hsource, h] at hcut
  cases hcut

/-! ### The width of the count -/

/-- The count behind these lines. -/
def countAfter (space : Char → Bool) (depth : Int) : List (List Char) → Int
  | [] => depth
  | line :: rest =>
    if 0 < depth then countAfter space (depth + parenBalance line) rest
    else if startsWith (line.dropWhile space) "@ui(" then countAfter space (parenBalance line) rest
    else countAfter space 0 rest

/-- The marks of the lines behind start from it. -/
theorem foundMarks_append {space : Char → Bool} (before rest : List (List Char)) (depth : Int) :
    foundMarks space depth (before ++ rest) =
      foundMarks space depth before ++ foundMarks space (countAfter space depth before) rest := by
  induction before generalizing depth with
  | nil => rfl
  | cons line before ih =>
    rw [List.cons_append, foundMarks, foundMarks, countAfter]
    split
    · rw [ih, List.cons_append]
    split
    · rw [ih, List.cons_append]
    · rw [ih, List.cons_append]

/-- Each character moves the balance by one at most. -/
theorem balanceFrom_natAbs_le (state : State) (skip : Nat) (cs : List Char) :
    (balanceFrom state skip cs).natAbs ≤ cs.length := by
  fun_induction balanceFrom state skip cs with
  | case1 => simp
  | case7 => simp
  | _ => simp only [List.length_cons]; omega

theorem countAfter_natAbs_le {space : Char → Bool} (all : List (List Char)) (depth : Int) :
    (countAfter space depth all).natAbs ≤ depth.natAbs + (all.map List.length).sum := by
  induction all generalizing depth with
  | nil => simp [countAfter]
  | cons line rest ih =>
    have hline : (parenBalance line).natAbs ≤ line.length := balanceFrom_natAbs_le .code 0 line
    rw [countAfter, List.map_cons, List.sum_cons]
    split
    · have := ih (depth + parenBalance line)
      omega
    split
    · have := ih (parenBalance line)
      omega
    · have := ih 0
      omega

theorem sum_length_le_intercalate (c : Char) : ∀ pieces : List (List Char),
    (pieces.map List.length).sum ≤ ([c].intercalate pieces).length
  | [] => by simp
  | [piece] => by simp
  | piece :: next :: pieces => by
    have ih := sum_length_le_intercalate c (next :: pieces)
    rw [List.intercalate_cons_cons, List.length_append, List.length_append, List.map_cons, List.sum_cons]
    omega

/-- The lines are no longer than the text. -/
theorem rust_lines_length_le (text : List Char) : ((Rust.lines text).map List.length).sum ≤ text.length := by
  have hpieces := sum_length_le_intercalate '\n' (text.splitOn '\n')
  rw [List.intercalate_splitOn] at hpieces
  refine le_trans ?_ hpieces
  rcases List.eq_nil_or_concat (text.splitOn '\n') with h | ⟨pieces, piece, h⟩
  · simp [Rust.lines, h]
  · have hstripped : ((pieces.map (Text.stripSuffix ['\r'])).map List.length).sum ≤ (pieces.map List.length).sum := by
      clear h hpieces
      induction pieces with
      | nil => exact le_refl 0
      | cons line pieces ih =>
        have hline : (Text.stripSuffix ['\r'] line).length ≤ line.length := (Text.stripSuffix_prefix _ _).length_le
        simp only [List.map_cons, List.sum_cons]
        omega
    have hlast : (((Option.filter (· ≠ []) (some piece)).toList).map List.length).sum ≤ piece.length := by
      by_cases hne : piece = [] <;> simp [Option.filter, hne]
    rw [List.concat_eq_append] at h
    simp only [Rust.lines, h, List.dropLast_concat, List.getLast?_concat, List.map_append, List.sum_append,
      List.map_cons, List.map_nil, List.sum_singleton]
    exact Nat.add_le_add hstripped hlast

/-- The count of the Rust code is an `i32`: for a source that is shorter than 2^31 characters it stays within
    one, at each of its lines. -/
theorem count_fits {source : List Char} (h : source.length < 2 ^ 31) {before rest : List (List Char)}
    (hlines : Rust.lines source = before ++ rest) : (countAfter Rust.isWhitespace 0 before).natAbs < 2 ^ 31 := by
  have hcount : (countAfter Rust.isWhitespace 0 before).natAbs ≤ _ := countAfter_natAbs_le before 0
  have hlength := rust_lines_length_le source
  rw [hlines, List.map_append, List.sum_append] at hlength
  omega

/-! ### In step -/

/-- The code's count and the scan are in step: outside a decorator a line begins one for both or for none,
    and behind each line of one, but the last of the source, the sum of the lines' balances is positive
    just when a parenthesis is open. -/
def InStep (space : Char → Bool) : State → Option Nat → Int → List (List Char) → Prop
  | _, _, _, [] => True
  | state, some depth, count, line :: rest =>
    let next := walk state 0 (some depth) line
    (rest ≠ [] → (0 < count + parenBalance line ↔ next.2.isSome)) ∧
      InStep space next.1 next.2 (count + parenBalance line) rest
  | state, none, _, line :: rest =>
    startsWith (line.dropWhile space) "@ui(" = begins state line ∧
      if begins state line then
        let next := walk state 0 (some 0) line
        (rest ≠ [] → (0 < parenBalance line ↔ next.2.isSome)) ∧ InStep space next.1 next.2 (parenBalance line) rest
      else InStep space (walk state 0 none line).1 none 0 rest

/-- The marks go on alike just when both or none are in a decorator, and are in step from there. -/
theorem marks_rest {space : Char → Bool} {count : Int} {state : State} {depth : Option Nat} {rest : List (List Char)}
    (ih : (0 < count ↔ depth.isSome) →
      (foundMarks space count rest = decoratorMarks state depth rest ↔ InStep space state depth count rest)) :
    foundMarks space count rest = decoratorMarks state depth rest ↔
      (rest ≠ [] → (0 < count ↔ depth.isSome)) ∧ InStep space state depth count rest := by
  cases rest with
  | nil => exact iff_of_true rfl ⟨fun h => absurd rfl h, trivial⟩
  | cons line rest =>
    by_cases hsync : 0 < count ↔ depth.isSome
    · rw [ih hsync, and_iff_right fun _ => hsync]
    · refine iff_of_false (fun h => hsync ?_) fun h => hsync (h.1 (List.cons_ne_nil _ _))
      rw [foundMarks] at h
      cases depth with
      | none =>
        rw [decoratorMarks] at h
        refine iff_of_false (fun hcount => ?_) Bool.false_ne_true
        rw [if_pos hcount] at h
        split at h <;> cases (List.cons.inj h).1
      | some depth =>
        rw [decoratorMarks] at h
        refine iff_of_true ?_ rfl
        by_contra hcount
        rw [if_neg hcount] at h
        split at h <;> cases (List.cons.inj h).1

/-- The code finds the decorators just when it is in step with the scan. -/
theorem foundMarks_iff {space : Char → Bool} {lines : List (List Char)} :
    ∀ {count : Int} {state : State} {depth : Option Nat}, (0 < count ↔ depth.isSome) →
      (foundMarks space count lines = decoratorMarks state depth lines ↔ InStep space state depth count lines) := by
  induction lines with
  | nil => exact fun _ => iff_of_true rfl trivial
  | cons line rest ih =>
    intro count state depth hsync
    cases depth with
    | some depth =>
      have hcount := hsync.mpr rfl
      rw [foundMarks, if_pos hcount, decoratorMarks, InStep, List.cons.injEq, and_iff_right rfl]
      exact marks_rest ih
    | none =>
      have hcount : ¬ 0 < count := fun h => Bool.false_ne_true (hsync.mp h)
      rw [foundMarks, if_neg hcount, decoratorMarks, InStep]
      by_cases hbegins : begins state line = true
      · rw [if_pos hbegins, if_pos hbegins, hbegins]
        by_cases hstart : startsWith (line.dropWhile space) "@ui(" = true
        · rw [if_pos hstart, List.cons.injEq, and_iff_right rfl, and_iff_right hstart]
          exact marks_rest ih
        · rw [if_neg hstart]
          exact iff_of_false (fun h => by cases (List.cons.inj h).1) fun h => hstart h.1
      · rw [if_neg hbegins, if_neg hbegins]
        rw [Bool.not_eq_true] at hbegins
        rw [hbegins]
        by_cases hstart : startsWith (line.dropWhile space) "@ui(" = true
        · rw [if_pos hstart]
          exact iff_of_false (fun h => by cases (List.cons.inj h).1) fun h => by rw [hstart] at h; cases h.1
        · rw [if_neg hstart, List.cons.injEq, and_iff_right rfl, and_iff_right (by simpa using hstart)]
          exact ih (iff_of_false (lt_irrefl 0) Bool.false_ne_true)

/-! ### Sources whose strings end on their lines -/

@[simp] theorem walk_closed (state : State) (skip : Nat) (line : List Char) : (walk state skip none line).2 = none := by
  induction line generalizing state skip with
  | nil => cases state <;> rfl
  | cons c cs ih =>
    cases skip with
    | succ skip => cases state <;> exact ih _ _
    | zero =>
      cases state with
      | code =>
        rw [walk]
        split_ifs <;> first | rfl | exact ih _ _
      | short quote =>
        rw [walk]
        split <;> exact ih _ _
      | long quote =>
        rw [walk]
        split <;> exact ih _ _

/-- While the decorator is open, its parentheses are counted from the state the scan is in. -/
theorem walk_open {line : List Char} : ∀ {state : State} {skip n m : Nat},
    (walk state skip (some (n + 1)) line).2 = some m → 0 < m ∧ n + 1 + balanceFrom state skip line = m := by
  induction line with
  | nil =>
    intro state skip n m h
    have hm : n + 1 = m := by cases state <;> simpa [walk] using h
    have hnil : balanceFrom state skip [] = 0 := by cases state <;> simp [balanceFrom]
    omega
  | cons c cs ih =>
    intro state skip n m h
    cases skip with
    | succ skip => cases state <;> exact ih h
    | zero =>
      cases state with
      | code =>
        rw [walk] at h
        rw [balanceFrom]
        split_ifs at h ⊢
        · exact ih h
        · exact ih h
        · have hrest := ih h
          omega
        · cases n with
          | zero => simp [close] at h
          | succ n =>
            have hrest := ih h
            omega
        · simp only [Option.some.injEq] at h
          omega
        · exact ih h
      | short quote =>
        rw [walk] at h
        rw [balanceFrom]
        split_ifs at h ⊢ <;> exact ih h
      | long quote =>
        rw [walk] at h
        rw [balanceFrom]
        split_ifs at h ⊢ <;> exact ih h

/-- The parenthesis a decorator begins with is its first. -/
theorem walk_begins {line : List Char} (h : begins .code line = true) :
    ∃ rest, walk .code 0 (some 0) line = walk .code 0 (some 1) rest ∧ parenBalance line = 1 + parenBalance rest := by
  simp only [begins, decide_true, Bool.true_and] at h
  induction line with
  | nil => cases h
  | cons c cs ih =>
    by_cases hc : c = ' ' ∨ c = '\t'
    · rw [List.dropWhile_cons_of_pos (by simpa using hc)] at h
      obtain ⟨rest, hwalk, hbalance⟩ := ih h
      refine ⟨rest, ?_, ?_⟩
      · rw [← hwalk]
        rcases hc with rfl | rfl <;> simp [walk]
      · rw [← hbalance]
        rcases hc with rfl | rfl <;> simp [parenBalance, balanceFrom]
    · rw [List.dropWhile_cons_of_neg (by simpa using hc)] at h
      obtain ⟨rest, hrest⟩ := List.isPrefixOf_iff_prefix.mp h
      have hline : c :: cs = '@' :: 'u' :: 'i' :: '(' :: rest := hrest.symm
      rw [hline]
      exact ⟨rest, by simp [walk], by simp [parenBalance, balanceFrom, Int.add_comm]⟩

/-- A line whose strings end on it, indented by what both take for white space, and with nothing left open
    behind the parenthesis that closes a decorator. -/
structure Plain (space : Char → Bool) (line : List Char) : Prop where
  code : ∀ depth, (walk .code 0 depth line).1 = .code
  indent : line.dropWhile space = line.dropWhile fun c => c = ' ' || c = '\t'
  behind : ∀ n, (walk .code 0 (some n) line).2 = none → n + parenBalance line ≤ 0

/-- The count is the number of open parentheses, or not positive when the decorator is closed. -/
def Counted (count : Int) : Option Nat → Prop
  | none => count ≤ 0
  | some n => 0 < n ∧ count = n

theorem Counted.positive_iff {count : Int} {depth : Option Nat} (h : Counted count depth) : 0 < count ↔ depth.isSome := by
  cases depth with
  | none => exact iff_of_false (not_lt_of_ge h) Bool.false_ne_true
  | some n =>
    obtain ⟨hn, rfl⟩ := h
    exact iff_of_true (by omega) rfl

theorem Plain.counted {space : Char → Bool} {line : List Char} (h : Plain space line) (n : Nat) :
    Counted (n + 1 + parenBalance line) (walk .code 0 (some (n + 1)) line).2 := by
  cases hwalk : (walk .code 0 (some (n + 1)) line).2 with
  | none =>
    have := h.behind (n + 1) hwalk
    rw [Counted]
    omega
  | some m => exact walk_open hwalk

theorem Plain.counted_first {space : Char → Bool} {line : List Char} (h : Plain space line)
    (hbegins : begins .code line = true) : Counted (parenBalance line) (walk .code 0 (some 0) line).2 := by
  cases hwalk : (walk .code 0 (some 0) line).2 with
  | none =>
    have := h.behind 0 hwalk
    rw [Counted]
    omega
  | some m =>
    obtain ⟨rest, hrest, hbalance⟩ := walk_begins hbegins
    rw [hrest] at hwalk
    have hopen : 0 < m ∧ ((0 : Nat) : Int) + 1 + parenBalance rest = m := walk_open hwalk
    rw [Counted]
    omega

/-- Sources of plain lines are in step. -/
theorem inStep_of_plain {space : Char → Bool} {all : List (List Char)} (h : ∀ line ∈ all, Plain space line) :
    ∀ {count : Int} {depth : Option Nat}, (depth ≠ none → Counted count depth) → InStep space .code depth count all := by
  induction all with
  | nil => exact fun _ => trivial
  | cons line rest ih =>
    intro count depth hcount
    have hline := h line List.mem_cons_self
    have hrest := @ih fun other hother => h other (List.mem_cons_of_mem _ hother)
    cases depth with
    | some n =>
      obtain ⟨hn, rfl⟩ := hcount (Option.some_ne_none n)
      obtain ⟨n, rfl⟩ := Nat.exists_eq_succ_of_ne_zero hn.ne'
      have hcounted := hline.counted n
      rw [InStep, hline.code]
      exact ⟨fun _ => by push_cast; exact hcounted.positive_iff, hrest fun _ => by push_cast; exact hcounted⟩
    | none =>
      rw [InStep, hline.indent]
      refine ⟨by simp [begins], ?_⟩
      split
      · rename_i hbegins
        have hcounted := hline.counted_first hbegins
        dsimp only
        rw [hline.code]
        exact ⟨fun _ => hcounted.positive_iff, hrest fun _ => hcounted⟩
      · rw [hline.code]
        exact hrest fun h => absurd rfl h

/-! ### Exactness -/

/-- The code's decorators are those of the source, in both languages; their lines are blank, the other lines are
    as they were, and the two agree. -/
structure Exact (source : List Char) : Prop where
  found : foundMarks isSpace 0 (lines source) = decoratorMarks .code none (lines source)
  rustFound : foundMarks Rust.isWhitespace 0 (Rust.lines source) = decoratorMarks .code none (lines source)
  stripped : lines (stripAkuaDecorators source) = blanked (lines source) (decoratorMarks .code none (lines source))
  agree : Rust.stripAkuaDecorators source = stripAkuaDecorators source

theorem decoratorMarks_none {all : List (List Char)} (state : State)
    (h : ∀ line ∈ all, startsWith (line.dropWhile fun c => c = ' ' || c = '\t') "@ui(" = false) :
    decoratorMarks state none all = all.map fun _ => Mark.kept := by
  induction all generalizing state with
  | nil => rfl
  | cons line rest ih =>
    have hbegins : begins state line = false := by rw [begins, h line List.mem_cons_self, Bool.and_false]
    rw [decoratorMarks, hbegins, if_neg Bool.false_ne_true,
      ih _ fun other hother => h other (List.mem_cons_of_mem _ hother)]
    rfl

@[simp] theorem blanked_kept (all : List (List Char)) : blanked all (all.map fun _ => Mark.kept) = all := by
  induction all with
  | nil => rfl
  | cons line rest ih => simpa [blanked] using ih

theorem newline_of_blanked {all : List (List Char)} {marks : List Mark} (h : ∀ line ∈ all, '\n' ∉ line) :
    ∀ line ∈ blanked all marks, '\n' ∉ line := by
  intro line hline
  obtain ⟨i, hi, rfl⟩ := List.mem_iff_getElem.mp hline
  simp only [blanked, List.getElem_zipWith]
  split
  · exact h _ (List.getElem_mem _)
  · exact List.not_mem_nil

/-- Lines are read as they were written just when none ends in a carriage return. -/
theorem lines_written_iff {all : List (List Char)} (h : ∀ line ∈ all, '\n' ∉ line) :
    lines (written all) = all ↔ ∀ line ∈ all, ¬ ['\r'] <:+ line := by
  have hsame : all.map (Text.stripSuffix ['\r']) = all ↔ ∀ line ∈ all, Text.stripSuffix ['\r'] line = line := by
    rw [← List.map_inj_left, List.map_id']
  rw [lines_written h, hsame]
  refine forall₂_congr fun line _ => ?_
  rcases Text.stripSuffix_cases ['\r'] line with ⟨x, rfl, hstrip⟩ | ⟨hno, hstrip⟩
  · rw [hstrip]
    exact iff_of_false (fun h => by simpa using congrArg List.length h) fun h => h ⟨x, rfl⟩
  · exact iff_of_true hstrip hno

/-- What is found blank is what stripping leaves blank. -/
theorem lines_strip {source : List Char} {marks : List Mark} (hmarks : decoratorMarks .code none (lines source) = marks)
    (hfound : foundMarks isSpace 0 (lines source) = marks)
    (hends : (Text.cutList "@ui(".toList source).isSome → ∀ line ∈ blanked (lines source) marks, ¬ ['\r'] <:+ line) :
    lines (stripAkuaDecorators source) = blanked (lines source) marks := by
  rw [stripAkuaDecorators]
  split
  · rename_i hsome
    rw [stripFrom_eq, hfound]
    exact (lines_written_iff (newline_of_blanked fun line => newline_of_lines)).mpr (hends hsome)
  · rename_i hnone
    rw [← hmarks, decoratorMarks_none .code fun line hline =>
      not_startsWith (Option.not_isSome_iff_eq_none.mp hnone) hline _, blanked_kept]

/-- Stripping is exact just when the count of both languages is in step with the scan, and, in a source that
    has the text of a decorator, no line that stays ends in a carriage return of its own. -/
theorem strip_exact_iff (source : List Char) : Exact source ↔
    InStep isSpace .code none 0 (lines source) ∧ InStep Rust.isWhitespace .code none 0 (lines source) ∧
      ((Text.cutList "@ui(".toList source).isSome →
        ∀ line ∈ blanked (lines source) (decoratorMarks .code none (lines source)), ¬ ['\r'] <:+ line) := by
  have hsync : (0 : Int) < 0 ↔ (none : Option Nat).isSome := iff_of_false (lt_irrefl 0) Bool.false_ne_true
  have hfree : ∀ line ∈ blanked (lines source) (decoratorMarks .code none (lines source)), '\n' ∉ line :=
    newline_of_blanked fun line => newline_of_lines
  rw [← foundMarks_iff hsync, ← foundMarks_iff hsync, ← lines_written_iff hfree]
  constructor
  · intro hexact
    have hrust := hexact.rustFound
    rw [rust_lines_eq] at hrust
    refine ⟨hexact.found, hrust, fun hsome => ?_⟩
    have hstripped := hexact.stripped
    rwa [stripAkuaDecorators, if_pos hsome, stripFrom_eq, hexact.found] at hstripped
  · rintro ⟨hfound, hrust, hends⟩
    refine ⟨hfound, by rwa [rust_lines_eq], ?_, ?_⟩
    · exact lines_strip rfl hfound fun hsome => (lines_written_iff hfree).mp (hends hsome)
    · rw [Rust.stripAkuaDecorators, stripAkuaDecorators, rust_lines_eq, rust_stripFrom_eq, stripFrom_eq, hrust, hfound]

/-- The second line of a text in triple quotes is read from outside of it: its closing quotes open a string,
    the parenthesis is never closed, and the field behind the decorator is blank. -/
theorem long_text_swallows_field :
    ¬ Exact "@ui(help=\"\"\"Two\nlines\"\"\")\nreplicas: int\n".toList := by
  intro h
  have hfound := h.found
  exact absurd hfound (by decide)

end Decorators

end Akua
