import Mathlib.Data.List.Basic

/-! A reader of TOML 1.0 for documents of strings, integers, booleans, arrays of these, tables and
    arrays of tables. Other syntax (floats, dates, other radixes, inline tables, dotted keys of pairs,
    arrays in arrays, a line ending in a backslash) it does not read: `parse` answers none, never a
    document that TOML gives another meaning. -/

namespace Toml

inductive Scalar where
  | string (value : String)
  | integer (value : Int)
  | bool (value : Bool)
deriving DecidableEq

/-- What stands right of a `=`. -/
inductive Literal where
  | scalar (value : Scalar)
  | array (values : List Scalar)
deriving DecidableEq

/-- What a key holds; `header` tells a table that has a `[header]` from one that a longer header
    implied, which may still get its own. -/
inductive Node where
  | value (value : Literal)
  | table (header : Bool) (entries : List (String × Node))
  | tables (elements : List (List (String × Node)))

abbrev Entries := List (String × Node)

/-- What a reader takes from the front of a text, and what it leaves. -/
abbrev Reader (α : Type) := List Char → Option (α × List Char)

/-! ### Strings -/

def isControl (c : Char) : Bool := (c.toNat < 0x20 && c != '\t') || c.toNat == 0x7f

def hex (c : Char) : Option Nat :=
  if 48 ≤ c.toNat ∧ c.toNat ≤ 57 then some (c.toNat - 48)
  else if 65 ≤ c.toNat ∧ c.toNat ≤ 70 then some (c.toNat - 55)
  else if 97 ≤ c.toNat ∧ c.toNat ≤ 102 then some (c.toNat - 87)
  else none

def shortEscape : Char → Option Char
  | 'b' => some '\x08'
  | 't' => some '\t'
  | 'n' => some '\n'
  | 'f' => some '\x0c'
  | 'r' => some '\r'
  | '"' => some '"'
  | '\\' => some '\\'
  | _ => none

/-- Inside a basic string: between characters, after a backslash, or with `left` hex digits of a code
    to come. -/
inductive Escape where
  | plain
  | backslash
  | code (left value : Nat)

def put (c : Char) (read : Option (List Char × List Char)) : Option (List Char × List Char) :=
  read.map fun q => (c :: q.1, q.2)

/-- The end of a string quoted with `q`, when it is here. A multi-line string ends with three quotes,
    and up to two more before them belong to it. -/
def closing (q : Char) (multi : Bool) (text : List Char) : Option (Option (List Char × List Char)) :=
  let run := (text.takeWhile (· == q)).length
  if multi then
    if run < 3 then none
    else if run ≤ 5 then some (some (List.replicate (run - 3) q, text.drop run))
    else some none
  else if run = 0 then none
  else some (some ([], text.drop 1))

/-- The characters of a string up to its end; `'` quotes a literal one, without escapes. -/
def body (q : Char) (multi : Bool) : Escape → Reader (List Char)
  | _, [] => none
  | .plain, c :: rest =>
    match closing q multi (c :: rest) with
    | some ending => ending
    | none =>
      if c = '\\' ∧ q = '"' then body q multi .backslash rest
      else if isControl c && !(multi && c == '\n') then none
      else put c (body q multi .plain rest)
  | .backslash, c :: rest =>
    if c = 'u' then body q multi (.code 4 0) rest
    else if c = 'U' then body q multi (.code 8 0) rest
    else
      match shortEscape c with
      | some d => put d (body q multi .plain rest)
      | none => none
  | .code left value, c :: rest =>
    match hex c with
    | none => none
    | some d =>
      if 1 < left then body q multi (.code (left - 1) (16 * value + d)) rest
      else if (16 * value + d).isValidChar then put (Char.ofNat (16 * value + d)) (body q multi .plain rest)
      else none

/-- A newline right after the opening quotes of a multi-line string is not part of it. -/
def afterNewline : List Char → List Char
  | '\n' :: rest => rest
  | '\r' :: '\n' :: rest => rest
  | text => text

def named (read : Option (List Char × List Char)) : Option (String × List Char) :=
  read.map fun q => (String.ofList q.1, q.2)

def string : Reader String
  | '"' :: '"' :: '"' :: rest => named (body '"' true .plain (afterNewline rest))
  | '\'' :: '\'' :: '\'' :: rest => named (body '\'' true .plain (afterNewline rest))
  | '"' :: rest => named (body '"' false .plain rest)
  | '\'' :: rest => named (body '\'' false .plain rest)
  | _ => none

/-! ### Values -/

/-- A decimal number, without leading zeros. -/
def natural : Reader Nat := fun text =>
  let digits := text.takeWhile Char.isDigit
  if digits = [] ∨ digits.head? = some '0' ∧ 1 < digits.length then none
  else some (Nat.ofDigitChars 10 digits 0, text.dropWhile Char.isDigit)

def integer : Reader Int
  | '-' :: rest => (natural rest).map fun q => (-(q.1 : Int), q.2)
  | text => (natural text).map fun q => ((q.1 : Int), q.2)

def scalar : Reader Scalar
  | 't' :: 'r' :: 'u' :: 'e' :: rest => some (.bool true, rest)
  | 'f' :: 'a' :: 'l' :: 's' :: 'e' :: rest => some (.bool false, rest)
  | text =>
    match string text with
    | some (value, rest) => some (.string value, rest)
    | none => (integer text).map fun q => (.integer q.1, q.2)

def isBlank (c : Char) : Bool := c == ' ' || c == '\t'

def isSpace (c : Char) : Bool := isBlank c || c == '\n'

/-- The rest of an array, at most `fuel` values. -/
def elements : Nat → Reader (List Scalar)
  | 0, _ => none
  | fuel + 1, text =>
    match text.dropWhile isSpace with
    | ']' :: rest => some ([], rest)
    | text =>
      match scalar text with
      | none => none
      | some (value, rest) =>
        match rest.dropWhile isSpace with
        | ',' :: rest => (elements fuel rest).map fun q => (value :: q.1, q.2)
        | ']' :: rest => some ([value], rest)
        | _ => none

def literal : Reader Literal
  | '[' :: rest => (elements (rest.length + 1) rest).map fun q => (.array q.1, q.2)
  | text => (scalar text).map fun q => (.scalar q.1, q.2)

/-! ### Lines -/

def isBare (c : Char) : Bool := c.isAlphanum || c == '_' || c == '-'

def key : Reader String
  | '"' :: rest => named (body '"' false .plain rest)
  | '\'' :: rest => named (body '\'' false .plain rest)
  | text =>
    if text.takeWhile isBare = [] then none
    else some (String.ofList (text.takeWhile isBare), text.dropWhile isBare)

/-- Keys with dots between them, at most `fuel`. -/
def path : Nat → Reader (List String)
  | 0, _ => none
  | fuel + 1, text =>
    match key text with
    | none => none
    | some (name, '.' :: rest) => (path fuel rest).map fun q => (name :: q.1, q.2)
    | some (name, rest) => some ([name], rest)

def newline : List Char → Option (List Char)
  | [] => some []
  | '\n' :: rest => some rest
  | '\r' :: '\n' :: rest => some rest
  | _ => none

/-- The end of a line, with a comment or not. -/
def lineEnd (text : List Char) : Option (List Char) :=
  match text.dropWhile isBlank with
  | '#' :: comment => newline (comment.dropWhile fun c => !isControl c)
  | rest => newline rest

inductive Statement where
  | pair (key : String) (value : Literal)
  /-- `[path]` -/
  | table (path : List String)
  /-- `[[path]]` -/
  | element (path : List String)
deriving DecidableEq

/-- A line that is no header: blank, a comment, or a pair. -/
def line (text : List Char) : Option (Option Statement × List Char) :=
  match lineEnd text with
  | some rest => some (none, rest)
  | none =>
    match key text with
    | none => none
    | some (name, rest) =>
      match rest.dropWhile isBlank with
      | '=' :: rest =>
        match literal (rest.dropWhile isBlank) with
        | some (value, rest) => (lineEnd rest).map fun rest => (some (.pair name value), rest)
        | none => none
      | _ => none

/-- One statement, to the end of its last line; none in a line that is blank or a comment. -/
def statement (text : List Char) : Option (Option Statement × List Char) :=
  match text.dropWhile isBlank with
  | '[' :: '[' :: rest =>
    match path (rest.length + 1) rest with
    | some (names, ']' :: ']' :: rest) => (lineEnd rest).map fun rest => (some (.element names), rest)
    | _ => none
  | '[' :: rest =>
    match path (rest.length + 1) rest with
    | some (names, ']' :: rest) => (lineEnd rest).map fun rest => (some (.table names), rest)
    | _ => none
  | text => line text

def statements : Nat → List Char → Option (List Statement)
  | _, [] => some []
  | 0, _ :: _ => none
  | fuel + 1, text =>
    match statement text with
    | none => none
    | some (first, rest) => (statements fuel rest).map fun list => first.toList ++ list

/-! ### Tables -/

/-- Change what `key` holds, or add it at the end. -/
def update (key : String) (f : Option Node → Option Node) : Entries → Option Entries
  | [] => (f none).map fun node => [(key, node)]
  | (name, node) :: rest =>
    if name = key then (f (some node)).map fun node => (name, node) :: rest
    else (update key f rest).map fun rest => (name, node) :: rest

/-- Change the last table of an array. -/
def updateLast (f : Entries → Option Entries) : List Entries → Option (List Entries)
  | [] => none
  | [last] => (f last).map fun last => [last]
  | first :: rest => (updateLast f rest).map fun rest => first :: rest

/-- Change the table at a path, through the last table of each array on the way. Tables that are not
    there yet are implied. -/
def within (f : Entries → Option Entries) : List String → Entries → Option Entries
  | [], entries => f entries
  | key :: path, entries =>
    update key (fun held =>
      match held with
      | none => (within f path []).map (.table false)
      | some (.table header entries) => (within f path entries).map (.table header)
      | some (.tables elements) => (updateLast (within f path) elements).map .tables
      | some (.value _) => none) entries

/-- A pair defines its key once. -/
def assign (value : Literal) : Option Node → Option Node
  | none => some (.value value)
  | some _ => none

/-- `[header]`: a new table, or one that was only implied so far. -/
def declare : Option Node → Option Node
  | none => some (.table true [])
  | some (.table false entries) => some (.table true entries)
  | some _ => none

/-- `[[header]]`: one more table of an array. -/
def append : Option Node → Option Node
  | none => some (.tables [[]])
  | some (.tables elements) => some (.tables (elements ++ [[]]))
  | some _ => none

/-- The document so far, and the path of the table that pairs go to. -/
structure State where
  root : Entries := []
  current : List String := []

/-- Change what the last key of a path holds. -/
def atPath (f : Option Node → Option Node) (path : List String) (root : Entries) : Option Entries :=
  match path.getLast? with
  | none => none
  | some last => within (update last f) path.dropLast root

def step (state : State) : Statement → Option State
  | .pair key value =>
    (within (update key (assign value)) state.current state.root).map fun root => { state with root }
  | .table path => (atPath declare path state.root).map fun root => { root, current := path }
  | .element path => (atPath append path state.root).map fun root => { root, current := path }

/-- The document a text holds. -/
def parse (text : String) : Option Entries := do
  let list ← statements text.toList.length text.toList
  let final ← list.foldlM step {}
  some final.root

/-! ### How tables are built -/

theorem update_absent {key : String} {f : Option Node → Option Node} : ∀ {entries : Entries},
    key ∉ entries.map Prod.fst → update key f entries = (f none).map fun node => entries ++ [(key, node)]
  | [], _ => by simp [update]
  | (name, node) :: rest, h => by
    obtain ⟨hne, hrest⟩ := not_or.mp (fun hmem => h (List.mem_cons.mpr hmem))
    rw [update, if_neg fun heq => hne heq.symm, update_absent hrest, Option.map_map]
    rfl

theorem update_last {key : String} {f : Option Node → Option Node} {node : Node} : ∀ {entries : Entries},
    key ∉ entries.map Prod.fst →
    update key f (entries ++ [(key, node)]) = (f (some node)).map fun node => entries ++ [(key, node)]
  | [], _ => by simp [update]
  | (name, held) :: rest, h => by
    obtain ⟨hne, hrest⟩ := not_or.mp (fun hmem => h (List.mem_cons.mpr hmem))
    rw [List.cons_append, update, if_neg fun heq => hne heq.symm, update_last hrest, Option.map_map]
    rfl

theorem updateLast_concat {f : Entries → Option Entries} {last : Entries} : ∀ {elements : List Entries},
    updateLast f (elements ++ [last]) = (f last).map fun last => elements ++ [last]
  | [] => by simp [updateLast]
  | [first] => by simp [updateLast, Option.map_map, Function.comp_def]
  | first :: next :: rest => by
    have ih : updateLast f (next :: rest ++ [last]) = (f last).map fun last => next :: rest ++ [last] :=
      updateLast_concat
    rw [List.cons_append, List.cons_append, updateLast, ← List.cons_append, ih, Option.map_map]
    · rfl
    · simp

theorem within_append {f : Entries → Option Entries} (path : List String) : ∀ (path' : List String) (entries : Entries),
    within f (path' ++ path) entries = within (within f path) path' entries
  | [], _ => rfl
  | key :: path', entries => by
    have ih : within f (path' ++ path) = within (within f path) path' := funext (within_append path path')
    rw [List.cons_append, within, within, ih]

theorem atPath_concat (f : Option Node → Option Node) (path : List String) (key : String) (root : Entries) :
    atPath f (path ++ [key]) root = within (update key f) path root := by
  simp [atPath]

/-- The document `plug inner` holds the table `inner` at `path`, and what is changed there is changed
    in it. -/
def Focus (path : List String) (plug : Entries → Entries) : Prop :=
  ∀ f inner, within f path (plug inner) = (f inner).map plug

theorem Focus.root : Focus [] id := fun f inner => by rw [within, id, Option.map_id, id]

section Focus

variable {path : List String} {plug : Entries → Entries} {entries : Entries} {key : String}

/-- The table of the last key. -/
theorem Focus.table (h : Focus path plug) (hkey : key ∉ entries.map Prod.fst) (header : Bool) :
    Focus (path ++ [key]) fun inner => plug (entries ++ [(key, .table header inner)]) := by
  intro f inner
  rw [within_append, h, within, update_last hkey]
  simp only [within, Option.map_map, Function.comp_def]

/-- The last table of the array of the last key. -/
theorem Focus.element (h : Focus path plug) (hkey : key ∉ entries.map Prod.fst) (elements : List Entries) :
    Focus (path ++ [key]) fun inner => plug (entries ++ [(key, .tables (elements ++ [inner]))]) := by
  intro f inner
  rw [within_append, h, within, update_last hkey]
  simp only [within, updateLast_concat, Option.map_map, Function.comp_def]

theorem step_pair (h : Focus path plug) (hkey : key ∉ entries.map Prod.fst) (value : Literal) :
    step ⟨plug entries, path⟩ (.pair key value) = some ⟨plug (entries ++ [(key, .value value)]), path⟩ := by
  simp only [step, h (update key (assign value)) entries, update_absent hkey, assign, Option.map_some]

variable (current : List String)

theorem step_table (h : Focus path plug) (hkey : key ∉ entries.map Prod.fst) :
    step ⟨plug entries, current⟩ (.table (path ++ [key])) =
      some ⟨plug (entries ++ [(key, .table true [])]), path ++ [key]⟩ := by
  simp only [step, atPath_concat, h (update key declare) entries, update_absent hkey, declare, Option.map_some]

theorem step_element (h : Focus path plug) (hkey : key ∉ entries.map Prod.fst) :
    step ⟨plug entries, current⟩ (.element (path ++ [key])) =
      some ⟨plug (entries ++ [(key, .tables [[]])]), path ++ [key]⟩ := by
  simp only [step, atPath_concat, h (update key append) entries, update_absent hkey, append, Option.map_some]

theorem step_next (h : Focus path plug) (hkey : key ∉ entries.map Prod.fst) (elements : List Entries) :
    step ⟨plug (entries ++ [(key, .tables elements)]), current⟩ (.element (path ++ [key])) =
      some ⟨plug (entries ++ [(key, .tables (elements ++ [[]]))]), path ++ [key]⟩ := by
  simp only [step, atPath_concat, h (update key append) _, update_last hkey, append, Option.map_some]

/-- The statement is a header under `path`. -/
def Under (path : List String) (statement : Statement) : Prop :=
  ∃ key more, statement = .table (path ++ key :: more) ∨ statement = .element (path ++ key :: more)

theorem Under.mono {more : List String} {statement : Statement} (h : Under (path ++ more) statement) :
    Under path statement := by
  obtain ⟨key, rest, h⟩ := h
  cases more with
  | nil => exact ⟨key, rest, by simpa using h⟩
  | cons first more => exact ⟨first, more ++ key :: rest, by simpa using h⟩

/-- A table that is not there is made by a header under it, as if it had been there empty. -/
theorem atPath_implied (h : Focus path plug) (hkey : key ∉ entries.map Prod.fst) (f : Option Node → Option Node)
    (next : String) (more : List String) :
    atPath f (path ++ [key] ++ next :: more) (plug entries) =
      atPath f (path ++ [key] ++ next :: more) (plug (entries ++ [(key, .table false [])])) := by
  obtain ⟨init, last, hmore⟩ : ∃ init last, next :: more = init ++ [last] :=
    ⟨(next :: more).dropLast, (next :: more).getLast (by simp), (List.dropLast_append_getLast _).symm⟩
  rw [hmore, ← List.append_assoc, atPath_concat, atPath_concat, List.append_assoc, within_append, within_append,
    h, h, List.singleton_append, within, within, update_absent hkey, update_last hkey]

theorem step_implied (h : Focus path plug) (hkey : key ∉ entries.map Prod.fst) {statement : Statement}
    (hunder : Under (path ++ [key]) statement) :
    step ⟨plug entries, current⟩ statement = step ⟨plug (entries ++ [(key, .table false [])]), current⟩ statement := by
  obtain ⟨next, more, rfl | rfl⟩ := hunder
  · simp only [step, atPath_implied h hkey]
  · simp only [step, atPath_implied h hkey]

end Focus

end Toml
