import Akua.Docstrings

/-! Import-only stubs for Akua-Package dependencies: the upstream's `import` and `schema` declarations
    and a `render` lambda bound to its alias, found line by line. -/

namespace Akua

namespace PackageStubs

/-- Rust's `str::lines`: no trailing empty line, `\r\n` stripped. -/
def lines (text : List Char) : List (List Char) :=
  let all := splitLines text
  if all.getLast? = some [] then all.dropLast else all

/-- `text.startsWith(p)`. -/
def startsWith (text : List Char) (p : String) : Bool := p.toList.isPrefixOf text

def trimStart (text : List Char) : List Char := text.dropWhile isSpace

def trimmed (text : List Char) : List Char := (text.dropWhile isSpace).rdropWhile isSpace

/-! ### Decorators -/

/-- Where a scan over KCL is: in code, in a string of one quote, or of three. -/
inductive State where
  | code
  | short (quote : Char)
  | long (quote : Char)
deriving DecidableEq

/-- Net parenthesis balance of a line, ignoring string literals and comments; `skip` characters are
    already read. -/
def balanceFrom : State → Nat → List Char → Int
  | _, _, [] => 0
  | state, skip + 1, _ :: cs => balanceFrom state skip cs
  | .code, 0, c :: cs =>
    if [c, c, c].isPrefixOf (c :: cs) ∧ (c = '"' ∨ c = '\'') then balanceFrom (.long c) 2 cs
    else if c = '"' ∨ c = '\'' then balanceFrom (.short c) 0 cs
    else if c = '(' then balanceFrom .code 0 cs + 1
    else if c = ')' then balanceFrom .code 0 cs - 1
    else if c = '#' then 0
    else balanceFrom .code 0 cs
  | .short quote, 0, c :: cs =>
    if c = '\\' then balanceFrom (.short quote) 1 cs
    else balanceFrom (if c = quote then .code else .short quote) 0 cs
  | .long quote, 0, c :: cs =>
    if [quote, quote, quote].isPrefixOf (c :: cs) then balanceFrom .code 2 cs
    else balanceFrom (.long quote) 0 cs

def parenBalance (line : List Char) : Int := balanceFrom .code 0 line

/-- Lines of a decorator become empty, until its parentheses are closed. -/
def stripFrom (depth : Int) : List (List Char) → List Char
  | [] => []
  | line :: rest =>
    if 0 < depth then '\n' :: stripFrom (depth + parenBalance line) rest
    else if startsWith (trimStart line) "@ui(" then '\n' :: stripFrom (parenBalance line) rest
    else line ++ '\n' :: stripFrom 0 rest

/-- Blank out `@ui(...)` decorators; lines are kept. -/
def stripAkuaDecorators (source : List Char) : List Char :=
  if (Text.cutList "@ui(".toList source).isSome then stripFrom 0 (lines source) else source

/-! ### Schemas and imports -/

/-- The text up to the first white space. -/
def firstWord (text : List Char) : List Char := text.takeWhile fun c => !isSpace c

/-- `import a.b.c as d` names `d`; `import a.b.c` names `c`. -/
def importedName (line : List Char) : List Char :=
  let target := trimmed ((trimmed (line.takeWhile (· ≠ '#'))).drop "import ".length)
  match Text.cutList " as ".toList.reverse target.reverse with
  | some (name, _) => firstWord (trimmed name.reverse)
  | none => (firstWord target).rtakeWhile (· ≠ '.')

def isWord (c : Char) : Bool := c.isAlphanum || c = '_'

/-- Whether the text uses `identifier.` outside comments and string literals; `before` is the character
    before, and `skip` characters are already read. -/
def referencesFrom (identifier : List Char) : State → Bool → Nat → Option Char → List Char → Bool
  | _, _, _, _, [] => false
  | state, comment, skip + 1, _, c :: cs => referencesFrom identifier state comment skip (some c) cs
  | state, true, 0, _, c :: cs => referencesFrom identifier state (decide (c ≠ '\n')) 0 (some c) cs
  | .code, false, 0, before, c :: cs =>
    if c = '#' then referencesFrom identifier .code true 0 (some c) cs
    else if c = '"' ∨ c = '\'' then
      if [c, c, c].isPrefixOf (c :: cs) then referencesFrom identifier (.long c) false 2 (some c) cs
      else referencesFrom identifier (.short c) false 0 (some c) cs
    else
      (identifier.isPrefixOf (c :: cs) && !(before.map isWord).getD false &&
        decide (((c :: cs).drop identifier.length).head? = some '.')) ||
      referencesFrom identifier .code false 0 (some c) cs
  | .short quote, false, 0, _, c :: cs =>
    if c = '\\' then referencesFrom identifier (.short quote) false 1 (some c) cs
    else referencesFrom identifier (if c = quote then .code else .short quote) false 0 (some c) cs
  | .long quote, false, 0, _, c :: cs =>
    if [quote, quote, quote].isPrefixOf (c :: cs) then referencesFrom identifier .code false 2 (some c) cs
    else referencesFrom identifier (.long quote) false 0 (some c) cs

def referencesModule (source identifier : List Char) : Bool :=
  referencesFrom identifier .code false 0 none source

structure Extracted where
  /-- The import lines, each with the name it binds. -/
  imports : List (List Char × List Char) := []
  schemas : List Char := []
  inSchema : Bool := false

/-- One line of a `package.k`. -/
def extractLine (found : Extracted) (line : List Char) : Extracted :=
  let trimmed := trimStart line
  let blank := trimmed = []
  let indented := line.head? = some ' ' ∨ line.head? = some '\t'
  let comment := trimmed.head? = some '#'
  if found.inSchema ∧ (blank ∨ indented ∨ comment) then
    { found with schemas := found.schemas ++ line ++ ['\n'] }
  else
    let found := { found with inSchema := false }
    if blank then
      -- runs of blank lines collapse to one separator
      if ['\n', '\n'].isSuffixOf found.schemas then found
      else { found with schemas := found.schemas ++ ['\n'] }
    else if indented then found
    else if startsWith trimmed "import " then
      if startsWith trimmed "import charts." then found
      else { found with imports := found.imports ++ [(line, importedName trimmed)] }
    else if startsWith trimmed "schema " ∨ startsWith trimmed "protocol " then
      { found with inSchema := true, schemas := found.schemas ++ line ++ ['\n'] }
    else found

/-- The `schema` and `protocol` blocks of a `package.k`, and the imports they reference. -/
def extractSchemas (source : List Char) : List Char :=
  let found := (lines (stripAkuaDecorators source)).foldl extractLine {}
  let used := (found.imports.filter fun entry => referencesModule found.schemas entry.2).flatMap
    fun entry => entry.1 ++ ['\n']
  let out := used ++ (if used ≠ [] ∧ trimmed found.schemas ≠ [] then ['\n'] else []) ++ found.schemas
  if ['\n'].isSuffixOf out then out else out ++ ['\n']

/-! ### The stub -/

/-- The stub up to the text of the alias. -/
def stubHead (source : List Char) : List Char :=
  let schemas := extractSchemas source
  let parameter := if (schemas.splitOn '\n').any fun line => startsWith (trimStart line) "schema Input"
    then "Input" else "\x7bstr:\x7d"
  let out := "# Akua-package stub. Auto-generated; do not edit.\nimport akua.pkg as _pkg\n\n".toList ++ schemas
  let out := if ['\n', '\n'].isSuffixOf out then out else out ++ ['\n']
  out ++ ("render = lambda inputs: " ++ parameter ++ " -> [\x7bstr:\x7d] \x7b\n" ++
    "    _flat = \x7b**inputs\x7d\n" ++
    "    _pkg.render(_pkg.Render \x7b\n" ++
    "        package = ").toList

/-- The stub behind the literal of the alias. -/
def stubTail : List Char :=
  ("\n        inputs = _flat\n" ++ "    \x7d)\n" ++ "\x7d\n").toList

/-- The stub module for dependency `alias`: its schemas and a `render` lambda. -/
def stubModule (alias' source : String) : String :=
  String.ofList (stubHead source.toList ++ ['"'] ++ alias'.toList ++ ['"'] ++ stubTail)

end PackageStubs

end Akua
