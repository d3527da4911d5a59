import Mathlib.Data.List.Lex
import Mathlib.Data.Nat.Digits.Defs
import Mathlib.Data.Prod.Lex
import Mathlib.Data.String.Basic
import Mathlib.Data.Sum.Order
import Mathlib.Order.WithBot

/-! Semantic versions: three numbers, identifiers of a prerelease and of a build. Precedence orders the
    numbers first; a prerelease comes before its release, its identifiers compare one by one, and numeric
    ones come before others. Builds do not count. -/

namespace Semver

/-- An identifier of a prerelease. -/
abbrev Identifier := ℕ ⊕ₗ String

/-- What versions are ordered by: a release is above all its prereleases. -/
abbrev Precedence := ℕ ×ₗ ℕ ×ₗ ℕ ×ₗ WithTop (List Identifier)

structure Version where
  major : ℕ
  minor : ℕ
  patch : ℕ
  prerelease : List Identifier
  build : List String
deriving DecidableEq

def Version.precedence (v : Version) : Precedence :=
  toLex (v.major, toLex (v.minor, toLex (v.patch, if v.prerelease = [] then ⊤ else (v.prerelease : WithTop _))))

/-! ### Reading -/

/-- A decimal number without leading zeros. -/
def number (digits : List Char) : Option ℕ :=
  if digits = ['0'] ∨ (digits ≠ [] ∧ digits.head? ≠ some '0' ∧ digits.all Char.isDigit) then
    some (Nat.ofDigitChars 10 digits 0)
  else none

def isIdentifierChar (c : Char) : Bool := c.isAlphanum || c = '-'

/-- An identifier of a prerelease: a number, or a text that is none. -/
def identifier (cs : List Char) : Option Identifier :=
  if cs.all Char.isDigit then (number cs).map Sum.inlₗ
  else if cs.all isIdentifierChar then some (Sum.inrₗ (String.ofList cs)) else none

def buildIdentifier (cs : List Char) : Option String :=
  if cs ≠ [] ∧ cs.all isIdentifierChar then some (String.ofList cs) else none

/-- The number that a text starts with, and what follows it. -/
def leadingNumber (cs : List Char) : Option (ℕ × List Char) :=
  (number (cs.takeWhile Char.isDigit)).map fun n => (n, cs.dropWhile Char.isDigit)

def dot : List Char → Option (List Char)
  | '.' :: cs => some cs
  | _ => none

/-- Identifiers with dots between them. -/
def identifiers {α : Type} (read : List Char → Option α) (cs : List Char) : Option (List α) :=
  (cs.splitOn '.').mapM read

/-- The prerelease and the build behind the numbers. -/
def suffix : List Char → Option (List Identifier × List String)
  | [] => some ([], [])
  | '+' :: cs => (identifiers buildIdentifier cs).map fun build => ([], build)
  | '-' :: cs => do
    let prerelease ← identifiers identifier (cs.takeWhile (· ≠ '+'))
    match cs.dropWhile (· ≠ '+') with
    | [] => some (prerelease, [])
    | _ :: rest => (identifiers buildIdentifier rest).map fun build => (prerelease, build)
  | _ => none

def parse (text : String) : Option Version := do
  let (major, cs) ← leadingNumber text.toList
  let cs ← dot cs
  let (minor, cs) ← leadingNumber cs
  let cs ← dot cs
  let (patch, cs) ← leadingNumber cs
  let (prerelease, build) ← suffix cs
  some { major, minor, patch, prerelease, build }

example : ((parse "1.2.3-rc.1+b").bind fun v => (parse "1.2.3").map fun w =>
    decide (v.precedence < w.precedence)) = some true := by decide

end Semver
