import Mathlib.Computability.RegularExpressions

/-! Which symbols the words of a regular expression can begin with, and which can occur in them, read off
    the expression; and expressions for lists of symbols and of words. -/

namespace RegularHeads

open RegularExpression

variable {α : Type}

/-- One of the symbols. -/
def anyOf (symbols : List α) : RegularExpression α := symbols.foldr (fun a rest => char a + rest) 0

/-- One word. -/
def word (symbols : List α) : RegularExpression α := symbols.foldr (fun a rest => char a * rest) 1

/-- One of the words. -/
def anyWord (words : List (List α)) : RegularExpression α := words.foldr (fun w rest => word w + rest) 0

def optional (P : RegularExpression α) : RegularExpression α := P + 1

def atLeastOnce (P : RegularExpression α) : RegularExpression α := P * star P

/-- What a word can begin with. -/
def heads : RegularExpression α → List α
  | .zero | .epsilon => []
  | .char a => [a]
  | .plus P Q => heads P ++ heads Q
  | .comp P Q => heads P ++ if P.matchEpsilon then heads Q else []
  | .star P => heads P

/-- What can occur in a word. -/
def symbols : RegularExpression α → List α
  | .zero | .epsilon => []
  | .char a => [a]
  | .plus P Q | .comp P Q => symbols P ++ symbols Q
  | .star P => symbols P

theorem matchEpsilon_of_nil [DecidableEq α] {P : RegularExpression α} (h : [] ∈ P.matches') :
    P.matchEpsilon = true :=
  (rmatch_iff_matches' P []).mpr h

theorem mem_heads [DecidableEq α] {P : RegularExpression α} {a : α} {w : List α} (h : a :: w ∈ P.matches') :
    a ∈ heads P := by
  induction P generalizing w with
  | zero => cases h
  | epsilon => cases h
  | char b =>
    obtain ⟨rfl, -⟩ := List.cons.inj (Set.mem_singleton_iff.mp h)
    exact List.mem_singleton_self a
  | plus P Q ihP ihQ =>
    rcases h with h | h
    · exact List.mem_append_left _ (ihP h)
    · exact List.mem_append_right _ (ihQ h)
  | comp P Q ihP ihQ =>
    obtain ⟨x, hx, y, hy, hw⟩ := Language.mem_mul.mp h
    rcases x with _ | ⟨b, x⟩
    · refine List.mem_append_right _ ?_
      rw [if_pos (matchEpsilon_of_nil hx)]
      exact ihQ (w := w) (hw ▸ hy)
    · obtain ⟨rfl, -⟩ := List.cons.inj hw
      exact List.mem_append_left _ (ihP hx)
  | star P ih =>
    obtain ⟨words, hw, hwords⟩ := Language.mem_kstar.mp h
    induction words with
    | nil => cases hw
    | cons x words ihwords =>
      rcases x with _ | ⟨b, x⟩
      · exact ihwords hw fun y hy => hwords y (List.mem_cons_of_mem _ hy)
      · obtain ⟨rfl, -⟩ := List.cons.inj hw
        exact ih (hwords _ List.mem_cons_self)

theorem subset_symbols {P : RegularExpression α} {w : List α} (h : w ∈ P.matches') : w ⊆ symbols P := by
  induction P generalizing w with
  | zero => cases h
  | epsilon =>
    obtain rfl : w = [] := h
    exact List.nil_subset _
  | char b =>
    obtain rfl : w = [b] := h
    exact List.Subset.refl _
  | plus P Q ihP ihQ =>
    rw [symbols]
    exact h.elim (fun hw => List.subset_append_of_subset_left _ (ihP hw))
      fun hw => List.subset_append_of_subset_right _ (ihQ hw)
  | comp P Q ihP ihQ =>
    rw [symbols]
    obtain ⟨x, hx, y, hy, rfl⟩ := Language.mem_mul.mp h
    exact List.append_subset.mpr
      ⟨List.subset_append_of_subset_left _ (ihP hx), List.subset_append_of_subset_right _ (ihQ hy)⟩
  | star P ih =>
    obtain ⟨words, rfl, hwords⟩ := Language.mem_kstar.mp h
    intro a ha
    obtain ⟨x, hx, hax⟩ := List.mem_flatten.mp ha
    exact ih (hwords x hx) hax

/-- A word that is not empty begins with one of the heads. -/
theorem exists_head [DecidableEq α] {P : RegularExpression α} {w : List α} (h : w ∈ P.matches')
    (hP : P.matchEpsilon = false) : ∃ a rest, w = a :: rest ∧ a ∈ heads P := by
  rcases w with _ | ⟨a, rest⟩
  · rw [matchEpsilon_of_nil h] at hP
    cases hP
  · exact ⟨a, rest, rfl, mem_heads h⟩

theorem matches_word (w : List α) : (word w).matches' = {w} := by
  induction w with
  | nil => rfl
  | cons a w ih =>
    rw [word, List.foldr_cons, matches'_mul, matches'_char]
    rw [word] at ih
    rw [ih]
    ext x
    constructor
    · rintro ⟨y, rfl, z, rfl, rfl⟩
      rfl
    · rintro rfl
      exact ⟨[a], rfl, w, rfl, rfl⟩

theorem mem_anyWord {words : List (List α)} {w : List α} : w ∈ (anyWord words).matches' ↔ w ∈ words := by
  induction words with
  | nil => exact iff_of_false (Language.notMem_zero w) List.not_mem_nil
  | cons x words ih =>
    rw [anyWord, List.foldr_cons, matches'_add, matches_word, List.mem_cons]
    exact or_congr Iff.rfl ih

end RegularHeads
