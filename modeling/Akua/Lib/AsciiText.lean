import Mathlib.Data.List.Infix
import Mathlib.Data.List.TakeWhile

/-! Codings that agree in ASCII: codes below 128 stand for themselves, and a run of others for a run of
    others, of whatever length. A word of ASCII that is found in the one is found in the other. -/

namespace AsciiText

/-- Two codings of one text. -/
inductive Alike : List Nat → List Nat → Prop
  | nil : Alike [] []
  | ascii {c : Nat} {a b : List Nat} (hc : c < 128) (h : Alike a b) : Alike (c :: a) (c :: b)
  | beyond {x y a b : List Nat} (hx : x ≠ []) (hy : y ≠ []) (hleft : ∀ u ∈ x, 128 ≤ u) (hright : ∀ u ∈ y, 128 ≤ u)
      (h : Alike a b) : Alike (x ++ a) (y ++ b)

/-- The text is empty or begins beyond ASCII. -/
def Beyond (text : List Nat) : Prop := ∀ u ∈ text.head?, 128 ≤ u

variable {a b w : List Nat}

theorem Alike.isPrefix (h : Alike a b) (hw : ∀ u ∈ w, u < 128) (hstarts : w <+: b) : w <+: a := by
  induction h generalizing w with
  | nil => exact hstarts
  | @ascii c a b hc _ ih =>
    cases w with
    | nil => exact List.nil_prefix
    | cons d w =>
      obtain ⟨rfl, hrest⟩ := List.cons_prefix_cons.mp hstarts
      exact List.cons_prefix_cons.mpr ⟨rfl, ih (fun u hu => hw u (List.mem_cons_of_mem _ hu)) hrest⟩
  | @beyond x y a b _ hy _ hright _ _ =>
    cases w with
    | nil => exact List.nil_prefix
    | cons d w =>
      obtain ⟨v, y, rfl⟩ := List.exists_cons_of_ne_nil hy
      obtain ⟨rfl, -⟩ := List.cons_prefix_cons.mp hstarts
      have hlow := hw d List.mem_cons_self
      have hhigh := hright d List.mem_cons_self
      omega

/-- A word of ASCII does not begin in a run beyond ASCII. -/
theorem infix_behind {y : List Nat} (hy : ∀ u ∈ y, 128 ≤ u) (hne : w ≠ []) (hw : ∀ u ∈ w, u < 128)
    (h : w <:+: y ++ b) : w <:+: b := by
  induction y with
  | nil => exact h
  | cons v y ih =>
    rcases List.infix_cons_iff.mp h with hstarts | hwithin
    · obtain ⟨d, w, rfl⟩ := List.exists_cons_of_ne_nil hne
      obtain ⟨rfl, -⟩ := List.cons_prefix_cons.mp hstarts
      have hlow := hw d List.mem_cons_self
      have hhigh := hy d List.mem_cons_self
      omega
    · exact ih (fun u hu => hy u (List.mem_cons_of_mem _ hu)) hwithin

theorem Alike.isInfix (h : Alike a b) (hne : w ≠ []) (hw : ∀ u ∈ w, u < 128) (hwithin : w <:+: b) : w <:+: a := by
  induction h with
  | nil => exact hwithin
  | @ascii c a b hc hrest ih =>
    rcases List.infix_cons_iff.mp hwithin with hstarts | hwithin
    · exact ((Alike.ascii hc hrest).isPrefix hw hstarts).isInfix
    · exact (ih hwithin).trans (List.suffix_cons c a).isInfix
  | @beyond x y a b _ _ _ hright _ ih =>
    exact (ih (infix_behind hright hne hw hwithin)).trans (List.suffix_append x a).isInfix

/-- Both begin with the same ASCII, and go on alike. -/
theorem Alike.split (h : Alike a b) : ∃ rest, b = a.takeWhile (· < 128) ++ rest ∧ Beyond rest ∧
    Alike (a.dropWhile (· < 128)) rest := by
  induction h with
  | nil => exact ⟨[], rfl, by simp [Beyond], .nil⟩
  | @ascii c a b hc _ ih =>
    obtain ⟨rest, rfl, hrest, halike⟩ := ih
    rw [List.takeWhile_cons_of_pos (by simpa using hc), List.dropWhile_cons_of_pos (by simpa using hc)]
    exact ⟨rest, rfl, hrest, halike⟩
  | @beyond x y a b hx hy hleft hright h _ =>
    obtain ⟨u, x, rfl⟩ := List.exists_cons_of_ne_nil hx
    obtain ⟨v, y, rfl⟩ := List.exists_cons_of_ne_nil hy
    have hu : 128 ≤ u := hleft u List.mem_cons_self
    refine ⟨v :: y ++ b, ?_, fun w hw => ?_, ?_⟩
    · rw [List.cons_append, List.cons_append, List.takeWhile_cons_of_neg (by simpa using hu), List.nil_append]
    · obtain rfl : v = w := by simpa using hw
      exact hright v List.mem_cons_self
    · rw [List.cons_append, List.dropWhile_cons_of_neg (by simpa using hu)]
      exact .beyond hx hy hleft hright h

theorem Alike.eq_nil (h : Alike [] b) : b = [] := by
  generalize ha : ([] : List Nat) = a at h
  cases h with
  | nil => rfl
  | ascii _ _ => cases ha
  | beyond hx _ _ _ _ => exact absurd (List.append_eq_nil_iff.mp ha.symm).1 hx

end AsciiText
