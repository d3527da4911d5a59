import Mathlib.Data.List.Sort

/-! The longest of the candidates that match, found by sorting them by size and taking the first match.
    Where matching candidates of one size are one candidate, the order they come in does not matter. -/

namespace LongestPrefix

variable {α : Type}

/-- The first match, of the candidates sorted with the largest first. -/
def longest (size : α → Nat) (matching : α → Bool) (candidates : List α) : Option α :=
  (candidates.insertionSort fun a b => size b ≤ size a).find? matching

variable {size : α → Nat} {matching : α → Bool} {candidates : List α}

theorem longest_spec {a : α} (h : longest size matching candidates = some a) :
    a ∈ candidates ∧ matching a = true ∧ ∀ b ∈ candidates, matching b = true → size b ≤ size a := by
  rw [longest, List.find?_eq_some_iff_append] at h
  obtain ⟨hmatch, before, behind, hsorted, hbefore⟩ := h
  have hmem : ∀ b, b ∈ before ++ a :: behind ↔ b ∈ candidates := fun b => by
    rw [← hsorted, List.mem_insertionSort]
  have : Std.Total fun a b : α => size b ≤ size a := ⟨fun a b => le_total (size b) (size a)⟩
  have : IsTrans α fun a b => size b ≤ size a := ⟨fun _ _ _ h h' => le_trans h' h⟩
  have hpairwise := List.pairwise_insertionSort (fun a b => size b ≤ size a) candidates
  rw [hsorted, List.pairwise_append, List.pairwise_cons] at hpairwise
  refine ⟨(hmem a).mp (by simp), hmatch, fun b hb hmatch' => ?_⟩
  rcases List.mem_append.mp ((hmem b).mpr hb) with hin | hin
  · have := hbefore b hin
    simp [hmatch'] at this
  · rcases List.mem_cons.mp hin with rfl | hin
    · exact le_rfl
    · exact hpairwise.2.1.1 b hin

theorem longest_isSome : (longest size matching candidates).isSome ↔ ∃ a ∈ candidates, matching a = true := by
  rw [longest, List.find?_isSome]
  simp only [List.mem_insertionSort]

/-- What is found, when a matching candidate is told by its size. -/
theorem longest_eq_some_iff (hinj : ∀ a b, matching a = true → matching b = true → size a = size b → a = b)
    {a : α} : longest size matching candidates = some a ↔
      a ∈ candidates ∧ matching a = true ∧ ∀ b ∈ candidates, matching b = true → size b ≤ size a := by
  refine ⟨longest_spec, fun ⟨hmem, hmatch, hmax⟩ => ?_⟩
  obtain ⟨b, hb⟩ := Option.isSome_iff_exists.mp (longest_isSome.mpr ⟨a, hmem, hmatch⟩)
  obtain ⟨hmem', hmatch', hmax'⟩ := longest_spec hb
  rw [hb, hinj b a hmatch' hmatch (le_antisymm (hmax b hmem' hmatch') (hmax' a hmem hmatch))]

end LongestPrefix
