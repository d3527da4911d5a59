import Mathlib.Data.List.Induction
import Mathlib.Order.Lattice

/-! One pass over a list that keeps the best item so far among those it accepts, by a score. What it comes
    to is the first accepted item of the greatest score. -/

namespace BestSoFar

variable {α β : Type} [LinearOrder β] (accept : α → Bool) (score : α → β)

/-- An accepted item replaces one that scores less. -/
def keep (best : Option α) (x : α) : Option α :=
  if accept x && best.all fun b => decide (score b < score x) then some x else best

/-- The item is accepted, scores at least what the accepted items do, and more than those before it. -/
def First (l : List α) (b : α) : Prop :=
  ∃ before after, l = before ++ b :: after ∧ accept b = true ∧
    (∀ x ∈ before, accept x = true → score x < score b) ∧ ∀ x ∈ after, accept x = true → score x ≤ score b

variable {accept score}

theorem First.mem {l : List α} {b : α} (h : First accept score l b) : b ∈ l ∧ accept b = true := by
  obtain ⟨before, after, rfl, hb, -⟩ := h
  exact ⟨by simp, hb⟩

theorem First.le {l : List α} {b x : α} (h : First accept score l b) (hx : x ∈ l) (hax : accept x = true) :
    score x ≤ score b := by
  obtain ⟨before, after, rfl, -, hbefore, hafter⟩ := h
  rcases List.mem_append.mp hx with hx | hx
  · exact (hbefore x hx hax).le
  · rcases List.mem_cons.mp hx with rfl | hx
    · exact le_rfl
    · exact hafter x hx hax

/-- One more item: the pass has the first best of what it has seen, or nothing if it accepted nothing. -/
theorem keep_spec {l : List α} {best : Option α} (x : α)
    (hsome : ∀ b, best = some b → First accept score l b)
    (hnone : best = none → ∀ y ∈ l, accept y = false) :
    (∀ b, keep accept score best x = some b → First accept score (l ++ [x]) b) ∧
      (keep accept score best x = none → ∀ y ∈ l ++ [x], accept y = false) := by
  rw [keep]
  split
  · rename_i hkeep
    rw [Bool.and_eq_true] at hkeep
    refine ⟨fun b hb => ?_, fun h => by cases h⟩
    obtain rfl := Option.some.inj hb
    refine ⟨l, [], rfl, hkeep.1, fun y hy hay => ?_, by simp⟩
    cases best with
    | none => simp [hnone rfl y hy] at hay
    | some b =>
      have hlt : score b < score x := by simpa using hkeep.2
      exact ((hsome b rfl).le hy hay).trans_lt hlt
  · rename_i hkeep
    constructor
    · rintro b rfl
      obtain ⟨before, after, rfl, hb, hbefore, hafter⟩ := hsome b rfl
      refine ⟨before, after ++ [x], by simp, hb, hbefore, fun y hy hay => ?_⟩
      rcases List.mem_append.mp hy with hy | hy
      · exact hafter y hy hay
      · obtain rfl := List.mem_singleton.mp hy
        simpa [hay] using hkeep
    · rintro rfl
      intro y hy
      rcases List.mem_append.mp hy with hy | hy
      · exact hnone rfl y hy
      · obtain rfl := List.mem_singleton.mp hy
        simpa using hkeep

/-- The whole pass. -/
theorem foldl_keep_spec (l : List α) :
    (∀ b, l.foldl (keep accept score) none = some b → First accept score l b) ∧
      (l.foldl (keep accept score) none = none → ∀ y ∈ l, accept y = false) := by
  induction l using List.reverseRecOn with
  | nil => simp
  | append_singleton l x ih =>
    rw [List.foldl_append, List.foldl_cons, List.foldl_nil]
    exact keep_spec x ih.1 ih.2

/-- In another order of the items the pass comes to one of the same score. -/
theorem foldl_keep_perm {l l' : List α} (h : l'.Perm l) {b : α} (hb : l.foldl (keep accept score) none = some b) :
    ∃ b', l'.foldl (keep accept score) none = some b' ∧ score b' = score b := by
  have hfirst := (foldl_keep_spec l).1 b hb
  rcases hb' : l'.foldl (keep accept score) none with _ | b'
  · have hnone := (foldl_keep_spec l').2 hb' b (h.mem_iff.mpr hfirst.mem.1)
    rw [hfirst.mem.2] at hnone
    cases hnone
  · have hfirst' := (foldl_keep_spec l').1 b' hb'
    refine ⟨b', rfl, le_antisymm ?_ ?_⟩
    · exact hfirst.le (h.mem_iff.mp hfirst'.mem.1) hfirst'.mem.2
    · exact hfirst'.le (h.mem_iff.mpr hfirst.mem.1) hfirst.mem.2

end BestSoFar
