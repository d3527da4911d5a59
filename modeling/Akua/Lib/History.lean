import Akua.Lib.Effect

/-! Runs that append to a log. What a run appends is judged entry by entry, each against the log as
    it stood before it: a property of a whole run is put together from the properties of its steps,
    and a step may use what the entries before it brought. -/

namespace Effect

variable {σ ρ ε ε' α β : Type}

/-- Each entry of `new` has `p` after what stands before it. -/
def AllAfter (p : List ρ → ρ → Prop) : List ρ → List ρ → Prop
  | _, [] => True
  | before, r :: rest => p before r ∧ AllAfter p (before ++ [r]) rest

theorem allAfter_append {p : List ρ → ρ → Prop} {before a b : List ρ} :
    AllAfter p before (a ++ b) ↔ AllAfter p before a ∧ AllAfter p (before ++ a) b := by
  induction a generalizing before with
  | nil => simp [AllAfter]
  | cons r a ih => simp [AllAfter, ih, and_assoc]

/-- Entry by entry. -/
theorem allAfter_iff {p : List ρ → ρ → Prop} {before new : List ρ} :
    AllAfter p before new ↔ ∀ a r b, new = a ++ r :: b → p (before ++ a) r := by
  induction new generalizing before with
  | nil => simp [AllAfter]
  | cons r rest ih =>
    rw [AllAfter, ih]
    constructor
    · rintro ⟨hr, hrest⟩ a x b h
      cases a with
      | nil =>
        obtain ⟨rfl, rfl⟩ : r = x ∧ rest = b := by simpa using h
        simpa using hr
      | cons y a =>
        obtain ⟨rfl, htail⟩ : r = y ∧ rest = a ++ x :: b := by simpa using h
        have := hrest a x b htail
        rwa [List.append_assoc] at this
    · intro h
      refine ⟨by simpa using h [] r rest rfl, fun a x b htail => ?_⟩
      have := h (r :: a) x b (by rw [htail]; rfl)
      rwa [List.append_assoc]

variable (log : σ → List ρ) (p : List ρ → ρ → Prop)

/-- From `s`, the run only appends to the log, and each entry has `p` where it stands. -/
def Appends (m : Effect σ ε α) (s : σ) : Prop :=
  ∃ new, log (m s).2 = log s ++ new ∧ AllAfter p (log s) new

variable {log p} {m : Effect σ ε α} {s : σ}

theorem appends_of_same (h : log (m s).2 = log s) : Appends log p m s :=
  ⟨[], by simpa using h, trivial⟩

theorem appends_of_one {r : ρ} (h : log (m s).2 = log s ++ [r]) (hr : p (log s) r) :
    Appends log p m s :=
  ⟨[r], h, hr, trivial⟩

theorem appends_pure (a : α) : Appends log p (pure a : Effect σ ε α) s := appends_of_same rfl
theorem appends_fail (e : ε) : Appends log p (fail e : Effect σ ε α) s := appends_of_same rfl
theorem appends_ofExcept (x : Except ε α) : Appends log p (ofExcept x : Effect σ ε α) s :=
  appends_of_same rfl

theorem appends_bind {f : α → Effect σ ε β} (hm : Appends log p m s)
    (hf : ∀ a s', m s = (.ok a, s') → Appends log p (f a) s') : Appends log p (m >>= f) s := by
  obtain ⟨new, hnew, hall⟩ := hm
  rcases hms : m s with ⟨e | a, s'⟩ <;> rw [hms] at hnew
  · exact ⟨new, by rw [bind_of_error hms]; exact hnew, hall⟩
  · obtain ⟨new', hnew', hall'⟩ := hf a s' hms
    have hlog : log s' = log s ++ new := hnew
    refine ⟨new ++ new', ?_, allAfter_append.mpr ⟨hall, hlog ▸ hall'⟩⟩
    rw [bind_of_ok hms, hnew', hlog, List.append_assoc]

theorem appends_mapError {f : ε → ε'} (hm : Appends log p m s) :
    Appends log p (m.mapError f) s := hm

theorem appends_result (hm : Appends log p m s) :
    Appends log p (m.result : Effect σ ε' (Except ε α)) s := hm

theorem appends_ite {c : Prop} [Decidable c] {m' : Effect σ ε α} (ht : c → Appends log p m s)
    (he : ¬c → Appends log p m' s) : Appends log p (if c then m else m') s := by
  by_cases h : c
  · rw [if_pos h]; exact ht h
  · rw [if_neg h]; exact he h

/-- A run that keeps to a rule leaves a longer log. -/
theorem Appends.grows (h : Appends log p m s) : log s <+: log (m s).2 :=
  let ⟨new, hnew, _⟩ := h
  ⟨new, hnew.symm⟩

theorem Appends.mono {q : List ρ → ρ → Prop} (h : Appends log p m s)
    (hpq : ∀ before r after, log (m s).2 = before ++ r :: after → p before r → q before r) :
    Appends log q m s := by
  obtain ⟨new, hnew, hall⟩ := h
  refine ⟨new, hnew, allAfter_iff.mpr fun a r b hsplit => ?_⟩
  exact hpq _ r b (by rw [hnew, hsplit, List.append_assoc]) (allAfter_iff.mp hall a r b hsplit)

end Effect
