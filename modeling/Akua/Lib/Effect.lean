import Mathlib.Algebra.Ring.Nat
import Mathlib.Data.List.Forall2

/-! Computations that may fail. A `Reading` only looks at a state; an `Effect` changes it, and keeps
    the state it reached also when it fails — a failed run leaves behind what it did before it
    failed. The file gives the sequencing rules (`bind_ok` takes a successful run apart, one step
    at a time) and the invariant rules (`Keeps`): a property of states that every step keeps is
    kept by the whole run, also by a run that fails half way. -/

/-- A computation that looks at a state and returns a value or fails. -/
def Reading (σ ε α : Type) : Type := σ → Except ε α

/-- A computation from a state to a result (or failure) and the state it ends in. -/
def Effect (σ ε α : Type) : Type := σ → Except ε α × σ

/-- Run `f` on each element in turn, stopping at the first failure. -/
def forEach {m : Type → Type} [Monad m] {α β : Type} (f : α → m β) : List α → m (List β)
  | [] => pure []
  | x :: xs => do
    let y ← f x
    let ys ← forEach f xs
    pure (y :: ys)

theorem except_ok_bind {ε α β : Type} (a : α) (f : α → Except ε β) :
    ((.ok a : Except ε α) >>= f) = f a := rfl

/-- A result that comes from two steps comes from a result of the first. -/
theorem except_bind_ok {ε α β : Type} {x : Except ε α} {f : α → Except ε β} {b : β} :
    (x >>= f) = .ok b ↔ ∃ a, x = .ok a ∧ f a = .ok b := by
  constructor
  · intro h
    cases x with
    | error e => cases h
    | ok a => exact ⟨a, rfl, h⟩
  · rintro ⟨a, rfl, h⟩
    exact h

theorem except_mapError_ok {ε ε' α : Type} {x : Except ε α} {g : ε → ε'} {a : α} :
    x.mapError g = .ok a ↔ x = .ok a := by
  cases x <;> simp [Except.mapError]

/-- A pass that succeeds succeeded on each element. -/
theorem except_forEach_ok {ε α β : Type} {f : α → Except ε β} : ∀ {l : List α} {ys : List β},
    forEach f l = .ok ys → ∀ x ∈ l, ∃ y, f x = .ok y
  | [], _, _, _, hx => absurd hx List.not_mem_nil
  | x :: l, _, h, z, hz => by
      obtain ⟨y, hy, h⟩ := except_bind_ok.mp h
      obtain ⟨rest, hrest, -⟩ := except_bind_ok.mp h
      rcases List.mem_cons.mp hz with rfl | hz
      · exact ⟨y, hy⟩
      · exact except_forEach_ok hrest z hz

/-- The results of a pass are the results on its elements. -/
theorem except_forEach_eq_ok {ε α β : Type} {f : α → Except ε β} {l : List α} {ys : List β} :
    forEach f l = .ok ys ↔ List.Forall₂ (fun x y => f x = .ok y) l ys := by
  induction l generalizing ys with
  | nil =>
    constructor
    · intro h
      obtain rfl : [] = ys := Except.ok.inj h
      exact .nil
    · intro h
      cases h
      rfl
  | cons x l ih =>
    rw [forEach, except_bind_ok]
    constructor
    · rintro ⟨y, hy, h⟩
      obtain ⟨rest, hrest, h⟩ := except_bind_ok.mp h
      obtain rfl : y :: rest = ys := Except.ok.inj h
      exact .cons hy (ih.mp hrest)
    · intro h
      obtain _ | ⟨hy, hrest⟩ := h
      exact ⟨_, hy, except_bind_ok.mpr ⟨_, ih.mpr hrest, rfl⟩⟩

/-- A pass succeeds when it succeeds on each element. -/
theorem except_forEach_iff {ε α β : Type} {f : α → Except ε β} {l : List α} :
    (∃ ys, forEach f l = .ok ys) ↔ ∀ x ∈ l, ∃ y, f x = .ok y := by
  refine ⟨fun ⟨_, h⟩ => except_forEach_ok h, fun h => ?_⟩
  induction l with
  | nil => exact ⟨[], rfl⟩
  | cons x l ih =>
    obtain ⟨y, hy⟩ := h x List.mem_cons_self
    obtain ⟨ys, hys⟩ := ih fun z hz => h z (List.mem_cons_of_mem _ hz)
    exact ⟨y :: ys, by rw [forEach, hy, except_ok_bind, hys]; rfl⟩

theorem exists_of_forall₂ {α β : Type} {R : α → β → Prop} {l : List α} {m : List β}
    (h : List.Forall₂ R l m) : ∀ {x : α}, x ∈ l → ∃ y ∈ m, R x y := by
  induction h with
  | nil => exact fun hx => absurd hx List.not_mem_nil
  | cons hxy _ ih =>
    intro x hx
    rcases List.mem_cons.mp hx with rfl | hx
    · exact ⟨_, List.mem_cons_self, hxy⟩
    · obtain ⟨y, hy, hR⟩ := ih hx
      exact ⟨y, List.mem_cons_of_mem _ hy, hR⟩

namespace Reading

variable {σ ε ε' α β : Type}

instance : Monad (Reading σ ε) where
  pure a := fun _ => .ok a
  bind m f := fun s =>
    match m s with
    | .ok a => f a s
    | .error e => .error e

/-- Fail with `e`. -/
def fail (e : ε) : Reading σ ε α := fun _ => .error e

/-- A pure computation that may fail. -/
def ofExcept (x : Except ε α) : Reading σ ε α := fun _ => x

/-- Translate the failure. -/
def mapError (f : ε → ε') (m : Reading σ ε α) : Reading σ ε' α := fun s => (m s).mapError f

/-- The value of `m`, or `a` when it fails. -/
def orElseSucceed (m : Reading σ ε α) (a : α) : Reading σ ε' α := fun s => .ok ((m s).toOption.getD a)

/-- Hand the failure over as no value. -/
def option (m : Reading σ ε α) : Reading σ ε' (Option α) := fun s => .ok (m s).toOption

variable {m : Reading σ ε α} {f : α → Reading σ ε β} {s : σ}

@[simp] theorem pure_run (a : α) : (pure a : Reading σ ε α) s = .ok a := rfl
@[simp] theorem fail_run (e : ε) : (fail e : Reading σ ε α) s = .error e := rfl
@[simp] theorem ofExcept_run (x : Except ε α) : (ofExcept x : Reading σ ε α) s = x := rfl
@[simp] theorem orElseSucceed_run (a : α) :
    (orElseSucceed m a : Reading σ ε' α) s = .ok ((m s).toOption.getD a) := rfl
@[simp] theorem option_run : (option m : Reading σ ε' (Option α)) s = .ok (m s).toOption := rfl

theorem bind_of_ok {a : α} (h : m s = .ok a) : (m >>= f) s = f a s := by
  show (match m s with
    | .ok a => f a s
    | .error e => .error e) = _
  rw [h]

theorem bind_of_error {e : ε} (h : m s = .error e) : (m >>= f) s = .error e := by
  show (match m s with
    | .ok a => f a s
    | .error e => .error e) = _
  rw [h]

/-- A successful sequence is a successful first half, then a successful second half. -/
theorem bind_ok {b : β} : (m >>= f) s = .ok b ↔ ∃ a, m s = .ok a ∧ f a s = .ok b := by
  rcases hm : m s with e | a
  · rw [bind_of_error hm]; simp
  · rw [bind_of_ok hm]; simp

theorem bind_assoc {γ : Type} (m : Reading σ ε α) (f : α → Reading σ ε β) (g : β → Reading σ ε γ) :
    (m >>= f) >>= g = m >>= fun a => f a >>= g := by
  funext s
  rcases hm : m s with e | a
  · rw [bind_of_error hm, bind_of_error (bind_of_error hm)]
  · rw [bind_of_ok hm]
    rcases hf : f a s with e | b
    · rw [bind_of_error hf, bind_of_error ((bind_of_ok hm).trans hf)]
    · rw [bind_of_ok hf, bind_of_ok ((bind_of_ok hm).trans hf)]

theorem map_run {g : α → β} : (g <$> m) s = (m s).map g := by
  show (m >>= fun a => pure (g a)) s = _
  rcases hm : m s with e | a
  · rw [bind_of_error hm]; rfl
  · rw [bind_of_ok hm]; rfl

theorem mapError_ok {g : ε → ε'} {a : α} : mapError g m s = .ok a ↔ m s = .ok a := by
  unfold mapError
  rcases m s with e | a' <;> simp [Except.mapError]

theorem mapError_pure (g : ε → ε') (a : α) : mapError g (pure a : Reading σ ε α) = pure a := rfl

theorem mapError_bind (g : ε → ε') :
    mapError g (m >>= f) = mapError g m >>= fun a => mapError g (f a) := by
  funext s
  rcases hm : m s with e | a
  · rw [bind_of_error (e := g e) (by simp [mapError, hm, Except.mapError])]
    simp [mapError, bind_of_error hm, Except.mapError]
  · rw [bind_of_ok (a := a) (by simp [mapError, hm, Except.mapError])]
    simp [mapError, bind_of_ok hm]

theorem mapError_forEach (g : ε → ε') (l : List α) :
    mapError g (forEach f l) = forEach (fun x => mapError g (f x)) l := by
  induction l with
  | nil => rfl
  | cons x l ih => simp only [forEach, mapError_bind, mapError_pure, ih]

/-- A pass over a list that succeeds ran on each element, on the same state. -/
theorem forEach_ok : ∀ {l : List α} {ys : List β},
    forEach f l s = .ok ys ↔ List.Forall₂ (fun x y => f x s = .ok y) l ys
  | [], ys => by
      rw [List.forall₂_nil_left_iff, forEach, pure_run, Except.ok.injEq]
      exact eq_comm
  | x :: l, ys => by
      rw [forEach, bind_ok, List.forall₂_cons_left_iff]
      refine ⟨fun ⟨y, hy, h⟩ => ?_, fun ⟨y, rest, hy, hrest, hys⟩ => ⟨y, hy, ?_⟩⟩
      · obtain ⟨rest, hrest, h⟩ := bind_ok.mp h
        cases h
        exact ⟨y, rest, hy, forEach_ok.mp hrest, rfl⟩
      · rw [bind_of_ok (forEach_ok.mpr hrest), hys]
        rfl

/-- A sequence fails in its first half, or in its second half. -/
theorem bind_error {e : ε} :
    (m >>= f) s = .error e ↔ m s = .error e ∨ ∃ a, m s = .ok a ∧ f a s = .error e := by
  rcases hm : m s with e' | a
  · rw [bind_of_error hm]; simp
  · rw [bind_of_ok hm]; simp

/-- A pass fails where the first of its steps fails. -/
theorem forEach_error {e : ε} {l : List α} : forEach f l s = .error e ↔
    ∃ done x rest, l = done ++ x :: rest ∧ (∀ y ∈ done, ∃ b, f y s = .ok b) ∧ f x s = .error e := by
  induction l with
  | nil => simp [forEach]
  | cons x l ih =>
    have hstep : forEach f (x :: l) s = .error e ↔
        f x s = .error e ∨ ∃ b, f x s = .ok b ∧ forEach f l s = .error e := by
      simp [forEach, bind_error]
    rw [hstep, ih]
    constructor
    · rintro (hx | ⟨b, hb, done, y, rest, rfl, hdone, hy⟩)
      · exact ⟨[], x, l, rfl, by simp, hx⟩
      · exact ⟨x :: done, y, rest, rfl, List.forall_mem_cons.mpr ⟨⟨b, hb⟩, hdone⟩, hy⟩
    · rintro ⟨_ | ⟨y, done⟩, z, rest, hsplit, hdone, hz⟩
      · obtain ⟨rfl, rfl⟩ := List.cons.inj hsplit
        exact .inl hz
      · obtain ⟨rfl, rfl⟩ := List.cons.inj hsplit
        obtain ⟨⟨b, hb⟩, hdone⟩ := List.forall_mem_cons.mp hdone
        exact .inr ⟨b, hb, done, z, rest, rfl, hdone, hz⟩

/-- A pass whose steps succeed, with their values. -/
theorem forEach_of_forall {g : α → β} : ∀ {l : List α}, (∀ x ∈ l, f x s = .ok (g x)) →
    forEach f l s = .ok (l.map g)
  | [], _ => rfl
  | x :: l, h => by
      rw [forEach, bind_of_ok (h x List.mem_cons_self),
        bind_of_ok (forEach_of_forall fun y hy => h y (List.mem_cons_of_mem _ hy))]
      rfl

end Reading

namespace Effect

variable {σ ε ε' α β : Type}

instance : Monad (Effect σ ε) where
  pure a := fun s => (.ok a, s)
  bind m f := fun s =>
    match m s with
    | (.ok a, s') => f a s'
    | (.error e, s') => (.error e, s')

/-- Fail with `e`; the state stays. -/
def fail (e : ε) : Effect σ ε α := fun s => (.error e, s)

/-- The state now. -/
def get : Effect σ ε σ := fun s => (.ok s, s)

/-- Change the state. -/
def modify (f : σ → σ) : Effect σ ε Unit := fun s => (.ok (), f s)

/-- A pure computation that may fail, run where it stands. -/
def ofExcept (x : Except ε α) : Effect σ ε α := fun s => (x, s)

/-- Translate the failure. -/
def mapError (f : ε → ε') (m : Effect σ ε α) : Effect σ ε' α := fun s => ((m s).1.mapError f, (m s).2)

/-- Never fail: hand the outcome over as a value. -/
def result (m : Effect σ ε α) : Effect σ ε' (Except ε α) := fun s => (.ok (m s).1, (m s).2)

/-! ### Sequencing -/

section Run

@[simp] theorem pure_run (a : α) (s : σ) : (pure a : Effect σ ε α) s = (.ok a, s) := rfl
@[simp] theorem fail_run (e : ε) (s : σ) : (fail e : Effect σ ε α) s = (.error e, s) := rfl
@[simp] theorem get_run (s : σ) : (get : Effect σ ε σ) s = (.ok s, s) := rfl
@[simp] theorem modify_run (f : σ → σ) (s : σ) : (modify f : Effect σ ε Unit) s = (.ok (), f s) :=
  rfl
@[simp] theorem ofExcept_run (x : Except ε α) (s : σ) : (ofExcept x : Effect σ ε α) s = (x, s) :=
  rfl
@[simp] theorem result_run (m : Effect σ ε α) (s : σ) :
    (result m : Effect σ ε' (Except ε α)) s = (.ok (m s).1, (m s).2) := rfl

variable {m : Effect σ ε α} {f : α → Effect σ ε β} {s s₁ s' : σ}

theorem bind_of_ok {a : α} (h : m s = (.ok a, s₁)) : (m >>= f) s = f a s₁ := by
  show (match m s with
    | (.ok a, s') => f a s'
    | (.error e, s') => (.error e, s')) = _
  rw [h]

theorem bind_of_error {e : ε} (h : m s = (.error e, s₁)) : (m >>= f) s = (.error e, s₁) := by
  show (match m s with
    | (.ok a, s') => f a s'
    | (.error e, s') => (.error e, s')) = _
  rw [h]

/-- A sequence goes by what its first half does where it starts. -/
theorem bind_congr {m' : Effect σ ε α} (h : m s = m' s) : (m >>= f) s = (m' >>= f) s := by
  rcases hm : m' s with ⟨e | a, s₁⟩
  · rw [bind_of_error (h.trans hm), bind_of_error hm]
  · rw [bind_of_ok (h.trans hm), bind_of_ok hm]

/-- A successful sequence is a successful first half, then a successful second half. -/
theorem bind_ok {b : β} :
    (m >>= f) s = (.ok b, s') ↔ ∃ a s₁, m s = (.ok a, s₁) ∧ f a s₁ = (.ok b, s') := by
  rcases hm : m s with ⟨e | a, s₁⟩
  · rw [bind_of_error hm]; simp
  · rw [bind_of_ok hm]
    exact ⟨fun h => ⟨a, s₁, rfl, h⟩, fun ⟨_, _, h, hf⟩ => by cases h; exact hf⟩

@[simp] theorem pure_bind_run (a : α) : ((pure a : Effect σ ε α) >>= f) s = f a s := rfl
@[simp] theorem fail_bind_run (e : ε) :
    ((fail e : Effect σ ε α) >>= f) s = (.error e, s) := rfl

/-- A run that only names its result ends where its first half ends. -/
theorem bind_pure_state {g : α → β} : ((m >>= fun a => pure (g a)) s).2 = (m s).2 := by
  rcases hm : m s with ⟨e | a, s₁⟩
  · rw [bind_of_error hm]
  · rw [bind_of_ok hm]
    rfl

theorem mapError_ok {g : ε → ε'} {a : α} :
    mapError g m s = (.ok a, s') ↔ m s = (.ok a, s') := by
  unfold mapError
  rcases m s with ⟨e | a', s₁⟩ <;> simp [Except.mapError]

@[simp] theorem mapError_state (g : ε → ε') : (mapError g m s).2 = (m s).2 := rfl

/-- A run whose outcome is a value succeeds. -/
theorem exists_ok (h : (m s).1.toOption.isSome) : ∃ a s', m s = (.ok a, s') := by
  rcases hm : m s with ⟨_ | a, s'⟩
  · rw [hm] at h; cases h
  · exact ⟨a, s', rfl⟩

theorem ofExcept_bind_ok {x : Except ε α} {b : β} :
    (ofExcept x >>= f) s = (.ok b, s') ↔ ∃ a, x = .ok a ∧ f a s = (.ok b, s') := by
  rw [bind_ok]
  constructor
  · rintro ⟨a, s₁, h, hf⟩
    obtain ⟨hx, rfl⟩ : x = .ok a ∧ s = s₁ := by simpa using h
    exact ⟨a, hx, hf⟩
  · rintro ⟨a, h, hf⟩
    exact ⟨a, s, by simp [h], hf⟩

theorem ofExcept_ok {x : Except ε α} {a : α} :
    (ofExcept x : Effect σ ε α) s = (.ok a, s') ↔ x = .ok a ∧ s = s' := by
  simp [ofExcept]

end Run

/-! ### Results -/

/-- A value that `m` returns has `p`. -/
def Returns (p : α → Prop) (m : Effect σ ε α) : Prop := ∀ s a s', m s = (.ok a, s') → p a

section Returns

variable {p : α → Prop} {q : β → Prop} {m : Effect σ ε α}

theorem returns_pure {a : α} (h : p a) : Returns p (pure a : Effect σ ε α) := by
  rintro s b s' hrun
  cases hrun
  exact h

theorem returns_fail (e : ε) : Returns p (fail e : Effect σ ε α) := by
  rintro s b s' hrun
  cases hrun

/-- The second half need only return it for the values the first half can return. -/
theorem returns_bind {f : α → Effect σ ε β} (hm : Returns p m) (hf : ∀ a, p a → Returns q (f a)) :
    Returns q (m >>= f) := by
  intro s b s' hrun
  obtain ⟨a, s₁, ha, hb⟩ := bind_ok.mp hrun
  exact hf a (hm s a s₁ ha) s₁ b s' hb

theorem returns_any : Returns (fun _ => True) m := fun _ _ _ _ => trivial

theorem returns_ite {c : Prop} [Decidable c] {m' : Effect σ ε α} (ht : Returns p m)
    (he : Returns p m') : Returns p (if c then m else m') := by
  split
  · exact ht
  · exact he

/-- A pass that succeeds ran its step on each element. -/
theorem forEach_returns {R : α → β → Prop} {f : α → Effect σ ε β} (h : ∀ a, Returns (R a) (f a)) :
    ∀ l : List α, Returns (List.Forall₂ R l) (forEach f l)
  | [] => returns_pure .nil
  | a :: l =>
    returns_bind (h a) fun _ hb => returns_bind (forEach_returns h l) fun _ hbs =>
      returns_pure (.cons hb hbs)

end Returns

/-! ### Invariants -/

/-- `m` keeps `I`: from any state with `I`, however the run ends, the state it leaves has `I`. -/
def Keeps (I : σ → Prop) (m : Effect σ ε α) : Prop := ∀ s, I s → I (m s).2

section Keeps

variable {I : σ → Prop} {m : Effect σ ε α}

theorem keeps_pure (a : α) : Keeps I (pure a : Effect σ ε α) := fun _ h => h
theorem keeps_fail (e : ε) : Keeps I (fail e : Effect σ ε α) := fun _ h => h
theorem keeps_ofExcept (x : Except ε α) : Keeps I (ofExcept x : Effect σ ε α) := fun _ h => h

theorem keeps_modify {f : σ → σ} (h : ∀ s, I s → I (f s)) :
    Keeps I (modify f : Effect σ ε Unit) := h

/-- The second half need only keep `I` on the values the first half can return. -/
theorem keeps_bind {f : α → Effect σ ε β} (hm : Keeps I m)
    (hf : ∀ a s s', m s = (.ok a, s') → Keeps I (f a)) : Keeps I (m >>= f) := by
  intro s hs
  have h₁ := hm s hs
  rcases hms : m s with ⟨e | a, s₁⟩
  · rw [bind_of_error hms]; simpa [hms] using h₁
  · rw [bind_of_ok hms]; exact hf a s s₁ hms s₁ (by simpa [hms] using h₁)

/-- What holds after the first half of a run, and is kept by the second, holds after the run. -/
theorem keeps_after {f : α → Effect σ ε β} {s : σ} (hm : I (m s).2) (hf : ∀ a, Keeps I (f a)) :
    I ((m >>= f) s).2 := by
  rcases hrun : m s with ⟨e | a, s₁⟩ <;> rw [hrun] at hm
  · rw [bind_of_error hrun]
    exact hm
  · rw [bind_of_ok hrun]
    exact hf a s₁ hm

theorem keeps_mapError {g : ε → ε'} (hm : Keeps I m) : Keeps I (mapError g m) := hm

theorem keeps_result (hm : Keeps I m) : Keeps I (result m : Effect σ ε' (Except ε α)) := hm

theorem keeps_forEach {f : α → Effect σ ε β} : ∀ {l : List α}, (∀ x ∈ l, Keeps I (f x)) →
    Keeps I (forEach f l)
  | [], _ => keeps_pure _
  | _ :: _, h =>
    keeps_bind (h _ List.mem_cons_self) fun _ _ _ _ =>
      keeps_bind (keeps_forEach fun y hy => h y (List.mem_cons_of_mem _ hy)) fun _ _ _ _ =>
        keeps_pure _

theorem keeps_ite {c : Prop} [Decidable c] {m' : Effect σ ε α} (ht : c → Keeps I m)
    (he : ¬c → Keeps I m') : Keeps I (if c then m else m') := by
  by_cases h : c
  · rw [if_pos h]; exact ht h
  · rw [if_neg h]; exact he h

end Keeps

end Effect
