import Akua.Lib.Effect
import Mathlib.Logic.Function.Basic
import Mathlib.Data.List.Basic

/-! Programs whose steps interleave. A fiber is a tree of calls to a kernel: each call is answered
    with a reply or a failure, and the rest of the fiber depends on the answer. A call need not be
    atomic: while it runs, the kernel may change its state step by step before it answers. Fibers
    over one shared state take their steps in any order, and any of them may stop for good at any
    point. What holds in every state of such a run is proved over the points where the fibers stand
    (`invariant_of_points`). -/

inductive Fiber (C : Type) (Reply : C → Type) (ε α : Type) where
  | done (outcome : Except ε α)
  | call (c : C) (k : Except ε (Reply c) → Fiber C Reply ε α)

namespace Fiber

variable {C : Type} {Reply : C → Type} {ε α β : Type}

/-- Go on with the outcome of a fiber. -/
def andThen (m : Fiber C Reply ε α) (f : Except ε α → Fiber C Reply ε β) : Fiber C Reply ε β :=
  match m with
  | .done outcome => f outcome
  | .call c k => .call c fun answer => (k answer).andThen f

/-- Go on where a fiber succeeds. -/
def onOk (f : α → Fiber C Reply ε β) : Except ε α → Fiber C Reply ε β
  | .ok a => f a
  | .error e => .done (.error e)

instance : Monad (Fiber C Reply ε) where
  pure a := .done (.ok a)
  bind m f := m.andThen (onOk f)

/-- One call. -/
def perform (c : C) : Fiber C Reply ε (Reply c) := .call c .done

/-- Stop with a failure. -/
def fail (e : ε) : Fiber C Reply ε α := .done (.error e)

/-- Translate the failure. -/
def mapError (g : ε → ε) (m : Fiber C Reply ε α) : Fiber C Reply ε α :=
  m.andThen fun outcome => .done (outcome.mapError g)

/-- Stop failing: hand the outcome over as a value. -/
def result (m : Fiber C Reply ε α) : Fiber C Reply ε (Except ε α) := m.andThen fun outcome => .done (.ok outcome)

/-! ### Laws -/

@[simp] theorem done_bind_ok (a : α) (f : α → Fiber C Reply ε β) :
    ((.done (.ok a) : Fiber C Reply ε α) >>= f) = f a := rfl

@[simp] theorem done_bind_error (e : ε) (f : α → Fiber C Reply ε β) :
    ((.done (.error e) : Fiber C Reply ε α) >>= f) = .done (.error e) := rfl

@[simp] theorem call_bind (c : C) (k : Except ε (Reply c) → Fiber C Reply ε α)
    (f : α → Fiber C Reply ε β) : (.call c k >>= f) = .call c fun answer => k answer >>= f := rfl

theorem andThen_assoc {γ : Type} (m : Fiber C Reply ε α) (f : Except ε α → Fiber C Reply ε β)
    (g : Except ε β → Fiber C Reply ε γ) :
    (m.andThen f).andThen g = m.andThen fun outcome => (f outcome).andThen g := by
  induction m with
  | done outcome => rfl
  | call c k ih =>
    change call c _ = call c _
    congr 1
    funext answer
    exact ih answer

theorem bind_assoc' {γ : Type} (m : Fiber C Reply ε α) (f : α → Fiber C Reply ε β)
    (g : β → Fiber C Reply ε γ) : (m >>= f) >>= g = m >>= fun a => f a >>= g := by
  induction m with
  | done outcome => cases outcome <;> rfl
  | call c k ih =>
    rw [call_bind, call_bind, call_bind]
    congr 1
    funext answer
    exact ih answer

theorem result_perform_bind (c : C) (f : Except ε (Reply c) → Fiber C Reply ε β) :
    (result (perform c) >>= f) = .call c f := rfl

/-! ### Run alone -/

variable {σ : Type}

/-- A fiber run alone, with a function that answers its calls. -/
def interpret (handler : (c : C) → Effect σ ε (Reply c)) : Fiber C Reply ε α → Effect σ ε α
  | .done outcome => Effect.ofExcept outcome
  | .call c k => fun s => interpret handler (k (handler c s).1) (handler c s).2

variable (handler : (c : C) → Effect σ ε (Reply c))

@[simp] theorem interpret_pure (a : α) : interpret handler (pure a : Fiber C Reply ε α) = pure a := rfl

@[simp] theorem interpret_fail (e : ε) :
    interpret handler (fail e : Fiber C Reply ε α) = Effect.fail e := rfl

@[simp] theorem interpret_perform (c : C) : interpret handler (perform c) = handler c := rfl

@[simp] theorem interpret_bind (m : Fiber C Reply ε α) (f : α → Fiber C Reply ε β) :
    interpret handler (m >>= f) = interpret handler m >>= fun a => interpret handler (f a) := by
  induction m with
  | done outcome => cases outcome <;> rfl
  | call c k ih =>
    funext s
    exact congrFun (ih (handler c s).1) (handler c s).2

@[simp] theorem interpret_result (m : Fiber C Reply ε α) :
    interpret handler m.result = (interpret handler m).result := by
  induction m with
  | done outcome => rfl
  | call c k ih =>
    funext s
    exact congrFun (ih (handler c s).1) (handler c s).2

theorem interpret_forEach (f : α → Fiber C Reply ε β) (l : List α) :
    interpret handler (forEach f l) = forEach (fun a => interpret handler (f a)) l := by
  induction l with
  | nil => rfl
  | cons a l ih => simp only [forEach, interpret_bind, interpret_pure, ih]

/-- A pass over a list whose results are dropped, one element at a time. -/
theorem forEach_cons_bind {γ : Type} (f : α → Fiber C Reply ε β) (a : α) (l : List α)
    (rest : Fiber C Reply ε γ) :
    (forEach f (a :: l) >>= fun _ => rest) = f a >>= fun _ => forEach f l >>= fun _ => rest := by
  rw [forEach, bind_assoc']
  congr 1
  funext b
  rw [bind_assoc']
  rfl

end Fiber

/-! ### Interleavings -/

/-- How calls are treated: what may happen to the state while one runs, and how it may be
    answered. -/
structure Kernel (σ C : Type) (Reply : C → Type) (ε : Type) where
  progress : C → σ → σ → Prop
  answers : (c : C) → σ → Except ε (Reply c) → σ → Prop

namespace Kernel

variable {σ C : Type} {Reply : C → Type} {ε α ι : Type}

/-- A shared state and the fibers that work on it. -/
structure Config (σ C : Type) (Reply : C → Type) (ε α ι : Type) where
  shared : σ
  fibers : ι → Fiber C Reply ε α

variable [DecidableEq ι] (S : Kernel σ C Reply ε)

/-- What one step of a fiber does: its call makes progress, or is answered. -/
inductive Event (C : Type) (Reply : C → Type) (ε : Type) where
  | progress (c : C)
  | answered (c : C) (r : Except ε (Reply c))

/-- The runs from a configuration: the steps taken, by the fibers that took them, and where they
    lead. -/
inductive Runs (start : Config σ C Reply ε α ι) :
    List (ι × Event C Reply ε) → Config σ C Reply ε α ι → Prop
  | start : Runs start [] start
  | progress {trace : List (ι × Event C Reply ε)} {s s' : σ} {fibers : ι → Fiber C Reply ε α} {i : ι}
      {c : C} {k : Except ε (Reply c) → Fiber C Reply ε α} (before : Runs start trace ⟨s, fibers⟩)
      (hcall : fibers i = .call c k) (h : S.progress c s s') :
      Runs start (trace ++ [(i, .progress c)]) ⟨s', fibers⟩
  | answer {trace : List (ι × Event C Reply ε)} {s s' : σ} {fibers : ι → Fiber C Reply ε α} {i : ι}
      {c : C} {k : Except ε (Reply c) → Fiber C Reply ε α} {r : Except ε (Reply c)}
      (before : Runs start trace ⟨s, fibers⟩) (hcall : fibers i = .call c k) (h : S.answers c s r s') :
      Runs start (trace ++ [(i, .answered c r)]) ⟨s', Function.update fibers i (k r)⟩

variable {S}

theorem Runs.trans {a b c : Config σ C Reply ε α ι} {t u : List (ι × Event C Reply ε)}
    (h : S.Runs a t b) (h' : S.Runs b u c) : S.Runs a (t ++ u) c := by
  induction h' with
  | start =>
    rw [List.append_nil]
    exact h
  | progress _ hcall hp ih =>
    rw [← List.append_assoc]
    exact .progress ih hcall hp
  | answer _ hcall ha ih =>
    rw [← List.append_assoc]
    exact .answer ih hcall ha

/-- The first step of a run is an answer. -/
theorem Runs.answered {s s' : σ} {fibers : ι → Fiber C Reply ε α} {i : ι} {c : C}
    {k : Except ε (Reply c) → Fiber C Reply ε α} {r : Except ε (Reply c)} (hcall : fibers i = .call c k)
    (h : S.answers c s r s') {now : Config σ C Reply ε α ι} {trace : List (ι × Event C Reply ε)}
    (hrest : S.Runs ⟨s', Function.update fibers i (k r)⟩ trace now) :
    S.Runs ⟨s, fibers⟩ ((i, .answered c r) :: trace) now :=
  (Runs.answer .start hcall h).trans hrest

variable (S) in
/-- The fiber `i` alone gets from `m` to `m'`, and the shared state from `s` to `s'`. -/
def Goes (i : ι) (s : σ) (m : Fiber C Reply ε α) (s' : σ) (m' : Fiber C Reply ε α) : Prop :=
  ∀ fibers : ι → Fiber C Reply ε α, fibers i = m →
    ∃ trace, (∀ x ∈ trace, x.1 = i) ∧ S.Runs ⟨s, fibers⟩ trace ⟨s', Function.update fibers i m'⟩

theorem Goes.refl {i : ι} {s : σ} {m : Fiber C Reply ε α} : S.Goes i s m s m := by
  intro fibers hi
  refine ⟨[], by simp, ?_⟩
  rw [← hi, Function.update_eq_self]
  exact .start

/-- A call that is answered, and the rest. -/
theorem Goes.answered {i : ι} {s s' t : σ} {c : C} {k : Except ε (Reply c) → Fiber C Reply ε α}
    {r : Except ε (Reply c)} {m : Fiber C Reply ε α} (h : S.answers c s r s')
    (hrest : S.Goes i s' (k r) t m) : S.Goes i s (.call c k) t m := by
  intro fibers hi
  obtain ⟨trace, hown, hrun⟩ := hrest (Function.update fibers i (k r)) (Function.update_self ..)
  rw [Function.update_idem] at hrun
  exact ⟨_, List.forall_mem_cons.mpr ⟨rfl, hown⟩, hrun.answered hi h⟩

/-- A run that goes on with one fiber. -/
theorem Runs.goes {start : Config σ C Reply ε α ι} {trace : List (ι × Event C Reply ε)} {s s' : σ}
    {fibers : ι → Fiber C Reply ε α} {i : ι} {m m' : Fiber C Reply ε α}
    (h : S.Runs start trace ⟨s, fibers⟩) (hgoes : S.Goes i s m s' m') (hi : fibers i = m) :
    ∃ more, (∀ x ∈ more, x.1 = i) ∧ S.Runs start (trace ++ more) ⟨s', Function.update fibers i m'⟩ := by
  obtain ⟨more, hown, hrun⟩ := hgoes fibers hi
  exact ⟨more, hown, h.trans hrun⟩

/-- A fiber that is by itself. -/
theorem Goes.alone {s t : σ} {m m' : Fiber C Reply ε α} (h : S.Goes (() : Unit) s m t m') :
    ∃ trace : List (Unit × Event C Reply ε), S.Runs ⟨s, fun _ => m⟩ trace ⟨t, fun _ => m'⟩ := by
  obtain ⟨trace, -, hrun⟩ := h (fun _ => m) rfl
  have hupdate : Function.update (fun _ : Unit => m) () m' = fun _ => m' := by
    funext i
    simp
  exact ⟨trace, hupdate ▸ hrun⟩

/-- The invariant rule. `program` says what is left of a fiber at each point, and `I` relates the
    steps so far and the shared state to the points where the fibers stand. -/
theorem invariant_of_points {L : Type} (program : L → Fiber C Reply ε α)
    (I : List (ι × Event C Reply ε) → σ → (ι → L) → Prop)
    (hprogress : ∀ {trace s s' points i c k}, I trace s points → program (points i) = .call c k →
      S.progress c s s' → I (trace ++ [(i, .progress c)]) s' points)
    (hanswer : ∀ {trace s s' points i c k r}, I trace s points → program (points i) = .call c k →
      S.answers c s r s' → ∃ point, program point = k r ∧
        I (trace ++ [(i, .answered c r)]) s' (Function.update points i point))
    {start now : Config σ C Reply ε α ι} {points : ι → L}
    (hstart : ∀ i, start.fibers i = program (points i)) (h0 : I [] start.shared points)
    {trace : List (ι × Event C Reply ε)} (h : S.Runs start trace now) :
    ∃ points, (∀ i, now.fibers i = program (points i)) ∧ I trace now.shared points := by
  induction h with
  | start => exact ⟨points, hstart, h0⟩
  | progress _ hcall hp ih =>
    obtain ⟨points, hpoints, hI⟩ := ih
    exact ⟨points, hpoints, hprogress hI ((hpoints _).symm.trans hcall) hp⟩
  | @answer trace s s' fibers i c k r _ hcall ha ih =>
    obtain ⟨points, hpoints, hI⟩ := ih
    obtain ⟨point, hpoint, hI⟩ := hanswer hI ((hpoints i).symm.trans hcall) ha
    refine ⟨Function.update points i point, fun j => ?_, hI⟩
    by_cases hj : j = i
    · subst hj
      simp [hpoint]
    · simp only [Function.update_of_ne hj]
      exact hpoints j

end Kernel
