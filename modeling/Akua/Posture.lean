import Akua.RenderFrames

/-! What a chain of nested renders runs with. Each nested frame takes the budget and the resolver
    settings of the frame below it, so `offline`, `reject_replace` and the deadline are the root
    render's at any depth. `strict` is an argument, and a nested render always passes `false`. -/

namespace Akua.Rust

/-- The settings that a whole composition should run with. -/
structure Posture where
  offline : Bool
  rejectReplace : Bool
  deadline : Option Nat
  strict : Bool
deriving DecidableEq

def RenderFrame.posture (frame : RenderFrame) : Posture where
  offline := frame.resolver.offline
  rejectReplace := frame.resolver.rejectReplace
  deadline := frame.budget.deadline
  strict := frame.strict

/-- Every nested frame runs with the root's settings, and what a nested Package depends on is
    resolved with them. -/
def Propagates (stack : RenderStack) : Prop :=
  ∀ nested root, stack = nested ++ [root] →
    (∀ frame ∈ nested, frame.posture = root.posture) ∧
    ∀ digests, (childOptions stack digests).offline = root.posture.offline ∧
      (childOptions stack digests).rejectReplace = root.posture.rejectReplace

/-- Nested frames have the root's budget and resolver settings, and are not strict. -/
def Inherits (stack : RenderStack) : Prop :=
  ∀ nested root, stack = nested ++ [root] → ∀ frame ∈ nested,
    frame.budget = root.budget ∧ frame.resolver = root.resolver ∧ frame.strict = false

/-- A strict root has no frame above it. -/
def StrictAlone (stack : RenderStack) : Prop :=
  ∀ nested root, stack = nested ++ [root] → root.strict = true → nested = []

/-! ### One stack -/

/-- The frame on top has the root's budget and resolver settings. -/
theorem Inherits.top {nested : RenderStack} {root : RenderFrame} (h : Inherits (nested ++ [root])) :
    RenderStack.topFrameBudget (nested ++ [root]) = root.budget ∧
      RenderStack.topFrameResolver (nested ++ [root]) = root.resolver := by
  cases nested with
  | nil => exact ⟨rfl, rfl⟩
  | cons frame nested =>
    obtain ⟨hbudget, hresolver, -⟩ := h (frame :: nested) root rfl frame List.mem_cons_self
    exact ⟨hbudget, hresolver⟩

theorem eq_nil_of_single {frame root : RenderFrame} {nested : RenderStack}
    (h : [frame] = nested ++ [root]) : nested = [] := by
  have hlength := congrArg List.length h
  simp only [List.length_append, List.length_singleton] at hlength
  exact List.length_eq_zero_iff.mp (by omega)

theorem inherits_single (frame : RenderFrame) : Inherits [frame] := by
  intro nested root hsplit other hother
  rw [eq_nil_of_single hsplit] at hother
  cases hother

theorem strictAlone_single (frame : RenderFrame) : StrictAlone [frame] :=
  fun _ _ hsplit _ => eq_nil_of_single hsplit

theorem Inherits.tail {frame : RenderFrame} {stack : RenderStack} (h : Inherits (frame :: stack)) :
    Inherits stack := by
  rintro nested root rfl other hother
  exact h (frame :: nested) root rfl other (List.mem_cons_of_mem _ hother)

/-- A nested render takes its settings from the frame below. -/
theorem Inherits.nested {φ : Type} [FileSystem φ] {stack : RenderStack} (h : Inherits stack) (fs : φ)
    (package : PackageK) (charts : ResolvedCharts) :
    Inherits (renderWithCharts stack fs package charts) := by
  rintro (_ | ⟨frame, nested⟩) root hsplit other hother
  · cases hother
  · obtain ⟨rfl, rfl⟩ := List.cons.inj hsplit
    rcases List.mem_cons.mp hother with rfl | hother
    · exact ⟨h.top.1, h.top.2, rfl⟩
    · exact h nested root rfl other hother

/-- Of what nested frames inherit, only a strict root's strictness can be missing. -/
theorem propagates_iff {stack : RenderStack} (h : Inherits stack) :
    Propagates stack ↔ StrictAlone stack := by
  constructor
  · rintro hpropagates nested root rfl hstrict
    by_contra hne
    obtain ⟨frame, hframe⟩ := List.exists_mem_of_ne_nil nested hne
    have hposture := congrArg Posture.strict ((hpropagates nested root rfl).1 frame hframe)
    have hloose := (h nested root rfl frame hframe).2.2
    simp [RenderFrame.posture, hstrict, hloose] at hposture
  · rintro halone nested root rfl
    refine ⟨fun frame hframe => ?_, fun digests => ?_⟩
    · obtain ⟨hbudget, hresolver, hloose⟩ := h nested root rfl frame hframe
      have hroot : root.strict = false := by
        by_contra hstrict
        rw [halone nested root rfl (by simpa using hstrict)] at hframe
        cases hframe
      simp [RenderFrame.posture, hbudget, hresolver, hloose, hroot]
    · simp [childOptions, h.top.2, RenderFrame.posture]

/-! ### Runs -/

section Runs

variable {φ : Type} [FileSystem φ] [EntryTypes φ] {P : Platform} {cwd : FilePath} {readers : Readers}
variable {stack stack' : RenderStack} {event : RenderEvent φ}

omit [EntryTypes φ] in
/-- A render from outside starts with one frame. -/
theorem entry_run (fs : φ) (entry : Entry) : ∃ root, entry.run fs [] = [root] := by
  cases entry <;> exact ⟨_, rfl⟩

theorem inherits_step (h : Inherits stack) (hstep : Step P cwd readers stack event stack') :
    Inherits stack' := by
  cases hstep with
  | @root fs entry =>
    obtain ⟨root, hroot⟩ := entry_run fs entry
    rw [hroot]
    exact inherits_single root
  | nested => exact h.nested _ _ _
  | refused => exact h
  | leave => exact h.tail

theorem inherits_of_runs {steps : List (RenderStack × RenderEvent φ)}
    (h : Runs P cwd readers steps stack) : Inherits stack := by
  induction h with
  | idle =>
    intro nested root hsplit
    simp at hsplit
  | step _ hstep ih => exact inherits_step ih hstep

/-- The step opens a nested render while the root is strict. -/
def OpensUnderStrict (P : Platform) (cwd : FilePath) (readers : Readers)
    (step : RenderStack × RenderEvent φ) : Prop :=
  ∃ fs now args nested root, step = (nested ++ [root], .pkgRender fs now args) ∧
    root.strict = true ∧ ∃ child, openChild P cwd readers (nested ++ [root]) now args fs = .ok child

/-- A step from a stack whose strict root is alone leaves it alone, unless it opens a nested render. -/
theorem strictAlone_step (h : StrictAlone stack) (hstep : Step P cwd readers stack event stack') :
    StrictAlone stack' ↔ ¬ OpensUnderStrict P cwd readers (stack, event) := by
  cases hstep with
  | @root fs entry =>
    obtain ⟨root, hroot⟩ := entry_run fs entry
    rw [hroot]
    refine iff_of_true (strictAlone_single root) ?_
    rintro ⟨fs', now, args, nested, root', hopens, -⟩
    simp at hopens
  | @nested _ fs now args child hopen =>
    constructor
    · rintro halone ⟨fs', now', args', nested, root, hopens, hstrict, -⟩
      obtain ⟨rfl, -⟩ := Prod.mk.inj hopens
      exact absurd (halone (_ :: nested) root rfl hstrict) (by simp)
    · rintro hnone (_ | ⟨frame, nested⟩) root hsplit hstrict
      · rfl
      · obtain ⟨-, rfl⟩ := List.cons.inj hsplit
        exact absurd ⟨fs, now, args, nested, root, rfl, hstrict, child, hopen⟩ hnone
  | @refused _ fs now args error hrefused =>
    refine iff_of_true h ?_
    rintro ⟨fs', now', args', nested, root, hopens, -, child, hopen⟩
    obtain ⟨rfl, hevent⟩ := Prod.mk.inj hopens
    obtain ⟨rfl, rfl, rfl⟩ := RenderEvent.pkgRender.inj hevent
    rw [hrefused] at hopen
    cases hopen
  | @leave frame =>
    refine iff_of_true ?_ ?_
    · rintro nested root rfl hstrict
      exact absurd (h (frame :: nested) root rfl hstrict) (by simp)
    · rintro ⟨fs', now, args, nested, root', hopens, -⟩
      simp at hopens

/-- The stacks of a run: before each step, and at its end. -/
def visited (steps : List (RenderStack × RenderEvent φ)) (stack : RenderStack) : List RenderStack :=
  steps.map Prod.fst ++ [stack]

omit [FileSystem φ] [EntryTypes φ] in
theorem forall_visited_concat {p : RenderStack → Prop} {steps : List (RenderStack × RenderEvent φ)} :
    (∀ s ∈ visited (steps ++ [(stack, event)]) stack', p s) ↔
      (∀ s ∈ visited steps stack, p s) ∧ p stack' := by
  simp [visited, or_imp, forall_and, and_assoc]

/-- A strict root is alone throughout a run exactly when no step opens a render above one. -/
theorem strictAlone_runs {steps : List (RenderStack × RenderEvent φ)}
    (h : Runs P cwd readers steps stack) : (∀ s ∈ visited steps stack, StrictAlone s) ↔
      ∀ step ∈ steps, ¬ OpensUnderStrict P cwd readers step := by
  induction h with
  | idle => simp [visited, StrictAlone]
  | @step steps stack stack' event _ hstep ih =>
    rw [forall_visited_concat, ih, List.forall_mem_append, List.forall_mem_singleton]
    refine and_congr_right fun hnone => strictAlone_step ?_ hstep
    exact ih.mpr hnone stack (by simp [visited])

theorem inherits_visited {steps : List (RenderStack × RenderEvent φ)}
    (h : Runs P cwd readers steps stack) : ∀ s ∈ visited steps stack, Inherits s := by
  induction h with
  | idle => simp [visited, Inherits]
  | @step steps stack stack' event h hstep ih =>
    rw [forall_visited_concat]
    exact ⟨ih, inherits_step (ih stack (by simp [visited])) hstep⟩

end Runs

/-- In a run of a thread, nested frames always run with the root's settings exactly when no step
    opens a nested render while the root is strict. -/
theorem posture_propagates_iff {φ : Type} [FileSystem φ] [EntryTypes φ] {P : Platform} {cwd : FilePath}
    {readers : Readers} {steps : List (RenderStack × RenderEvent φ)} {stack : RenderStack}
    (h : Runs P cwd readers steps stack) : (∀ s ∈ visited steps stack, Propagates s) ↔
      ∀ step ∈ steps, ¬ OpensUnderStrict P cwd readers step := by
  rw [← strictAlone_runs h]
  exact forall₂_congr fun s hs => propagates_iff (inherits_visited h s hs)

/-! ### A Package and the Package it composes -/

def composedDisk : LinkedDisk false where
  nodes := Table.ofList [(["app"], .directory), (["app", "lib"], .directory),
    (["app", "package.k"], .file []), (["app", "lib", "package.k"], .file [])]
  rooted := by decide
  plain := by decide
  short := by decide

def libChart : ResolvedChart where
  name := "lib"
  absPath := ["app", "lib"]
  sha256 := "sha256:00"
  kind := .kclModule
  source := .path "lib"

def libCharts : ResolvedCharts := { entries := Table.ofList [("lib", libChart)] }

def plainReaders : Readers where
  manifest _ := .error "expected a table"
  lock _ := .error "expected a table"
  inputs := .ok

def renderLib : Value := .array [.object [("package", .string "lib")]]

/-- The frames of the render of `app`, and of `lib` inside it. -/
def appStack (strict : Bool) : RenderStack :=
  RenderStack.enterForRender [] composedDisk ["app", "package.k"] libCharts strict

def libPackage : PackageK := { path := ["app", "lib", "package.k"], source := "" }

theorem open_lib (strict : Bool) : openChild (.ofTables [] [] [] []) [] plainReaders (appStack strict) 0
    renderLib composedDisk = .ok { package := libPackage, inputs := .null, charts := {} } := by
  cases strict <;> rfl

def appSteps (strict : Bool) : List (RenderStack × RenderEvent (LinkedDisk false)) :=
  [([], .root composedDisk (.enterForRender ["app", "package.k"] libCharts strict)),
    (appStack strict, .pkgRender composedDisk 0 renderLib)]

/-- The stack while `lib` is rendered. -/
def libStack (strict : Bool) : RenderStack :=
  renderWithCharts (appStack strict) composedDisk libPackage {}

theorem app_runs (strict : Bool) :
    Runs (.ofTables [] [] [] []) [] plainReaders (appSteps strict) (libStack strict) :=
  .step (.step .idle .root) (.nested (open_lib strict))

/-- Under a root that is not strict, the composed render runs with its settings. -/
theorem loose_app_propagates :
    Runs (.ofTables [] [] [] []) [] plainReaders (appSteps false) (libStack false) ∧
      ∀ s ∈ visited (appSteps false) (libStack false), Propagates s := by
  refine ⟨app_runs false, (posture_propagates_iff (app_runs false)).mpr ?_⟩
  rintro step hstep ⟨fs, now, args, nested, root, rfl, hstrict, -⟩
  simp only [appSteps, List.mem_cons, Prod.mk.injEq, List.append_eq_nil_iff, List.cons_ne_self,
    and_false, false_and, List.not_mem_nil, or_false, false_or] at hstep
  obtain ⟨hstack, -⟩ := hstep
  rw [eq_nil_of_single hstack.symm] at hstack
  rw [(List.cons.inj hstack).1] at hstrict
  cases hstrict

/-- Under a strict root, the composed render is not strict. -/
theorem strict_app_dropped :
    Runs (.ofTables [] [] [] []) [] plainReaders (appSteps true) (libStack true) ∧
      ¬ ∀ s ∈ visited (appSteps true) (libStack true), Propagates s := by
  refine ⟨app_runs true, fun h => ?_⟩
  obtain ⟨hframes, -⟩ := h (libStack true) (by simp [visited]) (libStack true).dropLast _ rfl
  have hposture := congrArg Posture.strict (hframes _ List.mem_cons_self)
  cases hposture

end Akua.Rust
