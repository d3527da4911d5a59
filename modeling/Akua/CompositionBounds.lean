import Akua.Composition
import Akua.ImportNames

/-! Composition is bounded. Every stack that a preparation goes through has no directory twice and at
    most `MAX_RENDER_DEPTH` of them; every worker run of a render gets the render's strictness and its
    one budget; and at most `MAX_NESTED_RENDERS` runs are nested. The preparation and the rendering
    are total functions of any graph of Packages and any guests. -/

namespace Akua

open FileSystem Effect

/-! ### Stacks -/

/-- A stack as it is allowed to be. -/
structure ShallowStack (stack : List FilePath) : Prop where
  nodup : stack.Nodup
  length_le : stack.length ≤ MAX_RENDER_DEPTH

/-- Every stack so far was shallow. -/
def Shallow {φ : Type} (w : PrepareWorld φ) : Prop := ∀ stack ∈ w.entered, ShallowStack stack

section Preparation

variable {P : Platform} {generators : Kcl.Generators} {φ α : Type} [FileSystem φ]
variable {services : FetchServices φ} {temporary : FilePath}

omit [FileSystem φ] in
theorem keeps_host (m : Run φ Failure α) : Keeps Shallow (Preparation.host m) := fun _ h => h

theorem keeps_mountSome (files : Option Snapshot) :
    Keeps Shallow (Preparation.mountSome temporary files : Preparation φ (Option FilePath)) := by
  cases files with
  | none => exact keeps_pure _
  | some files => exact keeps_bind (keeps_host _) fun _ _ _ _ => keeps_pure _

theorem keeps_mountAll (packages : GeneratedPackages) :
    Keeps Shallow (mountAll temporary packages : Preparation φ Mounts) := by
  refine keeps_bind (keeps_mountSome _) fun _ _ _ _ => ?_
  refine keeps_bind (keeps_mountSome _) fun _ _ _ _ => ?_
  refine keeps_bind (keeps_forEach fun module _ => ?_) fun _ _ _ _ => keeps_pure _
  exact keeps_bind (keeps_host _) fun _ _ _ _ => keeps_pure _

/-- A real path comes back from where the state stands, and changes nothing. -/
theorem realPath_ok {path directory : FilePath} {w w' : PrepareWorld φ}
    (h : Preparation.realPath path w = (.ok directory, w')) :
    w' = w ∧ realPath path w.world.fs = .ok directory := by
  have hstate := Preparation.realPath_state path w
  rw [h] at hstate
  refine ⟨hstate, ?_⟩
  have hvalue := congrArg Prod.fst h
  rw [Preparation.realPath, Preparation.host, Run.read] at hvalue
  rcases hreal : (realPath path w.world.fs : Except PlatformError FilePath) with error | real
  · simp [platform, Reading.mapError, hreal, Except.mapError] at hvalue
  · simp [platform, Reading.mapError, hreal, Except.mapError] at hvalue
    rw [hvalue]

/-- Preparing a Package that is not on its stack goes through shallow stacks only. -/
theorem shallow_prepareTree
    (hcanonical : ∀ (fs : φ) path real, realPath path fs = .ok real → realPath real fs = .ok real) :
    ∀ (left : Nat) {pkg : PackageToPrepare} {ancestors : List FilePath} {w : PrepareWorld φ},
      ancestors.length + left = MAX_RENDER_DEPTH → 0 < left → ancestors.Nodup →
      (∀ directory, realPath pkg.workspace w.world.fs = .ok directory → directory ∉ ancestors) →
      Shallow w → Shallow (prepareTree P generators services temporary pkg ancestors w).2 := by
  intro left
  induction left with
  | zero => intro _ _ _ _ hpos; exact absurd hpos (Nat.lt_irrefl 0)
  | succ left ih =>
    intro pkg ancestors w hleft _ hnodup hnew hshallow
    rw [prepareTree]
    rcases hdirectory : Preparation.realPath pkg.workspace w with ⟨failure | directory, w₁⟩
    · rw [bind_of_error hdirectory]
      have hstate := Preparation.realPath_state pkg.workspace w
      rw [hdirectory] at hstate
      exact hstate ▸ hshallow
    obtain ⟨rfl, hreal⟩ := realPath_ok hdirectory
    rw [bind_of_ok hdirectory]
    have hstack : ShallowStack (ancestors ++ [directory]) := by
      refine ⟨List.nodup_append.mpr ⟨hnodup, List.nodup_singleton _, ?_⟩, ?_⟩
      · rintro a ha b hb rfl
        exact hnew a (List.mem_singleton.mp hb ▸ hreal) ha
      · rw [List.length_append, List.length_singleton]
        omega
    have henter : Keeps Shallow (Preparation.enter (ancestors ++ [directory]) : Preparation φ Unit) :=
      keeps_modify fun w h stack hmem => (List.mem_cons.mp hmem).elim (fun he => he ▸ hstack) (h stack)
    refine keeps_bind henter (fun _ _ _ _ => ?_) w₁ hshallow
    refine keeps_bind (keeps_host _) fun resolved _ _ _ => ?_
    refine keeps_bind (keeps_ofExcept _) fun generated _ _ _ => ?_
    refine keeps_bind (keeps_forEach fun dependency _ => ?_) fun packages _ _ _ =>
      keeps_bind (keeps_mountAll _) fun mounts _ _ _ => keeps_pure _
    intro s hs
    rcases hroot : Preparation.realPath dependency.root s with ⟨failure | root, s'⟩
    · rw [bind_of_error hroot]
      have hstate := Preparation.realPath_state dependency.root s
      rw [hroot] at hstate
      exact hstate ▸ hs
    obtain ⟨rfl, hrealRoot⟩ := realPath_ok hroot
    rw [bind_of_ok hroot]
    by_cases hcycle : root ∈ ancestors ++ [directory]
    · rw [if_pos hcycle]
      exact hs
    by_cases hdeep : MAX_RENDER_DEPTH ≤ (ancestors ++ [directory]).length
    · rw [if_neg hcycle, dif_pos hdeep]
      exact hs
    · rw [if_neg hcycle, dif_neg hdeep, bind_pure_state]
      rw [List.length_append, List.length_singleton] at hdeep
      refine ih ?_ (by omega) hstack.nodup ?_ hs
      · rw [List.length_append, List.length_singleton]
        omega
      · intro other hother
        rw [hcanonical _ _ _ hrealRoot] at hother
        exact Except.ok.inj hother ▸ hcycle

end Preparation

/-! ### Nested renders -/

section Rendering

variable {P : Platform} {σ : Type} {services : PluginServices σ} {worker : Worker} {stdlib : FilePath}
variable {strict : Bool} {budget : Nat} {before : List RenderStart} {owed : Nat}

/-- The renders nested in one so far: runs of its strictness on its budget, as many as the budget has
    counted, less those it is about to start. -/
def SharedStarts (strict : Bool) (budget : Nat) (before : List RenderStart) (owed : Nat)
    (w : RenderState σ) : Prop :=
  ∃ new, w.starts = before ++ new ∧ (∀ start ∈ new, start = ⟨strict, budget⟩) ∧
    new.length + owed ≤ min (w.budgets budget).nested MAX_NESTED_RENDERS

theorem keeps_withBudget {α : Type} (number : Nat)
    (call : Int → σ → Except (Cause EngineError) α × Int × σ) :
    Keeps (SharedStarts strict budget before owed) (withBudget number call) := by
  rintro w ⟨new, hstarts, hnew, hcount⟩
  refine ⟨new, hstarts, hnew, ?_⟩
  have hnested : ((withBudget number call w).2.budgets budget).nested = (w.budgets budget).nested := by
    show (Function.update w.budgets number _ budget).nested = _
    by_cases hsame : budget = number
    · rw [hsame, Function.update_self]
    · rw [Function.update_of_ne hsame]
  rw [hnested]
  exact hcount

theorem keeps_packageDir {I : RenderState σ → Prop} (plugin : String) (pkg : Snapshot) (path : String) :
    Keeps I (packageDir plugin pkg path : Rendering σ PluginError (String × Snapshot)) := by
  unfold packageDir
  cases (resolveInSnapshot path).filter fun directory => (subtree pkg directory).entries ≠ [] with
  | none => exact keeps_fail _
  | some directory => exact keeps_pure _

theorem keeps_chartFiles {I : RenderState σ → Prop} (chart : String) (scope : PluginScope σ) :
    Keeps I (scope.chartFiles chart) := by
  unfold PluginScope.chartFiles
  cases scope.charts.get? chart with
  | some dependency => exact keeps_pure _
  | none =>
    exact keeps_ite (fun _ => keeps_fail _) fun _ =>
      keeps_bind (keeps_packageDir _ _ _) fun _ _ _ _ => keeps_pure _

theorem keeps_helmTemplate (argsJson : String) (scope : PluginScope σ) :
    Keeps (SharedStarts strict budget before owed) (helmTemplate P services argsJson scope) := by
  refine keeps_bind (keeps_ofExcept _) fun options _ _ _ => ?_
  refine keeps_bind (keeps_chartFiles _ _) fun chart _ _ _ => ?_
  refine keeps_bind (keeps_withBudget _ _) fun manifests _ _ _ => ?_
  refine keeps_bind (keeps_forEach fun manifest _ => ?_) fun _ _ _ _ => keeps_pure _
  exact keeps_ite (fun _ => keeps_pure _) fun _ => keeps_ofExcept _

theorem keeps_kustomizeBuild (argsJson : String) (scope : PluginScope σ) :
    Keeps (SharedStarts strict budget before owed) (kustomizeBuild P services argsJson scope) := by
  refine keeps_bind (keeps_ofExcept _) fun path _ _ _ => ?_
  refine keeps_bind (keeps_packageDir _ _ _) fun directory _ _ _ => ?_
  exact keeps_bind (keeps_withBudget _ _) fun yaml _ _ _ => keeps_ofExcept _

theorem keeps_pkgRender {I : RenderState σ → Prop} (argsJson : String) {scope : PluginScope σ}
    (hrender : ∀ name inputs, Keeps I (scope.renderPackage name inputs)) :
    Keeps I (pkgRender P argsJson scope) := by
  refine keeps_bind (keeps_ofExcept _) fun options _ _ _ => ?_
  cases options.package with
  | none => exact keeps_fail _
  | some package => exact keeps_bind (hrender _ _) fun _ _ _ _ => keeps_pure _

theorem keeps_invoke (method argsJson : String) {scope : PluginScope σ}
    (hrender : ∀ name inputs,
      Keeps (SharedStarts strict budget before owed) (scope.renderPackage name inputs)) :
    Keeps (SharedStarts strict budget before owed) (invoke P services method argsJson scope) := by
  refine keeps_ite (fun _ => ?_) fun _ => keeps_ite (fun _ => ?_) fun _ =>
    keeps_ite (fun _ => ?_) fun _ => keeps_fail _
  · exact keeps_bind (keeps_helmTemplate _ _) fun _ _ _ _ => keeps_pure _
  · exact keeps_bind (keeps_kustomizeBuild _ _) fun _ _ _ _ => keeps_pure _
  · exact keeps_bind (keeps_pkgRender _ hrender) fun _ _ _ _ => keeps_pure _

theorem keeps_programResources {I : RenderState σ → Prop} (yaml : String) :
    Keeps I (programResources P yaml : Rendering σ EvaluationFailure (List Value)) := by
  unfold programResources
  split
  · exact keeps_fail _
  · split
    · split
      · exact keeps_fail _
      · exact keeps_pure _
      · exact keeps_fail _
    · exact keeps_fail _

/-- A guest keeps what its plugin calls keep. -/
theorem keeps_interact {ε : Type} {I : RenderState σ → Prop}
    {call : String → String → Rendering σ PluginError String}
    (hcall : ∀ method argsJson, Keeps I (call method argsJson)) (guest : Guest) :
    ∀ firstFailure, Keeps I
      (interact call guest firstFailure : Rendering σ ε (GuestEnd × Option PluginError)) := by
  induction guest with
  | done result => exact fun _ => keeps_pure _
  | plugin method argsJson resume ih =>
    intro firstFailure
    rw [interact]
    refine keeps_bind (keeps_result (hcall _ _)) fun answer _ _ _ => ?_
    cases answer with
    | ok text => exact ih _ _
    | error cause => exact ih _ _

/-- A nested render counts itself before it starts, and starts none beyond the limit. -/
theorem keeps_renderDependency {tree : PackageTree}
    {renderTree : (child : PackageTree) → DependencyOf tree child → Value → Bool → Nat →
      Rendering σ EvaluationFailure (List Value)}
    (hrender : ∀ child h inputs w, SharedStarts strict budget before 1 w →
      SharedStarts strict budget before 0 (renderTree child h inputs strict budget w).2)
    (name : String) (inputs : Value) :
    Keeps (SharedStarts strict budget before 0)
      (renderDependency tree renderTree strict budget name inputs) := by
  unfold renderDependency
  dsimp only
  split
  · exact keeps_fail _
  · exact keeps_fail _
  · exact keeps_fail _
  · rename_i child hchild
    rintro w ⟨new, hstarts, hnew, hcount⟩
    have hcounted : countNested budget w = (.ok ((w.budgets budget).nested + 1),
        { w with budgets := Function.update w.budgets budget
                   { w.budgets budget with nested := (w.budgets budget).nested + 1 } }) := rfl
    rw [bind_of_ok hcounted]
    by_cases hmany : (w.budgets budget).nested + 1 > MAX_NESTED_RENDERS
    · rw [if_pos hmany]
      refine ⟨new, hstarts, hnew, ?_⟩
      show new.length + 0 ≤ min (Function.update w.budgets budget _ budget).nested _
      rw [Function.update_self]
      dsimp only
      omega
    · rw [if_neg hmany]
      refine hrender child _ inputs _ ⟨new, hstarts, hnew, ?_⟩
      show new.length + 1 ≤ min (Function.update w.budgets budget _ budget).nested _
      rw [Function.update_self]
      dsimp only
      omega

/-- The state behind the start of a worker. -/
def afterStart (strict : Bool) (budget : Nat) (w : RenderState σ) : RenderState σ :=
  { w with starts := w.starts ++ [⟨strict, budget⟩] }

theorem SharedStarts.start {w : RenderState σ} (h : SharedStarts strict budget before 1 w) :
    SharedStarts strict budget before 0 (afterStart strict budget w) := by
  obtain ⟨new, hstarts, hnew, hcount⟩ := h
  refine ⟨new ++ [⟨strict, budget⟩], ?_, ?_, ?_⟩
  · rw [afterStart, hstarts, List.append_assoc]
  · intro start hstart
    rcases List.mem_append.mp hstart with hstart | hstart
    · exact hnew start hstart
    · exact List.mem_singleton.mp hstart
  · rw [List.length_append, List.length_singleton]
    exact hcount

/-- Behind the start of its worker, a run starts only what the render may nest. -/
theorem shared_evaluateWith {tree : PackageTree}
    {renderTree : (child : PackageTree) → DependencyOf tree child → Value → Bool → Nat →
      Rendering σ EvaluationFailure (List Value)}
    (hrender : ∀ child h inputs w, SharedStarts strict budget before 1 w →
      SharedStarts strict budget before 0 (renderTree child h inputs strict budget w).2)
    (filename : String) (inputs : Value) {w : RenderState σ}
    (h : SharedStarts strict budget before 0 (afterStart strict budget w)) :
    SharedStarts strict budget before 0
      (evaluateWith P services worker stdlib tree renderTree filename inputs strict budget w).2 := by
  have hget : (Effect.get : Rendering σ EvaluationFailure _) w = (.ok w, w) := rfl
  have hstarted : started
      { files := tree.files, charts := tree.charts, strict, budget
        renderPackage := renderDependency tree renderTree strict budget } w =
      (.ok (), afterStart strict budget w) := rfl
  unfold evaluateWith
  rw [bind_of_ok hget, bind_of_ok hstarted]
  refine keeps_bind (keeps_interact (fun method argsJson => keeps_invoke method argsJson ?_) _ _)
    (fun _ _ _ _ => keeps_ofExcept _) _ h
  exact keeps_renderDependency hrender

/-- So does every run in the tree below a Package. -/
theorem shared_evaluateTree (tree : PackageTree) : ∀ (filename : String) (inputs : Value)
    {w : RenderState σ}, SharedStarts strict budget before 0 (afterStart strict budget w) →
    SharedStarts strict budget before 0
      (evaluateTree P services worker stdlib tree filename inputs strict budget w).2 := by
  induction tree using (measure fun tree : PackageTree => sizeOf tree).wf.induction with
  | _ tree ih =>
    intro filename inputs w h
    rw [evaluateTree]
    refine shared_evaluateWith (fun child hchild inputs w h => ?_) filename inputs h
    exact keeps_after (ih child (sizeOf_dependency hchild) child.filename inputs h.start)
      fun yaml => keeps_programResources yaml

/-- A render starts its own run, and nests at most `MAX_NESTED_RENDERS` runs like it. -/
theorem render_starts (tree : PackageTree) (inputs : Value) (strict : Bool) (w : RenderState σ) :
    ∃ nested, (render P services worker stdlib tree inputs strict w).2.starts =
        w.starts ++ ⟨strict, w.allocated⟩ :: nested ∧
      (∀ start ∈ nested, start = ⟨strict, w.allocated⟩) ∧ nested.length ≤ MAX_NESTED_RENDERS := by
  let w₁ : RenderState σ :=
    { w with budgets := Function.update w.budgets w.allocated {}, allocated := w.allocated + 1 }
  have hnew : (newBudget : Rendering σ EvaluationFailure Nat) w = (.ok w.allocated, w₁) := rfl
  have hfirst : SharedStarts strict w.allocated (w.starts ++ [⟨strict, w.allocated⟩]) 0
      (afterStart strict w.allocated w₁) :=
    ⟨[], (List.append_nil _).symm, fun _ h => absurd h List.not_mem_nil, Nat.zero_le _⟩
  unfold render
  rw [bind_of_ok hnew]
  obtain ⟨nested, hstarts, hnested, hcount⟩ := keeps_after
    (@shared_evaluateTree P σ services worker stdlib _ _ _ tree tree.filename inputs _ hfirst)
    fun yaml => keeps_programResources yaml
  refine ⟨nested, ?_, hnested, by omega⟩
  rw [List.append_assoc] at hstarts
  exact hstarts

end Rendering

/-! ### Both -/

/-- Whatever the Packages and their programs, preparing one goes through stacks of at most
    `MAX_RENDER_DEPTH` real directories without repetition, and rendering one starts its own run and
    at most `MAX_NESTED_RENDERS` nested ones, all of the same strictness and on the same budget. -/
theorem composition_bounded {φ σ : Type} [FileSystem φ] (P : Platform) (generators : Kcl.Generators)
    (fetchers : FetchServices φ) (temporary : FilePath) (services : PluginServices σ) (worker : Worker)
    (stdlib : FilePath)
    (hcanonical : ∀ (fs : φ) path real, realPath path fs = .ok real → realPath real fs = .ok real) :
    (∀ (pkg : PackageToPrepare) (w : World φ),
      ∀ stack ∈ (prepare P generators fetchers temporary pkg { world := w }).2.entered,
        stack.Nodup ∧ stack.length ≤ MAX_RENDER_DEPTH) ∧
    ∀ (tree : PackageTree) (inputs : Value) (strict : Bool) (w : RenderState σ),
      ∃ nested, (render P services worker stdlib tree inputs strict w).2.starts =
          w.starts ++ ⟨strict, w.allocated⟩ :: nested ∧
        (∀ start ∈ nested, start = ⟨strict, w.allocated⟩) ∧ nested.length ≤ MAX_NESTED_RENDERS := by
  refine ⟨fun pkg w stack hstack => ?_, render_starts⟩
  have hnone : Shallow ({ world := w } : PrepareWorld φ) := fun _ h => absurd h List.not_mem_nil
  have hlength : ([] : List FilePath).length + MAX_RENDER_DEPTH = MAX_RENDER_DEPTH := Nat.zero_add _
  have hshallow := shallow_prepareTree hcanonical MAX_RENDER_DEPTH hlength (by decide)
    List.nodup_nil (fun _ _ => List.not_mem_nil) hnone stack hstack
  exact ⟨hshallow.nodup, hshallow.length_le⟩

/-- A Package that depends on itself. -/
def selfReferring : SampleWorkspace where
  dependencies := [("self", [("path", ".")])]
  files := [("ws/package.k", "resources = []"), ("tmp/lock", "")]

/-- Engines that answer nothing. -/
def noEngines : PluginServices Unit where
  helm _ fuelSpent engines := (.error (.die "no engine"), fuelSpent, engines)
  kustomize _ fuelSpent engines := (.error (.die "no engine"), fuelSpent, engines)
  parseEngineManifests _ := .ok []

/-- A worker whose guests render the Package's dependency on itself, and end. -/
def selfRendering : Worker := fun _ _ _ =>
  .plugin "kcl_plugin.pkg.render" "[\x7b\"package\":\"self\"\x7d]" fun _ => .done (.finished 0 [] [])

theorem self_reference_bounded :
    (prepareSample selfReferring).2.entered = [[["ws"]]] ∧
    (∀ stack ∈ (prepare selfReferring.host plainGenerators selfReferring.services ["tmp"] samplePackage
        { world := selfReferring.world }).2.entered,
      stack.Nodup ∧ stack.length ≤ MAX_RENDER_DEPTH) ∧
    ∀ tree, (prepareSample selfReferring).1 = .ok tree →
      ∃ nested, (render selfReferring.host noEngines selfRendering ["stdlib"] tree (.object []) true
          { engines := () }).2.starts = [] ++ ⟨true, 0⟩ :: nested ∧
        (∀ start ∈ nested, start = ⟨true, 0⟩) ∧ nested.length ≤ MAX_NESTED_RENDERS := by
  have hbounded := composition_bounded selfReferring.host plainGenerators selfReferring.services
    ["tmp"] noEngines selfRendering ["stdlib"] fun _ _ _ => Disk.realPath_canonical
  refine ⟨?_, hbounded.1 samplePackage selfReferring.world, fun tree _ => ?_⟩
  · rw [prepareSample, prepareTree]
    decide +kernel
  · exact hbounded.2 tree (.object []) true { engines := () }

end Akua
