import Akua.Plugins

/-! Rendering a prepared Package: its program runs in a fresh guest of the worker, and `pkg.render`
    renders a dependency from inside the caller's plugin call. A guest is a program that asks for
    plugin calls and ends; it has a fuel limit of its own, so it asks finitely often. The rendering
    of a Package calls itself on the dependencies it was prepared with, so nested rendering ends
    with the tree. -/

namespace Akua

/-- Nested renders one render may start. -/
def MAX_NESTED_RENDERS : Nat := 64

/-! ### Guests -/

/-- How a worker's guest ends. -/
inductive GuestEnd where
  /-- It returned, or exited with a code. -/
  | finished (exitCode : Int) (stdout stderr : Bytes)
  | notStarted (cause : String)
  | stopped (reason : GuestReason) (detail : String)
  | threw (message : String)

/-- A guest: it ends, or calls a plugin and goes on with the answer. -/
inductive Guest where
  | done (result : GuestEnd)
  | plugin (method argsJson : String) (resume : String → Guest)

/-- The worker: the guest it starts for a request and the directories it sees. -/
abbrev Worker : Type := List RenderStart → (stdin : Bytes) → List (String × FilePath) → Guest

/-! ### Failures -/

inductive ProgramProblem where
  | notAMapping
  | noResources
  | resourcesNotASequence
deriving DecidableEq

/-- What evaluating a Package fails with. -/
inductive EvaluationFailure where
  | renderError (message : String)
  | programShape (problem : ProgramProblem) (got : String)
  | guestFailure (failure : GuestFailure)
  | plugin (error : PluginError)
deriving DecidableEq

def GuestFailure.summary (failure : GuestFailure) : String :=
  let what := match failure.reason with
    | .outOfFuel => "fuel exhausted"
    | .memoryLimit => "memory cap exceeded"
    | .trap => "trapped"
  what ++ if failure.detail = "" then "" else ": " ++ failure.detail

/-- The CLI contract code of a budget failure. -/
def GuestFailure.budgetCode (failure : GuestFailure) : Option String :=
  match failure.reason with
  | .outOfFuel => some "E_RENDER_BUDGET_DEADLINE"
  | .memoryLimit => some "E_RENDER_BUDGET_MEMORY"
  | .trap => none

def EvaluationFailure.message : EvaluationFailure → String
  | .renderError message => message
  | .programShape .notAMapping got => "rendered Package must be a top-level mapping; got " ++ got
  | .programShape .noResources _ =>
    "rendered Package must set top-level `resources`; got no such key"
  | .programShape .resourcesNotASequence got => "`resources` must be a sequence; got " ++ got
  | .guestFailure failure => failure.module ++ ": " ++ failure.summary
  | .plugin error => error.message

/-- A failed nested render, as the failure of the plugin call. -/
def nestedFailure (plugin : String) : EvaluationFailure → PluginError
  | .plugin error => { plugin, message := error.plugin ++ ": " ++ error.message, code := error.code }
  | .guestFailure failure =>
    { plugin, message := (EvaluationFailure.guestFailure failure).message, code := failure.budgetCode }
  | failure => { plugin, message := failure.message }

def nestedCause (plugin : String) : Cause EvaluationFailure → Cause PluginError
  | .fail failure => .fail (nestedFailure plugin failure)
  | .die message => .die message

/-! ### Programs -/

variable (P : Platform)

/-- What a YAML value is, in the previous release's words. -/
def yamlKind : Value → String
  | .null => "null"
  | .array _ => "sequence"
  | .object _ => "mapping"
  | .bool _ => "bool"
  | .number _ => "number"
  | .string _ | .date _ => "string"

/-- The `resources` of a Package program's YAML. -/
def programResources {σ : Type} (yaml : String) : Rendering σ EvaluationFailure (List Value) :=
  match P.parseYaml yaml with
  | .error cause => failRendering (.renderError ("kcl output is not valid YAML: " ++ cause))
  | .ok program =>
    match program with
    | .object entries =>
      match entries.lookup "resources" with
      | none => failRendering (.programShape .noResources "")
      | some (.array resources) => pure resources
      | some other => failRendering (.programShape .resourcesNotASequence (yamlKind other))
    | other => failRendering (.programShape .notAMapping (yamlKind other))

/-- A field of a request that may be left out. -/
def optionalField (key : String) (value : Option Value) : List (String × Value) :=
  (value.map fun value => (key, value)).toList

/-- The render request a worker reads. -/
def workerRequest (tree : PackageTree) (filename : String) (inputs : Value) : Bytes :=
  let fields := dependencyFields tree.mounts
  encodeText (Value.stringify (.object (
    [("kind", .string "render"), ("package_filename", .string filename),
      ("source", .string tree.source), ("inputs", inputs)] ++
    optionalField "charts_pkg_path" (fields.charts_pkg_path.map .string) ++
    optionalField "pkgs_pkg_path" (fields.pkgs_pkg_path.map .string) ++
    optionalField "kcl_pkgs" (fields.kcl_pkgs.map fun pkgs =>
      .object (pkgs.entries.map fun p => (p.1, .string p.2))))))

/-- The stdlib and a tree's dependency packages, where the request says they are. -/
def preopens (stdlib : FilePath) (mounts : Mounts) : List (String × FilePath) :=
  [("/akua-stdlib", stdlib)] ++
  (mounts.charts.map fun tree => ("/charts", tree)).toList ++
  (mounts.pkgs.map fun tree => ("/akua-pkgs", tree)).toList ++
  mounts.kclModules.map fun (ident, tree) => ("/kcl-pkgs/" ++ ident, tree)

structure WorkerResponse where
  ok : Bool
  yaml : String
  message : Option String

def decodeResponse (text : String) : Except String WorkerResponse :=
  match P.parseJson text with
  | .error message => .error message
  | .ok value =>
    let response : Option WorkerResponse := do
      let _ ← (value.required Value.asString "kind").filter (· = "render")
      let status ← (value.required Value.asString "status").filter (· ∈ ["ok", "fail"])
      let yaml ← value.required Value.asString "yaml"
      let message ← value.optionalKey Value.asString "message"
      pure { ok := status = "ok", yaml, message }
    response.elim (.error (P.schemaIssue value)) .ok

/-! ### Evaluation -/

variable {σ : Type} (services : PluginServices σ) (worker : Worker) (stdlib : FilePath)

/-- `__kcl_PanicInfo__` envelope: KCL raises it as a runtime error at the call site. -/
def panicEnvelope (message : String) : String :=
  Value.stringify (.object [("__kcl_PanicInfo__", .string message)])

/-- Run a guest. Its plugin calls run to completion; a failure reaches it as a panic, and the first
    one is kept. -/
def interact {ε : Type} (call : String → String → Rendering σ PluginError String) :
    Guest → Option PluginError → Rendering σ ε (GuestEnd × Option PluginError)
  | .done result, firstFailure => pure (result, firstFailure)
  | .plugin method argsJson resume, firstFailure => do
    let answer ← (call method argsJson).result
    match answer with
    | .ok text => interact call (resume text) firstFailure
    | .error cause =>
      let failure := pluginFailure cause
      interact call (resume (panicEnvelope (failure.plugin ++ ": " ++ failure.message)))
        (firstFailure <|> some failure)

/-- What a finished guest's run comes to; a plugin's own failure is reported before the panic it
    caused. -/
def evaluationResult (firstFailure : Option PluginError) (result : GuestEnd) :
    Except (Cause EvaluationFailure) String :=
  let failWith (failure : EvaluationFailure) : Except (Cause EvaluationFailure) String :=
    .error (.fail ((firstFailure.map .plugin).getD failure))
  match result with
  | .threw message => .error (.die message)
  | .notStarted cause => failWith (.renderError ("akua-render-worker: instantiate: " ++ cause))
  | .stopped reason detail =>
    let failure := EvaluationFailure.guestFailure { module := "akua-render-worker", reason, detail }
    if reason = .trap then failWith failure else .error (.fail failure)
  | .finished exitCode stdout stderr =>
    if exitCode ≠ 0 then
      failWith (.renderError ("worker exited " ++ toString exitCode ++ ": " ++ decodeText P stderr))
    else
      match decodeResponse P (decodeText P stdout) with
      | .error message => .error (.fail (.renderError message))
      | .ok response =>
        if response.ok then .ok response.yaml
        else failWith (.renderError (response.message.getD "render failed"))

/-- Note the start of a worker with the scope of its plugins. -/
def started (scope : PluginScope σ) : Rendering σ EvaluationFailure Unit :=
  Effect.modify fun w =>
    { w with starts := w.starts ++ [{ strict := scope.strict, budget := scope.budget }] }

/-- Count a nested render. -/
def countNested (budget : Nat) : Rendering σ PluginError Nat := fun w =>
  let nested := (w.budgets budget).nested + 1
  (.ok nested, { w with budgets := Function.update w.budgets budget { w.budgets budget with nested } })

/-- A dependency that a Package was prepared with. -/
def DependencyOf (tree child : PackageTree) : Prop := ∃ name, (name, Prepared.tree child) ∈ tree.packages

theorem dependencyOf_lookup {tree child : PackageTree} {name : String}
    (h : tree.packages.lookup name = some (.tree child)) : DependencyOf tree child := by
  refine ⟨name, ?_⟩
  obtain ⟨before, after, hentries, -⟩ := List.lookup_eq_some_iff.mp h
  rw [hentries]
  exact List.mem_append_right _ List.mem_cons_self

def tooManyNested (plugin : String) : PluginError where
  plugin := plugin
  code := some "E_RENDER_BUDGET_DEADLINE"
  message := "more than " ++ toString MAX_NESTED_RENDERS ++
    " nested renders - composition exceeds the render budget"

section Nested

variable (tree : PackageTree)
variable (renderTree : (child : PackageTree) → DependencyOf tree child → Value → (strict : Bool) →
  (budget : Nat) → Rendering σ EvaluationFailure (List Value))

/-- `pkg.render` of a dependency, from inside the caller's plugin call. -/
def renderDependency (strict : Bool) (budget : Nat) (name : String) (inputs : Value) :
    Rendering σ PluginError (List Value) :=
  let plugin := "pkg.render(" ++ name ++ ")"
  match h : tree.packages.lookup name with
  | none =>
    let known := tree.packages.map Prod.fst
    failRendering
      { plugin := "pkg.render"
        message := "package `" ++ name ++ "` is not in the current Package's dependencies (" ++
          (if known = [] then "none - declare it under `[dependencies]` in akua.toml"
            else "known: " ++ ", ".intercalate known) ++ ")" }
  | some .cycle => failRendering
      { plugin, code := some "E_RENDER_CYCLE"
        message := "cycle detected - already on the render stack" }
  | some .tooDeep => failRendering
      { plugin, code := some "E_RENDER_BUDGET_DEPTH"
        message := "render depth limit (" ++ toString MAX_RENDER_DEPTH ++
          ") exceeded - likely composition runaway" }
  | some (.tree child) => do
    let nested ← countNested budget
    if nested > MAX_NESTED_RENDERS then failRendering (tooManyNested plugin)
    else
      Effect.mapError (nestedCause plugin)
        (renderTree child (dependencyOf_lookup h) inputs strict budget)

/-- Evaluate a Package, given how its dependencies are rendered. -/
def evaluateWith (filename : String) (inputs : Value) (strict : Bool) (budget : Nat) :
    Rendering σ EvaluationFailure String := do
  let scope : PluginScope σ :=
    { files := tree.files, charts := tree.charts, strict, budget
      renderPackage := renderDependency tree renderTree strict budget }
  let w ← Effect.get
  started scope
  let (result, firstFailure) ← interact (fun method argsJson => invoke P services method argsJson scope)
    (worker w.starts (workerRequest tree filename inputs) (preopens stdlib tree.mounts)) none
  Effect.ofExcept (evaluationResult P firstFailure result)

end Nested

theorem sizeOf_dependency {tree child : PackageTree} (h : DependencyOf tree child) :
    sizeOf child < sizeOf tree := by
  obtain ⟨name, hmem⟩ := h
  have hentry := List.sizeOf_lt_of_mem hmem
  cases tree
  simp only [Prod.mk.sizeOf_spec, Prepared.tree.sizeOf_spec] at hentry
  simp only [PackageTreeOf.mk.sizeOf_spec]
  omega

/-- Run a prepared Package's program: the YAML it prints. -/
def evaluateTree (tree : PackageTree) (filename : String) (inputs : Value) (strict : Bool)
    (budget : Nat) : Rendering σ EvaluationFailure String :=
  evaluateWith P services worker stdlib tree (fun child h inputs strict budget => do
    have := sizeOf_dependency h
    let yaml ← evaluateTree child child.filename inputs strict budget
    programResources P yaml) filename inputs strict budget
termination_by sizeOf tree

def renderTree (tree : PackageTree) (inputs : Value) (strict : Bool) (budget : Nat) :
    Rendering σ EvaluationFailure (List Value) := do
  let yaml ← evaluateTree P services worker stdlib tree tree.filename inputs strict budget
  programResources P yaml

/-- A new budget. -/
def newBudget : Rendering σ EvaluationFailure Nat := fun w =>
  (.ok w.allocated,
    { w with budgets := Function.update w.budgets w.allocated {}, allocated := w.allocated + 1 })

/-- Render a prepared Package. -/
def render (tree : PackageTree) (inputs : Value) (strict : Bool) :
    Rendering σ EvaluationFailure (List Value) := do
  let budget ← newBudget
  renderTree P services worker stdlib tree inputs strict budget

/-- Run a prepared Package's program for its top-level bindings. -/
def evaluate (tree : PackageTree) (filename : String) (inputs : Value) :
    Rendering σ EvaluationFailure String := do
  let budget ← newBudget
  evaluateTree P services worker stdlib tree filename inputs false budget

end Akua
