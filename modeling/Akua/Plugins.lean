import Akua.EngineHost
import Akua.RenderWorker

/-! The host side of KCL's plugins: `helm.template`, `kustomize.build` and `pkg.render`, called by a
    Package's program while it runs. A plugin works in the scope of the Package that calls it: its
    files, its charts, its strictness and the budget of the render. A budget is one object that
    nested renders share, so the state holds budgets by number. -/

namespace Akua

/-! ### Failures -/

structure PluginError where
  plugin : String
  message : String
  /-- CLI contract code when the failure has a specific one. -/
  code : Option String := none
deriving DecidableEq

/-- How a computation ends without a value: with an expected failure, or by an exception. -/
inductive Cause (ε : Type) where
  | fail (error : ε)
  | die (message : String)
deriving DecidableEq

/-- The plugin failure behind a cause; anything untyped becomes a host failure. -/
def pluginFailure : Cause PluginError → PluginError
  | .fail error => error
  | .die message => { plugin := "host", message }

/-! ### The state of a render -/

/-- Shared by a render and every render nested in it. -/
structure Budget where
  nested : Nat := 0
  fuelSpent : Int := 0
deriving DecidableEq

/-- A worker run: what its plugins are given. -/
structure RenderStart where
  strict : Bool
  /-- The number of the budget. -/
  budget : Nat
deriving DecidableEq

/-- The state of the renders of a process; the starts are noted for the statements, and for the
    workers, whose guests may behave differently from run to run. -/
structure RenderState (σ : Type) where
  engines : σ
  budgets : Nat → Budget := fun _ => {}
  /-- How many budgets there are. -/
  allocated : Nat := 0
  starts : List RenderStart := []

abbrev Rendering (σ ε α : Type) : Type := Effect (RenderState σ) (Cause ε) α

def failRendering {σ ε α : Type} (error : ε) : Rendering σ ε α := Effect.fail (.fail error)

/-! ### Engines -/

structure HelmRequest where
  chartTarGz : Bytes
  values : Value
  releaseName : String
  releaseNamespace : String

structure KustomizeRequest where
  treeTarGz : Bytes
  entrypoint : String

/-- The engines, and what reads their output. An engine call takes what the budget has spent and
    gives what it has spent afterwards. -/
structure PluginServices (σ : Type) where
  helm : HelmRequest → Int → σ → Except (Cause EngineError) (Table String String) × Int × σ
  kustomize : KustomizeRequest → Int → σ → Except (Cause EngineError) String × Int × σ
  /-- `parseEngineManifests(yaml)`. -/
  parseEngineManifests : String → Except String (List Value)

/-- An engine's failure, as the plugin's. -/
def engineCause : Cause EngineError → Cause PluginError
  | .fail error => .fail { plugin := error.engine, message := error.message, code := error.code }
  | .die message => .die message

/-- Call an engine on a budget. -/
def withBudget {σ α : Type} (budget : Nat)
    (call : Int → σ → Except (Cause EngineError) α × Int × σ) : Rendering σ PluginError α := fun w =>
  let (result, fuelSpent, engines) := call (w.budgets budget).fuelSpent w.engines
  (result.mapError engineCause,
    { w with engines, budgets := Function.update w.budgets budget { w.budgets budget with fuelSpent } })

/-! ### Snapshots -/

/-- One segment of a requested path; `..` leaves the last one, and fails at the root. -/
def resolveSegment (out : List String) (segment : String) : Option (List String) :=
  if segment = "" ∨ segment = "." then some out
  else if segment ≠ ".." then some (out ++ [segment])
  else if out = [] then none
  else some out.dropLast

/-- A path inside a snapshot, relative to it. -/
def resolveInSnapshot (requested : String) : Option String :=
  if Text.startsWith requested "/" then none
  else ((Text.split requested '/').foldlM resolveSegment []).map (Text.join · '/')

/-- Files under `directory`, re-keyed relative to it. -/
def subtree (files : Snapshot) (directory : String) : Snapshot :=
  if directory = "" then files
  else Table.ofList ((files.entries.filter fun f => Text.startsWith f.1 (directory ++ "/")).map
    fun f => (Text.after f.1 (directory ++ "/"), f.2))

def lastSegment (path fallback : String) : String :=
  ((Text.split path '/').filter (· ≠ "")).getLast?.getD fallback

/-! ### Arguments -/

variable (P : Platform)

/-- Positional arguments: one object. -/
def decodeArgs {α : Type} (schema : Value → Option α) (argsJson : String) : Except PluginError α :=
  match P.parseJson argsJson with
  | .error message => .error { plugin := "args", message }
  | .ok value =>
    match value with
    | .array [options] => (schema options).elim (.error ⟨"args", P.schemaIssue value, none⟩) .ok
    | _ => .error { plugin := "args", message := P.schemaIssue value }

def isLowerOrDigit (c : Char) : Bool := c.isLower || c.isDigit

/-- `/^[a-z0-9][a-z0-9-]{0,52}$/`. -/
def isReleaseName (text : String) : Bool :=
  match text.toList with
  | [] => false
  | c :: cs => isLowerOrDigit c && decide (cs.length ≤ 52) && cs.all fun d => isLowerOrDigit d || d == '-'

/-- A DNS-1123 label: `/^[a-z0-9]([-a-z0-9]{0,61}[a-z0-9])?$/`. -/
def isNamespace (text : String) : Bool :=
  match text.toList with
  | [] => false
  | c :: cs => isLowerOrDigit c && decide (cs.length ≤ 62) &&
      cs.all (fun d => isLowerOrDigit d || d == '-') && isLowerOrDigit (cs.getLastD c)

/-- A string with a format. -/
def asFormatted (format : String → Bool) (value : Value) : Option String := value.asString.filter format

structure HelmTemplateArgs where
  chart : String
  /-- An object, if it is there and not `null`. -/
  values : Option Value
  release : Option String
  releaseNamespace : Option String

def asObject : Value → Option Value
  | .object entries => some (.object entries)
  | _ => none

def decodeHelmArgs (value : Value) : Option HelmTemplateArgs := do
  let chart ← value.required Value.asString "chart"
  let values ← value.optionalKey (Value.nullOr asObject) "values"
  let release ← value.optionalKey (asFormatted isReleaseName) "release"
  let releaseNamespace ← value.optionalKey (asFormatted isNamespace) "namespace"
  pure { chart, values := values.join, release, releaseNamespace }

structure PkgRenderArgs where
  package : Option String
  inputs : Option Value

def decodePkgRenderArgs (value : Value) : Option PkgRenderArgs := do
  let package ← value.optionalKey Value.asString "package"
  let inputs ← value.optionalKey asObject "inputs"
  pure { package, inputs }

/-! ### Key order -/

/-- A key that JavaScript objects keep in numeric order, before all others. -/
def arrayIndex (key : String) : Option Nat :=
  let n := Nat.ofDigitChars 10 key.toList 0
  if toString n = key ∧ n < 2 ^ 32 - 1 then some n else none

/-- The order in which a plain object made of these entries keeps its keys. -/
def objectOrder (entries : List (String × Value)) : List (String × Value) :=
  (entries.filter fun p => (arrayIndex p.1).isSome).insertionSort
    (fun a b => (arrayIndex a.1).getD 0 ≤ (arrayIndex b.1).getD 0) ++
  entries.filter fun p => (arrayIndex p.1).isNone

mutual

/-- The value with the keys of every object sorted. -/
def sortKeys : Value → Value
  | .array values => .array (sortKeysAll values)
  | .object entries => .object (objectOrder ((sortKeysEntries entries).insertionSort
      fun a b => Text.atMost a.1 b.1))
  | value => value

def sortKeysAll : List Value → List Value
  | [] => []
  | value :: values => sortKeys value :: sortKeysAll values

def sortKeysEntries : List (String × Value) → List (String × Value)
  | [] => []
  | (key, value) :: entries => (key, sortKeys value) :: sortKeysEntries entries

end

/-! ### Plugins -/

/-- What a plugin call can reach: the calling Package and its typed dependencies. -/
structure PluginScope (σ : Type) where
  files : Snapshot
  /-- Helm dependencies by the `path` their generated module passes. -/
  charts : Table String ResolvedDependency
  /-- Reject raw-string chart paths. -/
  strict : Bool
  /-- What the render's engine calls have spent, shared with the renders nested in it. -/
  budget : Nat
  /-- Render the Akua-Package dependency of this name with these inputs. -/
  renderPackage : String → Value → Rendering σ PluginError (List Value)

section Invoke

variable {σ : Type} (services : PluginServices σ)

/-- An archive of a snapshot under `directory/`. -/
def tarGz (files : Snapshot) (directory : String) : Bytes :=
  gzip P (tar ((files.entries.insertionSort fun a b => comparePaths a.1 b.1).map fun f =>
    { path := directory ++ "/" ++ f.1, data := f.2, mode := 0o644 }))

def noPackageNamed : PluginError where
  plugin := "pkg.render"
  message := "set `package = \"<dep-alias>\"` - declare the sub-package under `[dependencies]` in " ++
    "akua.toml and compose it by alias (filesystem paths are not allowed in composition)"

/-- Composition goes through typed dependency aliases only, never filesystem paths. -/
def pkgRender (argsJson : String) (scope : PluginScope σ) : Rendering σ PluginError (List Value) := do
  let options ← Effect.ofExcept ((decodeArgs P decodePkgRenderArgs argsJson).mapError .fail)
  match options.package with
  | none => failRendering noPackageNamed
  | some package =>
    let resources ← scope.renderPackage package (options.inputs.getD (.object []))
    pure (resources.map sortKeys)

def parseManifests (plugin yaml : String) : Rendering σ PluginError (List Value) :=
  Effect.ofExcept ((services.parseEngineManifests yaml).mapError fun cause =>
    .fail { plugin, message := "parsing output as YAML: " ++ cause })

/-- A directory of the Package, and its files. -/
def packageDir (plugin : String) (pkg : Snapshot) (path : String) :
    Rendering σ PluginError (String × Snapshot) :=
  match (resolveInSnapshot path).filter fun directory => (subtree pkg directory).entries ≠ [] with
  | none => failRendering
      { plugin, message := "path `" ++ path ++ "` is not a directory inside the Package" }
  | some directory => pure (directory, subtree pkg directory)

/-- A typed `charts.<name>` dependency, or a directory inside the Package. -/
def PluginScope.chartFiles (chart : String) (scope : PluginScope σ) :
    Rendering σ PluginError (String × Snapshot) :=
  match scope.charts.get? chart with
  | some dependency => pure (dependency.name, dependency.files)
  | none =>
    if scope.strict then failRendering
      { plugin := "helm.template", code := some "E_STRICT_UNTYPED_CHART"
        message := "raw chart path `" ++ chart ++ "` under --strict; declare the chart in " ++
          "akua.toml and use charts.<name>" }
    else do
      let (directory, files) ← packageDir "helm.template" scope.files chart
      pure (lastSegment directory "chart", files)

/-- One rendered file's resources; NOTES.txt is prose, not a manifest. -/
def manifestResources (path yaml : String) : Rendering σ PluginError (List Value) :=
  if lastSegment path "" = "NOTES.txt" then pure [] else parseManifests services "helm.template" yaml

def helmTemplate (argsJson : String) (scope : PluginScope σ) : Rendering σ PluginError (List Value) := do
  let options ← Effect.ofExcept ((decodeArgs P decodeHelmArgs argsJson).mapError .fail)
  let (name, files) ← scope.chartFiles options.chart
  let manifests ← withBudget scope.budget (services.helm
    { chartTarGz := tarGz P files name
      values := options.values.getD (.object [])
      releaseName := options.release.getD "release"
      releaseNamespace := options.releaseNamespace.getD "default" })
  let sorted := manifests.entries.insertionSort fun a b => Text.atMost a.1 b.1
  let resources ← forEach (fun manifest => manifestResources services manifest.1 manifest.2) sorted
  pure resources.flatten

def kustomizeBuild (argsJson : String) (scope : PluginScope σ) :
    Rendering σ PluginError (List Value) := do
  let path ← Effect.ofExcept
    ((decodeArgs P (fun value => value.required Value.asString "path") argsJson).mapError .fail)
  let (directory, _) ← packageDir "kustomize.build" scope.files path
  -- the overlay's parent, so that sibling bases resolve
  let parent := Text.join (Text.split directory '/').dropLast '/'
  let yaml ← withBudget scope.budget (services.kustomize
    { treeTarGz := tarGz P (subtree scope.files parent) "pkg"
      entrypoint := "pkg/" ++ lastSegment directory "overlay" })
  parseManifests services "kustomize.build" yaml

/-- Answer a plugin call, in JSON. -/
def invoke (method argsJson : String) (scope : PluginScope σ) : Rendering σ PluginError String :=
  let name := Text.stripPrefix method "kcl_plugin."
  let stringified (resources : Rendering σ PluginError (List Value)) := do
    let resources ← resources
    pure (Value.stringify (.array resources))
  if name = "helm.template" then stringified (helmTemplate P services argsJson scope)
  else if name = "kustomize.build" then stringified (kustomizeBuild P services argsJson scope)
  else if name = "pkg.render" then stringified (pkgRender P argsJson scope)
  else failRendering { plugin := name, message := "no plugin registered under `" ++ name ++ "`" }

end Invoke

end Akua
