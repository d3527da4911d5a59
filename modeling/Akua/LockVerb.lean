import Akua.Workspace

/-! What the `lock` verb is about to write: every dependency is resolved online, to be merged into the
    lock that is there. -/

namespace Akua

/-- The roots of the leading `import` lines; a line that is none ends them. -/
def leadingRoots : List String → List String
  | [] => []
  | line :: rest =>
    let trimmed := String.ofList (line.toList.dropWhile isSpace)
    if trimmed = "" ∨ Text.startsWith trimmed "#" then leadingRoots rest
    else if !Text.startsWith trimmed "import " then []
    else
      let path := (Text.after trimmed "import ").toList.takeWhile fun c => !isSpace c && c ≠ '#'
      let root := (Text.split (String.ofList path) '.').headD ""
      if root = "" then leadingRoots rest else root :: leadingRoots rest

/-- `import a.b` gives `a`. -/
def importRoots (source : String) : List String :=
  if (Text.cut source "import ").isNone then [] else leadingRoots (Text.split source '\n')

example : importRoots "import a.b # c\n\n# d\n  import web\nx = 1\nimport e" = ["a", "web"] := by decide +kernel

/-- A dependency imported by name that is a Helm chart, which cannot be imported. -/
def importedChart (source : String) (resolved : List ResolvedDependency) : Option String :=
  ((importRoots source).filter fun root => root ∉ ["akua", "kcl_plugin", "charts"]).find? fun root =>
    ((resolved.find? fun dependency => dependency.name = root).map fun dependency => dependency.kind) = some .helm

/-- What `lock` works out before it writes. -/
structure LockPlan where
  prior : Lock
  resolved : ResolvedPackage
  generation : CrdGeneration

def LockPlan.next (plan : LockPlan) : Lock :=
  mergeIntoLock plan.prior (lockUpdates plan.resolved.dependencies plan.generation)

def chartImported (root : String) : Failure :=
  cliFailure "E_DEP_KIND_MISMATCH" ("dep `" ++ root ++ "` is referenced by `import " ++ root ++
      "` but resolves as a Helm chart - only KCL / Akua-package deps can be imported. " ++
      "Either remove the import or change the dep declaration.")
    .userError none (some ("Remove the `import` for this alias, or replace the dep with a path/OCI reference " ++
      "to a KCL or Akua package (akua.toml + package.k, or kcl.mod)."))

/-- `package.k` imports no Helm chart by name. -/
def checkImports (source : Option String) (resolved : List ResolvedDependency) : Except Failure Unit :=
  match source.bind fun source => importedChart source resolved with
  | some root => .error (chartImported root)
  | none => .ok ()

section Verb

variable (P : Platform) {φ : Type} [FileSystem φ] (services : FetchServices φ) (convert : CrdConverter)
  (workspace : FilePath)

/-- Every dependency resolved online, and its schemas generated. -/
def planLock : Run φ Failure LockPlan := do
  let _ ← Run.read (loadManifestForLock P workspace)
  let prior ← Run.read (priorLock P workspace)
  let resolved ← resolveForLock P services workspace .oci
  let source ← Run.read (Reading.orElseSucceed (readOptional P (joinPath workspace "package.k")) none)
  Effect.ofExcept (checkImports source resolved.dependencies)
  let generation ← Effect.ofExcept (generateCrds P convert resolved.dependencies)
  pure { prior, resolved, generation }

end Verb

section Runs

variable {P : Platform} {φ : Type} [FileSystem φ] {services : FetchServices φ} {convert : CrdConverter}
  {workspace : FilePath} {w w' : World φ}

/-- A plan is a resolution, its generated schemas, and the lock that was there. -/
theorem planLock_ok {plan : LockPlan} (h : planLock P services convert workspace w = (.ok plan, w')) :
    priorLock P workspace w.fs = (.ok plan.prior : Except Failure Lock) ∧
      resolveForLock P services workspace .oci w = (.ok plan.resolved, w') ∧
      generateCrds P convert plan.resolved.dependencies = .ok plan.generation := by
  obtain ⟨_, -, h⟩ := Run.read_bind_ok.mp h
  obtain ⟨prior, hprior, h⟩ := Run.read_bind_ok.mp h
  obtain ⟨resolved, w₁, hresolved, h⟩ := Effect.bind_ok.mp h
  obtain ⟨source, -, h⟩ := Run.read_bind_ok.mp h
  obtain ⟨_, w₂, hchecked, h⟩ := Effect.bind_ok.mp h
  obtain ⟨-, rfl⟩ := Effect.ofExcept_ok.mp hchecked
  obtain ⟨generation, w₃, hgeneration, h⟩ := Effect.bind_ok.mp h
  obtain ⟨hgenerated, rfl⟩ := Effect.ofExcept_ok.mp hgeneration
  cases h
  exact ⟨hprior, hresolved, hgenerated⟩

end Runs

end Akua
