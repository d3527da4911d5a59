import Akua.KclModules

/-! A Package made ready to render: its dependencies resolved, the Akua Packages among them prepared
    the same way, and the generated KCL packages mounted for the worker. `prepareTree` carries the
    real directories of the Packages on its stack: a Package that is on it already is a cycle, and
    the stack does not grow beyond `MAX_RENDER_DEPTH`. The recursion is on what the stack has left
    to grow, so the preparation of any graph of Packages ends. -/

namespace Akua

/-- Composition is shallow in practice (one to three levels); deeper is a runaway. -/
def MAX_RENDER_DEPTH : Nat := 16

/-- Where the generated packages of a tree are mounted on the host. -/
structure Mounts where
  charts : Option FilePath := none
  pkgs : Option FilePath := none
  /-- KCL packages by the identifier they import as. -/
  kclModules : List (String × FilePath) := []
deriving DecidableEq

/-- A Package ready to render, with what its Akua-Package dependencies are prepared as. -/
structure PackageTreeOf (α : Type) where
  filename : String
  source : String
  files : Snapshot
  /-- Helm dependencies by the `path` their generated module passes to `helm.template`. -/
  charts : Table String ResolvedDependency
  /-- Akua-Package dependencies by name. -/
  packages : List (String × α)
  mounts : Mounts

/-- An Akua-Package dependency, ready to render, or why it cannot be: it is on its own render stack,
    or too deep. -/
inductive Prepared where
  | tree (tree : PackageTreeOf Prepared)
  | cycle
  | tooDeep

abbrev PackageTree : Type := PackageTreeOf Prepared

/-- A Package to prepare. -/
structure PackageToPrepare where
  workspace : FilePath
  filename : String
  files : Snapshot
  options : ResolveOptions

/-- The state of a preparation. The stacks it went through are noted for the statements only. -/
structure PrepareWorld (φ : Type) where
  world : World φ
  entered : List (List FilePath) := []

abbrev Preparation (φ α : Type) : Type := Effect (PrepareWorld φ) RenderFailure α

/-- A failure of the file system is the render's, in its words. -/
def renderFailure : Failure → RenderFailure
  | .platform error => .renderError error.message
  | failure => .failure failure

namespace Preparation

variable {φ α : Type}

/-- A step of the host's. -/
def host (m : Run φ Failure α) : Preparation φ α := fun w =>
  ((m w.world).1.mapError renderFailure, { w with world := (m w.world).2 })

/-- Note a stack. -/
def enter (stack : List FilePath) : Preparation φ Unit :=
  Effect.modify fun w => { w with entered := stack :: w.entered }

variable [FileSystem φ]

/-- The real directory behind a path. -/
def realPath (path : FilePath) : Preparation φ FilePath :=
  host (Run.read (platform (FileSystem.realPath path)))

theorem realPath_state (path : FilePath) (w : PrepareWorld φ) : (realPath path w).2 = w := rfl

/-- Write one file of a mounted snapshot. -/
def mountFile (directory : FilePath) (file : String × Bytes) : Run φ PlatformError Unit := do
  let target := FilePath.join directory file.1
  Run.makeDirectory (FilePath.dirname target)
  Run.writeFile target file.2

/-- A private directory that holds a snapshot, below the system's directory for such. -/
def mount (temporary : FilePath) (files : Snapshot) : Preparation φ FilePath :=
  host (Effect.mapError .platform do
    let directory ← Run.onDisk (FileSystem.makeTempDirectory temporary "akuapkg-preopen-")
    let _ ← forEach (mountFile directory) files.entries
    pure directory)

/-- A package that may be missing. -/
def mountSome (temporary : FilePath) : Option Snapshot → Preparation φ (Option FilePath)
  | none => pure none
  | some files => some <$> mount temporary files

end Preparation

/-! ### Preparing -/

section Prepare

open Preparation Kcl

variable (P : Platform) (generators : Generators) {φ : Type} [FileSystem φ]
variable (services : FetchServices φ) (temporary : FilePath)

/-- The KCL packages of a Package's dependencies. -/
structure GeneratedPackages where
  charts : Option Snapshot
  stubs : Option Snapshot
  modules : List KclModule
  crds : Option Snapshot

def generatedPackages (dependencies : List ResolvedDependency) :
    Except RenderFailure GeneratedPackages := do
  let charts ← chartsPackage P generators dependencies
  let stubs ← packageStubs P generators dependencies
  let modules ← kclModules dependencies
  let crds ← crdsPackage generators dependencies
  .ok { charts, stubs, modules, crds }

/-- The KCL modules that are mounted by name: those of the dependencies, and the CRD schemas. -/
def GeneratedPackages.mounted (packages : GeneratedPackages) : List KclModule :=
  match packages.crds with
  | none => packages.modules
  | some files => packages.modules ++ [{ ident := "crds", files }]

def mountAll (packages : GeneratedPackages) : Preparation φ Mounts := do
  let charts ← mountSome temporary packages.charts
  let pkgs ← mountSome temporary packages.stubs
  let kclModules ← forEach (fun (module : KclModule) => do
    let directory ← mount temporary module.files
    pure (module.ident, directory)) packages.mounted
  pure { charts, pkgs, kclModules }

/-- Prepare a Package; `ancestors` are the real directories of the Packages on its render stack. -/
def prepareTree (pkg : PackageToPrepare) (ancestors : List FilePath) : Preparation φ PackageTree := do
  let directory ← realPath pkg.workspace
  let stack := ancestors ++ [directory]
  enter stack
  let resolved ← host (resolvePackage P services pkg.workspace pkg.options)
  let generated ← Effect.ofExcept (generatedPackages P generators resolved.dependencies)
  let packages ← forEach (fun (dependency : ResolvedDependency) => do
    let root ← realPath dependency.root
    if root ∈ stack then pure (dependency.name, Prepared.cycle)
    else if _ : MAX_RENDER_DEPTH ≤ stack.length then pure (dependency.name, Prepared.tooDeep)
    else do
      let tree ← prepareTree
        { workspace := root, filename := "package.k", files := dependency.files
          options := pkg.options } stack
      pure (dependency.name, Prepared.tree tree)) (ofKind .package resolved.dependencies)
  let mounts ← mountAll temporary generated
  pure
    { filename := pkg.filename
      source := decodeText P ((pkg.files.get? pkg.filename).getD [])
      files := pkg.files
      charts := Table.ofList ((ofKind .helm resolved.dependencies).map fun dependency =>
        (chartReference dependency.name, dependency))
      packages := packages.foldl (fun entries p => Table.insert p.1 p.2 entries) []
      mounts }
termination_by MAX_RENDER_DEPTH - ancestors.length
decreasing_by
  rename_i h
  simp only [stack, List.length_append, List.length_singleton] at h ⊢
  omega

/-- Prepare the Package that was asked for. -/
def prepare (pkg : PackageToPrepare) : Preparation φ PackageTree :=
  prepareTree P generators services temporary pkg []

end Prepare

/-! ### What the worker is told -/

/-- The worker request fields naming a tree's dependency packages, by guest path. -/
structure DependencyFields where
  charts_pkg_path : Option String
  pkgs_pkg_path : Option String
  kcl_pkgs : Option (Table String String)
deriving DecidableEq

def dependencyFields (mounts : Mounts) : DependencyFields where
  charts_pkg_path := mounts.charts.map fun _ => "/charts"
  pkgs_pkg_path := mounts.pkgs.map fun _ => "/akua-pkgs"
  kcl_pkgs := if mounts.kclModules = [] then none
    else some (Table.ofList (mounts.kclModules.map fun (ident, _) => (ident, "/kcl-pkgs/" ++ ident)))

/-- A package of KCL source outside the one that is evaluated. -/
structure ExternalPkg where
  pkg_name : String
  pkg_path : String
deriving DecidableEq

/-- The `akua` stdlib, where the worker has it. -/
def akuaExternalPkgs : List ExternalPkg := [⟨"akua", "/akua-stdlib"⟩]

/-- The stdlib plus a render's dependency packages, as the worker registers them. -/
def renderExternalPkgs (fields : DependencyFields) : List ExternalPkg :=
  akuaExternalPkgs ++
  (fields.charts_pkg_path.map fun path => ⟨"charts", path⟩).toList ++
  (fields.pkgs_pkg_path.map fun path => ⟨"pkgs", path⟩).toList ++
  (((fields.kcl_pkgs.map Table.entries).getD []).insertionSort fun a b => a.1 ≤ b.1).map
    fun (ident, path) => ⟨ident, path⟩

/-- The names that imports go by in a Package. -/
def importNames (tree : PackageTree) : List String :=
  (renderExternalPkgs (dependencyFields tree.mounts)).map ExternalPkg.pkg_name

end Akua
