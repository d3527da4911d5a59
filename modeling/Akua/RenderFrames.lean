import Akua.RustLock
import Akua.Value

/-! The render core's frame stack. A render pushes a frame with its settings for as long as it is
    evaluated; a `pkg.render` call inside it opens another Package, resolves that Package's own
    dependencies with the settings of the frame on top, and pushes a frame for it. -/

namespace Akua.Rust

open FileSystem

/-- Limits that a render hands down to the renders inside it. -/
structure BudgetSnapshot where
  deadline : Option Nat := none
  maxDepth : Nat := 16
deriving DecidableEq

/-- What a render hands down to the resolution of the Packages inside it. -/
structure ResolverContext where
  offline : Bool := false
  cacheRoot : Option String := none
  rejectReplace : Bool := false
  cosignPublicKeyPem : Option String := none
  auth : Option HostAuthMap := none
deriving DecidableEq

structure RenderFrame where
  package : FilePath
  allowedRoots : List FilePath
  /-- Plugin paths must come from a typed `charts.*` import. -/
  strict : Bool
  budget : BudgetSnapshot
  /-- The Akua-package dependencies by their alias. -/
  resolvedPkgs : Table String FilePath
  resolver : ResolverContext
deriving DecidableEq

/-- The frames of a thread, the top one first. -/
abbrev RenderStack := List RenderFrame

namespace RenderStack

variable (stack : RenderStack)

def topFrameBudget : BudgetSnapshot := (stack.head?.map RenderFrame.budget).getD {}

def topFrameResolver : ResolverContext := (stack.head?.map RenderFrame.resolver).getD {}

def resolvePkgAlias (depAlias : String) : Option FilePath :=
  stack.head?.bind fun frame => frame.resolvedPkgs.get? depAlias

def currentPkgAliases : List String :=
  ((stack.head?.map fun frame => frame.resolvedPkgs.keys).getD []).insertionSort (· ≤ ·)

def enterFull (package : FilePath) (allowedRoots : List FilePath) (strict : Bool)
    (budget : BudgetSnapshot) (resolvedPkgs : Table String FilePath) (resolver : ResolverContext) :
    RenderStack :=
  { package, allowedRoots, strict, budget, resolvedPkgs, resolver } :: stack

def enterWith (package : FilePath) (allowedRoots : List FilePath) (strict : Bool) : RenderStack :=
  stack.enterFull package allowedRoots strict stack.topFrameBudget Table.empty stack.topFrameResolver

def enter (package : FilePath) : RenderStack := stack.enterWith package [] false

def enterWithBudget (package : FilePath) (budget : BudgetSnapshot) : RenderStack :=
  stack.enterFull package [] false budget Table.empty stack.topFrameResolver

section Charts

variable {φ : Type} [FileSystem φ] (fs : φ)

/-- The directories of the charts, in the order of their names. -/
def allowedRoots (charts : ResolvedCharts) : List FilePath :=
  (charts.entries.entries.insertionSort fun a b => a.1 ≤ b.1).map fun entry => entry.2.absPath

/-- The dependencies with a `package.k`. -/
def packageDirs (charts : ResolvedCharts) : Table String FilePath where
  entries := (charts.entries.entries.filter fun entry =>
    (isFile (ε := Empty) (entry.2.absPath ++ ["package.k"]) fs).toOption.getD false).map
      fun entry => (entry.1, entry.2.absPath)
  nodup := by
    rw [List.map_map]
    exact charts.entries.nodup.sublist (List.filter_sublist.map _)

def enterForRender (package : FilePath) (charts : ResolvedCharts) (strict : Bool) : RenderStack :=
  stack.enterFull package (allowedRoots charts) strict stack.topFrameBudget (packageDirs fs charts)
    stack.topFrameResolver

def enterForRenderWithBudget (package : FilePath) (charts : ResolvedCharts) (strict : Bool)
    (budget : BudgetSnapshot) (resolver : ResolverContext) : RenderStack :=
  stack.enterFull package (allowedRoots charts) strict budget (packageDirs fs charts) resolver

end Charts

/-- What a `pkg.render` call looks at before it opens its target. -/
structure PreCheck where
  cycle : Bool
  depth : Nat
  budget : BudgetSnapshot

def preCheck (target : FilePath) : PreCheck where
  cycle := stack.any fun frame => frame.package = target
  depth := stack.length
  budget := stack.topFrameBudget

end RenderStack

/-! ### A nested render -/

inductive PkgRenderError where
  | options
  | inputs (cause : String)
  | noPackage
  | unknownAlias (depAlias : String) (known : List String)
  | cycle (target : FilePath)
  | depthLimit (target : FilePath) (maxDepth : Nat)
  | deadline (target : FilePath)
  | packageMissing (target : FilePath)
  | packageIo (target : FilePath) (source : PlatformError)
  | manifestIo (target : FilePath) (source : PlatformError)
  | manifestParse (target : FilePath) (source : ManifestError)
  | childDeps (target : FilePath) (source : ChartResolveError)

structure PackageK where
  path : FilePath
  source : String

def LockedPackage.isOci (locked : LockedPackage) : Bool := Text.startsWith locked.source "oci://"

/-- The core's readers of documents, and the conversion of inputs. -/
structure Readers where
  manifest : String → Except String AkuaManifest
  /-- The packages of a valid lockfile. -/
  lock : String → Except String (List LockedPackage)
  inputs : Value → Except String Value

/-- The options of a `pkg.render` call, from its first argument. -/
def extractOptionsArg (args : Value) : Option (List (String × Value)) :=
  match args with
  | .array (.object options :: _) => some options
  | _ => none

section Nested

variable {φ : Type} [FileSystem φ] [EntryTypes φ] (P : Platform) (cwd : FilePath) (readers : Readers)

/-- `std::fs::read_to_string`. -/
def readToString (path : FilePath) : Reading φ PlatformError String := do
  let bytes ← readFile path
  match decodeUtf8 bytes with
  | some text => pure text
  | none => .fail ⟨.other, "stream did not contain valid UTF-8"⟩

/-- Load a Package; where the real path cannot be told, it goes by the path it was asked for. -/
def PackageK.load (path : FilePath) : Reading φ (Stop PkgRenderError) PackageK := do
  let source ← (readToString path).mapError fun e =>
    .err (if e.reason = .notFound then .packageMissing path else .packageIo path e)
  let canon ← (realPath path).option
  pure { path := canon.getD path, source }

/-- The manifest beside a Package, if there is one. -/
def loadChildManifest (target : FilePath) : Reading φ (Stop PkgRenderError) (Option AkuaManifest) := fun fs =>
  match readToString (FilePath.dirname target ++ ["akua.toml"]) fs with
  | .error e => if e.reason = .notFound then .ok none else .error (.err (.manifestIo target e))
  | .ok text =>
    match AkuaManifest.parse readers.manifest text with
    | .ok manifest => .ok (some manifest)
    | .error (.err e) => .error (.err (.manifestParse target e))
    | .error (.panic message) => .error (.panic message)

/-- The digests that the child's own lockfile pins. -/
def childDigests (target : FilePath) : Reading φ (Stop PkgRenderError) (Table String String) := fun fs =>
  match readToString (FilePath.dirname target ++ ["akua.lock"]) fs with
  | .error _ => .ok Table.empty
  | .ok text =>
    match readers.lock text with
    | .error _ => .ok Table.empty
    | .ok packages => .ok (Table.ofList ((packages.filter LockedPackage.isOci).map fun p =>
        (p.name, p.digest)))

/-- The options for a child's dependencies: the digests are its own, the rest comes from the frame
    on top. -/
def childOptions (stack : RenderStack) (expectedDigests : Table String String) : ResolverOptions :=
  let ctx := stack.topFrameResolver
  { offline := ctx.offline
    cacheRoot := ctx.cacheRoot
    expectedDigests
    cosignPublicKeyPem := ctx.cosignPublicKeyPem
    rejectReplace := ctx.rejectReplace
    auth := ctx.auth }

/-- A failed resolution, as the call reports it. -/
def Stop.inChild (target : FilePath) : Stop ChartResolveError → Stop PkgRenderError
  | .err e => .err (.childDeps target e)
  | .panic message => .panic message

def resolveChildCharts (stack : RenderStack) (target : FilePath) :
    Reading φ (Stop PkgRenderError) ResolvedCharts := do
  let manifest ← loadChildManifest readers target
  match manifest with
  | none => pure {}
  | some manifest => do
    let expectedDigests ← childDigests readers target
    let workspace := FilePath.toString (FilePath.dirname target)
    (resolveWithOptions P cwd manifest workspace (childOptions stack expectedDigests)).mapError
      (Stop.inChild target)

/-- A directory means the `package.k` in it. -/
def resolvePackageFile (resolved : FilePath) : Reading φ (Stop PkgRenderError) FilePath := do
  let dir ← isDir resolved
  pure (if dir then resolved ++ ["package.k"] else resolved)

/-- The target of a call: an alias among the caller's dependencies. -/
def resolveByAlias (stack : RenderStack) (options : List (String × Value)) :
    Reading φ (Stop PkgRenderError) FilePath :=
  match (options.lookup "package").bind Value.asString with
  | none => .fail (.err .noPackage)
  | some depAlias =>
    match stack.resolvePkgAlias depAlias with
    | some dir => resolvePackageFile dir
    | none => .fail (.err (.unknownAlias depAlias stack.currentPkgAliases))

/-- Cycle, depth and deadline. -/
def refuse (stack : RenderStack) (now : Nat) (target : FilePath) : Option PkgRenderError :=
  let pre := stack.preCheck target
  if pre.cycle then some (.cycle target)
  else if pre.budget.maxDepth ≤ pre.depth then some (.depthLimit target pre.budget.maxDepth)
  else if pre.budget.deadline.any (· ≤ now) then some (.deadline target)
  else none

/-- A Package that a `pkg.render` call has opened: what it is rendered from. -/
structure Child where
  package : PackageK
  inputs : Value
  charts : ResolvedCharts

/-- What a `pkg.render` call does before it renders its target. -/
def openChild (stack : RenderStack) (now : Nat) (args : Value) :
    Reading φ (Stop PkgRenderError) Child := do
  let options ← Reading.ofExcept (match extractOptionsArg args with
    | some options => .ok options
    | none => .error (.err .options))
  let inputs ← Reading.ofExcept ((readers.inputs ((options.lookup "inputs").getD .null)).mapError
    fun cause => .err (.inputs cause))
  let target ← resolveByAlias stack options
  match refuse stack now target with
  | some error => .fail (.err error)
  | none => do
    let package ← PackageK.load target
    let charts ← resolveChildCharts P cwd readers stack target
    pure { package, inputs, charts }

end Nested

/-! ### Renders -/

section Renders

variable {φ : Type} [FileSystem φ]

/-- Enter a render with the options given; the frame stays for its evaluation. -/
def renderOpts (stack : RenderStack) (fs : φ) (package : PackageK) (charts : ResolvedCharts)
    (strict : Bool) : RenderStack :=
  stack.enterForRender fs package.path charts strict

def renderWithCharts (stack : RenderStack) (fs : φ) (package : PackageK) (charts : ResolvedCharts) :
    RenderStack :=
  renderOpts stack fs package charts false

/-- The ways into a render from outside. -/
inductive Entry where
  | enter (package : FilePath)
  | enterWith (package : FilePath) (allowedRoots : List FilePath) (strict : Bool)
  | enterWithBudget (package : FilePath) (budget : BudgetSnapshot)
  | enterForRender (package : FilePath) (charts : ResolvedCharts) (strict : Bool)
  | enterForRenderWithBudget (package : FilePath) (charts : ResolvedCharts) (strict : Bool)
      (budget : BudgetSnapshot) (resolver : ResolverContext)

def Entry.run (fs : φ) (stack : RenderStack) : Entry → RenderStack
  | .enter package => stack.enter package
  | .enterWith package allowedRoots strict => stack.enterWith package allowedRoots strict
  | .enterWithBudget package budget => stack.enterWithBudget package budget
  | .enterForRender package charts strict => stack.enterForRender fs package charts strict
  | .enterForRenderWithBudget package charts strict budget resolver =>
    stack.enterForRenderWithBudget fs package charts strict budget resolver

end Renders

/-! ### Runs of a thread -/

/-- What happens next on a thread that renders. The file system and the time are those of the
    moment; an evaluation may call the plugin at any time, and end at any time and in any way. -/
inductive RenderEvent (φ : Type) where
  | root (fs : φ) (entry : Entry)
  | pkgRender (fs : φ) (now : Nat) (args : Value)
  | leave

section Steps

variable {φ : Type} [FileSystem φ] [EntryTypes φ] (P : Platform) (cwd : FilePath) (readers : Readers)

inductive Step : RenderStack → RenderEvent φ → RenderStack → Prop where
  | root {fs : φ} {entry : Entry} : Step [] (.root fs entry) (entry.run fs [])
  | nested {stack : RenderStack} {fs : φ} {now : Nat} {args : Value} {child : Child}
      (h : openChild P cwd readers stack now args fs = .ok child) :
      Step stack (.pkgRender fs now args) (renderWithCharts stack fs child.package child.charts)
  | refused {stack : RenderStack} {fs : φ} {now : Nat} {args : Value} {error : Stop PkgRenderError}
      (h : openChild P cwd readers stack now args fs = .error error) :
      Step stack (.pkgRender fs now args) stack
  | leave {frame : RenderFrame} {stack : RenderStack} : Step (frame :: stack) .leave stack

/-- The runs of a thread, by the steps taken so far, each with the stack before it. -/
inductive Runs : List (RenderStack × RenderEvent φ) → RenderStack → Prop where
  | idle : Runs [] []
  | step {steps : List (RenderStack × RenderEvent φ)} {stack stack' : RenderStack}
      {event : RenderEvent φ} (h : Runs steps stack) (hstep : Step P cwd readers stack event stack') :
      Runs (steps ++ [(stack, event)]) stack'

end Steps

end Akua.Rust
