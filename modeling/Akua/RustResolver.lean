import Akua.DependencyKinds
import Akua.DigestAgreement
import Akua.RustManifest

/-! The previous release's resolver of local dependencies, which the render core still runs inside
    the render worker: path dependencies, vendored trees and `replace` overrides. Remote sources
    are an error here; the host fetches them before a render. -/

namespace Akua.Rust

open FileSystem

/-! ### Paths -/

/-- `base.join(path)`; an absolute path replaces the base. -/
def joinPath (base path : String) : String :=
  if FilePath.isAbsolute path || base == "" then path
  else if Text.endsWith base "/" then base ++ path
  else base ++ "/" ++ path

/-- The components that the operating system follows. -/
def osPath (cwd : FilePath) (path : String) : FilePath :=
  FilePath.append (if FilePath.isAbsolute path then [] else cwd) path

section Paths

variable {φ ε : Type} [FileSystem φ]

def isDir (path : FilePath) : Reading φ ε Bool := fun fs =>
  .ok ((stat path fs).toOption.any fun info => info.type = .directory)

def isFile (path : FilePath) : Reading φ ε Bool := fun fs =>
  .ok ((stat path fs).toOption.any fun info => info.type = .file)

end Paths

/-! ### What a resolution gives -/

/-- The source of a resolved dependency, in the form that the lockfile takes. -/
inductive ResolvedSource where
  | path (declared : String)
  | oci (oci version blobDigest : String)
  | ociReplaced (oci version replacePath : String)
  | git (git tagOrRev commitSha : String)
  | gitReplaced (git tagOrRev replacePath : String)
  | helm (repo chart version digest : String)
deriving DecidableEq

structure ResolvedChart where
  name : String
  absPath : FilePath
  sha256 : String
  kind : PackageKind
  source : ResolvedSource
deriving DecidableEq

structure ResolvedCharts where
  entries : Table String ResolvedChart := Table.empty
deriving DecidableEq

inductive ChartResolveError where
  | notFound (name path : String)
  | notADirectory (name path : String)
  | io (name path : String) (source : PlatformError)
  | unsupportedSource (name : String) (kind : DependencySource) (reason : String)
  | absolutePathRejected (name path : String)
  | pathEscape (name requested : String) (resolved workspaceRoot : FilePath)
  | replaceRejected (name : String)
deriving DecidableEq

structure BasicAuth where
  username : String
  password : String
deriving DecidableEq

abbrev HostAuthMap := Table String BasicAuth

structure ResolverOptions where
  offline : Bool := false
  cacheRoot : Option String := none
  expectedDigests : Table String String := Table.empty
  cosignPublicKeyPem : Option String := none
  rejectReplace : Bool := false
  auth : Option HostAuthMap := none
deriving DecidableEq

/-! ### The digest of a tree -/

namespace Resolver

section Walk

variable {φ : Type} [FileSystem φ] [EntryTypes φ]

/-- `path.strip_prefix(root).expect(..)`. -/
def underRoot {ε : Type} (root path : FilePath) : Except (Stop ε) FilePath :=
  if root <+: path then .ok (path.drop root.length) else .error (.panic "walker stays under root")

def collectFiles (root : FilePath) :
    Nat → FilePath → Reading φ (Stop PlatformError) (List (FilePath × FilePath))
  | 0, _ => .fail (.err ⟨.other, "File name too long"⟩)
  | depth + 1, dir => do
    let names ← (readDirectory dir).mapError .err
    let found ← forEach (fun name => do
      let path := dir ++ [name]
      let ft ← (EntryTypes.entryType path).mapError .err
      match ft with
      | .directory => collectFiles root depth path
      | .file => do
        let rel ← Reading.ofExcept (underRoot root path)
        pure [(rel, path)]
      | .symlink => pure []) names
    pure found.flatten

/-- The digest of a tree, and how many bytes of it are content. -/
def hashDir (P : Platform) (root : FilePath) : Reading φ (Stop PlatformError) (String × Nat) := do
  let files ← collectFiles root PATH_MAX root
  let sorted := files.insertionSort fun a b => AtMost a.1 b.1
  let contents ← forEach (fun f => (readFile f.2).mapError .err) sorted
  pure (Akua.sha256 P ((sorted.zip contents).flatMap fun f => fileStream (Text.join f.1.1 '/') f.2),
    contents.foldl (fun size data => size + data.length) 0)

end Walk

end Resolver

/-- A KCL package when it has `kcl.mod`, or `akua.toml` with `package.k`; otherwise a Helm chart. -/
def detectDepKindAt {φ ε : Type} [FileSystem φ] (dir : FilePath) : Reading φ ε PackageKind := do
  let module ← isFile (dir ++ ["kcl.mod"])
  let manifest ← isFile (dir ++ ["akua.toml"])
  let package ← isFile (dir ++ ["package.k"])
  pure (if module || (manifest && package) then .kclModule else .helmChart)

/-! ### Resolution -/

/-- Where a path handed to `resolvePath` comes from. -/
inductive PathOrigin where
  /-- Written in `akua.toml`: it must stay in the workspace. -/
  | userManifest
  /-- Made by the resolver. -/
  | internal
deriving DecidableEq

inductive VendorKind where
  | path (declared : String)
  | oci (oci version : String)
  | git (git tagOrRev : String)
deriving DecidableEq

def VENDOR_DIR : String := ".akua/vendor"

def VENDORED_LOCK_FALLBACK : String := "vendored"

def GIT_DIGEST_PREFIX : String := "git:"

def REMOTE_SOURCE_REASON : String := "the render worker resolves offline; the akuapkg host " ++
  "fetches remote dependencies before render"

/-- The source of a dependency with a canonical source and a `replace`. It panics on a path
    dependency, on the strength of a validation that does not refuse one. -/
def resolvedSourceForReplace (name : String) (dep : Dependency) (replacePath : String) :
    Except (Stop ChartResolveError) ResolvedSource := do
  let spec ← dep.spec
  match spec with
  | .oci oci version => .ok (.ociReplaced oci version replacePath)
  | .git git _ _ => .ok (.gitReplaced git (spec.tagOrRev.getD "HEAD") replacePath)
  | .path _ => .error (.panic ("internal error: entered unreachable code: replace on a path-only " ++
      "dep should have been rejected by manifest validation (dep `" ++ name ++ "`)"))
  | .helm _ _ _ => .error (.err (.unsupportedSource name .helm
      "helm-repo dependencies are not yet supported"))

/-- The vendored form of a source. -/
def vendorKind : DependencySpec → Except (Stop ChartResolveError) VendorKind
  | .path declared => .ok (.path declared)
  | .oci oci version => .ok (.oci oci version)
  | .git git tag rev =>
    .ok (.git git ((DependencySpec.git git tag rev).tagOrRev.getD VENDORED_LOCK_FALLBACK))
  | .helm _ _ _ =>
    .error (.panic "internal error: entered unreachable code: helm skips vendor-first")

/-- The source of a vendored dependency, before its tree is hashed. -/
def VendorKind.placeholder : VendorKind → ResolvedSource
  | .path declared => .path declared
  | .oci ref version => .oci ref version ""
  | .git url tagOrRev => .git url tagOrRev ""

/-- The digest of the vendored tree, put into the source. -/
def ResolvedChart.withTreeDigest (chart : ResolvedChart) : ResolvedChart :=
  match chart.source with
  | .oci oci version _ => { chart with source := .oci oci version chart.sha256 }
  | .git git tagOrRev _ =>
    let raw := Text.stripPrefix chart.sha256 "sha256:"
    { chart with source := .git git tagOrRev raw, sha256 := GIT_DIGEST_PREFIX ++ raw }
  | _ => chart

section Resolve

variable {φ : Type} [FileSystem φ] [EntryTypes φ] (P : Platform) (cwd : FilePath)

/-- The real path of a path in `akua.toml`, which must be a relative one into the workspace. -/
def userPath (name requested workspaceRoot : String) : Reading φ ChartResolveError FilePath := do
  let workspaceCanon ← (realPath (osPath cwd workspaceRoot)).mapError fun e => .io name workspaceRoot e
  if FilePath.isAbsolute requested then .fail (.absolutePathRejected name requested)
  else do
    let joined := joinPath workspaceRoot requested
    let canon ← (realPath (osPath cwd joined)).mapError fun e =>
      if e.reason = .notFound then .notFound name joined else .io name joined e
    if workspaceCanon <+: canon then pure canon
    else .fail (.pathEscape name requested canon workspaceCanon)

def internalPath (name requested workspaceRoot : String) : Reading φ ChartResolveError FilePath :=
  let joined := if FilePath.isAbsolute requested then requested else joinPath workspaceRoot requested
  (realPath (osPath cwd joined)).mapError fun e =>
    if e.reason = .notFound then .notFound name joined else .io name joined e

/-- A failure of the operating system at `canon`; a panic goes through. -/
def Stop.atPath (name : String) (canon : FilePath) : Stop PlatformError → Stop ChartResolveError
  | .err e => .err (.io name canon.toString e)
  | .panic message => .panic message

/-- Hash and classify the tree at a real path. -/
def resolveTree (name : String) (source : ResolvedSource) (canon : FilePath) :
    Reading φ (Stop ChartResolveError) ResolvedChart := do
  let info ← (stat canon).mapError fun e => .err (.io name canon.toString e)
  if info.type ≠ .directory then .fail (.err (.notADirectory name canon.toString))
  else do
    let (sha256, _) ← (Resolver.hashDir P canon).mapError (Stop.atPath name canon)
    let kind ← detectDepKindAt canon
    pure { name, absPath := canon, sha256, kind, source }

def resolvePath (name requested workspaceRoot : String) (source : ResolvedSource) (origin : PathOrigin) :
    Reading φ (Stop ChartResolveError) ResolvedChart := do
  let canon ← (match origin with
    | .userManifest => userPath cwd name requested workspaceRoot
    | .internal => internalPath cwd name requested workspaceRoot).mapError .err
  resolveTree P name source canon

def vendorPath (workspaceRoot name : String) : String :=
  joinPath (joinPath workspaceRoot VENDOR_DIR) name

/-- Resolve a dependency from its vendored tree, if there is one. -/
def resolveFromVendor (name workspaceRoot : String) (kind : VendorKind) :
    Reading φ (Stop ChartResolveError) (Option ResolvedChart) := do
  let vendored ← isDir (osPath cwd (vendorPath workspaceRoot name))
  if !vendored then pure none
  else do
    let chart ← resolvePath P cwd name (vendorPath workspaceRoot name) workspaceRoot kind.placeholder
      .internal
    pure (some chart.withTreeDigest)

/-- A remote source that is not materialized. -/
def resolveRemote (name : String) (kind : DependencySource) :
    Reading φ (Stop ChartResolveError) ResolvedChart :=
  .fail (.err (.unsupportedSource name kind REMOTE_SOURCE_REASON))

def DependencySpec.isHelm : DependencySpec → Bool
  | .helm _ _ _ => true
  | _ => false

/-- Prefer a vendored tree; Helm-repo dependencies have none. -/
def resolveVendored (name workspaceRoot : String) (spec : DependencySpec) :
    Reading φ (Stop ChartResolveError) (Option ResolvedChart) :=
  if spec.isHelm then pure none
  else do
    let kind ← Reading.ofExcept (vendorKind spec)
    resolveFromVendor P cwd name workspaceRoot kind

def resolveDeclared (name workspaceRoot : String) (spec : DependencySpec) :
    Reading φ (Stop ChartResolveError) ResolvedChart :=
  match spec with
  | .path declared => resolvePath P cwd name declared workspaceRoot (.path declared) .userManifest
  | .oci _ _ => resolveRemote name .oci
  | .git _ _ _ => resolveRemote name .git
  | .helm _ _ _ => resolveRemote name .helm

/-- One entry of the manifest. -/
def resolveDependency (workspaceRoot : String) (opts : ResolverOptions) (name : String)
    (dep : Dependency) : Reading φ (Stop ChartResolveError) ResolvedChart :=
  match dep.replace with
  | some replacePath =>
    if opts.rejectReplace then .fail (.err (.replaceRejected name))
    else do
      let source ← Reading.ofExcept (resolvedSourceForReplace name dep replacePath)
      resolvePath P cwd name replacePath workspaceRoot source .userManifest
  | none => do
    let spec ← Reading.ofExcept dep.spec
    let vendored ← resolveVendored P cwd name workspaceRoot spec
    match vendored with
    | some chart => pure chart
    | none => resolveDeclared P cwd name workspaceRoot spec

/-- Resolve the dependencies in the order of their names. -/
def resolveWithOptions (manifest : AkuaManifest) (workspaceRoot : String) (opts : ResolverOptions) :
    Reading φ (Stop ChartResolveError) ResolvedCharts := do
  let charts ← forEach (fun entry => do
    let chart ← resolveDependency P cwd workspaceRoot opts entry.1 entry.2
    pure (entry.1, chart)) manifest.ordered
  pure { entries := Table.ofList charts }

end Resolve

end Akua.Rust
