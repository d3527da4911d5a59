import Akua.Crds
import Akua.Lockfile
import Akua.Sources

/-! Dependency resolution: from `akua.toml` and `akua.lock` to each dependency's files, through its
    local fork, its vendored copy, its generated schemas or its source. -/

namespace Akua

/-- What a resolved dependency is, from the files at its root. -/
inductive DependencyKind where
  | helm
  | kcl
  | package
  | crds
deriving DecidableEq

/-- Where a CRD dependency's schemas come from. -/
structure CrdSource where
  selector : String
  /-- The schemas already generated, when they still match the manifest and lock. -/
  generated : Option Snapshot
deriving DecidableEq

inductive LockKind where
  | path
  | oci
  | git
  | helm
  | url
deriving DecidableEq

/-- How `akua.lock` records a dependency, besides its digest. -/
structure LockRecord where
  kind : LockKind
  source : String
  version : String
  /-- The local fork a `replace` directive substituted. -/
  replaced : Option String
  /-- The configured key verified these bytes (OCI only). -/
  signature : Option String
deriving DecidableEq

/-- A dependency's files. -/
structure DependencyTree where
  /-- The key in `[dependencies]`. -/
  name : String
  kind : DependencyKind
  /-- The dependency's real directory on the host. -/
  root : FilePath
  files : Snapshot
  /-- `sha256:<hex>` of the tree, or `git:<commit>`. -/
  digest : String
deriving DecidableEq

structure SourceTree extends DependencyTree where
  locked : LockRecord
deriving DecidableEq

structure ResolvedDependency extends SourceTree where
  /-- Set for a CRD dependency. -/
  crds : Option CrdSource
deriving DecidableEq

/-! ### Lock records -/

/-- A git URL as lockfiles record it: no credentials, no default port, no trailing `/` or `.git`. -/
def canonicalGitUrl (url : String) : String :=
  match Text.cut url "://" with
  | none => url
  | some (scheme, rest) =>
    let withUser := String.ofList (rest.toList.takeWhile (· ≠ '/'))
    let tail := String.ofList (rest.toList.dropWhile (· ≠ '/'))
    let authority := ((Text.cutLast withUser '@').map Prod.snd).getD withUser
    let host := match Text.cutLast authority ':' with
      | some (host, port) =>
        if (scheme = "https" ∧ port = "443") ∨ (scheme = "http" ∧ port = "80") then host
        else authority
      | none => authority
    let trimmed := Text.trimEnd (scheme ++ "://" ++ host ++ tail) '/'
    Text.trimEnd (if Text.endsWith trimmed ".git" then Text.before trimmed ".git" else trimmed) '/'

example : canonicalGitUrl "https://u@host:443/o/r.git/" = "https://host/o/r" := by decide

/-- How the lock records a source; `gitFallback` is the ref of a git dependency without any, and
    `helmVersion` the version a Helm requirement selected. -/
def lockRecord (spec : DependencySpec) (gitFallback : String) (replaced : Option String := none)
    (helmVersion : Option String := none) : LockRecord :=
  match spec with
  | .path path => ⟨.path, "path+file://" ++ path, "local", replaced, none⟩
  | .oci oci version => ⟨.oci, oci, version, replaced, none⟩
  | .git git tag rev =>
    let ref := (tag <|> rev).getD gitFallback
    ⟨.git, "git+" ++ canonicalGitUrl git ++ "@" ++ ref, ref, replaced, none⟩
  | .helm repo chart version =>
    ⟨.helm, "helm+" ++ repo ++ "#" ++ chart, helmVersion.getD version, replaced, none⟩
  | .url url => ⟨.url, "url+" ++ url, "url", replaced, none⟩

/-- How `akua.lock` records a declared dependency. -/
def declaredRecord (spec : DependencySpec) : LockRecord := lockRecord spec "vendored"

/-- How `akua.lock` records a declared dependency vendored from its source. -/
def lockRecordFor (dependency : Dependency) : LockRecord := declaredRecord (dependencySpec dependency)

/-- The entry is for the source and version the dependency declares now. A Helm requirement is
    matched by source alone. -/
def declaredBy (name : String) (dependency : Dependency) (entry : LockedPackage) : Bool :=
  entry.name = name && entry.source = (lockRecordFor dependency).source &&
    ((dependencySpec dependency).isHelm || entry.version = (lockRecordFor dependency).version)

/-- The `akua.lock` entry of a dependency: after a version change the old entry pins nothing and
    vouches for nothing. -/
def lockEntryFor (entries : List LockedPackage) (name : String) (dependency : Dependency) :
    Option LockedPackage :=
  entries.find? (declaredBy name dependency)

/-! ### Trees -/

/-- Pre-vendored dependencies live here, and are used before any other source. -/
def VENDOR_DIR : String := ".akua/vendor"

def MARKERS : List (DependencyKind × List String) :=
  [(.helm, ["Chart.yaml"]), (.kcl, ["kcl.mod"]), (.package, ["akua.toml", "package.k"])]

/-- The directory of a file: `key.split("/").slice(0, -1).join("/")`. -/
def parentDirectory (key : String) : String := Text.join (Text.split key '/').dropLast '/'

/-- The directories at the top of a tree that hold a file, sorted. -/
def topDirectories (files : Snapshot) : List String :=
  Text.sorted ((files.keys.map parentDirectory).dedup.filter fun directory =>
    directory ≠ "" ∧ '/' ∉ directory.toList)

/-- The kind of a dependency tree, and the directory its root is at: the tree itself, or one down.
    Unrecognised trees are Helm charts. -/
def detectKind (files : Snapshot) : DependencyKind × String :=
  let detected := MARKERS.findSome? fun (kind, markers) =>
    if markers.all files.has then some (kind, "")
    else ((topDirectories files).find? fun directory =>
      markers.all fun marker => files.has (directory ++ "/" ++ marker)).map fun d => (kind, d)
  detected.getD (.helm, "")

/-- The files below `directory`, by their path in it. -/
def scopedFiles (files : Snapshot) (directory : String) : Snapshot :=
  Table.ofList ((files.entries.filter fun f => Text.startsWith f.1 (directory ++ "/")).map
    fun f => (Text.after f.1 (directory ++ "/"), f.2))

variable (P : Platform)

/-- A tree as a dependency; `isScoped` enters an archive's package directory. -/
def dependencyTree (name : String) (directory : FilePath) (isScoped : Bool) (files : Snapshot) :
    DependencyTree :=
  let (kind, detected) := detectKind files
  let inner := if isScoped then detected else ""
  { name
    kind
    root := if inner = "" then directory else FilePath.join directory inner
    files := if inner = "" then files else scopedFiles files inner
    digest := treeDigest P files }

def unresolved {φ α : Type} (name message : String) (code : String := "E_DEP_RESOLVE") :
    Reading φ Failure α :=
  .fail (.dependencyUnresolved
    { dependency := name, code, message := "dependency `" ++ name ++ "`: " ++ message })

section Disk

variable {φ : Type} [FileSystem φ]

open FileSystem

/-- An escaping entry, as the dependency's failure. -/
def escapeOf (name : String) : Failure → Failure
  | .pathEscape escape => .dependencyUnresolved
      { dependency := name, code := "E_PATH_ESCAPE"
        message := "dependency `" ++ name ++ "`: `" ++ escape.path ++
          "` resolves outside the dependency" }
  | failure => failure

/-- Read a dependency tree into memory and classify it. -/
def fromDirectory (name : String) (directory : FilePath) (isScoped : Bool := true) :
    Reading φ Failure DependencyTree := do
  let files ← (loadSnapshot directory).mapError (escapeOf name)
  pure (dependencyTree P name directory isScoped files)

def isDirectory {ε : Type} (target : FilePath) : Reading φ ε Bool :=
  Reading.orElseSucceed ((fun info => info.type = .directory) <$> stat target) false

/-- The directory of a user-authored `path` or `replace.path`: relative, and inside the workspace
    after resolving symlinks. -/
def workspaceTarget (workspace : FilePath) (name requested : String) : Reading φ Failure FilePath := do
  if FilePath.isAbsolute requested then
    unresolved name ("absolute path `" ++ requested ++
      "` is rejected - path / replace deps must stay under the workspace root") "E_PATH_ESCAPE"
  else
    let root ← platform (realPath workspace)
    let joined := FilePath.join workspace requested
    let target ← (realPath joined).mapError fun error =>
      match error.reason with
      | .notFound => .dependencyUnresolved
          { dependency := name, code := "E_DEP_RESOLVE"
            message := "dependency `" ++ name ++ "`: path-dep target `" ++ FilePath.toString joined ++
              "` does not exist" }
      | _ => .platform error
    if ¬ FilePath.Within root target then
      unresolved name ("path `" ++ requested ++ "` resolves to `" ++ FilePath.toString target ++
        "`, which escapes the workspace root `" ++ FilePath.toString root ++ "`") "E_PATH_ESCAPE"
    else
      let directory ← isDirectory target
      if !directory then
        unresolved name ("path-dep target `" ++ FilePath.toString target ++ "` is not a directory")
      else pure target

def fromWorkspacePath (workspace : FilePath) (name requested : String) (isScoped : Bool := true) :
    Reading φ Failure DependencyTree := do
  let target ← workspaceTarget workspace name requested
  fromDirectory P name target isScoped

/-- Where a dependency's vendored copy is looked for. -/
def vendoredDirectory (workspace : FilePath) (name : String) : FilePath :=
  FilePath.join (FilePath.join workspace VENDOR_DIR) name

/-- The tree a path dependency resolves to, without touching any other dependency. -/
def pathDependencyTree (workspace : FilePath) (name requested : String) :
    Reading φ Failure DependencyTree := do
  let vendored ← isDirectory (vendoredDirectory workspace name)
  if vendored then fromDirectory P name (vendoredDirectory workspace name)
  else fromWorkspacePath P workspace name requested

/-- `[signing].cosign_public_key`, relative to the workspace: every OCI pull must carry its
    signature. -/
def configuredCosignKey (workspace : FilePath) (manifest : Manifest) :
    Reading φ Failure (Option String) :=
  match manifest.signing.bind Signing.cosign_public_key with
  | none => pure none
  | some configured =>
    let file := FilePath.join workspace configured
    Reading.mapError (fun error => .dependencyUnresolved
      { dependency := "[signing]", code := "E_COSIGN_VERIFY"
        message := "reading cosign public key at " ++ FilePath.toString file ++ ": " ++ error.message })
      (some <$> readFileString P file)

end Disk

/-! ### Resolution -/

/-- Which `akua.lock` digests a fetch must reproduce. -/
inductive Pins where
  | all
  | oci
  | none
deriving DecidableEq

structure ResolveOptions where
  /-- The resolver may not touch the network. -/
  offline : Bool
  /-- Check OCI signatures against the configured key. -/
  verifySignatures : Bool := true
  pins : Pins := .all
  /-- Resolve CRD dependencies from their sources even when generated schemas match. -/
  regenerateCrds : Bool := false
deriving DecidableEq

/-- The fetchers resolution calls. -/
structure FetchServices (φ : Type) where
  pull : PullRequest → Run φ OciPullFailed Pulled
  pullAttestation : (reference tag : String) → Run φ OciPullFailed AttestationFound
  helm : ChartRequest → Run φ HelmRepositoryFailed FetchedChart
  git : GitRequest → Run φ GitFetchFailed FetchedCommit
  url : UrlRequest → Run φ UrlFetchFailed FetchedFile

/-- The fetchers as the program has them. -/
def FetchServices.live {φ : Type} [FileSystem φ] (credentials : CredentialStore) :
    FetchServices φ where
  pull := Akua.pull P credentials
  pullAttestation := Akua.pullAttestation P credentials
  helm := helmFetch P
  git := gitFetch P
  url := urlFetch P

structure DependencyRequest where
  workspace : FilePath
  name : String
  dependency : Dependency
  /-- The `akua.lock` entry pinning this dependency's fetch. -/
  pinned : Option LockedPackage
  /-- Its `akua.lock` entry, pinned or not. -/
  locked : Option LockedPackage
  rejectReplace : Bool
  cosignPublicKey : Option String
  /-- How `akua.lock` records a signature from `cosignPublicKey`. -/
  trustedSignature : Option String
  options : ResolveOptions

def DependencyRequest.fail {φ α : Type} (request : DependencyRequest) (code message : String)
    (drift : Bool := false) : Run φ Failure α :=
  Effect.fail (.dependencyUnresolved { dependency := request.name, code, message, drift })

section Resolve

variable {φ : Type} [FileSystem φ]

/-- Load a directory of the workspace. -/
def loadTree (name : String) (directory : FilePath) (isScoped : Bool) : Run φ Failure DependencyTree := do
  Run.log (.workspaceTree directory)
  Run.read (fromDirectory P name directory isScoped)

/-- Load a user-authored path. -/
def loadWorkspacePath (workspace : FilePath) (name requested : String) (isScoped : Bool) :
    Run φ Failure DependencyTree := do
  let target ← Run.read (workspaceTarget workspace name requested)
  loadTree P name target isScoped

/-- The digest of a vendored tree: one `vendor add` pinned keeps the source digest it came from. -/
def vendoredDigest (spec : DependencySpec) (entry : Option LockedPackage) (treeDigest : String) :
    String :=
  match entry.filter fun e => e.vendor_digest = some treeDigest with
  | some entry => entry.digest
  | none =>
    match spec with
    | .git .. => "git:" ++ Text.after treeDigest "sha256:"
    | _ => treeDigest

/-- A vendored tree as the dependency's source. With a key configured it is trusted only when
    `akua.lock` records that this key verified exactly these bytes. -/
def vendoredSource (request : DependencyRequest) (spec : DependencySpec) (tree : DependencyTree) :
    Except Failure SourceTree :=
  let locked := declaredRecord spec
  let digest := vendoredDigest spec request.locked tree.digest
  if spec.isOci ∧ request.trustedSignature.isSome then
    if request.locked.any fun e => e.signature = request.trustedSignature ∧ e.digest = digest then
      .ok { tree with digest, locked := { locked with signature := request.trustedSignature } }
    else
      .error (.dependencyUnresolved
        { dependency := request.name, code := "E_COSIGN_SIG_MISSING"
          message := "dependency `" ++ request.name ++
            "`: akua.lock does not record the vendored tree `" ++ tree.digest ++
            "` as verified by `[signing].cosign_public_key` - run `" ++ P.cliName ++
            " vendor add` to re-vendor it from the registry" })
  else .ok { tree with digest, locked }

/-- The vendored copy. -/
def fromVendored (request : DependencyRequest) (spec : DependencySpec) (isScoped : Bool) :
    Run φ Failure SourceTree := do
  let tree ← loadTree P request.name (vendoredDirectory request.workspace request.name) isScoped
  Effect.ofExcept (vendoredSource P request spec tree)

variable (services : FetchServices φ)

def fromOci (request : DependencyRequest) (oci version : String) (isScoped : Bool) :
    Run φ Failure SourceTree := do
  let pull : PullRequest :=
    { reference := oci, version, pin := request.pinned.map LockedPackage.digest
      offline := request.options.offline, cosignPublicKey := request.cosignPublicKey
      lockedSignature := request.pinned.bind LockedPackage.signature
      anyArchive := (crdSelector request.dependency).isSome }
  Run.log (.fetch pull.pin pull.lockedSignature)
  let pulled ← (services.pull pull).mapError fun error => .dependencyUnresolved
    { dependency := request.name, code := error.code, drift := error.drift
      message := if error.offline then
          "chart `" ++ request.name ++ "`: oci:// source not resolvable in the current mode - " ++
            error.message
        else "chart `" ++ request.name ++ "`: OCI fetch failed: " ++ error.message }
  -- The lockfile pins the blob, not the unpacked tree.
  let tree ← Run.read (fromDirectory P request.name pulled.directory isScoped)
  pure { tree with digest := pulled.digest
                   locked := { declaredRecord (.oci oci version) with signature := pulled.signature } }

def fromHelm (request : DependencyRequest) (repo chart version : String) (isScoped : Bool) :
    Run φ Failure SourceTree := do
  let pin := request.pinned.map LockedPackage.digest
  Run.log (.fetch pin none)
  let fetched ← (services.helm { repository := repo, chart, version, pin,
                                 offline := request.options.offline }).mapError
    fun error => .dependencyUnresolved
      { dependency := request.name, code := "E_DEP_RESOLVE"
        message := if error.offline then
            "chart `" ++ request.name ++ "`: helm source not resolvable in the current mode - " ++
              error.message
          else "chart `" ++ request.name ++ "`: helm-repo fetch failed: " ++ error.message }
  let tree ← Run.read (fromDirectory P request.name fetched.directory isScoped)
  pure { tree with digest := fetched.digest
                   locked := lockRecord (.helm repo chart version) "vendored" none
                     (some fetched.version) }

def fromGit (request : DependencyRequest) (git : String) (tag rev : Option String) (isScoped : Bool) :
    Run φ Failure SourceTree := do
  let pin := ((request.pinned.map LockedPackage.digest).filter (Text.startsWith · "git:")).map
    (Text.after · "git:")
  -- A tag wins over a rev when both are set.
  let ref := match tag with
    | some tag => GitRef.tag tag
    | none => GitRef.rev (rev.getD "")
  Run.log (.fetch pin none)
  let fetched ← (services.git { url := git, ref, pin, offline := request.options.offline }).mapError
    fun error => .dependencyUnresolved
      { dependency := request.name, code := "E_DEP_RESOLVE"
        message := if error.offline then
            "chart `" ++ request.name ++ "`: git source not resolvable in the current mode - " ++
              error.message
          else "chart `" ++ request.name ++ "`: git fetch failed: " ++ error.message }
  let tree ← Run.read (fromDirectory P request.name fetched.directory isScoped)
  pure { tree with digest := "git:" ++ fetched.commit, locked := declaredRecord (.git git tag rev) }

def fromUrl (request : DependencyRequest) (url : String) (isScoped : Bool) :
    Run φ Failure SourceTree := do
  let pin := request.pinned.map LockedPackage.digest
  Run.log (.fetch pin none)
  let fetched ← (services.url { url, pin, offline := request.options.offline }).mapError
    fun error => .dependencyUnresolved
      { dependency := request.name, code := "E_DEP_RESOLVE", drift := error.drift
        message := if error.offline then
            "dependency `" ++ request.name ++
              "`: url source not resolvable in the current mode - " ++ error.message
          else "dependency `" ++ request.name ++ "`: url fetch failed: " ++ error.message }
  let tree ← Run.read (fromDirectory P request.name fetched.directory isScoped)
  pure { tree with digest := fetched.digest, locked := declaredRecord (.url url) }

def fromPath (request : DependencyRequest) (path : String) (isScoped : Bool) :
    Run φ Failure SourceTree := do
  let tree ← loadWorkspacePath P request.workspace request.name path isScoped
  pure { tree with locked := declaredRecord (.path path) }

/-- The local fork of a `replace` directive, unless they are rejected here. -/
def fromReplace (request : DependencyRequest) (path : String) (isScoped : Bool) :
    Run φ Failure SourceTree := do
  if request.rejectReplace then
    request.fail "E_DEP_RESOLVE" ("dependency `" ++ request.name ++
      "`: `replace` directive rejected - AKUA_REJECT_REPLACE=1 (or agent context) " ++
      "requires unmodified dep resolution")
  else do
    let tree ← loadWorkspacePath P request.workspace request.name path isScoped
    pure { tree with
      locked := lockRecord (dependencySpec request.dependency) "HEAD" (some path) }

/-- Whether there is a vendored copy to use: Helm repositories have none. -/
def hasVendored (request : DependencyRequest) (spec : DependencySpec) : Run φ Failure Bool :=
  if spec.isHelm then pure false
  else Run.read (isDirectory (vendoredDirectory request.workspace request.name))

/-- The dependency's files from its source: the local fork, the vendored copy (for every source but
    Helm repositories), or what the source serves. -/
def resolveSourceTree (request : DependencyRequest) (isScoped : Bool) : Run φ Failure SourceTree :=
  match request.dependency.replace with
  | some path => fromReplace P request path isScoped
  | none => do
    let spec := dependencySpec request.dependency
    let vendored ← hasVendored request spec
    if vendored then fromVendored P request spec isScoped
    else
      match spec with
      | .path path => fromPath P request path isScoped
      | .oci oci version => fromOci P services request oci version isScoped
      | .helm repo chart version => fromHelm P services request repo chart version isScoped
      | .git git tag rev => fromGit P services request git tag rev isScoped
      | .url url => fromUrl P services request url isScoped

/-- The generated directory differs from what the manifest and lock pin. -/
def generatedStale (request : DependencyRequest) (selector : String) (tree : GeneratedTree) : Bool :=
  let spec := dependencySpec request.dependency
  let locked := declaredRecord spec
  tree.provenance.dependency ≠ request.name || tree.provenance.source ≠ locked.source ||
    (!spec.isHelm && tree.provenance.version ≠ locked.version) ||
    tree.provenance.crds ≠ selector ||
    !request.locked.any fun entry => entry.digest = tree.provenance.digest ∧
      entry.crds_digest = some (treeDigest P tree.files)

/-- The dependency's schemas from `.akua/crds/`, when they were generated from what the manifest and
    lock still pin; none when there are none to use. -/
def fromGenerated (request : DependencyRequest) (selector : String) :
    Run φ Failure (Option ResolvedDependency) := do
  let spec := dependencySpec request.dependency
  if spec.isPath ∨ request.dependency.replace.isSome ∨ request.options.regenerateCrds then pure none
  else
    let generated ← Run.read ((readGeneratedCrds P request.workspace request.name).mapError
      fun error => .dependencyUnresolved
        { dependency := request.name
          code := match error with
            | .crdsInvalid _ => "E_CRDS_INVALID"
            | _ => "E_DEP_RESOLVE"
          message := "dependency `" ++ request.name ++ "`: " ++ error.message })
    match generated with
    | none => pure none
    | some tree =>
      let directory := FilePath.toString tree.directory
      if generatedStale P request selector tree then
        request.fail "E_CRDS_STALE" ("dependency `" ++ request.name ++ "`: the schemas in " ++
          directory ++ " (generated from `" ++ tree.provenance.source ++ "`, version `" ++
          tree.provenance.version ++ "`, crds = \"" ++ tree.provenance.crds ++ "\", " ++
          tree.provenance.digest ++ ") are not what akua.toml and akua.lock pin, or differ from " ++
          "the `crds_digest` akua.lock records for them - run `" ++ P.cliName ++
          " lock` to regenerate them")
      else
        let signature := request.locked.bind LockedPackage.signature
        if spec.isOci ∧ request.trustedSignature.isSome ∧ signature ≠ request.trustedSignature then
          request.fail "E_COSIGN_SIG_MISSING" ("dependency `" ++ request.name ++
            "`: akua.lock does not record the source of " ++ directory ++
            " as verified by `[signing].cosign_public_key` - run `" ++ P.cliName ++
            " lock` online to verify and regenerate it")
        else
          pure (some
            { name := request.name
              kind := .crds
              root := tree.directory
              files := tree.files
              digest := tree.provenance.digest
              locked := { declaredRecord spec with version := tree.provenance.version, signature }
              crds := some { selector, generated := some tree.files } })

/-- A dependency as rendering uses it: its source tree, or for a CRD dependency its schemas. -/
def resolveDependency (request : DependencyRequest) : Run φ Failure ResolvedDependency :=
  match crdSelector request.dependency with
  | none => do
    let tree ← resolveSourceTree P services request true
    pure { tree with crds := none }
  | some selector => do
    let generated ← fromGenerated P request selector
    match generated with
    | some resolved => pure resolved
    | none =>
      let spec := dependencySpec request.dependency
      let tree ← resolveSourceTree P services request (spec.isOci || spec.isHelm)
      pure { tree with kind := .crds, crds := some { selector, generated := none } }

/-! ### Packages -/

/-- Where a Package's manifest and dependencies were read from. -/
structure ResolvedPackage where
  manifest : Option Manifest
  dependencies : List ResolvedDependency
deriving DecidableEq

/-- Whether an agent runs this process. -/
def agentDetected : Bool :=
  if (envSet P "AKUA_NO_AGENT_DETECT").isSome then false
  else ["AGENT", "CLAUDECODE", "GEMINI_CLI", "CURSOR_CLI", "AKUA_AGENT"].any fun name =>
    (envSet P name).isSome

/-- Agent and production contexts must not honor `replace`. -/
def replaceRejected : Bool := P.env "AKUA_REJECT_REPLACE" = some "1" || agentDetected P

def manifestFile (workspace : FilePath) : FilePath := FilePath.join workspace "akua.toml"
def lockFile (workspace : FilePath) : FilePath := FilePath.join workspace "akua.lock"

/-- `akua.lock`, if it is there and parses; a broken lockfile is `verify`'s to report. -/
def readLock (workspace : FilePath) : Reading φ Failure (Option Lock) := do
  let present ← platform (FileSystem.fileExists (lockFile workspace))
  if !present then pure none
  else
    let text ← (readFileString P (lockFile workspace)).option
    pure (text.bind fun text => (parseLock P text (lockFile workspace)).toOption)

/-- What resolution knows besides each dependency. -/
structure ResolveContext where
  workspace : FilePath
  /-- The lock's entries, and those whose digests a fetch must reproduce. -/
  entries : List LockedPackage
  pins : List LockedPackage
  cosignPublicKey : Option String
  trustedSignature : Option String
  options : ResolveOptions

/-- What is asked for one declared dependency. -/
def ResolveContext.request (context : ResolveContext) (declared : String × Dependency) :
    DependencyRequest where
  workspace := context.workspace
  name := declared.1
  dependency := declared.2
  pinned := lockEntryFor context.pins declared.1 declared.2
  locked := lockEntryFor context.entries declared.1 declared.2
  rejectReplace := replaceRejected P
  cosignPublicKey := context.cosignPublicKey
  trustedSignature := context.trustedSignature
  options := context.options

/-- The lock entries whose digests the fetches of this resolution must reproduce. -/
def pinsOf (lock : Option Lock) (pins : Pins) : List LockedPackage :=
  match lock, pins with
  | none, _ | _, .none => []
  | some lock, pins => pinnedEntries lock (pins = .oci)

/-- The key that signatures are checked against, unless they are not checked. -/
def signingKey (workspace : FilePath) (manifest : Manifest) (options : ResolveOptions) :
    Reading φ Failure (Option String) :=
  if options.verifySignatures then configuredCosignKey P workspace manifest else pure none

/-- The manifest, the lock and the signing key of a workspace. -/
def resolveContext (workspace : FilePath) (manifest : Manifest) (options : ResolveOptions) :
    Reading φ Failure ResolveContext := do
  let lock ← readLock P workspace
  let cosignPublicKey ← signingKey P workspace manifest options
  let trustedSignature ← Reading.ofExcept ((cosignPublicKey.mapM (keyedSignatureRef P)).mapError
    fun message => .dependencyUnresolved
      { dependency := "[signing]", code := "E_COSIGN_VERIFY", message })
  pure
    { workspace
      entries := (lock.map Lock.packages).getD []
      pins := pinsOf lock options.pins
      cosignPublicKey, trustedSignature, options }

variable {P} in
/-- A context is the lock that was read and the key that was configured. -/
theorem resolveContext_ok {workspace : FilePath} {manifest : Manifest} {options : ResolveOptions}
    {context : ResolveContext} {fs : φ}
    (h : resolveContext P workspace manifest options fs = .ok context) :
    ∃ lock, readLock P workspace fs = .ok lock ∧
      signingKey P workspace manifest options fs = .ok context.cosignPublicKey ∧
      context.cosignPublicKey.mapM (keyedSignatureRef P) = .ok context.trustedSignature ∧
      context.workspace = workspace ∧ context.entries = (lock.map Lock.packages).getD [] ∧
      context.pins = pinsOf lock options.pins ∧ context.options = options := by
  obtain ⟨lock, hlock, h⟩ := Reading.bind_ok.mp h
  obtain ⟨key, hkey, h⟩ := Reading.bind_ok.mp h
  obtain ⟨signature, hsignature, h⟩ := Reading.bind_ok.mp h
  cases h
  rcases hm : key.mapM (keyedSignatureRef P) with e | trusted <;> rw [hm] at hsignature <;>
    cases hsignature
  exact ⟨lock, hlock, hkey, rfl, rfl, rfl, rfl, rfl⟩

theorem mem_of_pinsOf {lock : Option Lock} {pins : Pins} {entry : LockedPackage}
    (h : entry ∈ pinsOf lock pins) : ∃ l, lock = some l ∧ entry ∈ l.packages := by
  unfold pinsOf at h
  split at h
  · exact absurd h List.not_mem_nil
  · exact absurd h List.not_mem_nil
  · exact ⟨_, rfl, List.mem_of_mem_filter h⟩

/-- Resolve the dependencies of the Package in `workspace`. No manifest means no dependencies. -/
def resolvePackage (workspace : FilePath) (options : ResolveOptions) :
    Run φ Failure ResolvedPackage := do
  let present ← Run.read (platform (FileSystem.fileExists (manifestFile workspace)))
  if !present then pure { manifest := none, dependencies := [] }
  else
    let text ← Run.read (platform (readFileString P (manifestFile workspace)))
    let manifest ← Effect.ofExcept
      ((parseManifest P text (manifestFile workspace)).mapError .manifestInvalid)
    let context ← Run.read (resolveContext P workspace manifest options)
    let resolved ← forEach (fun declared => resolveDependency P services (context.request P declared))
      (dependencies manifest)
    pure { manifest := some manifest, dependencies := resolved }

end Resolve

end Akua
