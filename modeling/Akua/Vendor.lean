import Akua.Workspace

/-! `vendor add`: copies a declared dependency into `.akua/vendor/<name>/`, which resolution uses
    before any other source, and pins it in `akua.lock`. -/

namespace Akua

variable (P : Platform)

/-- Credentials for private git remotes, by URL prefix. -/
abbrev HostAuthMap := Table String BasicAuth

/-- `host[:port]/path` of a URL: no scheme, no credentials, no trailing `/`. -/
def matchKey (url : String) : String :=
  let afterScheme := ((Text.cut url "://").map Prod.snd).getD url
  let authority := String.ofList (afterScheme.toList.takeWhile (· ≠ '/'))
  let rest := String.ofList (afterScheme.toList.dropWhile (· ≠ '/'))
  Text.trimEnd (((Text.cutLast authority '@').map Prod.snd).getD authority ++ rest) '/'

/-- The credential whose prefix is the longest match for `url`, on a `/` or `:` boundary. -/
def lookupAuth (auth : HostAuthMap) (url : String) : Option BasicAuth :=
  let key := matchKey url
  let matching (candidate : String) : Bool := Text.startsWith key candidate &&
    match (Text.after key candidate).toList with
    | [] => true
    | c :: _ => c = '/' || c = ':'
  let byLength := auth.keys.insertionSort fun a b => (Text.units b).length ≤ (Text.units a).length
  if key = "" then none else (byLength.find? matching).bind auth.get?

def vendorRoot (workspace : FilePath) : FilePath := joinPath workspace VENDOR_DIR

/-- The directory `vendor add` rewrites. -/
def vendorTarget (workspace : FilePath) (name : String) : FilePath := joinPath (vendorRoot workspace) name

/-- The tree to vendor. -/
structure VendorSource where
  kind : String
  sourceRef : String
  root : FilePath
  /-- What `akua.lock` pins when it is not the tree digest: a git commit, a blob. -/
  lockDigest : Option String
  /-- The configured key verified the pulled artifact. -/
  signature : Option String
deriving DecidableEq

/-- The `akua.lock` entry for `name`, when it came from the kind of source `start` begins with. -/
def lockedEntry (lock : Option Lock) (name start : String) : Option LockedPackage :=
  ((lock.map Lock.packages).getD []).find? fun p => p.name = name && Text.startsWith p.source start

def ioFailure (path : FilePath) (error : PlatformError) : Failure :=
  cliFailure "E_IO" (osMessage error) .systemError (some path)

section Disk

variable {φ : Type} [FileSystem φ]

open FileSystem

/-- No such source directory. -/
def missingSource (path : FilePath) : Failure :=
  cliFailure "E_IO" ("source path `" ++ FilePath.toString path ++ "` does not exist") .userError
    (some path)

/-- A user-authored dependency path: relative, existing, and inside the workspace. -/
def workspaceDirectory (workspace : FilePath) (name requested : String) : Reading φ Failure FilePath := do
  if FilePath.isAbsolute requested then
    .fail (cliFailure "E_PATH_ESCAPE" ("dep `" ++ name ++ "`: absolute path `" ++ requested ++
      "` is rejected - path deps must stay under the workspace root") .userError
      (some (FilePath.append [] requested)) (some ("use a relative path under the workspace, or " ++
      "vendor the dep via `oci = \"...\"` / `git = \"...\"`")))
  else
    let root ← (realPath workspace).mapError (ioFailure workspace)
    let joined := joinPath workspace requested
    let target ← (realPath joined).mapError fun error =>
      if error.reason = .notFound then missingSource joined else ioFailure joined error
    if ¬ FilePath.Within root target then
      .fail (cliFailure "E_PATH_ESCAPE" ("dep `" ++ name ++ "`: path `" ++ requested ++
        "` resolves to `" ++ FilePath.toString target ++ "`, which escapes the workspace root `" ++
        FilePath.toString root ++ "`") .userError (some target)
        (some ("rewrite the path to stay under the workspace, or move the source into the " ++
        "workspace")))
    else
      let directory ← isDirectory target
      if !directory then .fail (missingSource target) else pure target

/-- Copy a directory: its directories and regular files; symlinks are left out. -/
def copyTree : Nat → FilePath → FilePath → Run φ PlatformError Unit
  | 0, _, _ => Effect.fail ⟨.other, "File name too long"⟩
  | depth + 1, source, target => do
    Run.makeDirectory target
    let realSource ← Run.read (realPath source)
    let names ← Run.read (readDirectory source)
    let _ ← forEach (fun name => do
      let entry := FilePath.join source name
      let real ← Run.read (realPath entry).option
      if real ≠ some (FilePath.join realSource name) then pure ()
      else
        let info ← Run.read (stat entry)
        match info.type with
        | .directory => copyTree depth entry (FilePath.join target name)
        | .file => Run.copyFile entry (FilePath.join target name)
        | .other => pure ()) names
    pure ()

variable (services : FetchServices φ)

/-- Pull an artifact; its tree is the package inside, as resolution finds it. -/
def pulledSource (name : String) (request : PullRequest) : Run φ Failure VendorSource := do
  let pulled ← (services.pull request).mapError fun error =>
    cliFailure error.code (if error.code = "E_DEP_RESOLVE" then
      "fetching OCI dep `" ++ name ++ "`: " ++ error.message else error.message) .userError
  let files ← Run.read ((loadSnapshot pulled.directory).mapError reportable)
  let (_, inner) := detectKind files
  pure { kind := "oci", sourceRef := request.reference ++ "@" ++ request.version
         root := if inner = "" then pulled.directory else FilePath.join pulled.directory inner
         lockDigest := some pulled.digest, signature := pulled.signature }

def vendorOci (name oci version : String) (lock : Option Lock) (cosignPublicKey : Option String) :
    Run φ Failure VendorSource := do
  let locked := lockedEntry lock name "oci://"
  let request : PullRequest :=
    { reference := oci, version, pin := locked.map LockedPackage.digest, offline := false
      cosignPublicKey, lockedSignature := locked.bind LockedPackage.signature }
  Run.log (.fetch request.pin request.lockedSignature)
  pulledSource services name request

/-- Check out a commit; `label` is the ref as it was declared. -/
def checkedOutSource (name label : String) (request : GitRequest) : Run φ Failure VendorSource := do
  let fetched ← (services.git request).mapError fun error =>
    cliFailure "E_DEP_RESOLVE" ("fetching git dep `" ++ name ++ "`: " ++ error.message) .userError
  pure { kind := "git", sourceRef := canonicalGitUrl request.url ++ "@" ++ label
         root := fetched.directory
         lockDigest := some ("git:" ++ fetched.commit), signature := none }

def vendorGit (name git : String) (tag rev : Option String) (lock : Option Lock)
    (auth : HostAuthMap) : Run φ Failure VendorSource := do
  -- A tag wins over a rev when both are set.
  let (ref, label) := match tag with
    | some tag => (GitRef.tag tag, tag)
    | none => (GitRef.rev (rev.getD ""), rev.getD "")
  let request : GitRequest :=
    { url := git, ref, offline := false, auth := lookupAuth auth git
      pin := (lockedEntry lock name "git+").map fun entry => Text.stripPrefix entry.digest "git:" }
  Run.log (.fetch request.pin none)
  checkedOutSource services name label request

def downloadedSource (name : String) (request : UrlRequest) : Run φ Failure VendorSource := do
  let fetched ← (services.url request).mapError fun error =>
    cliFailure "E_DEP_RESOLVE" ("fetching url dep `" ++ name ++ "`: " ++ error.message) .userError
  pure { kind := "url", sourceRef := request.url, root := fetched.directory
         lockDigest := some fetched.digest, signature := none }

def vendorUrl (name url : String) (lock : Option Lock) : Run φ Failure VendorSource := do
  let request : UrlRequest :=
    { url, offline := false, pin := (lockedEntry lock name "url+").map LockedPackage.digest }
  Run.log (.fetch request.pin none)
  downloadedSource services name request

/-- Where a declared dependency's tree comes from: the workspace, a registry pull or a checkout. -/
def resolveSource (workspace : FilePath) (name : String) (dependency : Dependency) (lock : Option Lock)
    (auth : HostAuthMap) (cosignPublicKey : Option String) : Run φ Failure VendorSource :=
  match dependencySpec dependency with
  | .path path => do
    let root ← Run.read (workspaceDirectory workspace name path)
    pure { kind := "path", sourceRef := path, root, lockDigest := none, signature := none }
  | .oci oci version => vendorOci services name oci version lock cosignPublicKey
  | .git git tag rev => vendorGit services name git tag rev lock auth
  | .helm .. => Effect.fail (cliFailure "E_DEP_RESOLVE" ("dep `" ++ name ++
      "`: helm source not yet supported by `" ++ P.cliName ++ " vendor`") .userError)
  | .url url => vendorUrl services name url lock

/-! ### The verb -/

structure VendorOutput where
  name : String
  source : VendorSource
  path : FilePath
  digest : String
  sizeBytes : Nat
  wrote : Bool
  replaced : Bool
deriving DecidableEq

/-- The declared dependency of a name; the manifest need not have a table of them. -/
def declaredDependency (manifest : Manifest) (name : String) : Option Dependency :=
  manifest.dependencies.bind fun declared => property declared name

def clearTarget (target : FilePath) (existed : Bool) : Run φ PlatformError Unit :=
  if existed then Run.remove target else pure ()

/-- Replace the target with a copy of the source. -/
def rewriteTarget (target source : FilePath) (existed : Bool) : Run φ PlatformError Unit := do
  clearTarget target existed
  Run.makeDirectory (FilePath.dirname target)
  copyTree PATH_MAX source target

/-- A target with the digest of the source stays as it is. -/
def updateTarget (target source : FilePath) (wrote existed : Bool) : Run φ Failure Unit :=
  if wrote then (rewriteTarget target source existed).mapError (ioFailure target) else pure ()

/-- The lock with the vendored dependency: a source digest is kept, with the tree's beside it. -/
def vendorLock (lock : Option Lock) (name : String) (dependency : Dependency) (source : VendorSource)
    (treeDigest : String) : Lock :=
  let locked := lockRecordFor dependency
  let digest := source.lockDigest.getD treeDigest
  let previous := (lock.bind Lock.package).bind fun packages => packages.find? fun entry =>
    entry.name = name && entry.version = locked.version
  let merged := mergeIntoLock (lock.getD emptyLock)
    [{ name, version := locked.version, source := locked.source, digest
       signature := source.signature, crdsDigest := previous.bind LockedPackage.crds_digest }]
  { merged with
    package := some (merged.packages.map fun entry =>
      if digest ≠ treeDigest ∧ entry.name = name ∧ entry.version = locked.version then
        { entry with vendor_digest := some treeDigest } else entry) }

/-- Copy the tree and pin it; a plan only tells. -/
def writeVendored (workspace : FilePath) (name : String) (dependency : Dependency)
    (source : VendorSource) (digest : String) (wrote existed plan : Bool) : Run φ Failure Unit :=
  if plan then pure ()
  else do
    updateTarget (vendorTarget workspace name) source.root wrote existed
    let lock ← Run.read (loadLock P workspace)
    saveLock P workspace (vendorLock lock name dependency source digest)

/-- What `vendor add` does with the tree it found. -/
def placeVendored (workspace : FilePath) (name : String) (dependency : Dependency)
    (source : VendorSource) (plan : Bool) : Run φ Failure VendorOutput := do
  let target := vendorTarget workspace name
  let (digest, size) ← Run.read ((hashDirectory P source.root).mapError (ioFailure source.root))
  let existed ← Run.read ((fileExists target).orElseSucceed false)
  let present ← Run.read ((if existed then some <$> hashDirectory P target else pure none).mapError
    (ioFailure target))
  let wrote := !(present.any fun p => p.1 = digest)
  writeVendored P workspace name dependency source digest wrote existed plan
  pure { name, source, path := target, digest, sizeBytes := size, wrote
         replaced := wrote && existed }

def vendorAdd (workspace : FilePath) (name : String) (auth : HostAuthMap) (plan : Bool) :
    Run φ Failure VendorOutput := do
  let manifest ← Run.read ((loadManifest P workspace).mapError (manifestFailure none))
  match declaredDependency manifest name with
  | none =>
    Effect.fail (cliFailure "E_VENDOR_DEP_MISSING" ("dep `" ++ name ++
      "` is not declared in akua.toml; declare `path = \".akua/vendor/" ++ name ++ "\"` first")
      .userError none (some ("declare `path = \".akua/vendor/" ++ name ++
      "\"` in `akua.toml` first")))
  | some dependency => do
    -- Pins are best effort here; a broken lockfile fails the write below.
    let pins ← Run.read ((loadLock P workspace).orElseSucceed none)
    let cosignPublicKey ← Run.read ((configuredCosignKey P workspace manifest).mapError reportable)
    let source ← resolveSource P services workspace name dependency pins auth cosignPublicKey
    placeVendored P workspace name dependency source plan

variable {P} in
/-- What `vendor add` does once the manifest, the lock and the key are read. -/
theorem vendorAdd_of_loaded (auth : HostAuthMap) (plan : Bool) {workspace : FilePath} {name : String}
    {manifest : Manifest} {dependency : Dependency} {cosignPublicKey : Option String} {w : World φ}
    (hmanifest : loadManifest P workspace w.fs = .ok manifest)
    (hdeclared : declaredDependency manifest name = some dependency)
    (hkey : configuredCosignKey P workspace manifest w.fs = .ok cosignPublicKey) :
    vendorAdd P services workspace name auth plan w = (do
      let source ← resolveSource P services workspace name dependency
        ((loadLock P workspace w.fs).toOption.getD none) auth cosignPublicKey
      placeVendored P workspace name dependency source plan) w := by
  rw [vendorAdd, Run.read_bind_of_ok (Reading.mapError_ok.mpr hmanifest), hdeclared]
  dsimp only
  rw [Run.read_bind_of_ok (Reading.orElseSucceed_run none),
    Run.read_bind_of_ok (Reading.mapError_ok.mpr hkey)]

/-! ### What placing a tree logs -/

/-- A write that removes nothing but `target`. -/
def VendorWrite (target : FilePath) (e : Event) : Prop :=
  e.IsWrite ∧ ∀ path, e = .remove path → path = target

section Writes

open Run

variable {target : FilePath}

omit [FileSystem φ] in
theorem vendorWrite_makeDirectory (path : FilePath) : VendorWrite target (.makeDirectory path) :=
  ⟨trivial, by rintro _ ⟨⟩⟩

theorem logs_copyTree : ∀ (depth : Nat) (source copy : FilePath),
    Logs (VendorWrite target) (copyTree depth source copy : Run φ PlatformError Unit)
  | 0, _, _ => logs_fail _
  | depth + 1, source, copy => by
      refine logs_bind (logs_bind (logs_log (vendorWrite_makeDirectory _)) fun _ _ _ _ =>
        logs_onDisk _) fun _ _ _ _ => logs_bind (logs_read _) fun _ _ _ _ =>
          logs_bind (logs_read _) fun _ _ _ _ => logs_bind (logs_forEach fun name _ => ?_)
            fun _ _ _ _ => logs_pure _
      refine logs_bind (logs_read _) fun real _ _ _ => logs_ite (fun _ => logs_pure _) fun _ =>
        logs_bind (logs_read _) fun info _ _ _ => ?_
      split
      · exact logs_copyTree depth _ _
      · exact logs_bind (logs_log ⟨trivial, by rintro _ ⟨⟩⟩) fun _ _ _ _ => logs_onDisk _
      · exact logs_pure _

theorem logs_rewriteTarget (source : FilePath) (existed : Bool) :
    Logs (VendorWrite target) (rewriteTarget target source existed : Run φ PlatformError Unit) := by
  refine logs_bind (logs_ite (fun _ => ?_) fun _ => logs_pure _) fun _ _ _ _ => ?_
  · refine logs_bind (logs_log ⟨trivial, ?_⟩) fun _ _ _ _ => logs_onDisk _
    rintro path ⟨⟩
    rfl
  · exact logs_bind (logs_bind (logs_log (vendorWrite_makeDirectory _)) fun _ _ _ _ =>
      logs_onDisk _) fun _ _ _ _ => logs_copyTree _ _ _

theorem logs_placeVendored (workspace : FilePath) (name : String) (dependency : Dependency)
    (source : VendorSource) (plan : Bool) :
    Logs (VendorWrite (vendorTarget workspace name))
      (placeVendored P workspace name dependency source plan : Run φ Failure VendorOutput) := by
  refine logs_bind (logs_read _) fun hashed _ _ _ => logs_bind (logs_read _) fun existed _ _ _ =>
    logs_bind (logs_read _) fun present _ _ _ => logs_bind ?_ fun _ _ _ _ => logs_pure _
  refine logs_ite (fun _ => logs_pure _) fun _ => logs_bind ?_ fun _ _ _ _ =>
    logs_bind (logs_read _) fun _ _ _ _ => logs_mapError ?_
  · exact logs_ite (fun _ => logs_mapError (logs_rewriteTarget _ _)) fun _ => logs_pure _
  · exact logs_bind (logs_log ⟨trivial, by rintro _ ⟨⟩⟩) fun _ _ _ _ => logs_onDisk _

end Writes

end Disk

end Akua
