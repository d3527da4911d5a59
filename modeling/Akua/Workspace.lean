import Akua.Dependencies
import Akua.Lib.Disk

/-! `akua.toml` and `akua.lock` in a workspace, read and written as the verbs do, and what the verbs
    share: the resolution for a lockfile write, the entries it gives, the generated schemas, and the
    trees a published Package carries. -/

namespace Akua

variable (P : Platform)

/-- `base.join(rel)`: an absolute `rel` stands for itself. -/
def joinPath (base : FilePath) (rel : String) : FilePath :=
  FilePath.append (if FilePath.isAbsolute rel then [] else base) rel

/-- A failure of the CLI contract. -/
def cliFailure (code message : String) (exitCode : ExitCode) (path : Option FilePath := none)
    (suggestion : Option String := none) : Failure :=
  .cli { code, message, exitCode, path, suggestion }

/-- Why a manifest did not load; `reading` is an unreadable file, reported as it is. -/
inductive LoadFailure where
  | missing (path : FilePath)
  | invalid (error : ManifestInvalid)
  | reading (failure : Failure)
deriving DecidableEq

/-- As `verify` reports it: the file's path, and the validation code. -/
def manifestFailure (missingSuggestion : Option String) : LoadFailure → Failure
  | .missing path =>
    cliFailure "E_MANIFEST_MISSING" "akua.toml not found" .userError (some path) missingSuggestion
  | .invalid error => cliFailure error.code error.message .userError (some error.path)
  | .reading failure => failure

def manifestFailureMessage : LoadFailure → String
  | .missing path => "akua.toml not found at " ++ FilePath.toString path
  | .invalid error => "failed to parse " ++ FilePath.toString error.path ++ ": " ++ error.message
  | .reading failure => failure.message

def manifestPath (workspace : FilePath) : FilePath := joinPath workspace "akua.toml"
def lockPath (workspace : FilePath) : FilePath := joinPath workspace "akua.lock"

section Disk

variable {φ : Type} [FileSystem φ]

/-- The file's text, or none when it does not exist. -/
def readOptional (path : FilePath) : Reading φ Failure (Option String) := fun fs =>
  match readFileString P path fs with
  | .ok text => .ok (some text)
  | .error error =>
    if error.reason = .notFound then .ok none
    else .error (cliFailure "E_IO" (osMessage error) .systemError (some path))

def loadManifest (workspace : FilePath) : Reading φ LoadFailure Manifest := do
  let text ← (readOptional P (manifestPath workspace)).mapError .reading
  match text with
  | none => .fail (.missing (manifestPath workspace))
  | some text => Reading.ofExcept ((parseManifest P text (manifestPath workspace)).mapError .invalid)

/-- The lockfile, none when it has not been written yet. -/
def loadLock (workspace : FilePath) : Reading φ Failure (Option Lock) := do
  let text ← readOptional P (lockPath workspace)
  match text with
  | none => pure none
  | some text =>
    some <$> Reading.ofExcept ((parseLock P text (lockPath workspace)).mapError fun error =>
      cliFailure "E_LOCK_PARSE" error.message .userError (some (lockPath workspace)))

/-- The lockfile if it loads; a missing or broken one counts as empty. -/
def priorLock {ε : Type} (workspace : FilePath) : Reading φ ε Lock :=
  Reading.orElseSucceed ((fun lock => lock.getD emptyLock) <$> loadLock P workspace) emptyLock

/-- As `lock` reports it: one code, and one message. -/
def loadManifestForLock (workspace : FilePath) : Reading φ Failure Manifest :=
  (loadManifest P workspace).mapError fun failure =>
    match failure with
    | .reading failure => failure
    | failure => cliFailure "E_MANIFEST_PARSE" (manifestFailureMessage failure) .userError

def saveLock (workspace : FilePath) (lock : Lock) : Run φ Failure Unit :=
  (Run.writeFileString (lockPath workspace) (formatLock lock P.cliName)).mapError fun error =>
    cliFailure "E_IO" (osMessage error) .systemError (some (lockPath workspace))

/-! ### Generated schemas -/

/-- One CRD dependency's generated schemas, as verbs report them. -/
structure GeneratedSummary where
  name : String
  path : String
  modules : List (String × List String)
deriving DecidableEq

/-- A CRD dependency's schema tree. -/
structure CrdTree where
  files : Snapshot
  modules : List (String × List String)

/-- The converter from a source's CRDs to KCL schemas: the dependency's name, its files and the
    selector. -/
abbrev CrdConverter := String → Snapshot → String → Except String CrdTree

/-- The schemas generated for the CRD dependencies of one resolution, and their lock digests. -/
structure CrdGeneration where
  trees : List GeneratedCrds
  summaries : List GeneratedSummary
  digests : Table String String

variable (convert : CrdConverter)

/-- The schema tree of one CRD dependency: as `.akua/crds/` holds it, or generated. -/
def crdTree (dependency : ResolvedDependency) (crds : CrdSource) : Except Failure CrdTree :=
  match crds.generated with
  | some files => .ok { files, modules := [] }
  | none => (convert dependency.name dependency.files crds.selector).mapError fun message =>
    cliFailure "E_CRDS_INVALID" ("dependency `" ++ dependency.name ++ "`: " ++ message) .userError

/-- What is written for one resolved dependency: nothing unless it is a CRD dependency. -/
def generatedTree (dependency : ResolvedDependency) :
    Except Failure (Option (GeneratedCrds × GeneratedSummary)) :=
  match dependency.crds with
  | none => .ok none
  | some crds => do
    let tree ← crdTree convert dependency crds
    .ok (some (
      { dependency := dependency.name, files := tree.files, source := dependency.locked.source
        version := dependency.locked.version, crds := crds.selector, digest := dependency.digest },
      { name := dependency.name, path := CRDS_DIR ++ "/" ++ kclIdent dependency.name
        modules := tree.modules }))

def generateCrds (resolved : List ResolvedDependency) : Except Failure CrdGeneration := do
  let generated ← resolved.mapM (generatedTree convert)
  let trees := generated.reduceOption.map Prod.fst
  .ok
    { trees
      summaries := generated.reduceOption.map Prod.snd
      digests := Table.ofList (trees.map fun tree => (tree.dependency, generatedCrdsDigest P tree)) }

/-! ### Resolution for a lockfile write -/

/-- One resolved dependency, as `akua.lock` records it. -/
def lockUpdate (generation : CrdGeneration) (dependency : ResolvedDependency) : LockUpdate where
  name := dependency.name
  version := dependency.locked.version
  source := dependency.locked.source
  digest := dependency.digest
  replaced := dependency.locked.replaced
  signature := dependency.locked.signature
  crdsDigest := generation.digests.get? dependency.name

def lockUpdates (resolved : List ResolvedDependency) (generation : CrdGeneration) : List LockUpdate :=
  resolved.map (lockUpdate generation)

variable (services : FetchServices φ)

/-- Resolve every dependency online, as `lock` and `update` do. -/
def resolveForLock (workspace : FilePath) (pins : Pins) : Run φ Failure ResolvedPackage :=
  (resolvePackage P services workspace { offline := false, pins, regenerateCrds := true }).mapError
    reportable

/-- A tree that a published Package carries under `.akua/vendor/`. -/
structure VendorTree where
  name : String
  directory : FilePath
deriving DecidableEq

/-- CRD dependencies ship as their generated schemas; a local fork does not ship. -/
def isVendored (dependency : ResolvedDependency) : Bool :=
  dependency.kind ≠ .crds &&
    (dependency.locked.kind = .oci || dependency.locked.kind = .git) &&
    dependency.locked.replaced.isNone

/-- The OCI and git dependencies a published Package carries. A resolution failure is a warning: the
    artifact still packs. -/
def vendorTrees {ε : Type} (workspace : FilePath) : Run φ ε (List VendorTree) := do
  let resolved ← (resolvePackage P services workspace
    { offline := false, verifySignatures := false, pins := .oci }).result
  match resolved with
  | .error _ => pure []
  | .ok package =>
    pure ((package.dependencies.filter isVendored).map fun dependency =>
      { name := dependency.name, directory := dependency.root })

end Disk

/-! ### Workspaces by their documents -/

/-- A table of string fields. -/
abbrev Fields := List (String × String)

def Fields.text (fields : Fields) : String :=
  concat (fields.map fun field => field.1 ++ " = \"" ++ field.2 ++ "\"\n")

def Fields.value (fields : Fields) : Value :=
  .object (fields.map fun field => (field.1, .string field.2))

/-- `akua.toml` with these dependencies and signing fields. -/
def manifestText (dependencies : List (String × Fields)) (signing : Fields) : String :=
  "[package]\nname = \"app\"\nversion = \"0.1.0\"\nedition = \"akua.dev/v1alpha1\"\n" ++
  "\n[signing]\n" ++ signing.text ++
  concat (dependencies.map fun d => "\n[dependencies.\"" ++ d.1 ++ "\"]\n" ++ d.2.text)

/-- What the reader makes of it. -/
def manifestDocument (dependencies : List (String × Fields)) (signing : Fields) : Value :=
  .object [("package", .object [("name", .string "app"), ("version", .string "0.1.0"),
      ("edition", .string "akua.dev/v1alpha1")]),
    ("signing", signing.value),
    ("dependencies", .object (dependencies.map fun d => (d.1, d.2.value)))]

/-- `akua.lock` with these entries. -/
def lockText (entries : List Fields) : String :=
  "version = 1\n" ++ concat (entries.map fun entry => "\n[[package]]\n" ++ entry.text)

def lockDocument (entries : List Fields) : Value :=
  .object [("version", .number "1"), ("package", .array (entries.map Fields.value))]

/-- A workspace at `/ws`. -/
structure SampleWorkspace where
  dependencies : List (String × Fields) := []
  signing : Fields := []
  lock : List Fields := []
  /-- The other files, by their absolute paths. -/
  files : List (String × String) := []
  digests : List (Bytes × Hex256) := []
  env : List (String × String) := []

namespace SampleWorkspace

def root : FilePath := ["ws"]

section

variable (sample : SampleWorkspace)

def manifestText : String := Akua.manifestText sample.dependencies sample.signing
def manifestDocument : Value := Akua.manifestDocument sample.dependencies sample.signing

def host : Platform :=
  .ofTables
    [(sample.manifestText, sample.manifestDocument),
      (lockText sample.lock, lockDocument sample.lock)]
    sample.digests [] sample.env

def disk : Disk :=
  (((Disk.ofFiles sample.files).put ["ws"] .directory).put ["ws", "akua.toml"]
    (.file (encodeText sample.manifestText) Disk.FILE_MODE)).put ["ws", "akua.lock"]
    (.file (encodeText (lockText sample.lock)) Disk.FILE_MODE)

def world : World Disk where fs := sample.disk

/-- The fetchers, without credentials. -/
def services : FetchServices Disk := .live sample.host (.ok Table.empty)

end

/-! What is read from such a workspace is what it was made from. -/

section

variable {sample : SampleWorkspace}

theorem head_append {s t : String} {b : UInt8} (h : (encodeText s).head? = some b) :
    (encodeText (s ++ t)).head? = some b := by
  rw [encodeText_append, List.head?_append, h, Option.some_or]

theorem manifestText_head : (encodeText sample.manifestText).head? = some 0x5B :=
  head_append (head_append (head_append (by decide +kernel)))

theorem lockText_head {entries : List Fields} : (encodeText (lockText entries)).head? = some 0x76 :=
  head_append (by decide)

theorem node_manifest : sample.disk.node? ["ws", "akua.toml"] =
    some (.file (encodeText sample.manifestText) Disk.FILE_MODE) := by
  have hpath : FilePath.normalize ["ws", "akua.toml"] = ["ws", "akua.toml"] := by decide
  rw [Disk.node?, hpath, disk, Disk.at?_put (by simp), if_neg (by decide), Disk.at?_put (by simp),
    if_pos rfl]

theorem node_lock : sample.disk.node? ["ws", "akua.lock"] =
    some (.file (encodeText (lockText sample.lock)) Disk.FILE_MODE) := by
  have hpath : FilePath.normalize ["ws", "akua.lock"] = ["ws", "akua.lock"] := by decide
  rw [Disk.node?, hpath, disk, Disk.at?_put (by simp), if_pos rfl]

theorem readFileString_of_node {path : FilePath} {text : String} {mode : Nat}
    (hnode : sample.disk.node? path = some (.file (encodeText text) mode))
    (hmark : (encodeText text).head? ≠ some 0xEF) :
    readFileString sample.host path sample.disk = .ok text := by
  rw [readFileString, Reading.map_run, Disk.readFile_of_node hnode]
  exact congrArg _ (decodeText_encodeText _ hmark)

theorem readFileString_manifest :
    readFileString sample.host ["ws", "akua.toml"] sample.disk = .ok sample.manifestText :=
  readFileString_of_node node_manifest (by rw [manifestText_head]; decide)

theorem readFileString_lock :
    readFileString sample.host ["ws", "akua.lock"] sample.disk = .ok (lockText sample.lock) :=
  readFileString_of_node node_lock (by rw [lockText_head]; decide)

theorem parseManifest_manifestText (path : FilePath) :
    parseManifest sample.host sample.manifestText path =
      validateManifest sample.host sample.manifestDocument path := by
  have h : sample.host.parseToml sample.manifestText = .ok sample.manifestDocument := by
    simp [host, Platform.ofTables]
  rw [parseManifest, h]

theorem parseLock_lockText (path : FilePath) :
    parseLock sample.host (lockText sample.lock) path =
      validateLock sample.host (lockDocument sample.lock) path := by
  have hne : lockText sample.lock ≠ sample.manifestText := fun he => by
    have hhead := @lockText_head sample.lock
    rw [he, manifestText_head] at hhead
    exact absurd hhead (by decide)
  have h : sample.host.parseToml (lockText sample.lock) = .ok (lockDocument sample.lock) := by
    simp [host, Platform.ofTables, List.lookup_cons, beq_eq_false_iff_ne.mpr hne]
  rw [parseLock, h]

theorem readOptional_manifest :
    readOptional sample.host ["ws", "akua.toml"] sample.disk = .ok (some sample.manifestText) := by
  rw [readOptional, readFileString_manifest]

theorem readOptional_lock :
    readOptional sample.host ["ws", "akua.lock"] sample.disk = .ok (some (lockText sample.lock)) := by
  rw [readOptional, readFileString_lock]

theorem loadManifest_eq : loadManifest sample.host root sample.disk =
    (validateManifest sample.host sample.manifestDocument ["ws", "akua.toml"]).mapError
      .invalid := by
  have hpath : manifestPath root = ["ws", "akua.toml"] := by decide
  rw [loadManifest, hpath, Reading.bind_of_ok
    (Reading.mapError_ok.mpr readOptional_manifest)]
  simp only [Reading.ofExcept_run, parseManifest_manifestText]

theorem loadLock_eq : loadLock sample.host root sample.disk =
    ((validateLock sample.host (lockDocument sample.lock) ["ws", "akua.lock"]).mapError
      fun error => cliFailure "E_LOCK_PARSE" error.message .userError
        (some ["ws", "akua.lock"])).map some := by
  have hpath : lockPath root = ["ws", "akua.lock"] := by decide
  rw [loadLock, hpath, Reading.bind_of_ok readOptional_lock]
  simp only [Reading.map_run, Reading.ofExcept_run, parseLock_lockText]

theorem readLock_eq : readLock sample.host root sample.disk =
    .ok (validateLock sample.host (lockDocument sample.lock) ["ws", "akua.lock"]).toOption := by
  have hpath : lockFile root = ["ws", "akua.lock"] := by decide
  have hexists : platform (FileSystem.fileExists ["ws", "akua.lock"]) sample.disk = .ok true :=
    Reading.mapError_ok.mpr (Disk.fileExists_of_node node_lock)
  rw [readLock, hpath, Reading.bind_of_ok hexists]
  simp only [Bool.not_true, Bool.false_eq_true, if_false]
  rw [Reading.bind_of_ok (show _ = Except.ok (some (lockText sample.lock))
    by rw [Reading.option_run, readFileString_lock]; rfl)]
  simp only [Reading.pure_run, Option.bind_some, parseLock_lockText]

/-- Without a key, all that resolution reads is the lock. -/
theorem resolveContext_eq {manifest : Manifest} {lock : Lock} (options : ResolveOptions)
    (hkey : manifest.signing.bind Signing.cosign_public_key = none)
    (hlock : validateLock sample.host (lockDocument sample.lock) ["ws", "akua.lock"] = .ok lock) :
    resolveContext sample.host root manifest options sample.disk =
      .ok { workspace := root, entries := lock.packages, pins := pinsOf (some lock) options.pins,
            cosignPublicKey := none, trustedSignature := none, options } := by
  have hread : readLock sample.host root sample.disk = .ok (some lock) := by
    rw [readLock_eq, hlock]; rfl
  have hsigning : signingKey sample.host root manifest options sample.disk = .ok none := by
    unfold signingKey configuredCosignKey
    rw [hkey]
    split <;> rfl
  rw [resolveContext, Reading.bind_of_ok hread, Reading.bind_of_ok hsigning]
  rfl

end

end SampleWorkspace

end Akua
