import Akua.Manifest
import Akua.TomlWrite

/-! `akua.lock`, the machine-maintained lockfile: one entry per resolved dependency, alphabetical,
    each pinned by digest; its parser, its text, and the merge that updates it. -/

namespace Akua

def LOCK_VERSION : Number := "1"

structure LockedPackage where
  name : String
  version : String
  /-- `oci://…`, `git+https://…@<ref>`, `helm+<repo>#<chart>`, `url+…` or `path+file://…`. -/
  source : String
  /-- `sha256:` for OCI, Helm and path dependencies; `git:<commit>` for git. -/
  digest : String
  vendor_digest : Option String := none
  signature : Option String := none
  dependencies : Option (List String) := none
  attestation : Option String := none
  /-- The path of the local fork that was resolved instead. -/
  replaced : Option String := none
  yanked : Option Bool := none
  kyverno_source_digest : Option String := none
  converter_version : Option String := none
  /-- A CRD dependency's generated `.akua/crds/<dep>/` tree, as `lock` wrote it. -/
  crds_digest : Option String := none
deriving DecidableEq

structure Lock where
  version : Number
  package : Option (List LockedPackage) := none
deriving DecidableEq

/-- `lock.package ?? []`. -/
def Lock.packages (lock : Lock) : List LockedPackage := lock.package.getD []

/-! ### Parsing -/

open Value in
def LockedPackage.decode (raw : Value) : Option LockedPackage := do
  let name ← required asString "name" raw
  let version ← required asString "version" raw
  let source ← required asString "source" raw
  let digest ← required asString "digest" raw
  let vendor_digest ← optionalKey asString "vendor_digest" raw
  let signature ← optionalKey asString "signature" raw
  let dependencies ← optionalKey (asArray asString) "dependencies" raw
  let attestation ← optionalKey asString "attestation" raw
  let replaced ← optionalKey (required asString "path") "replaced" raw
  let yanked ← optionalKey asBool "yanked" raw
  let kyverno_source_digest ← optionalKey asString "kyverno_source_digest" raw
  let converter_version ← optionalKey asString "converter_version" raw
  let crds_digest ← optionalKey asString "crds_digest" raw
  some { name, version, source, digest, vendor_digest, signature, dependencies, attestation,
         replaced, yanked, kyverno_source_digest, converter_version, crds_digest }

open Value in
def decodeLock (raw : Value) : Option Lock := do
  let version ← required asNumber "version" raw
  let package ← optionalKey (asArray LockedPackage.decode) "package" raw
  some { version, package }

/-- The digest names a scheme the fetchers know. -/
def knownScheme (digest : String) : Bool :=
  Text.startsWith digest "sha256:" || Text.startsWith digest "git:"

/-- What is wrong with an entry that follows `previous`. -/
def entryProblem (previous : Option LockedPackage) (entry : LockedPackage) : Option String :=
  if previous.any fun p => Text.less entry.name p.name then
    some ("package entries must be alphabetical by name; `" ++ entry.name ++ "` comes before `" ++
      (previous.map LockedPackage.name).getD "" ++ "`")
  else if previous.any fun p => entry.name = p.name ∧ entry.version = p.version then
    some ("package `" ++ entry.name ++ "` appears multiple times at the same version")
  else if !knownScheme entry.digest then
    some ("package `" ++ entry.name ++
      "`: digest must start with `sha256:` (OCI/path dep) or `git:` (git dep)")
  else none

/-- The first problem of the entries, each checked against the one before it. -/
def entriesProblem : Option LockedPackage → List LockedPackage → Option String
  | _, [] => none
  | previous, entry :: rest => entryProblem previous entry <|> entriesProblem (some entry) rest

/-- The lock in a document, if it is one and its entries are in order. -/
def validateLock (P : Platform) (raw : Value) (path : FilePath) : Except LockInvalid Lock :=
  match decodeLock raw with
  | none => .error { path, message := "toml parse error: " ++ P.schemaIssue raw }
  | some lock =>
    if lock.version ≠ LOCK_VERSION then
      .error { path, message := "unsupported lockfile version " ++ lock.version ++
        "; this akua understands version " ++ LOCK_VERSION }
    else
      match entriesProblem none lock.packages with
      | some message => .error { path, message }
      | none => .ok lock

/-- Parse and validate `akua.lock` text; `path` names the file in errors. -/
def parseLock (P : Platform) (text : String) (path : FilePath) : Except LockInvalid Lock :=
  match P.parseToml text with
  | .error cause => .error { path, message := "toml parse error: " ++ cause }
  | .ok raw => validateLock P raw path

/-- The entries whose digests a fetch must reproduce: every pinned remote source, or only OCI
    blobs. -/
def pinnedEntries (lock : Lock) (ociOnly : Bool := false) : List LockedPackage :=
  lock.packages.filter fun entry =>
    if ociOnly then Text.startsWith entry.source "oci://"
    else !Text.startsWith entry.source "path+file://"

def emptyLock : Lock := { version := LOCK_VERSION, package := some [] }

/-! ### Writing -/

/-- `byNameThenVersion(a, b) <= 0`. -/
def byNameThenVersion (a b : LockedPackage) : Bool :=
  if Text.less a.name b.name then true
  else if Text.less b.name a.name then false
  else !Text.less b.version a.version

def sortPackages (packages : List LockedPackage) : List LockedPackage :=
  packages.insertionSort fun a b => byNameThenVersion a b

def lockHeader (cli : String) : String :=
  "# akua.lock - machine-maintained. Never hand-edit.\n" ++
  "# Regenerated by `" ++ cli ++ " add`, `" ++ cli ++ " pull`, `" ++ cli ++ " publish`, `" ++ cli ++
  " update`.\n\n"

/-- The fields of an entry as they are written. -/
def LockedPackage.toml (entry : LockedPackage) : TomlEntries :=
  [("name", .string entry.name), ("version", .string entry.version),
   ("source", .string entry.source), ("digest", .string entry.digest)] ++
  TomlItem.some? "vendor_digest" (entry.vendor_digest.map .string) ++
  TomlItem.some? "signature" (entry.signature.map .string) ++
  TomlItem.some? "dependencies" (match entry.dependencies with
    | none | some [] => none
    | some names => some (.value (.strings names))) ++
  TomlItem.some? "attestation" (entry.attestation.map .string) ++
  TomlItem.some? "replaced" (entry.replaced.map fun path => .table [("path", .string path)]) ++
  TomlItem.some? "yanked" (entry.yanked.map .bool) ++
  TomlItem.some? "kyverno_source_digest" (entry.kyverno_source_digest.map .string) ++
  TomlItem.some? "converter_version" (entry.converter_version.map .string) ++
  TomlItem.some? "crds_digest" (entry.crds_digest.map .string)

/-- The lockfile body, entries sorted; no header. -/
def lockBody (lock : Lock) : String :=
  toToml [("version", .value (.number lock.version)),
    ("package", .tables ((sortPackages lock.packages).map LockedPackage.toml))]

/-- `akua.lock` as written to disk. -/
def formatLock (lock : Lock) (cli : String) : String := lockHeader cli ++ lockBody lock

/-! ### Merging -/

/-- A dependency as resolution pinned it. -/
structure LockUpdate where
  name : String
  version : String
  source : String
  digest : String
  replaced : Option String := none
  /-- The signature resolution verified for `digest`; none keeps what the lock recorded for it. -/
  signature : Option String := none
  /-- A CRD dependency's generated tree digest; none for other dependencies. -/
  crdsDigest : Option String := none
deriving DecidableEq

/-- The entry an update writes over `previous`, which keeps what is tied to its bytes when the
    digest is unchanged. -/
def mergedEntry (previous : Option LockedPackage) (update : LockUpdate) : LockedPackage :=
  let carry := previous.filter fun p => p.digest = update.digest
  { name := update.name
    version := update.version
    source := update.source
    digest := update.digest
    vendor_digest := carry.bind (·.vendor_digest)
    signature := update.signature <|> carry.bind (·.signature)
    dependencies := carry.bind (·.dependencies)
    attestation := carry.bind (·.attestation)
    replaced := update.replaced
    yanked := carry.bind (·.yanked)
    kyverno_source_digest := carry.bind (·.kyverno_source_digest)
    converter_version := carry.bind (·.converter_version)
    crds_digest := update.crdsDigest }

/-- Replace the first entry of the update's name and version, or add one at the end. -/
def upsert (packages : List LockedPackage) (update : LockUpdate) : List LockedPackage :=
  match packages.findIdx? fun e => e.name = update.name ∧ e.version = update.version with
  | none => packages ++ [mergedEntry none update]
  | some slot => packages.set slot (mergedEntry packages[slot]? update)

/-- The entries a merge starts from: a dependency resolved at another version drops its old one. -/
def survivors (packages : List LockedPackage) (updates : List LockUpdate) : List LockedPackage :=
  packages.filter fun entry =>
    entry.name ∉ updates.map LockUpdate.name ∨
      updates.any fun update => update.name = entry.name ∧ update.version = entry.version

/-- Upsert each update by name, sorted. -/
def mergeIntoLock (lock : Lock) (updates : List LockUpdate) : Lock :=
  { version := lock.version
    package := some (sortPackages (updates.foldl upsert (survivors lock.packages updates))) }

end Akua
