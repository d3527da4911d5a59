import Akua.Host
import Akua.TomlWrite
import Mathlib.Data.List.Sort

/-! `akua.toml`, the human-edited manifest: its shape, its parser and the rules of each entry. -/

namespace Akua

/-- `crds` in a dependency: `true` for the whole source, or a file or directory inside it. -/
inductive CrdsField where
  | bool (value : Bool)
  | selector (value : String)
deriving DecidableEq

structure Dependency where
  oci : Option String := none
  git : Option String := none
  path : Option String := none
  /-- HTTPS Helm repository; pairs with `chart`. -/
  repo : Option String := none
  chart : Option String := none
  /-- HTTPS URL of one manifest file; only with `crds`. -/
  url : Option String := none
  version : Option String := none
  tag : Option String := none
  rev : Option String := none
  crds : Option CrdsField := none
  /-- The path of a local fork of the dependency, still locked by its canonical source. -/
  replace : Option String := none
deriving DecidableEq

structure PackageTable where
  name : String
  version : String
  edition : String
  strict_signing : Option Bool := none
deriving DecidableEq

structure Signing where
  cosign_public_key : Option String := none
  cosign_private_key : Option String := none
deriving DecidableEq

structure Manifest where
  package : PackageTable
  /-- `[workspace]`, with its `members`. -/
  workspace : Option (Option (List String)) := none
  signing : Option Signing := none
  dependencies : Option (Table String Dependency) := none
deriving DecidableEq

/-- A dependency by source, after validation. -/
inductive DependencySpec where
  | path (path : String)
  | oci (oci version : String)
  | git (git : String) (tag rev : Option String)
  | helm (repo chart version : String)
  | url (url : String)
deriving DecidableEq

/-! ### Decoding -/

open Value in
def CrdsField.decode : Value → Option CrdsField
  | .bool value => some (.bool value)
  | .string value => some (.selector value)
  | _ => none

open Value in
def Dependency.decode (raw : Value) : Option Dependency := do
  let oci ← optionalKey asString "oci" raw
  let git ← optionalKey asString "git" raw
  let path ← optionalKey asString "path" raw
  let repo ← optionalKey asString "repo" raw
  let chart ← optionalKey asString "chart" raw
  let url ← optionalKey asString "url" raw
  let version ← optionalKey asString "version" raw
  let tag ← optionalKey asString "tag" raw
  let rev ← optionalKey asString "rev" raw
  let crds ← optionalKey CrdsField.decode "crds" raw
  let replace ← optionalKey (required asString "path") "replace" raw
  some { oci, git, path, repo, chart, url, version, tag, rev, crds, replace }

open Value in
def PackageTable.decode (raw : Value) : Option PackageTable := do
  let name ← required asString "name" raw
  let version ← required asString "version" raw
  let edition ← required asString "edition" raw
  let strict_signing ← optionalKey asBool "strict_signing" raw
  some { name, version, edition, strict_signing }

open Value in
def Signing.decode (raw : Value) : Option Signing := do
  let cosign_public_key ← optionalKey asString "cosign_public_key" raw
  let cosign_private_key ← optionalKey asString "cosign_private_key" raw
  some { cosign_public_key, cosign_private_key }

open Value in
def decodeManifest (raw : Value) : Option Manifest := do
  let package ← required PackageTable.decode "package" raw
  let workspace ← optionalKey (optionalKey (asArray asString) "members") "workspace" raw
  let signing ← optionalKey Signing.decode "signing" raw
  let dependencies ← optionalKey (asRecord Dependency.decode) "dependencies" raw
  some { package, workspace, signing, dependencies }

/-! ### The entries -/

/-- `manifest.dependencies ?? {}`. -/
def Manifest.declared (manifest : Manifest) : Table String Dependency :=
  manifest.dependencies.getD Table.empty

/-- The names every JavaScript object has from `Object.prototype`. -/
def objectPrototype : List String :=
  ["__proto__", "constructor", "hasOwnProperty", "isPrototypeOf", "propertyIsEnumerable",
   "toLocaleString", "toString", "valueOf", "__defineGetter__", "__defineSetter__",
   "__lookupGetter__", "__lookupSetter__"]

/-- `declared[name]`: an entry, or what the object inherits under that name, which has none of a
    dependency's fields. -/
def property (declared : Table String Dependency) (name : String) : Option Dependency :=
  match declared.get? name with
  | some dependency => some dependency
  | none => if name ∈ objectPrototype then some {} else none

/-- Dependencies in canonical (alphabetical) order. -/
def dependencies (manifest : Manifest) : List (String × Dependency) :=
  manifest.declared.entries.insertionSort fun a b => Text.atMost a.1 b.1

theorem dependencies_nodup (manifest : Manifest) : ((dependencies manifest).map Prod.fst).Nodup :=
  ((List.perm_insertionSort _ _).map Prod.fst).nodup_iff.mpr manifest.declared.nodup

/-- The file or directory a CRD dependency's schemas come from, relative to its source (`.` for all
    of it); none for other dependencies. -/
def crdSelector (dependency : Dependency) : Option String :=
  match dependency.crds with
  | none | some (.bool false) => none
  | some (.bool true) => some "."
  | some (.selector selector) => some selector

/-- The dependency's source. -/
def dependencySpec (dependency : Dependency) : DependencySpec :=
  match dependency.path, dependency.url, dependency.oci, dependency.git with
  | some path, _, _, _ => .path path
  | none, some url, _, _ => .url url
  | none, none, some oci, _ => .oci oci (dependency.version.getD "")
  | none, none, none, some git => .git git dependency.tag dependency.rev
  | none, none, none, none =>
    .helm (dependency.repo.getD "") (dependency.chart.getD "") (dependency.version.getD "")

def DependencySpec.isHelm : DependencySpec → Bool
  | .helm .. => true
  | _ => false

def DependencySpec.isPath : DependencySpec → Bool
  | .path _ => true
  | _ => false

def DependencySpec.isOci : DependencySpec → Bool
  | .oci .. => true
  | _ => false

/-- An `@` in the authority: credentials belong in auth configuration. -/
def hasUserInfo (url : String) : Bool :=
  let afterScheme := ((Text.cut url "://").map Prod.snd).getD url
  Text.includes ((Text.split afterScheme '/').headD "") '@'

/-- A problem with a manifest, and its contract code. -/
structure Problem where
  message : String
  code : String
deriving DecidableEq

/-- The rules of one dependency entry. -/
def validateDependency (name : String) (dependency : Dependency) : Except Problem Unit := do
  let fail (message : String) (code : String := "E_MANIFEST_PARSE") : Except Problem Unit :=
    .error { message := "dependency `" ++ name ++ "`: " ++ message, code }
  let credentials := "must not embed credentials (`user:pass@`). " ++
    "Pass credentials via the SDK `auth` parameter or the CLI `--auth` flag."
  let sources := ([dependency.oci, dependency.git, dependency.path, dependency.repo,
    dependency.url].filter Option.isSome).length
  let pinned := dependency.version.isSome || dependency.tag.isSome || dependency.rev.isSome
  if sources ≠ 1 then
    fail ("exactly one of oci / git / path / repo / url must be set, got " ++ toString sources)
  if let some oci := dependency.oci then
    if dependency.version = none then fail "oci dep requires a version"
    if hasUserInfo oci then fail ("oci URL " ++ credentials) "E_MANIFEST_OCI_USERINFO"
  if let some git := dependency.git then
    if dependency.tag = none ∧ dependency.rev = none then fail "git dep requires either tag or rev"
    if hasUserInfo git then fail ("git URL " ++ credentials) "E_MANIFEST_GIT_USERINFO"
  if dependency.path.isSome && pinned then fail "path dep must not set version / tag / rev"
  if let some url := dependency.url then
    if dependency.crds = none ∨ dependency.crds = some (.bool false) then
      fail "url dep is a CRD source: set `crds = true`" "E_MANIFEST_CRDS_INVALID"
    if !Text.startsWith url "https://" then
      fail "url dep must be an https:// URL" "E_MANIFEST_CRDS_INVALID"
    if pinned then
      fail "url dep must not set version / tag / rev: akua.lock pins the file by digest"
        "E_MANIFEST_CRDS_INVALID"
    if hasUserInfo url then fail ("url " ++ credentials) "E_MANIFEST_CRDS_INVALID"
  if let some (.selector selector) := dependency.crds then
    let separated := String.ofList (selector.toList.map fun c => if c = '\\' then '/' else c)
    if selector = "" ∨ Text.startsWith selector "/" ∨ Text.startsWith selector "\\" ∨
        ".." ∈ Text.split separated '/' then
      fail ("`crds` value `" ++ selector ++
        "` must be a relative path inside the source (no leading `/`, no `..`)")
        "E_MANIFEST_CRDS_INVALID"
  if let some repo := dependency.repo then
    if dependency.chart = none then
      fail "helm-repo dep requires a `chart`" "E_MANIFEST_HELM_MISSING_CHART"
    if dependency.version = none then
      fail "helm-repo dep requires a `version`" "E_MANIFEST_HELM_MISSING_VERSION"
    if hasUserInfo repo then fail ("repo URL " ++ credentials) "E_MANIFEST_HELM_USERINFO"
    let chart := dependency.chart.getD ""
    if Text.includes chart '/' || Text.includes chart '\\' || (Text.cut chart "..").isSome then
      fail ("`chart` value `" ++ chart ++
        "` must be a plain chart name (no path separators or `..`)") "E_MANIFEST_HELM_CHART_INVALID"

def isWordChar (c : Char) : Bool := c.isAlphanum || c == '_'

/-- ASCII alphanumerics, `-` and `_`, not starting with `-`. -/
def isValidPackageName (name : String) : Bool :=
  match name.toList with
  | [] => false
  | c :: cs => isWordChar c && cs.all fun d => isWordChar d || d == '-'

/-- The KCL identifier a dependency key imports as: `name.replace(/[^A-Za-z0-9_]/g, "_")`, code unit by
    code unit, with a `_` before a leading digit. -/
def kclIdent (name : String) : String :=
  let ident := String.ofList (name.toList.flatMap fun c =>
    if isWordChar c then [c] else List.replicate (Text.utf16 c).length '_')
  if (ident.toList.headD '_').isDigit then "_" ++ ident else ident

/-- The manifest in a document, if it is one and its entries are valid. -/
def validateManifest (P : Platform) (raw : Value) (path : FilePath) : Except ManifestInvalid Manifest :=
  let invalid (message : String) (code : String := "E_MANIFEST_PARSE") : ManifestInvalid :=
    { path, code, message }
  match decodeManifest raw with
  | none => .error (invalid ("toml parse error: " ++ P.schemaIssue raw))
  | some manifest =>
    if !Text.startsWith manifest.package.edition "akua.dev/" then
      .error (invalid ("[package].edition must start with `akua.dev/`, got `" ++
        manifest.package.edition ++ "`"))
    else if !isValidPackageName manifest.package.name then
      .error (invalid ("[package].name must be a valid KCL identifier, got `" ++
        manifest.package.name ++ "`"))
    else do
      let _ ← forEach (fun entry : String × Dependency =>
        (validateDependency entry.1 entry.2).mapError fun problem =>
          invalid problem.message problem.code) (dependencies manifest)
      .ok manifest

/-- Parse and validate `akua.toml` text; `path` names the file in errors. -/
def parseManifest (P : Platform) (text : String) (path : FilePath) : Except ManifestInvalid Manifest :=
  match P.parseToml text with
  | .error cause =>
    .error { path, code := "E_MANIFEST_PARSE", message := "toml parse error: " ++ cause }
  | .ok raw => validateManifest P raw path

/-! ### Writing -/

def CrdsField.toml : CrdsField → TomlItem
  | .bool value => .bool value
  | .selector value => .string value

/-- The fields of a dependency as they are written. -/
def Dependency.toml (dependency : Dependency) : TomlEntries :=
  TomlItem.some? "oci" (dependency.oci.map .string) ++
  TomlItem.some? "git" (dependency.git.map .string) ++
  TomlItem.some? "path" (dependency.path.map .string) ++
  TomlItem.some? "repo" (dependency.repo.map .string) ++
  TomlItem.some? "chart" (dependency.chart.map .string) ++
  TomlItem.some? "url" (dependency.url.map .string) ++
  TomlItem.some? "version" (dependency.version.map .string) ++
  TomlItem.some? "tag" (dependency.tag.map .string) ++
  TomlItem.some? "rev" (dependency.rev.map .string) ++
  TomlItem.some? "crds" (dependency.crds.map CrdsField.toml) ++
  TomlItem.some? "replace" (dependency.replace.map fun path => .table [("path", .string path)])

def Signing.toml (signing : Signing) : TomlEntries :=
  TomlItem.some? "cosign_public_key" (signing.cosign_public_key.map .string) ++
  TomlItem.some? "cosign_private_key" (signing.cosign_private_key.map .string)

def PackageTable.toml (package : PackageTable) : TomlEntries :=
  [("name", .string package.name), ("version", .string package.version),
   ("edition", .string package.edition)] ++
  -- Written only when set: the default depends on `[signing]`.
  TomlItem.some? "strict_signing" (package.strict_signing.map .bool)

/-- `akua.toml` as it is rewritten: known fields only, in field order, dependencies alphabetical. -/
def formatManifest (manifest : Manifest) : String :=
  toToml
    ([("package", .table manifest.package.toml)] ++
    TomlItem.some? "workspace" (manifest.workspace.map fun members =>
      .table [("members", .value (.strings (members.getD [])))]) ++
    TomlItem.some? "signing" (manifest.signing.map fun signing => .table signing.toml) ++
    [("dependencies", .table ((dependencies manifest).map fun declared =>
      (declared.1, .table declared.2.toml)))])

end Akua
