import Akua.Manifest
import Akua.Snapshot
import Akua.TomlWrite

/-! The generated CRD schemas a Package keeps beside its manifest: `.akua/crds/` has one directory
    per CRD dependency, with a `source.toml` naming what it was generated from. -/

namespace Akua

variable (P : Platform)

def CRDS_DIR : String := ".akua/crds"
def PROVENANCE_FILE : String := "source.toml"
def CRDS_KCL_MOD : String :=
  "[package]\nname = \"crds\"\nedition = \"0.0.1\"\nversion = \"0.0.1\"\n"
def CRD_CONVERTER_VERSION : String := "1"

structure Provenance where
  dependency : String
  /-- The source as `akua.lock` records it. -/
  source : String
  /-- The version as `akua.lock` records it. -/
  version : String
  /-- The `crds` selector. -/
  crds : String
  digest : String
  converter : String
deriving DecidableEq

open Value in
def Provenance.decode (raw : Value) : Option Provenance := do
  let dependency ← required asString "dependency" raw
  let source ← required asString "source" raw
  let version ← required asString "version" raw
  let crds ← required asString "crds" raw
  let digest ← required asString "digest" raw
  let converter ← required asString "converter" raw
  some { dependency, source, version, crds, digest, converter }

def provenanceToml (provenance : Provenance) : String :=
  "# Generated by akuapkg from the CustomResourceDefinitions of a dependency. Do not edit:\n" ++
  "# `akuapkg lock` regenerates this directory.\n\n" ++
  toToml [("dependency", .string provenance.dependency), ("source", .string provenance.source),
    ("version", .string provenance.version), ("crds", .string provenance.crds),
    ("digest", .string provenance.digest), ("converter", .string provenance.converter)]

/-- The directory of a dependency's generated schemas. -/
def crdsDirectory (workspace : FilePath) (dependency : String) : FilePath :=
  FilePath.join (FilePath.join workspace CRDS_DIR) (kclIdent dependency)

structure GeneratedTree where
  directory : FilePath
  files : Snapshot
  provenance : Provenance

/-- `source.toml` of a generated directory. -/
def readProvenance (directory : FilePath) (files : Snapshot) : Except Failure Provenance :=
  let invalid (message : String) : Failure :=
    .crdsInvalid (FilePath.toString directory ++ "/" ++ PROVENANCE_FILE ++ ": " ++ message)
  match P.parseToml (decodeText P ((files.get? PROVENANCE_FILE).getD [])) with
  | .error message => .error (invalid message)
  | .ok raw =>
    match Provenance.decode raw with
    | some provenance => .ok provenance
    | none => .error (invalid (P.schemaIssue raw))

/-- One dependency's tree to write: the generated schemas and where they came from. -/
structure GeneratedCrds where
  dependency : String
  files : Snapshot
  source : String
  version : String
  crds : String
  digest : String

/-- A dependency's directory as written: its schemas and `source.toml`. -/
def withProvenance (tree : GeneratedCrds) : Snapshot :=
  tree.files.set PROVENANCE_FILE (encodeText (provenanceToml
    { dependency := tree.dependency, source := tree.source, version := tree.version,
      crds := tree.crds, digest := tree.digest, converter := CRD_CONVERTER_VERSION }))

/-- The digest `akua.lock` records for a dependency's generated directory. -/
def generatedCrdsDigest (tree : GeneratedCrds) : String := treeDigest P (withProvenance tree)

section Disk

variable {φ : Type} [FileSystem φ]

open FileSystem

/-- A dependency's generated directory, if one exists. A directory without a readable `source.toml`
    is not a generated tree and is ignored. -/
def readGeneratedCrds (workspace : FilePath) (dependency : String) :
    Reading φ Failure (Option GeneratedTree) := do
  let directory := crdsDirectory workspace dependency
  let present ← (fileExists (FilePath.join directory PROVENANCE_FILE)).orElseSucceed false
  if !present then pure none
  else
    let files ← loadSnapshot directory
    let provenance ← Reading.ofExcept (readProvenance P directory files)
    pure (some { directory, files, provenance })

/-- Whether `directory` is a generated tree, recognised by its `source.toml`. -/
def isGenerated {ε : Type} (directory : FilePath) : Reading φ ε Bool :=
  Reading.orElseSucceed
    ((fun info => info.type = .file) <$> stat (FilePath.join directory PROVENANCE_FILE)) false

end Disk

end Akua
