import Akua.Archive
import Akua.Workspace

/-! The published form of a Package: a gzipped tarball of the workspace, then of each vendored
    dependency under `.akua/vendor/<name>/` and of the generated CRD schemas. `akua.toml` loses every
    `replace` directive; entries are sorted and carry no times or owners. -/

namespace Akua

variable (P : Platform)

structure PackageTarError where
  message : String
deriving DecidableEq

def tarIo (path : FilePath) (error : PlatformError) : PackageTarError :=
  ⟨"i/o at `" ++ FilePath.toString path ++ "`: " ++ osMessage error⟩

/-- `0o755` for a file any execute bit is set on, else `0o644`. -/
def modeOf (mode : Nat) : Nat := if mode &&& 0o111 ≠ 0 then 0o755 else 0o644

/-- `akua.toml` without the overrides. -/
def withoutReplace (manifest : Manifest) : Manifest :=
  { manifest with
    dependencies := some (manifest.declared.mapValues fun _ dependency =>
      { dependency with replace := none }) }

/-- Where a file of a vendored tree stands in the archive. -/
def vendoredPath (name file : String) : String := VENDOR_DIR ++ "/" ++ name ++ "/" ++ file

section Disk

variable {φ : Type} [FileSystem φ]

open FileSystem

def readTarFile (file : FilePath) (path : String) : Reading φ PackageTarError TarFile := do
  let data ← (readFile file).mapError (tarIo file)
  let info ← (stat file).mapError (tarIo file)
  pure { path, data, mode := modeOf info.mode }

/-- `akua.toml` with every dependency's `replace` dropped. -/
def publishedManifest (file : FilePath) : Reading φ PackageTarError Bytes := do
  let text ← (readFileString P file).mapError (tarIo file)
  let manifest ← Reading.ofExcept ((parseManifest P text file).mapError fun error =>
    ⟨"akua.toml at `" ++ FilePath.toString file ++
      "` could not be parsed/re-serialized for publish: " ++ error.message⟩)
  pure (encodeText (formatManifest (withoutReplace manifest)))

/-- One file of the workspace itself. -/
def workspaceTarFile (root : FilePath) (file : String) : Reading φ PackageTarError TarFile :=
  if file = "akua.toml" then do
    let data ← publishedManifest P (FilePath.join root "akua.toml")
    pure { path := file, data, mode := 0o644 }
  else readTarFile (FilePath.join root file) file

/-- The files of a directory that go into the archive, each at the path `name` gives it. -/
def treeTarFiles (directory : FilePath) (name : String → String) :
    Reading φ PackageTarError (List TarFile) := do
  let files ← (collectFiles directory fun _ => true).mapError (tarIo directory)
  forEach (fun file => readTarFile (FilePath.join directory file) (name file)) files

/-- The consumer's own inputs stay out, as hidden files do. -/
def isPublished (name : String) : Bool := !Text.startsWith name "." && name ≠ "inputs.yaml"

/-- What the archive of the workspace at `root` holds, in order. -/
def packedFiles (root : FilePath) (vendored : List VendorTree) :
    Reading φ PackageTarError (List TarFile) := do
  let directory ← isDirectory root
  if !directory then
    .fail ⟨"workspace root `" ++ FilePath.toString root ++ "` is not a directory"⟩
  else
    let present ← (fileExists (FilePath.join root "akua.toml")).orElseSucceed false
    if !present then .fail ⟨"akua.toml missing under `" ++ FilePath.toString root ++ "`"⟩
    else
      let workspaceFiles ← (collectFiles root isPublished).mapError (tarIo root)
      let files ← forEach (workspaceTarFile P root) workspaceFiles
      let vendorFiles ← forEach (fun tree : VendorTree =>
        treeTarFiles tree.directory (vendoredPath tree.name)) vendored
      let crdFiles ← treeTarFiles (FilePath.join root CRDS_DIR) fun file => CRDS_DIR ++ "/" ++ file
      pure (files ++ (vendorFiles.flatten ++ crdFiles).insertionSort fun a b =>
        comparePaths a.path b.path)

/-- Pack the workspace at `root`, embedding each vendored dependency tree. -/
def packWorkspace (root : FilePath) (vendored : List VendorTree) : Reading φ PackageTarError Bytes := do
  let files ← packedFiles P root vendored
  pure (gzip P (tar files))

variable {P}

theorem readTarFile_ok {file : FilePath} {path : String} {fs : φ} {entry : TarFile}
    (h : readTarFile file path fs = .ok entry) :
    entry.path = path ∧ readFile file fs = .ok entry.data := by
  obtain ⟨data, hdata, h⟩ := Reading.bind_ok.mp h
  obtain ⟨info, -, h⟩ := Reading.bind_ok.mp h
  cases h
  exact ⟨rfl, Reading.mapError_ok.mp hdata⟩

/-- A packed tree is the files of its directory, each at the path it is given. -/
theorem treeTarFiles_ok {directory : FilePath} {name : String → String} {fs : φ} {entries : List TarFile}
    (h : treeTarFiles directory name fs = .ok entries) :
    ∃ files, collectFiles directory (fun _ => true) skippedName fs = .ok files ∧
      List.Forall₂ (fun file entry => entry.path = name file ∧
        readFile (FilePath.join directory file) fs = .ok entry.data) files entries := by
  obtain ⟨files, hfiles, h⟩ := Reading.bind_ok.mp h
  exact ⟨files, Reading.mapError_ok.mp hfiles,
    (Reading.forEach_ok.mp h).imp fun _ _ hentry => readTarFile_ok hentry⟩

/-- The archive is the workspace's own files, then the trees it carries and the schemas, sorted. -/
theorem packedFiles_ok {root : FilePath} {vendored : List VendorTree} {fs : φ} {entries : List TarFile}
    (h : packedFiles P root vendored fs = .ok entries) :
    ∃ names files trees schemas,
      collectFiles root isPublished skippedName fs = .ok names ∧
      List.Forall₂ (fun name file => workspaceTarFile P root name fs = .ok file) names files ∧
      List.Forall₂ (fun tree packed =>
        treeTarFiles tree.directory (vendoredPath tree.name) fs = .ok packed) vendored trees ∧
      treeTarFiles (FilePath.join root CRDS_DIR) (fun file => CRDS_DIR ++ "/" ++ file) fs = .ok schemas ∧
      entries = files ++ (trees.flatten ++ schemas).insertionSort fun a b =>
        comparePaths a.path b.path := by
  obtain ⟨directory, -, h⟩ := Reading.bind_ok.mp h
  cases directory with
  | false => cases h
  | true =>
    obtain ⟨present, -, h⟩ := Reading.bind_ok.mp h
    cases present with
    | false => cases h
    | true =>
      obtain ⟨names, hnames, h⟩ := Reading.bind_ok.mp h
      obtain ⟨files, hfiles, h⟩ := Reading.bind_ok.mp h
      obtain ⟨trees, htrees, h⟩ := Reading.bind_ok.mp h
      obtain ⟨schemas, hschemas, h⟩ := Reading.bind_ok.mp h
      cases h
      exact ⟨names, files, trees, schemas, Reading.mapError_ok.mp hnames,
        Reading.forEach_ok.mp hfiles, Reading.forEach_ok.mp htrees, hschemas, rfl⟩

/-- Each file of a tree it carries is in the archive, at its vendored path. -/
theorem exists_packed {root : FilePath} {vendored : List VendorTree} {tree : VendorTree} {fs : φ}
    {entries : List TarFile} (h : packedFiles P root vendored fs = .ok entries)
    (htree : tree ∈ vendored) :
    ∃ files, collectFiles tree.directory (fun _ => true) skippedName fs = .ok files ∧
      ∀ file ∈ files, ∃ entry ∈ entries, entry.path = vendoredPath tree.name file := by
  obtain ⟨_, _, trees, schemas, -, -, htrees, -, rfl⟩ := packedFiles_ok h
  obtain ⟨packed, hpacked, hok⟩ := exists_of_forall₂ htrees htree
  obtain ⟨files, hfiles, hentries⟩ := treeTarFiles_ok hok
  refine ⟨files, hfiles, fun file hfile => ?_⟩
  obtain ⟨entry, hentry, hpath, -⟩ := exists_of_forall₂ hentries hfile
  refine ⟨entry, List.mem_append_right _ ?_, hpath⟩
  rw [List.mem_insertionSort]
  exact List.mem_append_left _ (List.mem_flatten.mpr ⟨packed, hpacked, hentry⟩)

variable (P)

/-- Write one entry of an archive. -/
def unpackEntry (target : FilePath) (entry : ArchiveEntry) : Run φ PackageTarError Unit := do
  let file := FilePath.join target entry.path
  Effect.mapError (tarIo file) do
    Run.makeDirectory (FilePath.dirname file)
    Run.writeFile file entry.data

/-- Unpack a packed Package into `target`, overwriting what is there; paths outside it are
    refused. -/
def unpackTarball (tarGz : Bytes) (target : FilePath) : Run φ PackageTarError Unit := do
  let entries ← Effect.ofExcept ((gunzip P tarGz >>= untar P).mapError fun message =>
    ⟨"i/o at `" ++ FilePath.toString target ++ "`: " ++ message⟩)
  (Run.makeDirectory target).mapError (tarIo target)
  let _ ← forEach (unpackEntry target) entries
  pure ()

end Disk

end Akua
