import Akua.Host
import Mathlib.Data.List.Sort

/-! Directory trees: the walk that lists one, the in-memory copy a render reads, and the digests
    they are pinned by. A snapshot is the escape boundary: an entry whose real path lies outside
    the directory fails the load. -/

namespace Akua

variable {φ : Type} [FileSystem φ]

open FileSystem

/-- An operating system failure, as a verb's. -/
def platform {α : Type} (m : Reading φ PlatformError α) : Reading φ Failure α :=
  m.mapError .platform

/-! ### The walk -/

def SKIPPED : List String := ["deploy", "rendered", "out", "target", "node_modules", "dist"]

/-- Entry names a walk never enters or returns. -/
def skippedName (name : String) : Bool := Text.startsWith name "." || name ∈ SKIPPED

/-- Component lists in order, the shorter first. -/
def componentsAtMost : List String → List String → Bool
  | [], _ => true
  | _ :: _, [] => false
  | a :: as, b :: bs => if a = b then componentsAtMost as bs else Text.less a b

/-- `comparePaths(a, b) <= 0`: relative POSIX paths ordered component by component. -/
def comparePaths (a b : String) : Bool := componentsAtMost (Text.split a '/') (Text.split b '/')

def sortPaths (paths : List String) : List String :=
  paths.insertionSort fun a b => comparePaths a b

/-- The longest path the operating system takes: a walk below it fails. -/
def PATH_MAX : Nat := 4096

/-- The files under `relative`. A symlink resolves somewhere other than where it is listed, or
    nowhere, and is skipped. -/
def walk (root : FilePath) (keep skip : String → Bool) : Nat → String →
    Reading φ PlatformError (List String)
  | 0, _ => .fail ⟨.other, "File name too long"⟩
  | depth + 1, relative => do
    let directory := if relative = "" then root else FilePath.join root relative
    let realDirectory ← realPath directory
    let names ← readDirectory directory
    let found ← forEach (fun name => do
      if skip name then pure []
      else
        let real ← (realPath (FilePath.join directory name)).option
        if real ≠ some (FilePath.join realDirectory name) then pure []
        else
          let entry := if relative = "" then name else relative ++ "/" ++ name
          let info ← stat (FilePath.join realDirectory name)
          match info.type with
          | .directory => walk root keep skip depth entry
          | .file => pure (if keep name then [entry] else [])
          | .other => pure []) names
    pure found.flatten

/-- Every regular file under `root` whose name `keep` accepts, relative to `root`, sorted. A missing
    root has no files. `skip` names entries never entered or returned. -/
def collectFiles (root : FilePath) (keep : String → Bool) (skip : String → Bool := skippedName) :
    Reading φ PlatformError (List String) := do
  if !(← fileExists root) then pure []
  else
    let found ← walk root keep skip PATH_MAX ""
    pure (sortPaths found)

/-! ### Snapshots -/

/-- A directory's files, by path relative to it. -/
abbrev Snapshot := Table String Bytes

/-- Add the entry `rel` of `root` to `files`, if it is a file. -/
def loadEntry (root realRoot : FilePath) (files : Snapshot) (rel : String) :
    Reading φ Failure Snapshot := do
  let real ← platform (realPath (FilePath.join root rel))
  if ¬ FilePath.Within realRoot real then .fail (.pathEscape ⟨rel⟩)
  else
    let info ← platform (stat real)
    if info.type = .file then
      let data ← platform (readFile real)
      pure (files.set rel data)
    else pure files

/-- Read a Package directory into memory. -/
def loadSnapshot (root : FilePath) : Reading φ Failure Snapshot := do
  let realRoot ← platform (realPath root)
  let entries ← platform (readDirectoryRecursive root)
  (Text.sorted entries).foldlM (loadEntry root realRoot) Table.empty

/-! ### Digests -/

/-- A file as a tree digest takes it: `<path>\0<bytes>\n`. -/
def fileStream (name : String) (data : Bytes) : Bytes := encodeText name ++ 0 :: data ++ [10]

/-- What `treeDigest` hashes: every file, sorted by path. -/
def treeStream (files : Snapshot) : Bytes :=
  (sortPaths files.keys).flatMap fun name => fileStream name ((files.get? name).getD [])

variable (P : Platform)

def treeDigest (files : Snapshot) : String := sha256 P (treeStream files)

/-- The digest of the regular files under `root`, symlinks skipped, and their total size. -/
def hashDirectory (root : FilePath) : Reading φ PlatformError (String × Nat) := do
  let files ← collectFiles root (fun _ => true) (fun _ => false)
  let contents ← forEach (fun file => readFile (FilePath.join root file)) files
  let stream := (files.zip contents).flatMap fun f => fileStream f.1 f.2
  pure (sha256 P stream, contents.foldl (fun size data => size + data.length) 0)

/-! ### What a snapshot holds -/

/-- The content of the entry `rel` of `root`, none when it is no file. -/
def fileOf (root realRoot : FilePath) (rel : String) : Reading φ Failure (Option Bytes) := do
  let real ← platform (realPath (FilePath.join root rel))
  if ¬ FilePath.Within realRoot real then .fail (.pathEscape ⟨rel⟩)
  else
    let info ← platform (stat real)
    if info.type = .file then some <$> platform (readFile real) else pure none

/-- Keep the content of an entry that is a file. -/
def keepFile (files : Snapshot) (rel : String) : Option Bytes → Snapshot
  | some data => files.set rel data
  | none => files

theorem loadEntry_eq (root realRoot : FilePath) (files : Snapshot) (rel : String) (fs : φ) :
    loadEntry root realRoot files rel fs = (fileOf root realRoot rel fs).map (keepFile files rel) := by
  unfold loadEntry fileOf
  rcases hreal : platform (realPath (FilePath.join root rel)) fs with e | real
  · rw [Reading.bind_of_error hreal, Reading.bind_of_error hreal]
    rfl
  rw [Reading.bind_of_ok hreal, Reading.bind_of_ok hreal]
  split
  · rfl
  rcases hinfo : platform (stat real) fs with e | info
  · rw [Reading.bind_of_error hinfo, Reading.bind_of_error hinfo]
    rfl
  rw [Reading.bind_of_ok hinfo, Reading.bind_of_ok hinfo]
  split
  · rw [Reading.map_run]
    rcases hdata : platform (readFile real) fs with e | data
    · rw [Reading.bind_of_error hdata]
      rfl
    · rw [Reading.bind_of_ok hdata]
      rfl
  · rfl

/-- Loading entries one by one gives each file its content. -/
theorem foldlM_loadEntry {root realRoot : FilePath} {fs : φ} (content : String → Option Bytes) :
    ∀ {entries : List String} (files : Snapshot),
      (∀ rel ∈ entries, fileOf root realRoot rel fs = .ok (content rel)) →
      ∃ out, entries.foldlM (loadEntry root realRoot) files fs = .ok out ∧
        ∀ key, out.get? key = if key ∈ entries ∧ (content key).isSome then content key
          else files.get? key := by
  intro entries
  induction entries with
  | nil => intro files _; exact ⟨files, rfl, fun key => by simp⟩
  | cons rel entries ih =>
    intro files h
    have hfirst : loadEntry root realRoot files rel fs = .ok (keepFile files rel (content rel)) := by
      rw [loadEntry_eq, h rel List.mem_cons_self]
      rfl
    obtain ⟨out, hout, hget⟩ := ih (keepFile files rel (content rel))
      fun rel' hrel' => h rel' (List.mem_cons_of_mem _ hrel')
    refine ⟨out, ?_, fun key => ?_⟩
    · rw [List.foldlM_cons, Reading.bind_of_ok hfirst, hout]
    · rw [hget key]
      by_cases hkey : key = rel
      · subst hkey
        rcases hc : content key with _ | data
        · simp [keepFile]
        · simp [keepFile]
      · have hkeep : (keepFile files rel (content rel)).get? key = files.get? key := by
          rcases content rel with _ | data
          · rfl
          · simp [keepFile, hkey]
        rw [hkeep]
        simp [hkey]

/-- A load that succeeds read every entry. -/
theorem fileOf_of_foldlM {root realRoot : FilePath} {fs : φ} :
    ∀ {entries : List String} {files out : Snapshot},
      entries.foldlM (loadEntry root realRoot) files fs = .ok out →
      ∀ rel ∈ entries, ∃ content, fileOf root realRoot rel fs = .ok content := by
  intro entries
  induction entries with
  | nil => intro files out _ rel hrel; cases hrel
  | cons first entries ih =>
    intro files out h rel hrel
    rw [List.foldlM_cons] at h
    obtain ⟨files', hfirst, h⟩ := Reading.bind_ok.mp h
    rcases List.mem_cons.mp hrel with rfl | hrel
    · rw [loadEntry_eq] at hfirst
      rcases hc : fileOf root realRoot rel fs with e | content
      · rw [hc] at hfirst; cases hfirst
      · exact ⟨content, rfl⟩
    · exact ih h rel hrel

end Akua
