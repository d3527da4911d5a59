import Akua.Workspace
import Akua.Lib.FaultyVolume
import Akua.Lib.Utf8

/-! The `remove` verb: it drops a dependency from `akua.toml`, then its entries from `akua.lock`, then
    its generated schemas, on a volume where reading, writing and removing can fail. -/

namespace Akua

variable (P : Platform) (workspace : FilePath) (name : String)

/-- The manifest that no longer declares `name`. -/
def Manifest.without (manifest : Manifest) : Manifest where
  package := manifest.package
  workspace := manifest.workspace
  signing := manifest.signing
  dependencies := some
    { entries := manifest.declared.entries.filter fun entry => entry.1 ≠ name
      nodup := manifest.declared.nodup.sublist (List.Sublist.map _ List.filter_sublist) }

/-- `manifest.dependencies?.[name] !== undefined`. -/
def Manifest.declares (manifest : Manifest) : Bool :=
  match manifest.dependencies with
  | none => false
  | some declared => (property declared name).isSome

/-- The lock without the entries of `name`. -/
def Lock.without (lock : Lock) : Lock :=
  { lock with package := some (lock.packages.filter fun entry => entry.name ≠ name) }

/-- Whether the lock has entries of `name`. -/
def Lock.lists (lock : Lock) : Bool :=
  (lock.packages.filter fun entry => entry.name ≠ name).length ≠ lock.packages.length

section Verb

variable {φ : Type} [FileSystem φ]

def saveManifest (manifest : Manifest) : Run φ Failure Unit :=
  (Run.writeFileString (manifestPath workspace) (formatManifest manifest)).mapError fun error =>
    cliFailure "E_IO" (osMessage error) .systemError (some (manifestPath workspace))

/-- Remove the root of the generated trees when nothing but its `kcl.mod` is left. -/
def clearRoot (root : FilePath) : Run φ PlatformError Unit := do
  let entries ← Run.read (FileSystem.readDirectory root)
  if entries.all (· = "kcl.mod") then Run.remove root else pure ()

/-- Remove a generated tree, and its root after it. -/
def clearGenerated (root directory : FilePath) : Run φ PlatformError Unit := do
  if ← Run.read (isGenerated directory) then
    Run.remove directory
    clearRoot root
  else pure ()

/-- Drop the generated schemas of dependency `name`, if there are any. -/
def removeGeneratedCrds : Run φ Failure Unit :=
  let directory := crdsDirectory workspace name
  (clearGenerated (FilePath.join workspace CRDS_DIR) directory).mapError fun error =>
    cliFailure "E_IO" (osMessage error) .systemError (some directory)

/-- Drop the entries of `name` from `akua.lock`, when there is one. -/
def pruneLock : Run φ Failure Unit := do
  match ← Run.read (loadLock P workspace) with
  | none => pure ()
  | some lock =>
    if lock.lists name then saveLock P workspace (lock.without name) else pure ()

/-- Whether there was a dependency to remove. -/
def remove (ignoreMissing : Bool) : Run φ Failure Bool := do
  let manifest ← Run.read ((loadManifest P workspace).mapError (manifestFailure none))
  if manifest.declares name then
    saveManifest workspace (manifest.without name)
    pruneLock P workspace name
    removeGeneratedCrds workspace name
    pure true
  else if ignoreMissing then pure false
  else
    Effect.fail (cliFailure "E_REMOVE_NOT_FOUND"
      ("dep `" ++ name ++ "` not present in akua.toml") .userError none
      (some "pass --ignore-missing to make this a no-op"))

end Verb

/-! ### What stands where -/

open FilePath

def crdsRoot : FilePath := FilePath.join workspace CRDS_DIR

variable {workspace name}

theorem manifestFile_eq : manifestFile workspace = normalize workspace ++ ["akua.toml"] :=
  join_name (by decide)

theorem lockFile_eq : lockFile workspace = normalize workspace ++ ["akua.lock"] := join_name (by decide)

theorem normalize_entry {entry : String} (h : Plain entry) :
    normalize (workspace ++ [entry]) = FilePath.join workspace entry := by
  rw [join_name h, FilePath.normalize, List.foldl_append, ← FilePath.normalize]
  exact push_plain h

theorem normalize_manifestPath : normalize (manifestPath workspace) = manifestFile workspace :=
  normalize_entry (by decide)

theorem normalize_lockPath : normalize (lockPath workspace) = lockFile workspace :=
  normalize_entry (by decide)

theorem crdsRoot_eq : crdsRoot workspace = normalize workspace ++ [".akua", "crds"] := by
  have hsplit : Text.split CRDS_DIR '/' = [".akua", "crds"] := by decide
  rw [crdsRoot, FilePath.join, hsplit, FilePath.normalize, List.foldl_append, ← FilePath.normalize]
  exact foldl_push_plain _ _ (by decide)

theorem manifestFile_ne_lockFile : manifestFile workspace ≠ lockFile workspace := by
  simp [manifestFile_eq, lockFile_eq]

theorem not_crds_manifestFile : ¬ crdsRoot workspace <+: manifestFile workspace := by
  intro hle
  have hlength := hle.length_le
  simp [crdsRoot_eq, manifestFile_eq] at hlength

theorem not_crds_lockFile : ¬ crdsRoot workspace <+: lockFile workspace := by
  intro hle
  have hlength := hle.length_le
  simp [crdsRoot_eq, lockFile_eq] at hlength

theorem kclIdent_plain (h : kclIdent name ≠ "") : Plain (kclIdent name) := by
  have hword : ∀ c ∈ (kclIdent name).toList, isWordChar c := by
    intro c hc
    have hident : ∀ c ∈ name.toList.flatMap fun c =>
        if isWordChar c then [c] else List.replicate (Text.utf16 c).length '_', isWordChar c := by
      intro c hc
      obtain ⟨d, -, hc⟩ := List.mem_flatMap.mp hc
      split at hc
      · rw [List.mem_singleton.mp hc]
        assumption
      · rw [List.eq_of_mem_replicate hc]
        decide
    simp only [kclIdent] at hc
    split at hc
    · rw [String.toList_append] at hc
      rcases List.mem_append.mp hc with hc | hc
      · rw [List.mem_singleton.mp hc]
        decide
      · exact hident c (by rwa [String.toList_ofList] at hc)
    · rw [String.toList_ofList] at hc
      exact hident c hc
  refine ⟨h, fun hdot => ?_, fun hdots => ?_, fun hslash => ?_⟩
  · exact absurd (hword '.' (by rw [hdot]; decide)) (by decide)
  · exact absurd (hword '.' (by rw [hdots]; decide)) (by decide)
  · exact absurd (hword '/' hslash) (by decide)

/-- A dependency's schemas stand one level down, and those of the empty name in the root itself. -/
theorem crdsDirectory_cases (workspace : FilePath) (name : String) :
    crdsDirectory workspace name = crdsRoot workspace ∨
    crdsDirectory workspace name = crdsRoot workspace ++ [kclIdent name] := by
  by_cases hempty : kclIdent name = ""
  · left
    rw [crdsDirectory, hempty, ← crdsRoot, FilePath.join, FilePath.normalize, List.foldl_append, ← FilePath.normalize,
      crdsRoot, normalize_join]
    rfl
  · right
    rw [crdsDirectory, ← crdsRoot, join_name (kclIdent_plain hempty), crdsRoot, normalize_join]

theorem crdsRoot_above : crdsRoot workspace <+: crdsDirectory workspace name := by
  rcases crdsDirectory_cases workspace name with heq | heq
  · rw [heq]
  · rw [heq]
    exact List.prefix_append _ _

theorem provenance_path (workspace : FilePath) (name : String) :
    FilePath.join (crdsDirectory workspace name) PROVENANCE_FILE =
    crdsDirectory workspace name ++ [PROVENANCE_FILE] := by
  rw [join_name (by decide), crdsDirectory, normalize_join]

/-! ### Clearing the generated schemas -/

section Faults

variable (workspace name)

/-- The clean-up goes through: there is nothing to clear, or clearing it is not refused, nor clearing
    the root when nothing else is left in it. -/
def Clears (s : FaultyVolume) : Prop :=
  s.SeesFile (crdsDirectory workspace name ++ [PROVENANCE_FILE]) →
    s.faults.stuck (crdsDirectory workspace name) = false ∧
      crdsDirectory workspace name ≠ crdsRoot workspace ∧
      s.faults.unreadable (crdsRoot workspace) = false ∧
      ((∀ entry, (s.at? (crdsRoot workspace ++ [entry])).isSome →
          crdsRoot workspace ++ [entry] = crdsDirectory workspace name ∨ entry = "kcl.mod") →
        s.faults.stuck (crdsRoot workspace) = false)

end Faults

open FaultyVolume

variable {s s' : FaultyVolume} {w : World FaultyVolume}

theorem Clears.congr (h : Same (crdsRoot workspace <+: ·) s s') :
    Clears workspace name s' ↔ Clears workspace name s := by
  have hunder : crdsRoot workspace <+: crdsDirectory workspace name ++ [PROVENANCE_FILE] :=
    crdsRoot_above.trans (List.prefix_append _ _)
  rw [Clears, Clears, h.seesFile hunder, h.faults]
  simp only [h.at? _ (List.prefix_append _ _)]

theorem isGenerated_run : (isGenerated (crdsDirectory workspace name) : Reading FaultyVolume PlatformError Bool) s =
    .ok true ↔ s.SeesFile (crdsDirectory workspace name ++ [PROVENANCE_FILE]) := by
  have hpath := provenance_path workspace name
  have hnormal : normalize (crdsDirectory workspace name ++ [PROVENANCE_FILE]) =
      crdsDirectory workspace name ++ [PROVENANCE_FILE] := by
    rw [← hpath, normalize_join]
  rw [← hnormal, seesFile_iff, ← hpath]
  simp only [isGenerated, Reading.orElseSucceed_run, Reading.map_run]
  rcases FileSystem.stat (FilePath.join (crdsDirectory workspace name) PROVENANCE_FILE) s with e | info <;>
    simp [Except.map, Except.toOption]

theorem Run.remove_run (path : FilePath) : (Run.remove path : Run FaultyVolume PlatformError Unit) w =
    ((FileSystem.remove path w.fs).1,
      { w with fs := (FileSystem.remove path w.fs).2, trace := .remove path :: w.trace }) := rfl

/-- The listing after the tree is gone has the root's other entries. -/
theorem at?_listed {root directory : FilePath} {entry : String}
    (hat : ∀ q, s'.at? q = if directory <+: q ∧ q ≠ [] then none else s.at? q)
    (hdirectory : directory = root ++ [kclIdent name]) :
    (s'.at? (root ++ [entry])).isSome ↔
      (s.at? (root ++ [entry])).isSome ∧ root ++ [entry] ≠ directory := by
  have hunder : directory <+: root ++ [entry] ↔ root ++ [entry] = directory := by
    rw [hdirectory, List.prefix_append_right_inj]
    simp [List.cons_prefix_cons, eq_comm]
  have hne : root ++ [entry] ≠ [] := by simp
  simp only [hat, hunder]
  by_cases heq : root ++ [entry] = directory
  · rw [if_pos ⟨heq, hne⟩]
    simp [heq]
  · rw [if_neg fun h => heq h.1]
    simp [heq]

/-- With the tree gone, the root is cleared unless it is refused, and nothing outside it changes. -/
theorem clearRoot_run (hfaults : w.fs.faults = s.faults)
    (hthere : s.at? (crdsDirectory workspace name) = some .directory)
    (hat : ∀ q, w.fs.at? q = if crdsDirectory workspace name <+: q ∧ q ≠ [] then none else s.at? q) :
    ((clearRoot (crdsRoot workspace) w).1 = .ok () ↔
        crdsDirectory workspace name ≠ crdsRoot workspace ∧
          s.faults.unreadable (crdsRoot workspace) = false ∧
          ((∀ entry, (s.at? (crdsRoot workspace ++ [entry])).isSome →
              crdsRoot workspace ++ [entry] = crdsDirectory workspace name ∨ entry = "kcl.mod") →
            s.faults.stuck (crdsRoot workspace) = false)) ∧
      Same (fun q => ¬ crdsRoot workspace <+: q) w.fs (clearRoot (crdsRoot workspace) w).2.fs := by
  generalize hout : clearRoot (crdsRoot workspace) w = out
  have hroot : normalize (crdsRoot workspace) = crdsRoot workspace := normalize_join _ _
  have hne : crdsRoot workspace ≠ [] := by simp [crdsRoot_eq]
  rw [clearRoot] at hout
  by_cases hempty : crdsDirectory workspace name = crdsRoot workspace
  · -- the root went with the tree
    have hnone : w.fs.at? (crdsRoot workspace) = none := by
      rw [hat, hempty, if_pos ⟨List.prefix_rfl, hne⟩]
    obtain ⟨e, hlist⟩ := readDirectory_error (s := w.fs) (crdsRoot workspace)
      (.inr (by rw [hroot, hnone]))
    rw [Run.read_bind_of_error hlist] at hout
    subst hout
    exact ⟨by simp [hempty], ⟨rfl, fun _ _ => rfl⟩⟩
  · have hdirectory := (crdsDirectory_cases workspace name).resolve_left hempty
    by_cases hlook : s.faults.unreadable (crdsRoot workspace)
    · obtain ⟨e, hlist⟩ := readDirectory_error (s := w.fs) (crdsRoot workspace)
        (.inl (by rw [hroot, hfaults, hlook]))
      rw [Run.read_bind_of_error hlist] at hout
      subst hout
      exact ⟨by simp [hlook], ⟨rfl, fun _ _ => rfl⟩⟩
    · have hlook : s.faults.unreadable (crdsRoot workspace) = false := by simpa using hlook
      have hrootat : w.fs.at? (crdsRoot workspace) = some .directory := by
        have hlonger : ¬ crdsDirectory workspace name <+: crdsRoot workspace := fun hle => by
          have hlength := hle.length_le
          rw [hdirectory, List.length_append, List.length_singleton] at hlength
          omega
        rw [hat, if_neg fun hle => hlonger hle.1]
        rw [hdirectory] at hthere
        exact Volume.directory_of_entry hthere
      obtain ⟨names, hlist, hnames⟩ := readDirectory_run (s := w.fs) (crdsRoot workspace)
        (by rw [hroot, hfaults, hlook]) (by rw [hroot, hrootat])
      rw [hroot] at hnames
      have hall : names.all (· = "kcl.mod") = true ↔
          ∀ entry, (s.at? (crdsRoot workspace ++ [entry])).isSome →
            crdsRoot workspace ++ [entry] = crdsDirectory workspace name ∨ entry = "kcl.mod" := by
        rw [List.all_eq_true]
        refine forall_congr' fun entry => ?_
        rw [hnames, at?_listed hat hdirectory, decide_eq_true_eq, and_imp, or_iff_not_imp_left]
      rw [Run.read_bind_of_ok hlist] at hout
      by_cases hothers : names.all (· = "kcl.mod") = true
      · obtain ⟨s₂, hremove, hsame, -⟩ := FaultyVolume.remove_run (s := w.fs) (crdsRoot workspace)
          (by rw [hroot, hrootat]; rfl)
        rw [hroot] at hremove hsame
        rw [if_pos hothers, Run.remove_run, hremove] at hout
        subst hout
        refine ⟨?_, hsame⟩
        rw [hfaults]
        constructor
        · intro hok
          refine ⟨hempty, hlook, fun _ => ?_⟩
          by_contra hstuck
          rw [if_pos (by simpa using hstuck)] at hok
          cases hok
        · rintro ⟨-, -, hclear⟩
          rw [hclear (hall.mp hothers)]
          rfl
      · rw [if_neg hothers] at hout
        subst hout
        refine ⟨?_, ⟨rfl, fun _ _ => rfl⟩⟩
        exact iff_of_true rfl ⟨hempty, hlook, fun hclear => absurd (hall.mpr hclear) hothers⟩

/-- The clean-up succeeds where it clears, and leaves what is not under its root as it was. -/
theorem clearGenerated_run :
    ((clearGenerated (crdsRoot workspace) (crdsDirectory workspace name) w).1 = .ok () ↔
        Clears workspace name w.fs) ∧
      Same (fun q => ¬ crdsRoot workspace <+: q) w.fs
        (clearGenerated (crdsRoot workspace) (crdsDirectory workspace name) w).2.fs := by
  generalize hout : clearGenerated (crdsRoot workspace) (crdsDirectory workspace name) w = out
  have hnormal : normalize (crdsDirectory workspace name) = crdsDirectory workspace name := normalize_join _ _
  have hunder : crdsRoot workspace <+: crdsDirectory workspace name := crdsRoot_above
  rw [clearGenerated] at hout
  by_cases hfile : w.fs.SeesFile (crdsDirectory workspace name ++ [PROVENANCE_FILE])
  · rw [Run.read_bind_of_ok (isGenerated_run.mpr hfile), if_pos rfl] at hout
    -- the tree is there, and is removed
    obtain ⟨data, hdata⟩ := Option.isSome_iff_exists.mp hfile.2
    have hthere : w.fs.at? (crdsDirectory workspace name) = some .directory := by
      unfold FaultyVolume.data? Volume.data? at hdata
      split at hdata <;> cases hdata
      exact Volume.directory_of_entry ‹_›
    obtain ⟨s₁, hremove, hsame, hat⟩ := FaultyVolume.remove_run (s := w.fs) (crdsDirectory workspace name)
      (by rw [hnormal, hthere]; rfl)
    rw [hnormal] at hremove hsame hat
    have hkept : Same (fun q => ¬ crdsRoot workspace <+: q) w.fs s₁ :=
      hsame.mono fun q hq hle => hq (hunder.trans hle)
    by_cases hstuck : w.fs.faults.stuck (crdsDirectory workspace name)
    · rw [if_pos hstuck] at hremove
      rw [Effect.bind_of_error (by rw [Run.remove_run, hremove])] at hout
      subst hout
      exact ⟨by simp [Clears, hfile, hstuck], hkept⟩
    · rw [if_neg hstuck] at hremove
      rw [Effect.bind_of_ok (by rw [Run.remove_run, hremove])] at hout
      obtain ⟨hok, hrest⟩ := clearRoot_run
        (w := { w with fs := s₁, trace := .remove (crdsDirectory workspace name) :: w.trace })
        hsame.faults hthere (hat (by simpa using hstuck))
      subst hout
      refine ⟨hok.trans ?_, hkept.trans hrest⟩
      simp [Clears, hfile, hstuck]
  · have hnot : isGenerated (crdsDirectory workspace name) w.fs = (.ok false : Except PlatformError Bool) := by
      rcases hrun : (isGenerated (crdsDirectory workspace name) w.fs : Except PlatformError Bool) with e | _ | _
      · cases hrun
      · rfl
      · exact absurd (isGenerated_run.mp hrun) hfile
    rw [Run.read_bind_of_ok hnot] at hout
    subst hout
    exact ⟨by simp [Clears, hfile], ⟨rfl, fun _ _ => rfl⟩⟩

theorem mapError_fst {σ ε ε' α : Type} {g : ε → ε'} {m : Effect σ ε α} {s : σ} {a : α} :
    (Effect.mapError g m s).1 = .ok a ↔ (m s).1 = .ok a := by
  unfold Effect.mapError
  rcases (m s).1 with e | b <;> simp [Except.mapError]

theorem removeGeneratedCrds_run (workspace : FilePath) (name : String) (w : World FaultyVolume) :
    ((removeGeneratedCrds workspace name w).1 = .ok () ↔ Clears workspace name w.fs) ∧
      Same (fun q => ¬ crdsRoot workspace <+: q) w.fs (removeGeneratedCrds workspace name w).2.fs :=
  ⟨mapError_fst.trans clearGenerated_run.1, clearGenerated_run.2⟩

/-! ### Rewriting the two files -/

/-- Saving over a file goes through where writing does, and changes that file alone. -/
theorem save_run {path : FilePath} {old : Bytes} (text : String) (g : PlatformError → Failure)
    (h : w.fs.data? (normalize path) = some old) :
    ((Effect.mapError g (Run.writeFileString path text) w).1 = .ok () ↔
        w.fs.faults.torn (normalize path) = none) ∧
      Same (· ≠ normalize path) w.fs (Effect.mapError g (Run.writeFileString path text) w).2.fs ∧
      (Effect.mapError g (Run.writeFileString path text) w).2.fs.data? (normalize path) =
        some (w.fs.faults.leaves (normalize path) (encodeText text) old) := by
  obtain ⟨s₁, hwrite, hsame, hdata⟩ := writeFile_run (encodeText text) h
  have hrun : (Run.writeFileString path text : Run FaultyVolume PlatformError Unit) w =
      ((FileSystem.writeFile path (encodeText text) w.fs).1,
        { w with fs := (FileSystem.writeFile path (encodeText text) w.fs).2,
                 trace := .writeFile path (encodeText text) :: w.trace }) := rfl
  rw [mapError_fst, Effect.mapError_state, hrun, hwrite]
  refine ⟨?_, hsame, hdata⟩
  split <;> simp_all

section Loading

variable {P}

/-- What loads was read from a file. -/
theorem data?_of_readOptional {path : FilePath} {text : String}
    (h : readOptional P path s = .ok (some text)) :
    ∃ old, s.data? (normalize path) = some old ∧ decodeText P old = text := by
  unfold readOptional readFileString at h
  rw [Reading.map_run] at h
  rcases hread : (FileSystem.readFile path s : Except PlatformError Bytes) with e | old
  · rw [hread] at h
    simp only [Except.map] at h
    split at h <;> cases h
  · have hlooking : looking path (FileSystem.readFile path) s = .ok old := hread
    unfold looking at hlooking
    split at hlooking
    · cases hlooking
    · rw [hread] at h
      cases h
      exact ⟨old, Volume.readFile_ok.mp hlooking, rfl⟩

theorem data?_of_loadManifest {manifest : Manifest} (h : loadManifest P workspace s = .ok manifest) :
    ∃ old, s.data? (manifestFile workspace) = some old ∧
      parseManifest P (decodeText P old) (manifestPath workspace) = .ok manifest := by
  rw [loadManifest, Reading.bind_ok] at h
  obtain ⟨_ | text, hread, h⟩ := h
  · cases h
  · obtain ⟨old, hold, htext⟩ := data?_of_readOptional (Reading.mapError_ok.mp hread)
    rw [normalize_manifestPath] at hold
    refine ⟨old, hold, ?_⟩
    rw [htext]
    exact except_mapError_ok.mp h

theorem data?_of_loadLock {lock : Lock} (h : loadLock P workspace s = .ok (some lock)) :
    ∃ old, s.data? (lockFile workspace) = some old ∧
      parseLock P (decodeText P old) (lockPath workspace) = .ok lock := by
  rw [loadLock, Reading.bind_ok] at h
  obtain ⟨_ | text, hread, h⟩ := h
  · cases h
  · obtain ⟨old, hold, htext⟩ := data?_of_readOptional hread
    rw [normalize_lockPath] at hold
    refine ⟨old, hold, ?_⟩
    simp only [Reading.map_run, Reading.ofExcept_run] at h
    rw [htext]
    rcases hparse : parseLock P text (lockPath workspace) with e | found <;> rw [hparse] at h <;> cases h
    rfl

/-- Loading the lock goes by its file. -/
theorem loadLock_congr {kept : FilePath → Prop} (h : Same kept s s') (hkept : kept (lockFile workspace)) :
    loadLock P workspace s' = loadLock P workspace s := by
  have hread : readOptional P (lockPath workspace) s' = readOptional P (lockPath workspace) s := by
    unfold readOptional readFileString
    rw [Reading.map_run, Reading.map_run, h.readFile (by rwa [normalize_lockPath])]
  rw [loadLock]
  rcases hrun : readOptional P (lockPath workspace) s with e | _ | text
  · rw [Reading.bind_of_error hrun, Reading.bind_of_error (hread.trans hrun)]
  · rw [Reading.bind_of_ok hrun, Reading.bind_of_ok (hread.trans hrun)]
    rfl
  · rw [Reading.bind_of_ok hrun, Reading.bind_of_ok (hread.trans hrun)]
    simp [Reading.map_run]

end Loading

variable (workspace name)

/-- Pruning the lock goes through: it is missing or loads, and is written where it has to be. -/
def Prunes (s : FaultyVolume) : Prop :=
  ∃ lock, loadLock P workspace s = .ok lock ∧
    ∀ l ∈ lock, l.lists name → s.faults.torn (lockFile workspace) = none

/-- What pruning leaves in `akua.lock`. -/
def lockLeft (s : FaultyVolume) : Option Bytes :=
  match loadLock P workspace s with
  | .ok (some lock) =>
    if lock.lists name then
      (s.data? (lockFile workspace)).map (s.faults.leaves (lockFile workspace)
        (encodeText (formatLock (lock.without name) P.cliName)))
    else s.data? (lockFile workspace)
  | _ => s.data? (lockFile workspace)

/-- What saving the manifest leaves in `akua.toml`. -/
def manifestLeft (manifest : Manifest) (s : FaultyVolume) : Option Bytes :=
  (s.data? (manifestFile workspace)).map (s.faults.leaves (manifestFile workspace)
    (encodeText (formatManifest (manifest.without name))))

variable {P workspace name}

theorem saveManifest_run (manifest : Manifest) (name : String) {old : Bytes}
    (h : w.fs.data? (manifestFile workspace) = some old) :
    ((saveManifest workspace (manifest.without name) w).1 = .ok () ↔
        w.fs.faults.torn (manifestFile workspace) = none) ∧
      Same (· ≠ manifestFile workspace) w.fs (saveManifest workspace (manifest.without name) w).2.fs ∧
      (saveManifest workspace (manifest.without name) w).2.fs.data? (manifestFile workspace) =
        manifestLeft workspace name manifest w.fs := by
  rw [manifestLeft, h, Option.map_some]
  rw [← normalize_manifestPath] at h ⊢
  exact save_run _ _ h

theorem pruneLock_run (P : Platform) (workspace : FilePath) (name : String) (w : World FaultyVolume) :
    ((pruneLock P workspace name w).1 = .ok () ↔ Prunes P workspace name w.fs) ∧
      Same (· ≠ lockFile workspace) w.fs (pruneLock P workspace name w).2.fs ∧
      (pruneLock P workspace name w).2.fs.data? (lockFile workspace) = lockLeft P workspace name w.fs := by
  generalize hout : pruneLock P workspace name w = out
  rw [pruneLock] at hout
  rcases hload : loadLock P workspace w.fs with e | _ | lock
  · rw [Run.read_bind_of_error hload] at hout
    subst hout
    exact ⟨by simp [Prunes, hload], ⟨rfl, fun _ _ => rfl⟩, by simp [lockLeft, hload]⟩
  · rw [Run.read_bind_of_ok hload] at hout
    subst hout
    exact ⟨by simp [Prunes, hload], ⟨rfl, fun _ _ => rfl⟩, by simp [lockLeft, hload]⟩
  · rw [Run.read_bind_of_ok hload] at hout
    by_cases hlists : lock.lists name
    · obtain ⟨old, hold, -⟩ := data?_of_loadLock hload
      rw [← normalize_lockPath] at hold
      obtain ⟨hok, hsame, hdata⟩ := save_run (formatLock (lock.without name) P.cliName)
        (fun error => cliFailure "E_IO" (osMessage error) .systemError (some (lockPath workspace))) hold
      rw [normalize_lockPath] at hok hsame hdata hold
      simp only [hlists, if_true] at hout
      subst hout
      refine ⟨hok.trans ?_, hsame, hdata.trans ?_⟩
      · simp [Prunes, hload, hlists]
      · simp [lockLeft, hload, hlists, hold]
    · simp only [hlists, Bool.false_eq_true, if_false] at hout
      subst hout
      exact ⟨by simp [Prunes, hload, hlists], ⟨rfl, fun _ _ => rfl⟩, by simp [lockLeft, hload, hlists]⟩

theorem Prunes.congr (h : Same (· ≠ manifestFile workspace) s s') :
    Prunes P workspace name s' ↔ Prunes P workspace name s := by
  rw [Prunes, Prunes, loadLock_congr h manifestFile_ne_lockFile.symm, h.faults]

theorem lockLeft_congr (h : Same (· ≠ manifestFile workspace) s s') :
    lockLeft P workspace name s' = lockLeft P workspace name s := by
  rw [lockLeft, lockLeft, loadLock_congr h manifestFile_ne_lockFile.symm, h.faults,
    h.data? manifestFile_ne_lockFile.symm]

/-! ### The verb -/

section Atomicity

variable (P workspace name)

/-- Every step of a removal can go through. -/
structure Completes (s : FaultyVolume) : Prop where
  manifest : s.faults.torn (manifestFile workspace) = none
  lock : Prunes P workspace name s
  crds : Clears workspace name s

end Atomicity

/-- A removal goes through exactly where each of its steps does, and leaves in the two files what
    those steps leave. -/
theorem removal_run {manifest : Manifest} (ignoreMissing : Bool)
    (hload : loadManifest P workspace w.fs = .ok manifest) (hdeclares : manifest.declares name) :
    ((∃ removed, (remove P workspace name ignoreMissing w).1 = .ok removed) ↔
        Completes P workspace name w.fs) ∧
      (remove P workspace name ignoreMissing w).2.fs.data? (manifestFile workspace) =
        manifestLeft workspace name manifest w.fs ∧
      (remove P workspace name ignoreMissing w).2.fs.data? (lockFile workspace) =
        if w.fs.faults.torn (manifestFile workspace) = none then lockLeft P workspace name w.fs
        else w.fs.data? (lockFile workspace) := by
  generalize hout : remove P workspace name ignoreMissing w = out
  obtain ⟨old, hold, -⟩ := data?_of_loadManifest hload
  have hloaded : ((loadManifest P workspace).mapError (manifestFailure none)) w.fs = .ok manifest :=
    Reading.mapError_ok.mpr hload
  rw [remove, Run.read_bind_of_ok hloaded, if_pos hdeclares] at hout
  -- the manifest
  obtain ⟨hsaves, hsame₁, htoml⟩ := saveManifest_run manifest name hold
  rcases hsave : saveManifest workspace (manifest.without name) w with ⟨e | _, w₁⟩ <;>
    rw [hsave] at hsaves hsame₁ htoml
  · have htorn : w.fs.faults.torn (manifestFile workspace) ≠ none := fun h => by cases hsaves.mpr h
    rw [Effect.bind_of_error hsave] at hout
    subst hout
    refine ⟨iff_of_false (by simp) fun h => htorn h.manifest, htoml, ?_⟩
    rw [if_neg htorn]
    exact hsame₁.data? manifestFile_ne_lockFile.symm
  have hwhole := hsaves.mp rfl
  rw [Effect.bind_of_ok hsave] at hout
  -- the lock
  obtain ⟨hprunes, hsame₂, hlock⟩ := pruneLock_run P workspace name w₁
  rw [Prunes.congr hsame₁] at hprunes
  rw [lockLeft_congr hsame₁] at hlock
  have htoml₂ := (hsame₂.data? manifestFile_ne_lockFile).trans htoml
  rcases hprune : pruneLock P workspace name w₁ with ⟨e | _, w₂⟩ <;>
    rw [hprune] at hprunes hsame₂ hlock htoml₂
  · rw [Effect.bind_of_error hprune] at hout
    subst hout
    refine ⟨iff_of_false (by simp) fun h => ?_, htoml₂, by rw [hlock, if_pos hwhole]⟩
    cases hprunes.mpr h.lock
  rw [Effect.bind_of_ok hprune] at hout
  -- the generated schemas
  obtain ⟨hclears, hsame₃⟩ := removeGeneratedCrds_run workspace name w₂
  have hunder : Same (crdsRoot workspace <+: ·) w.fs w₂.fs :=
    (hsame₁.mono fun q hq heq => not_crds_manifestFile (heq ▸ hq)).trans
      (hsame₂.mono fun q hq heq => not_crds_lockFile (heq ▸ hq))
  rw [Clears.congr hunder] at hclears
  have htoml₃ := (hsame₃.data? not_crds_manifestFile).trans htoml₂
  have hlock₃ := (hsame₃.data? not_crds_lockFile).trans hlock
  rcases hclear : removeGeneratedCrds workspace name w₂ with ⟨e | _, w₃⟩ <;>
    rw [hclear] at hclears htoml₃ hlock₃
  · rw [Effect.bind_of_error hclear] at hout
    subst hout
    refine ⟨iff_of_false (by simp) fun h => ?_, htoml₃, by rw [hlock₃, if_pos hwhole]⟩
    cases hclears.mpr h.crds
  · rw [Effect.bind_of_ok hclear] at hout
    subst hout
    exact ⟨iff_of_true ⟨true, rfl⟩ ⟨hwhole, hprunes.mp rfl, hclears.mp rfl⟩, htoml₃,
      hlock₃.trans (if_pos hwhole).symm⟩

/-- Without a dependency to remove, nothing is written. -/
theorem remove_nothing {ignoreMissing : Bool}
    (h : ∀ manifest, loadManifest P workspace w.fs = .ok manifest → manifest.declares name = false) :
    (remove P workspace name ignoreMissing w).2 = w := by
  rw [remove]
  rcases hload : loadManifest P workspace w.fs with e | manifest
  · rw [Run.read_bind_of_error (by rw [Reading.mapError, hload]; rfl)]
  · rw [Run.read_bind_of_ok (Reading.mapError_ok.mpr hload), h manifest hload]
    cases ignoreMissing <;> rfl

end Akua
