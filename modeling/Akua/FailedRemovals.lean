import Akua.ManifestRoundTrip

/-! What a failed `remove` leaves. It writes `akua.toml` before it looks at `akua.lock`, and a manifest
    that declares a dependency is never written as it stands once the dependency is dropped; so the two
    files are as before only when the first write leaves `akua.toml` alone. -/

namespace Akua

open FilePath FaultyVolume

variable {P : Platform} {workspace : FilePath} {name : String} {s : FaultyVolume}

/-- Writing the path fails, and leaves the file as it was. -/
def Untouched (s : FaultyVolume) (path : FilePath) : Prop :=
  ∃ left, s.faults.torn path = some left ∧ ∀ bytes ∈ left, s.data? path = some bytes

/-- A file is as before after a write when the write is refused untouched, or writes what is there. -/
theorem leaves_eq_iff {path : FilePath} {data old : Bytes} (h : s.data? path = some old) :
    s.faults.leaves path data old = old ↔ Untouched s path ∨ s.faults.torn path = none ∧ data = old := by
  rw [Untouched, h, Faults.leaves]
  rcases s.faults.torn path with _ | _ | left
  · simp
  · simp
  · simp [eq_comm]

/-! ### What is written differs from what was read -/

theorem get?_without_self (manifest : Manifest) (name : String) :
    (manifest.without name).declared.get? name = none := by
  rw [Table.get?_eq_none]
  intro hmem
  obtain ⟨entry, hentry, hname⟩ := List.mem_map.mp hmem
  exact absurd hname (of_decide_eq_true (List.mem_filter.mp hentry).2)

theorem declares_of_get? {manifest : Manifest} {dependency : Dependency}
    (h : manifest.declared.get? name = some dependency) : manifest.declares name := by
  obtain ⟨package, members, signing, _ | declared⟩ := manifest
  · cases h
  · have hget : declared.get? name = some dependency := h
    simp [Manifest.declares, property, hget]

/-- Only an inherited name is declared without an entry; dropping it drops nothing. -/
theorem without_inherited {manifest : Manifest} (hdeclares : manifest.declares name)
    (hget : manifest.declared.get? name = none) : manifest.without name = manifest := by
  obtain ⟨package, members, signing, _ | declared⟩ := manifest
  · cases hdeclares
  · have hkept : declared.entries.filter (fun entry => entry.1 ≠ name) = declared.entries := by
      refine List.filter_eq_self.mpr fun entry hentry => decide_eq_true fun hname => ?_
      exact Table.get?_eq_none.mp hget (List.mem_map.mpr ⟨entry, hentry, hname⟩)
    rw [Manifest.without]
    congr 2
    exact Table.ext hkept

/-- A manifest with an entry of `name` is not what is written without it. -/
theorem formatManifest_without_ne (hP : ReadsToml P) {manifest : Manifest} {old : Bytes} {path : FilePath}
    (hparse : parseManifest P (decodeText P old) path = .ok manifest) (hget : manifest.declared.get? name ≠ none) :
    encodeText (formatManifest (manifest.without name)) ≠ old := by
  rintro rfl
  obtain ⟨hedition, hname, hrules⟩ := manifest_accepted hparse
  have hkept : ∀ kept dependency, (manifest.without name).declared.get? kept = some dependency →
      validateDependency kept dependency = .ok () := by
    intro kept dependency hkept
    have hentry := Table.get?_eq_some.mp hkept
    exact hrules kept dependency (Table.get?_eq_some.mpr (List.mem_of_mem_filter hentry))
  obtain ⟨again, hagain, -, -, -, hsame⟩ :=
    @parseManifest_formatManifest _ hP (manifest.without name) hedition hname hkept path
  rw [decodeText_formatManifest, hagain] at hparse
  cases hparse
  exact hget ((hsame name).trans (get?_without_self _ name))

/-- A lock that lists `name` is not what is written without it. -/
theorem formatLock_without_ne (hP : ReadsToml P) (hcli : OneLine P.cliName) {lock : Lock} {old : Bytes}
    {path : FilePath} (hparse : parseLock P (decodeText P old) path = .ok lock) (hlists : lock.lists name) :
    encodeText (formatLock (lock.without name) P.cliName) ≠ old := by
  rintro rfl
  have hversion : (lock.without name).version = LOCK_VERSION := (accepted hparse).1
  obtain ⟨hsame, -⟩ := parses_formatLock_iff hP hcli hversion path
  rw [decodeText_formatLock] at hparse
  have hrewritten : lock = (lock.without name).rewritten :=
    Except.ok.inj (hparse.symm.trans (hsame.mpr ⟨lock, hparse⟩))
  have hfree : ∀ entry ∈ lock.packages, entry.name ≠ name := by
    intro entry hentry
    rw [hrewritten, Lock.rewritten, Lock.packages, Option.getD_some] at hentry
    obtain ⟨before, hbefore, rfl⟩ := List.mem_map.mp hentry
    have hmem := (List.mem_insertionSort _).mp hbefore
    exact of_decide_eq_true (List.mem_filter.mp hmem).2
  have hlisted : ∃ entry ∈ lock.packages, entry.name = name := by simpa [Lock.lists] using hlists
  obtain ⟨entry, hentry, hname⟩ := hlisted
  exact hfree entry hentry hname

/-! ### Where both files are as before -/

theorem manifestLeft_eq_iff (hP : ReadsToml P) {manifest : Manifest}
    (hload : loadManifest P workspace s = .ok manifest) (hdeclares : manifest.declares name) :
    manifestLeft workspace name manifest s = s.data? (manifestFile workspace) ↔
      Untouched s (manifestFile workspace) ∨
      s.faults.torn (manifestFile workspace) = none ∧ manifest.declared.get? name = none ∧
        s.data? (manifestFile workspace) = some (encodeText (formatManifest manifest)) := by
  obtain ⟨old, hold, hparse⟩ := data?_of_loadManifest hload
  rw [manifestLeft, hold, Option.map_some, Option.some.injEq, leaves_eq_iff hold]
  refine or_congr_right (and_congr_right fun _ => ?_)
  constructor
  · intro hsame
    by_cases hget : manifest.declared.get? name = none
    · rw [without_inherited hdeclares hget] at hsame
      exact ⟨hget, congrArg some hsame.symm⟩
    · exact absurd hsame (formatManifest_without_ne hP hparse hget)
  · rintro ⟨hget, hsame⟩
    rw [without_inherited hdeclares hget]
    exact (Option.some.inj hsame).symm

theorem lockLeft_eq_iff (hP : ReadsToml P) (hcli : OneLine P.cliName) :
    lockLeft P workspace name s = s.data? (lockFile workspace) ↔
      ∀ lock, loadLock P workspace s = .ok (some lock) → lock.lists name → Untouched s (lockFile workspace) := by
  rw [lockLeft]
  rcases hload : loadLock P workspace s with e | _ | lock
  · simp
  · simp
  · obtain ⟨old, hold, hparse⟩ := data?_of_loadLock hload
    by_cases hlists : lock.lists name
    · simp only [hlists, if_true, hold, Option.map_some, Option.some.injEq, leaves_eq_iff hold]
      constructor
      · rintro (huntouched | ⟨-, hsame⟩) _ - -
        · exact huntouched
        · exact absurd hsame (formatLock_without_ne hP hcli hparse hlists)
      · intro h
        exact .inl (h lock rfl hlists)
    · simp only [hlists, Bool.false_eq_true, if_false, true_iff]
      intro found hfound hfoundLists
      obtain rfl : lock = found := by simpa using hfound
      exact absurd hfoundLists hlists

/-- No text is there where no file is. -/
theorem data?_of_readOptional_none {path : FilePath} (h : readOptional P path s = .ok none) :
    s.data? (normalize path) = none := by
  rcases hdata : s.data? (normalize path) with _ | old
  · rfl
  · have hread : (FileSystem.readFile path s : Except PlatformError Bytes) = .error Volume.ioError ∨
        (FileSystem.readFile path s : Except PlatformError Bytes) = .ok old := by
      change looking path (FileSystem.readFile path) s = _ ∨ looking path (FileSystem.readFile path) s = _
      unfold looking
      split
      · exact .inl rfl
      · exact .inr (Volume.readFile_ok.mpr hdata)
    unfold readOptional readFileString at h
    rw [Reading.map_run] at h
    rcases hread with hread | hread <;> simp [hread, Except.map, Volume.ioError] at h

/-- A removal that prunes the lock leaves what the verb writes. -/
theorem lockLeft_write (h : Prunes P workspace name s) :
    (lockLeft P workspace name s).map (decodeText P) = (LockVerb.remove name).write P P.cliName (lockPath workspace)
      ((s.data? (lockFile workspace)).map (decodeText P)) := by
  obtain ⟨found, hload, htorn⟩ := h
  rw [lockLeft, hload]
  cases found with
  | none =>
    have hnone : s.data? (lockFile workspace) = none := by
      rw [← normalize_lockPath]
      rw [loadLock, Reading.bind_ok] at hload
      obtain ⟨_ | text, hread, hrest⟩ := hload
      · exact data?_of_readOptional_none hread
      · dsimp only at hrest
        rw [Reading.map_run] at hrest
        rcases hparse : parseLock P text (lockPath workspace) with e | lock <;>
          simp [Reading.ofExcept_run, hparse, Except.map, Except.mapError] at hrest
    rw [hnone]
    rfl
  | some lock =>
    obtain ⟨old, hold, hparse⟩ := data?_of_loadLock hload
    rw [hold, Option.map_some, LockVerb.write, Option.map_some, hparse]
    by_cases hlists : lock.lists name = true
    · have hwrites := htorn lock rfl hlists
      simp [Except.toOption, Option.filter, hlists, Faults.leaves, hwrites, decodeText_formatLock]
    · simp [Except.toOption, Option.filter, hlists]

/-- A removal that fails leaves `akua.toml` and `akua.lock` as they were exactly when there is no
    dependency to remove, or every step can go through, or `akua.toml` cannot be written and stays as it
    is, or the name is only an inherited one, `akua.toml` already stands as it would be written, and
    `akua.lock`, if it lists the name, cannot be written and stays as it is. -/
theorem failed_removal_restores_iff (P : Platform) (hP : ReadsToml P) (hcli : OneLine P.cliName)
    (workspace : FilePath) (name : String) (ignoreMissing : Bool) (w : World FaultyVolume) :
    ((∃ failure, (remove P workspace name ignoreMissing w).1 = .error failure) →
        (remove P workspace name ignoreMissing w).2.fs.data? (manifestFile workspace) =
            w.fs.data? (manifestFile workspace) ∧
          (remove P workspace name ignoreMissing w).2.fs.data? (lockFile workspace) =
            w.fs.data? (lockFile workspace)) ↔
      ∀ manifest, loadManifest P workspace w.fs = .ok manifest → manifest.declares name →
        Completes P workspace name w.fs ∨
        Untouched w.fs (manifestFile workspace) ∨
        w.fs.faults.torn (manifestFile workspace) = none ∧ manifest.declared.get? name = none ∧
          w.fs.data? (manifestFile workspace) = some (encodeText (formatManifest manifest)) ∧
          ∀ lock, loadLock P workspace w.fs = .ok (some lock) → lock.lists name →
            Untouched w.fs (lockFile workspace) := by
  by_cases hdeclared : ∃ manifest, loadManifest P workspace w.fs = .ok manifest ∧ manifest.declares name
  · obtain ⟨manifest, hload, hdeclares⟩ := hdeclared
    obtain ⟨hok, htoml, hlock⟩ := removal_run ignoreMissing hload hdeclares
    have hfails : (∃ failure, (remove P workspace name ignoreMissing w).1 = .error failure) ↔
        ¬ Completes P workspace name w.fs := by
      rw [← hok]
      rcases (remove P workspace name ignoreMissing w).1 with e | removed <;> simp
    rw [hfails, htoml, hlock, manifestLeft_eq_iff hP hload hdeclares]
    constructor
    · intro h found hfound _
      obtain rfl : manifest = found := by
        rw [hload] at hfound
        exact Except.ok.inj hfound
      by_cases hcompletes : Completes P workspace name w.fs
      · exact .inl hcompletes
      · obtain ⟨huntouched | ⟨htorn, hget, hstands⟩, hsame⟩ := h hcompletes
        · exact .inr (.inl huntouched)
        · rw [if_pos htorn] at hsame
          exact .inr (.inr ⟨htorn, hget, hstands, (lockLeft_eq_iff hP hcli).mp hsame⟩)
    · intro h hcompletes
      rcases (h manifest hload hdeclares).resolve_left hcompletes with huntouched | ⟨htorn, hget, hstands, huntouched⟩
      · refine ⟨.inl huntouched, if_neg ?_⟩
        obtain ⟨left, htorn, -⟩ := huntouched
        simp [htorn]
      · refine ⟨.inr ⟨htorn, hget, hstands⟩, ?_⟩
        rw [if_pos htorn]
        exact (lockLeft_eq_iff hP hcli).mpr huntouched
  · have hnone : ∀ manifest, loadManifest P workspace w.fs = .ok manifest → manifest.declares name = false := by
      intro manifest hload
      by_contra hdeclares
      exact hdeclared ⟨manifest, hload, by simpa using hdeclares⟩
    rw [remove_nothing hnone]
    refine iff_of_true (fun _ => ⟨rfl, rfl⟩) fun manifest hload hdeclares => ?_
    rw [hnone manifest hload] at hdeclares
    cases hdeclares

/-! ### Two workspaces -/

/-- Where no look is refused, a file is read as on the disk. -/
theorem readOptional_readable {path : FilePath} (h : ∀ q, s.faults.unreadable q = false) :
    readOptional P path s = readOptional P path s.volume.disk := by
  have hread : (FileSystem.readFile path s : Except PlatformError Bytes) = FileSystem.readFile path s.volume.disk := by
    simp only [FileSystem.readFile, looking, h, Bool.false_eq_true, if_false]
  unfold readOptional readFileString
  rw [Reading.map_run, Reading.map_run, hread]

/-- A workspace whose `akua.toml` cannot be written. -/
def writeProtected : World FaultyVolume where
  fs := { volume := ⟨Disk.ofFiles [("ws/akua.toml", formatManifest sampleManifest)], by decide +kernel⟩
          faults := { torn := fun path => if path = ["ws", "akua.toml"] then some none else none } }

/-- On it the removal fails, and both files are as before. -/
theorem protected_restored :
    (∃ failure, (remove tomlHost ["ws"] "db" false writeProtected).1 = .error failure) ∧
      (remove tomlHost ["ws"] "db" false writeProtected).2.fs.data? (manifestFile ["ws"]) =
        writeProtected.fs.data? (manifestFile ["ws"]) ∧
      (remove tomlHost ["ws"] "db" false writeProtected).2.fs.data? (lockFile ["ws"]) =
        writeProtected.fs.data? (lockFile ["ws"]) := by
  have htorn : writeProtected.fs.faults.torn (manifestFile ["ws"]) = some none := by decide
  have hcli : OneLine tomlHost.cliName := oneLine_of_all (by decide +kernel)
  obtain ⟨manifest, hparse, -, hsame⟩ := sampleManifest_read (manifestPath ["ws"])
  have hload : loadManifest tomlHost ["ws"] writeProtected.fs = .ok manifest := by
    have hnode : writeProtected.fs.volume.disk.node? (manifestPath ["ws"]) =
        some (.file (encodeText (formatManifest sampleManifest)) Disk.FILE_MODE) := rfl
    have hread : readOptional tomlHost (manifestPath ["ws"]) writeProtected.fs =
        .ok (some (formatManifest sampleManifest)) := by
      rw [readOptional_readable fun _ => rfl, readOptional, readFileString, Reading.map_run,
        Disk.readFile_of_node hnode]
      simp only [Except.map, decodeText_formatManifest]
    rw [loadManifest, Reading.bind_of_ok (Reading.mapError_ok.mpr hread)]
    exact except_mapError_ok.mpr hparse
  have hdeclares : manifest.declares "db" := by
    have hget : sampleManifest.declared.get? "db" = some { path := some "../db" } := by decide
    exact declares_of_get? ((hsame "db").trans hget)
  have hfails : ∃ failure, (remove tomlHost ["ws"] "db" false writeProtected).1 = .error failure := by
    rcases hrun : (remove tomlHost ["ws"] "db" false writeProtected).1 with e | removed
    · exact ⟨e, rfl⟩
    · have hcompletes := (removal_run false hload hdeclares).1.mp ⟨removed, hrun⟩
      rw [hcompletes.manifest] at htorn
      cases htorn
  refine ⟨hfails, (failed_removal_restores_iff tomlHost readsToml_tomlHost hcli ["ws"] "db" false
    writeProtected).mpr (fun _ _ _ => .inr (.inl ⟨none, htorn, ?_⟩)) hfails⟩
  rintro bytes ⟨⟩

/-- A workspace whose lock has an entry without its fields. -/
def brokenLock : SampleWorkspace where
  dependencies := [("web", [("path", "web")])]
  lock := [[("name", "web")]]

def brokenLockWorld : World FaultyVolume where
  fs := { volume := ⟨brokenLock.disk, by decide +kernel⟩ }

def brokenLockManifest : Manifest where
  package := { name := "app", version := "0.1.0", edition := "akua.dev/v1alpha1" }
  signing := some {}
  dependencies := some (Table.ofList [("web", { path := some "web" })])

/-- On it `akua.toml` is rewritten, and then `akua.lock` does not load. -/
theorem broken_lock_not_restored :
    (∃ failure, (remove brokenLock.host SampleWorkspace.root "web" false brokenLockWorld).1 = .error failure) ∧
      (remove brokenLock.host SampleWorkspace.root "web" false brokenLockWorld).2.fs.data?
          (manifestFile SampleWorkspace.root) ≠
        brokenLockWorld.fs.data? (manifestFile SampleWorkspace.root) := by
  have hload : loadManifest brokenLock.host SampleWorkspace.root brokenLockWorld.fs = .ok brokenLockManifest := by
    have hread : readOptional brokenLock.host ["ws", "akua.toml"] brokenLockWorld.fs =
        .ok (some brokenLock.manifestText) := by
      rw [brokenLockWorld, readOptional_readable fun _ => rfl]
      exact SampleWorkspace.readOptional_manifest
    have hpath : manifestPath SampleWorkspace.root = ["ws", "akua.toml"] := by decide
    rw [loadManifest, hpath, Reading.bind_of_ok (Reading.mapError_ok.mpr hread)]
    simp only [Reading.ofExcept_run, SampleWorkspace.parseManifest_manifestText]
    rfl
  have hlock : ∀ lock, loadLock brokenLock.host SampleWorkspace.root brokenLockWorld.fs ≠ .ok lock := by
    have hread : readOptional brokenLock.host ["ws", "akua.lock"] brokenLockWorld.fs =
        .ok (some (lockText brokenLock.lock)) := by
      rw [brokenLockWorld, readOptional_readable fun _ => rfl]
      exact SampleWorkspace.readOptional_lock
    have hpath : lockPath SampleWorkspace.root = ["ws", "akua.lock"] := by decide
    intro lock h
    rw [loadLock, hpath, Reading.bind_of_ok hread] at h
    simp only [Reading.map_run, Reading.ofExcept_run, SampleWorkspace.parseLock_lockText] at h
    cases h
  have hdata : brokenLockWorld.fs.data? (manifestFile SampleWorkspace.root) =
      some (encodeText brokenLock.manifestText) := by
    have hnode : brokenLockWorld.fs.volume.at? (manifestFile SampleWorkspace.root) =
        some (.file (encodeText brokenLock.manifestText) Disk.FILE_MODE) := SampleWorkspace.node_manifest
    exact Volume.data?_of_file hnode
  have htext : formatManifest (brokenLockManifest.without "web") ≠ brokenLock.manifestText := by
    decide +kernel
  obtain ⟨hok, htoml, -⟩ := removal_run false hload
    (show brokenLockManifest.declares "web" by decide)
  constructor
  · rcases hrun : (remove brokenLock.host SampleWorkspace.root "web" false brokenLockWorld).1 with e | removed
    · exact ⟨e, rfl⟩
    · obtain ⟨-, ⟨lock, hloads, -⟩, -⟩ := hok.mp ⟨removed, hrun⟩
      exact absurd hloads (hlock lock)
  · rw [htoml, manifestLeft, hdata]
    intro heq
    exact htext (encodeText_injective (Option.some.inj heq))

end Akua
