import Akua.Lib.Volume

/-! A volume on which calls can fail: at some paths reading is refused, writing fails and leaves what
    was there or something else, or removing is refused. Which ones is part of the state, so a run on
    it is a function of where it starts. -/

namespace Volume

open FilePath

variable {volume : Volume} {path : FilePath} {node : Node}

/-- Without what stands at and under a path, the rest hangs together. -/
theorem sound_without (volume : Volume) (path : FilePath) : (volume.disk.without path).Sound := by
  intro key hkey
  have hentry : key ∈ volume.disk.nodes.keys ∧ ¬ path <+: key := by
    obtain ⟨entry, hentry, rfl⟩ := List.mem_map.mp hkey
    simp only [Disk.without, List.mem_filter, decide_eq_true_eq] at hentry
    exact ⟨List.mem_map.mpr ⟨entry, hentry.1, rfl⟩, hentry.2⟩
  obtain ⟨hne, hnormal, hdirectory⟩ := volume.sound key hentry.1
  refine ⟨hne, hnormal, ?_⟩
  by_cases htop : dirname key = []
  · rw [htop]
    rfl
  · have habove : ¬ path <+: dirname key := fun hle => hentry.2 (hle.trans (List.dropLast_prefix key))
    rw [Disk.at?, if_neg htop, Table.get?_eq_some] at hdirectory ⊢
    simpa [Disk.without, habove] using hdirectory

/-- What is there can be removed. -/
theorem exists_remove (h : (volume.at? (normalize path)).isSome) : ∃ volume',
    (FileSystem.remove path : Effect Volume PlatformError Unit) volume = (.ok (), volume') := by
  obtain ⟨node, hnode⟩ := Option.isSome_iff_exists.mp h
  have hrun : (FileSystem.remove path : Effect Disk PlatformError Unit) volume.disk =
      (.ok (), volume.disk.without (normalize path)) := by
    simp only [FileSystem.remove, Disk.change, Disk.node?]
    rw [show volume.disk.at? (normalize path) = some node from hnode]
  refine ⟨⟨_, volume.sound_without (normalize path)⟩, ?_⟩
  show lift _ volume = _
  simp only [lift, hrun, dif_pos (volume.sound_without (normalize path))]

/-- A file can be written over. -/
theorem exists_writeFile {old : Bytes} (data : Bytes) (h : volume.data? (normalize path) = some old) : ∃ volume',
    (FileSystem.writeFile path data : Effect Volume PlatformError Unit) volume = (.ok (), volume') := by
  obtain ⟨mode, hfile⟩ : ∃ mode, volume.at? (normalize path) = some (.file old mode) := by
    unfold data? at h
    split at h <;> cases h
    exact ⟨_, ‹_›⟩
  have hne : normalize path ≠ [] := by
    intro heq
    rw [heq, at?_nil] at hfile
    cases hfile
  have hrun : (FileSystem.writeFile path data : Effect Disk PlatformError Unit) volume.disk =
      (.ok (), volume.disk.put (normalize path) (.file data mode)) := by
    have hdirectory := (volume.sound _ (mem_keys_of_at? hfile hne)).2.2
    simp only [FileSystem.writeFile, Disk.change, Disk.write, hdirectory]
    rw [show volume.disk.at? (normalize path) = _ from hfile]
  have hsound : (volume.disk.put (normalize path) (.file data mode)).Sound := by
    intro key hkey
    rw [Disk.put, Table.keys_set, if_pos (mem_keys_of_at? hfile hne)] at hkey
    obtain ⟨hkeyne, hnormal, hdirectory⟩ := volume.sound key hkey
    refine ⟨hkeyne, hnormal, ?_⟩
    by_cases htop : dirname key = []
    · rw [htop]
      rfl
    · rw [Disk.at?_put htop, if_neg, hdirectory]
      -- a directory is not the file
      intro heq
      rw [heq] at hdirectory
      rw [at?, hdirectory] at hfile
      cases hfile
  refine ⟨⟨_, hsound⟩, ?_⟩
  show lift _ volume = _
  simp only [lift, hrun, dif_pos hsound]

end Volume

/-- What goes wrong, at clean paths. -/
structure Faults where
  /-- Looking at the path is refused. -/
  unreadable : FilePath → Bool := fun _ => false
  /-- Writing the path fails, and leaves it as it was or with these bytes. -/
  torn : FilePath → Option (Option Bytes) := fun _ => none
  /-- Removing the path is refused. -/
  stuck : FilePath → Bool := fun _ => false

/-- What a write of `data` over `old` leaves. -/
def Faults.leaves (faults : Faults) (path : FilePath) (data old : Bytes) : Bytes :=
  match faults.torn path with
  | none => data
  | some left => left.getD old

structure FaultyVolume where
  volume : Volume
  faults : Faults := {}

namespace FaultyVolume

open FilePath

def looking {α : Type} (path : FilePath) (m : Reading Volume PlatformError α) :
    Reading FaultyVolume PlatformError α := fun s =>
  if s.faults.unreadable (normalize path) then .error Volume.ioError else m s.volume

def changing {α : Type} (m : Effect Volume PlatformError α) : Effect FaultyVolume PlatformError α :=
  fun s => ((m s.volume).1, { s with volume := (m s.volume).2 })

def write (path : FilePath) (data : Bytes) : Effect FaultyVolume PlatformError Unit := fun s =>
  match s.faults.torn (normalize path) with
  | none => changing (FileSystem.writeFile path data) s
  | some none => (.error Volume.ioError, s)
  | some (some left) => (.error Volume.ioError, (changing (FileSystem.writeFile path left) s).2)

def erase (path : FilePath) : Effect FaultyVolume PlatformError Unit := fun s =>
  if s.faults.stuck (normalize path) then (.error Volume.ioError, s)
  else changing (FileSystem.remove path) s

instance : FileSystem FaultyVolume where
  fileExists path := looking path (FileSystem.fileExists path)
  stat path := looking path (FileSystem.stat path)
  realPath path := looking path (FileSystem.realPath path)
  readFile path := looking path (FileSystem.readFile path)
  readDirectory path := looking path (FileSystem.readDirectory path)
  readDirectoryRecursive path := looking path (FileSystem.readDirectoryRecursive path)
  makeDirectory path := changing (FileSystem.makeDirectory path)
  makeTempDirectory parent stem := changing (FileSystem.makeTempDirectory parent stem)
  writeFile := write
  copyFile source target := changing (FileSystem.copyFile source target)
  rename source target := changing (FileSystem.rename source target)
  remove := erase

/-- The entry at a clean path. -/
def at? (s : FaultyVolume) (path : FilePath) : Option Node := s.volume.at? path

/-- The bytes of the file at a clean path. -/
def data? (s : FaultyVolume) (path : FilePath) : Option Bytes := s.volume.data? path

/-- A look at the path finds a file. -/
def SeesFile (s : FaultyVolume) (path : FilePath) : Prop :=
  s.faults.unreadable path = false ∧ (s.data? path).isSome

/-- `s'` is `s` as far as `kept` goes. -/
structure Same (kept : FilePath → Prop) (s s' : FaultyVolume) : Prop where
  faults : s'.faults = s.faults
  at? : ∀ q, kept q → s'.at? q = s.at? q

variable {s s' s'' : FaultyVolume} {path : FilePath} {kept : FilePath → Prop}

theorem Same.trans (h : Same kept s s') (h' : Same kept s' s'') : Same kept s s'' :=
  ⟨h'.faults.trans h.faults, fun q hq => (h'.at? q hq).trans (h.at? q hq)⟩

theorem Same.mono {kept' : FilePath → Prop} (h : Same kept s s') (hle : ∀ q, kept' q → kept q) :
    Same kept' s s' :=
  ⟨h.faults, fun q hq => h.at? q (hle q hq)⟩

theorem Same.data? (h : Same kept s s') (hpath : kept path) : s'.data? path = s.data? path :=
  Volume.data?_congr (h.at? path hpath)

theorem Same.seesFile (h : Same kept s s') (hpath : kept path) : s'.SeesFile path ↔ s.SeesFile path := by
  rw [SeesFile, SeesFile, h.faults, h.data? hpath]

/-- Reading a file goes by what stands there. -/
theorem Same.readFile (h : Same kept s s') (hpath : kept (normalize path)) :
    (FileSystem.readFile path s' : Except PlatformError Bytes) = FileSystem.readFile path s := by
  have hat : s'.volume.disk.at? (normalize path) = s.volume.disk.at? (normalize path) := h.at? _ hpath
  simp only [FileSystem.readFile, looking, Disk.node?, h.faults, hat]

theorem seesFile_iff : s.SeesFile (normalize path) ↔ ∃ info : FileInfo,
    FileSystem.stat path s = (.ok info : Except PlatformError FileInfo) ∧ info.type = .file := by
  simp only [SeesFile, FileSystem.stat, looking, data?, Volume.data?, Volume.at?, Disk.node?]
  by_cases hlook : s.faults.unreadable (normalize path)
  · simp [hlook]
  · simp only [hlook, true_and, Bool.false_eq_true, if_false]
    rcases s.volume.disk.at? (normalize path) with _ | ⟨data, mode⟩ | _ <;> simp

/-- A directory that may be looked at is listed, by the names of its entries. -/
theorem readDirectory_run (path : FilePath) (hlook : s.faults.unreadable (normalize path) = false)
    (hdirectory : s.at? (normalize path) = some .directory) : ∃ names,
    (FileSystem.readDirectory path s : Except PlatformError (List String)) = .ok names ∧
      ∀ name, name ∈ names ↔ (s.at? (normalize path ++ [name])).isSome := by
  obtain ⟨names, hrun⟩ : ∃ names,
      (FileSystem.readDirectory path s.volume : Except PlatformError (List String)) = .ok names := by
    simp only [FileSystem.readDirectory, Disk.node?]
    rw [show s.volume.disk.at? (normalize path) = _ from hdirectory]
    exact ⟨_, rfl⟩
  refine ⟨names, ?_, (Volume.readDirectory_ok hrun).2.2⟩
  show looking path (FileSystem.readDirectory path) s = _
  simp only [looking, hlook, Bool.false_eq_true, if_false, hrun]

/-- What is refused or not a directory is not listed. -/
theorem readDirectory_error (path : FilePath)
    (h : s.faults.unreadable (normalize path) = true ∨ s.at? (normalize path) = none) :
    ∃ e, (FileSystem.readDirectory path s : Except PlatformError (List String)) = .error e := by
  rcases hrun : (FileSystem.readDirectory path s : Except PlatformError (List String)) with e | names
  · exact ⟨e, rfl⟩
  · have hlooking : looking path (FileSystem.readDirectory path) s = .ok names := hrun
    unfold looking at hlooking
    split at hlooking
    · cases hlooking
    · rename_i hlook
      rcases h with hunreadable | hnone
      · exact absurd hunreadable hlook
      · have hdirectory := (Volume.readDirectory_ok hlooking).1
        rw [at?, hdirectory] at hnone
        cases hnone

/-- Writing over a file changes it alone, and fails where writing fails. -/
theorem writeFile_run {old : Bytes} (data : Bytes) (h : s.data? (normalize path) = some old) : ∃ s',
    (FileSystem.writeFile path data : Effect FaultyVolume PlatformError Unit) s =
        (if s.faults.torn (normalize path) = none then .ok () else .error Volume.ioError, s') ∧
      Same (· ≠ normalize path) s s' ∧
      s'.data? (normalize path) = some (s.faults.leaves (normalize path) data old) := by
  -- the volume after a write of these bytes
  have hwrite : ∀ bytes, ∃ s', changing (FileSystem.writeFile path bytes) s = (.ok (), s') ∧
      Same (· ≠ normalize path) s s' ∧ s'.data? (normalize path) = some bytes := by
    intro bytes
    obtain ⟨volume', hrun⟩ := Volume.exists_writeFile bytes h
    obtain ⟨-, mode, hat⟩ := Volume.writeFile_ok hrun
    refine ⟨{ s with volume := volume' }, by rw [changing, hrun], ⟨rfl, fun q hq => ?_⟩, ?_⟩
    · exact (hat q).trans (if_neg hq)
    · exact Volume.data?_of_file ((hat _).trans (if_pos rfl))
  show ∃ s', write path data s = _ ∧ _
  simp only [write, Faults.leaves]
  rcases htorn : s.faults.torn (normalize path) with _ | _ | left
  · simpa using hwrite data
  · exact ⟨s, by simp, ⟨rfl, fun _ _ => rfl⟩, h⟩
  · obtain ⟨s', hrun, hsame, hdata⟩ := hwrite left
    exact ⟨s', by simp [hrun], hsame, hdata⟩

/-- Removing what is there takes it away with what is under it, unless it is refused. -/
theorem remove_run (path : FilePath) (h : (s.at? (normalize path)).isSome) : ∃ s',
    (FileSystem.remove path : Effect FaultyVolume PlatformError Unit) s =
        (if s.faults.stuck (normalize path) then .error Volume.ioError else .ok (), s') ∧
      Same (fun q => ¬ normalize path <+: q) s s' ∧
      (s.faults.stuck (normalize path) = false →
        ∀ q, s'.at? q = if normalize path <+: q ∧ q ≠ [] then none else s.at? q) := by
  show ∃ s', erase path s = _ ∧ _
  by_cases hstuck : s.faults.stuck (normalize path)
  · exact ⟨s, by simp [erase, hstuck], ⟨rfl, fun _ _ => rfl⟩, by simp [hstuck]⟩
  · obtain ⟨volume', hrun⟩ := Volume.exists_remove h
    have hat := Volume.remove_ok hrun
    refine ⟨{ s with volume := volume' }, ?_, ⟨rfl, fun q hq => ?_⟩, fun _ => hat⟩
    · simp only [erase, hstuck, Bool.false_eq_true, if_false, changing, hrun]
    · exact (hat q).trans (if_neg fun hle => hq hle.1)

end FaultyVolume
