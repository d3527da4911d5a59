import Akua.Lib.Disk
import Mathlib.Data.List.Induction

/-! A file system in memory that hangs together: every entry is at a clean path, in a directory. The
    operations are those of a `Disk`, and one that would leave an entry without its directory is
    refused. Its lemmas say what each operation leaves at each path. -/

namespace FilePath

/-- Joining a name goes one level down, from where the path leads. -/
theorem join_name {path : FilePath} {name : String} (h : Plain name) :
    join path name = normalize path ++ [name] := by
  rw [join, Text.split_of_not_mem h.2.2.2, normalize, List.foldl_append, ← normalize]
  exact push_plain h

@[simp] theorem normalize_join (path : FilePath) (rel : String) :
    normalize (join path rel) = join path rel := normalize_normalize _

end FilePath

/-- Every entry is at a clean path, in a directory. -/
def Disk.Sound (disk : Disk) : Prop :=
  ∀ path ∈ disk.nodes.keys,
    path ≠ [] ∧ FilePath.Normal path ∧ disk.at? (FilePath.dirname path) = some .directory

instance (disk : Disk) : Decidable disk.Sound :=
  inferInstanceAs (Decidable (∀ _ ∈ disk.nodes.keys, _))

structure Volume where
  disk : Disk
  sound : disk.Sound

namespace Volume

open FilePath

def ioError : PlatformError := ⟨.other, "input/output error"⟩

/-- An operation of the disk, refused when what it leaves does not hang together. -/
def lift {α : Type} (m : Effect Disk PlatformError α) : Effect Volume PlatformError α := fun volume =>
  if h : (m volume.disk).2.Sound then ((m volume.disk).1, ⟨(m volume.disk).2, h⟩)
  else (.error ioError, volume)

instance : FileSystem Volume where
  fileExists path volume := FileSystem.fileExists path volume.disk
  stat path volume := FileSystem.stat path volume.disk
  realPath path volume := FileSystem.realPath path volume.disk
  readFile path volume := FileSystem.readFile path volume.disk
  readDirectory path volume := FileSystem.readDirectory path volume.disk
  readDirectoryRecursive path volume := FileSystem.readDirectoryRecursive path volume.disk
  makeDirectory path := lift (FileSystem.makeDirectory path)
  makeTempDirectory parent stem := lift (FileSystem.makeTempDirectory parent stem)
  writeFile path data := lift (FileSystem.writeFile path data)
  copyFile source target := lift (FileSystem.copyFile source target)
  rename source target := lift (FileSystem.rename source target)
  remove path := lift (FileSystem.remove path)

/-- The entry at a clean path. -/
def at? (volume : Volume) (path : FilePath) : Option Node := volume.disk.at? path

/-- The bytes of the file at a clean path. -/
def data? (volume : Volume) (path : FilePath) : Option Bytes :=
  match volume.at? path with
  | some (.file data _) => some data
  | _ => none

variable {volume volume' : Volume} {path : FilePath} {name : String} {node : Node}

theorem at?_nil : volume.at? [] = some .directory := rfl

theorem data?_of_file {data : Bytes} {mode : Nat} (h : volume.at? path = some (.file data mode)) :
    volume.data? path = some data := by
  simp [data?, h]

theorem data?_of_directory (h : volume.at? path = some .directory) : volume.data? path = none := by
  simp [data?, h]

theorem data?_of_none (h : volume.at? path = none) : volume.data? path = none := by
  simp [data?, h]

theorem data?_congr {other : FilePath} (h : volume'.at? other = volume.at? path) :
    volume'.data? other = volume.data? path := by
  simp [data?, h]

/-! ### Entries and their directories -/

theorem not_entry_prefix : ¬ path ++ [name] <+: path := by
  intro hle
  have hlength := hle.length_le
  rw [List.length_append, List.length_singleton] at hlength
  omega

theorem mem_keys_of_at? (h : volume.at? path = some node) (hne : path ≠ []) :
    path ∈ volume.disk.nodes.keys := by
  by_contra hkey
  rw [at?, Disk.at?, if_neg hne, Table.get?_eq_none.mpr hkey] at h
  cases h

theorem normal_of_at? (h : volume.at? path = some node) : Normal path := by
  by_cases hne : path = []
  · subst hne
    exact fun _ hc => absurd hc List.not_mem_nil
  · exact (volume.sound path (mem_keys_of_at? h hne)).2.1

theorem directory_of_entry (h : volume.at? (path ++ [name]) = some node) :
    volume.at? path = some .directory := by
  have hdir := (volume.sound _ (mem_keys_of_at? h (by simp))).2.2
  rwa [dirname, List.dropLast_concat] at hdir

theorem plain_of_entry (h : volume.at? (path ++ [name]) = some node) : Plain name :=
  normal_of_at? h name (by simp)

/-- What an entry is below is a directory. -/
theorem directory_of_below : ∀ {rel : List String}, rel ≠ [] →
    volume.at? (path ++ rel) = some node → volume.at? path = some .directory := by
  intro rel
  induction rel using List.reverseRecOn generalizing node with
  | nil => exact fun h => absurd rfl h
  | append_singleton rel name ih =>
    intro _ h
    rw [← List.append_assoc] at h
    have hdir := directory_of_entry h
    by_cases hrel : rel = []
    · rwa [hrel, List.append_nil] at hdir
    · exact ih hrel hdir

theorem at?_below_file {data : Bytes} {mode : Nat} {rel : List String}
    (h : volume.at? path = some (.file data mode)) (hrel : rel ≠ []) : volume.at? (path ++ rel) = none := by
  rcases hnode : volume.at? (path ++ rel) with _ | node
  · rfl
  · rw [directory_of_below hrel hnode] at h
    cases h

theorem at?_below_none {rel : List String} (h : volume.at? path = none) :
    volume.at? (path ++ rel) = none := by
  by_cases hrel : rel = []
  · rwa [hrel, List.append_nil]
  · rcases hnode : volume.at? (path ++ rel) with _ | node
    · rfl
    · rw [directory_of_below hrel hnode] at h
      cases h

/-- The directories above a directory. -/
theorem directory_of_prefix {above : FilePath} (h : volume.at? path = some .directory)
    (hle : above <+: path) : volume.at? above = some .directory := by
  obtain ⟨rel, rfl⟩ := hle
  by_cases hrel : rel = []
  · rwa [hrel, List.append_nil] at h
  · exact directory_of_below hrel h

/-! ### Looking -/

theorem stat_ok {info : FileInfo} :
    FileSystem.stat path volume = (.ok info : Except PlatformError FileInfo) ↔
      ∃ node, volume.at? (normalize path) = some node ∧ info = match node with
        | .directory => ⟨.directory, Disk.DIRECTORY_MODE⟩
        | .file _ mode => ⟨.file, mode⟩ := by
  simp only [FileSystem.stat, at?, Disk.node?]
  rcases volume.disk.at? (normalize path) with _ | _ | _ <;> simp [eq_comm]

theorem realPath_ok {real : FilePath} :
    FileSystem.realPath path volume = (.ok real : Except PlatformError FilePath) ↔
      (volume.at? (normalize path)).isSome ∧ real = normalize path := by
  simp only [FileSystem.realPath, at?, Disk.node?]
  rcases volume.disk.at? (normalize path) with _ | node <;> simp [eq_comm]

theorem readFile_ok {data : Bytes} :
    FileSystem.readFile path volume = (.ok data : Except PlatformError Bytes) ↔
      volume.data? (normalize path) = some data := by
  simp only [FileSystem.readFile, data?, at?, Disk.node?]
  rcases volume.disk.at? (normalize path) with _ | _ | _ <;> simp

theorem fileExists_run :
    FileSystem.fileExists path volume =
      (.ok (volume.at? (normalize path)).isSome : Except PlatformError Bool) := rfl

theorem mem_below {directory : FilePath} {rel : List String} (hrel : rel ≠ []) :
    rel ∈ volume.disk.below directory ↔ (volume.at? (directory ++ rel)).isSome := by
  have hkey : directory ++ rel ∈ volume.disk.nodes.keys ↔ (volume.at? (directory ++ rel)).isSome := by
    rw [at?, Disk.at?, if_neg (by simp [hrel]), ← Table.has_iff, Table.has]
  rw [← hkey, Disk.below, List.mem_map]
  simp only [List.mem_filter, ne_eq, decide_eq_true_eq]
  constructor
  · rintro ⟨key, ⟨hmem, ⟨rest, rfl⟩, -⟩, rfl⟩
    rwa [List.drop_left]
  · intro hmem
    exact ⟨_, ⟨hmem, List.prefix_append _ _, by simp [hrel]⟩, List.drop_left⟩

theorem ne_nil_of_mem_below {directory : FilePath} {rel : List String}
    (h : rel ∈ volume.disk.below directory) : rel ≠ [] := by
  obtain ⟨key, hkey, rfl⟩ := List.mem_map.mp h
  simp only [List.mem_filter, ne_eq, decide_eq_true_eq] at hkey
  obtain ⟨-, ⟨rest, rfl⟩, hne⟩ := hkey
  rw [List.drop_left]
  rintro rfl
  exact hne (List.append_nil _)

theorem nodup_below (directory : FilePath) : (volume.disk.below directory).Nodup := by
  refine List.Nodup.map_on ?_ (List.Nodup.filter _ volume.disk.nodes.nodup)
  intro a ha b hb hdrop
  simp only [List.mem_filter, decide_eq_true_eq] at ha hb
  obtain ⟨⟨rest, rfl⟩, -⟩ := ha.2
  obtain ⟨⟨rest', rfl⟩, -⟩ := hb.2
  rw [List.drop_left, List.drop_left] at hdrop
  rw [hdrop]

/-- The name of an entry one level down. -/
def childName? (rel : List String) : Option String := if rel.length = 1 then rel.head? else none

theorem childName?_eq_some {rel : List String} {name : String} :
    childName? rel = some name ↔ rel = [name] := by
  match rel with
  | [] => simp [childName?]
  | [c] => simp [childName?]
  | _ :: _ :: _ => simp [childName?]

/-- The names in a directory are those of its entries. -/
theorem readDirectory_ok {names : List String}
    (h : FileSystem.readDirectory path volume = (.ok names : Except PlatformError (List String))) :
    volume.at? (normalize path) = some .directory ∧ names.Nodup ∧
      ∀ name, name ∈ names ↔ (volume.at? (normalize path ++ [name])).isSome := by
  have hat : ∀ p, volume.disk.at? p = volume.at? p := fun _ => rfl
  simp only [FileSystem.readDirectory, Disk.node?, hat] at h
  rcases hnode : volume.at? (normalize path) with _ | _ | _ <;> rw [hnode] at h <;> cases h
  refine ⟨rfl, ?_, fun name => ?_⟩
  · refine List.Nodup.filterMap ?_ (nodup_below _)
    intro rel rel' name hrel hrel'
    rw [childName?_eq_some.mp hrel, childName?_eq_some.mp hrel']
  · rw [← mem_below (List.cons_ne_nil name []), List.mem_filterMap]
    constructor
    · rintro ⟨rel, hmem, hname⟩
      rwa [← childName?_eq_some.mp hname]
    · intro hmem
      exact ⟨[name], hmem, rfl⟩

theorem readDirectoryRecursive_ok {entries : List String}
    (h : FileSystem.readDirectoryRecursive path volume =
      (.ok entries : Except PlatformError (List String))) :
    volume.at? (normalize path) = some .directory ∧
      ∀ entry, entry ∈ entries ↔ ∃ rel, rel ≠ [] ∧ entry = Text.join rel '/' ∧
        (volume.at? (normalize path ++ rel)).isSome := by
  have hat : ∀ p, volume.disk.at? p = volume.at? p := fun _ => rfl
  simp only [FileSystem.readDirectoryRecursive, Disk.node?, hat] at h
  rcases hnode : volume.at? (normalize path) with _ | _ | _ <;> rw [hnode] at h <;> cases h
  refine ⟨rfl, fun entry => ?_⟩
  rw [List.mem_map]
  constructor
  · rintro ⟨rel, hmem, rfl⟩
    have hne := ne_nil_of_mem_below hmem
    exact ⟨rel, hne, rfl, (mem_below hne).mp hmem⟩
  · rintro ⟨rel, hne, rfl, hsome⟩
    exact ⟨rel, (mem_below hne).mpr hsome, rfl⟩

/-! ### Changing -/

/-- A lifted operation that succeeds did what it does on the disk. -/
theorem lift_ok {α : Type} {m : Effect Disk PlatformError α} {a : α}
    (h : lift m volume = (.ok a, volume')) : m volume.disk = (.ok a, volume'.disk) := by
  unfold lift at h
  split at h
  · obtain ⟨hresult, hvolume⟩ := Prod.mk.inj h
    rw [← hvolume, ← hresult]
  · cases h

theorem change_ok {f : Disk → Except PlatformError Disk} {disk disk' : Disk}
    (h : Disk.change f disk = (.ok (), disk')) : f disk = .ok disk' := by
  unfold Disk.change at h
  rcases hf : f disk with e | out <;> rw [hf] at h <;> cases h
  rfl

/-- The paths from `base` down along `rest`: `base`, and those from one step below it. -/
theorem between_iff {base : FilePath} {rest : List String} {q : FilePath} :
    base <+: q ∧ q <+: base ++ name :: rest ↔
      q = base ∨ (base ++ [name] <+: q ∧ q <+: base ++ [name] ++ rest) := by
  rw [List.append_assoc, List.singleton_append]
  constructor
  · rintro ⟨⟨rel, rfl⟩, hq⟩
    rw [List.prefix_append_right_inj] at hq
    obtain _ | ⟨c, rel⟩ := rel
    · exact .inl (List.append_nil _)
    · obtain ⟨rfl, -⟩ := List.cons_prefix_cons.mp hq
      exact .inr ⟨⟨rel, by simp⟩, (List.prefix_append_right_inj _).mpr hq⟩
  · rintro (rfl | ⟨hle, hq⟩)
    · exact ⟨List.prefix_rfl, List.prefix_append _ _⟩
    · exact ⟨(List.prefix_append _ _).trans hle, hq⟩

/-- Making directories from one that is there makes those below it and changes nothing else. -/
theorem at?_makeDirectories : ∀ {rest : List String} {base : FilePath} {disk disk' : Disk},
    disk.at? base = some .directory → Disk.makeDirectories base rest disk = .ok disk' →
    ∀ q, (base <+: q ∧ q <+: base ++ rest → disk'.at? q = some .directory) ∧
      (¬ (base <+: q ∧ q <+: base ++ rest) → disk'.at? q = disk.at? q) := by
  intro rest
  induction rest with
  | nil =>
    intro base disk disk' hbase h q
    cases h
    refine ⟨fun ⟨hle, hq⟩ => ?_, fun _ => rfl⟩
    rw [List.append_nil] at hq
    rw [hq.eq_of_length_le hle.length_le, hbase]
  | cons name rest ih =>
    intro base disk disk' hbase h q
    -- one step down, the directory is there or has been made
    obtain ⟨next, hnext, hat⟩ : ∃ next : Disk, Disk.makeDirectories (base ++ [name]) rest next = .ok disk' ∧
        ∀ q, next.at? q = if q = base ++ [name] then some .directory else disk.at? q := by
      rw [Disk.makeDirectories] at h
      rcases hnode : disk.at? (base ++ [name]) with _ | _ | _ <;> rw [hnode] at h
      · refine ⟨_, h, fun q => ?_⟩
        by_cases hq : q = []
        · simp [hq, Disk.at?]
        · exact Disk.at?_put hq
      · cases h
      · refine ⟨disk, h, fun q => ?_⟩
        split
        · rename_i hq
          rw [hq, hnode]
        · rfl
    obtain ⟨hbelow, helse⟩ := ih (by rw [hat, if_pos rfl]) hnext q
    rw [between_iff]
    constructor
    · rintro (rfl | hq)
      · rw [helse (fun hq => not_entry_prefix hq.1), hat, if_neg (by simp), hbase]
      · exact hbelow hq
    · intro hq
      rw [not_or] at hq
      rw [helse hq.2, hat, if_neg]
      rintro rfl
      exact hq.2 ⟨List.prefix_rfl, List.prefix_append _ _⟩

/-- `makeDirectory` makes the path and what is above it directories, and changes nothing else. -/
theorem makeDirectory_ok
    (h : (FileSystem.makeDirectory path : Effect Volume PlatformError Unit) volume = (.ok (), volume')) :
    ∀ q, volume'.at? q = if q <+: normalize path then some .directory else volume.at? q := by
  intro q
  obtain ⟨hmade, hkept⟩ := at?_makeDirectories rfl (change_ok (lift_ok h)) q
  simp only [List.nil_prefix, List.nil_append, true_and] at hmade hkept
  split
  · exact hmade ‹_›
  · exact hkept ‹_›

/-- `write` puts a file where none or another was. -/
theorem at?_write {target : FilePath} {data : Bytes} {mode : Nat} {disk disk' : Disk}
    (h : Disk.write target data mode disk = .ok disk') :
    disk.at? target ≠ some .directory ∧
      ∃ mode', ∀ q, disk'.at? q = if q = target then some (.file data mode') else disk.at? q := by
  have hput : ∀ mode', target ≠ [] → ∀ q, (disk.put target (.file data mode')).at? q =
      if q = target then some (.file data mode') else disk.at? q := by
    intro mode' hne q
    by_cases hq : q = []
    · rw [hq, if_neg (Ne.symm hne)]
      rfl
    · exact Disk.at?_put hq
  have hne : disk.at? target ≠ some .directory → target ≠ [] := by
    rintro hdir rfl
    exact hdir rfl
  unfold Disk.write at h
  split at h
  · rename_i hnone
    cases h
    have hdir : disk.at? target ≠ some .directory := by simp [hnone]
    exact ⟨hdir, _, hput _ (hne hdir)⟩
  · rename_i hfile
    cases h
    have hdir : disk.at? target ≠ some .directory := by simp [hfile]
    exact ⟨hdir, _, hput _ (hne hdir)⟩
  all_goals cases h

theorem writeFile_ok {data : Bytes}
    (h : (FileSystem.writeFile path data : Effect Volume PlatformError Unit) volume =
      (.ok (), volume')) :
    volume.at? (normalize path) ≠ some .directory ∧
      ∃ mode, ∀ q, volume'.at? q =
        if q = normalize path then some (.file data mode) else volume.at? q :=
  at?_write (change_ok (lift_ok h))

theorem copyFile_ok {target : FilePath}
    (h : (FileSystem.copyFile path target : Effect Volume PlatformError Unit) volume =
      (.ok (), volume')) :
    ∃ data, volume.data? (normalize path) = some data ∧
      volume.at? (normalize target) ≠ some .directory ∧
      ∃ mode, ∀ q, volume'.at? q =
        if q = normalize target then some (.file data mode) else volume.at? q := by
  have hcopy := change_ok (lift_ok h)
  simp only [Disk.node?] at hcopy
  split at hcopy
  · cases hcopy
  · cases hcopy
  · rename_i data mode hsource
    exact ⟨data, data?_of_file hsource, at?_write hcopy⟩

/-- `remove` takes away the path and what is below it, and changes nothing else. -/
theorem remove_ok
    (h : (FileSystem.remove path : Effect Volume PlatformError Unit) volume = (.ok (), volume')) :
    ∀ q, volume'.at? q = if normalize path <+: q ∧ q ≠ [] then none else volume.at? q := by
  intro q
  have hremove := change_ok (lift_ok h)
  simp only [Disk.node?] at hremove
  split at hremove
  · cases hremove
  have hdisk := Except.ok.inj hremove
  rw [at?, ← hdisk]
  by_cases hroot : normalize path = []
  · rw [hroot]
    by_cases hq : q = []
    · subst hq
      rfl
    · rw [if_pos ⟨List.nil_prefix, hq⟩, Disk.at?, if_neg hq, Table.get?_eq_none]
      intro hkey
      obtain ⟨e, he, -⟩ := List.mem_map.mp hkey
      simp [Disk.without] at he
  · rw [Disk.at?_without hroot]
    by_cases hunder : normalize path <+: q
    · have hq : q ≠ [] := by
        rintro rfl
        exact hroot (List.prefix_nil.mp hunder)
      rw [if_pos hunder, if_pos ⟨hunder, hq⟩]
    · rw [if_neg hunder, if_neg fun hboth => hunder hboth.1]
      rfl

/-- `makeTempDirectory` makes a directory of a name that was free, and changes nothing else. -/
theorem makeTempDirectory_ok {parent : FilePath} {stem : String}
    (h : (FileSystem.makeTempDirectory parent stem : Effect Volume PlatformError FilePath) volume =
      (.ok path, volume')) :
    (∃ suffix, path = normalize parent ++ [stem ++ suffix]) ∧ volume.at? path = none ∧
      ∀ q, volume'.at? q = if q = path then some .directory else volume.at? q := by
  have hmake := lift_ok h
  simp only [FileSystem.makeTempDirectory] at hmake
  split at hmake
  · obtain ⟨hpath, hdisk⟩ := Prod.mk.inj hmake
    obtain rfl := Except.ok.inj hpath
    refine ⟨⟨_, rfl⟩, Disk.at?_freshName _ _ _, fun q => ?_⟩
    rw [at?, ← hdisk]
    by_cases hq : q = []
    · subst hq
      rw [if_neg (by simp)]
      rfl
    · exact Disk.at?_put hq
  · cases hmake

/-- `rename` puts what is at and under `path` at and under `target`, where nothing was. -/
theorem rename_ok {target : FilePath} (hout : ¬ normalize path <+: normalize target)
    (h : (FileSystem.rename path target : Effect Volume PlatformError Unit) volume = (.ok (), volume')) :
    volume.at? (normalize target) = none ∧ ∀ q, volume'.at? q =
      if normalize target <+: q then volume.at? (normalize path ++ q.drop (normalize target).length)
      else if normalize path <+: q then none else volume.at? q :=
  have hbelow : ∀ rel, volume.at? (normalize target) = none → volume.at? (normalize target ++ rel) = none :=
    fun _ => at?_below_none
  Disk.at?_move hout hbelow (change_ok (lift_ok h))

/-- An operation that leaves the disk as it was when it fails leaves the volume so. -/
theorem lift_error {α : Type} {m : Effect Disk PlatformError α} {e : PlatformError}
    (hm : ∀ error disk', m volume.disk = (.error error, disk') → disk' = volume.disk)
    (h : lift m volume = (.error e, volume')) : volume' = volume := by
  unfold lift at h
  split at h
  · obtain ⟨hresult, hvolume⟩ := Prod.mk.inj h
    have hdisk := hm e (m volume.disk).2 (Prod.ext hresult rfl)
    subst hvolume
    cases volume
    simp only at hdisk
    simp only [hdisk]
  · exact (Prod.mk.inj h).2.symm

/-- A change that fails leaves the volume as it was. -/
theorem change_error {f : Disk → Except PlatformError Disk} {e : PlatformError}
    (h : lift (Disk.change f) volume = (.error e, volume')) : volume' = volume := by
  refine lift_error (fun error disk' hrun => ?_) h
  unfold Disk.change at hrun
  split at hrun
  · cases hrun
  · exact (Prod.mk.inj hrun).2.symm

theorem makeTempDirectory_error {parent : FilePath} {stem : String} {e : PlatformError}
    (h : (FileSystem.makeTempDirectory parent stem : Effect Volume PlatformError FilePath) volume =
      (.error e, volume')) : volume' = volume := by
  refine lift_error (fun error disk' hrun => ?_) h
  simp only [FileSystem.makeTempDirectory] at hrun
  split at hrun
  · cases hrun
  · exact (Prod.mk.inj hrun).2.symm

end Volume
