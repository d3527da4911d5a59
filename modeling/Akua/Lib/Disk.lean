import Akua.Lib.FileSystem
import Akua.Lib.Naming
import Akua.Lib.Table

/-! A file system in memory: its files and directories by their paths. It has no links, so a path
    leads where its cleaned form says. -/

/-- What a path leads to. -/
inductive Node where
  | file (data : Bytes) (mode : Nat)
  | directory
deriving DecidableEq

/-- The root directory is there without an entry. -/
structure Disk where
  nodes : Table FilePath Node
deriving DecidableEq

namespace Disk

def notFound : PlatformError := ⟨.notFound, "no such file or directory"⟩
def exists' : PlatformError := ⟨.alreadyExists, "file exists"⟩
def notDirectory : PlatformError := ⟨.other, "not a directory"⟩
def isDirectory : PlatformError := ⟨.other, "is a directory"⟩

/-- The entry at a clean path. -/
def at? (disk : Disk) (path : FilePath) : Option Node :=
  if path = [] then some .directory else disk.nodes.get? path

/-- Where a path leads. -/
def node? (disk : Disk) (path : FilePath) : Option Node := disk.at? (FilePath.normalize path)

/-- The entries under a directory, relative to it. -/
def below (disk : Disk) (directory : FilePath) : List FilePath :=
  (disk.nodes.keys.filter fun path => directory <+: path ∧ path ≠ directory).map
    fun path => path.drop directory.length

def put (disk : Disk) (path : FilePath) (node : Node) : Disk := ⟨disk.nodes.set path node⟩

/-- Make the directories from `base` down to the end of `rest`. -/
def makeDirectories (base : FilePath) : List String → Disk → Except PlatformError Disk
  | [], disk => .ok disk
  | name :: rest, disk =>
    match disk.at? (base ++ [name]) with
    | some .directory => makeDirectories (base ++ [name]) rest disk
    | some (.file _ _) => .error notDirectory
    | none => makeDirectories (base ++ [name]) rest (disk.put (base ++ [name]) .directory)

/-- Write a file in a directory that is there. A file that is there keeps its mode. -/
def write (path : FilePath) (data : Bytes) (mode : Nat) (disk : Disk) : Except PlatformError Disk :=
  match disk.at? (FilePath.dirname path), disk.at? path with
  | some .directory, none => .ok (disk.put path (.file data mode))
  | some .directory, some (.file _ mode) => .ok (disk.put path (.file data mode))
  | some .directory, some .directory => .error isDirectory
  | some (.file _ _), _ => .error notDirectory
  | none, _ => .error notFound

/-- The entries that `path` does not lead to. -/
def without (disk : Disk) (path : FilePath) : Disk where
  nodes :=
    { entries := disk.nodes.entries.filter fun e => ¬ path <+: e.1
      nodup := disk.nodes.nodup.sublist (List.Sublist.map _ List.filter_sublist) }

/-- The entries at and under `source`, moved to `target`. -/
def move (source target : FilePath) (disk : Disk) : Except PlatformError Disk :=
  match disk.at? source, disk.at? target with
  | none, _ => .error notFound
  | some _, some _ => .error exists'
  | some _, none =>
    let moved := disk.nodes.entries.filter fun e => source <+: e.1
    .ok (moved.foldl (fun d e => d.put (target ++ e.1.drop source.length) e.2)
      (disk.without source))

/-- Change the disk, or leave it and fail. -/
def change (f : Disk → Except PlatformError Disk) : Effect Disk PlatformError Unit := fun disk =>
  match f disk with
  | .ok disk' => (.ok (), disk')
  | .error error => (.error error, disk)

/-- The first unused name for a temporary directory. -/
def freshName (disk : Disk) (parent : FilePath) (stem : String) : String :=
  let used (k : Nat) := (disk.at? (parent ++ [stem ++ toString k])).isSome
  stem ++ toString (((List.range (disk.nodes.entries.length + 1)).find? fun k => !used k).getD 0)

def FILE_MODE : Nat := 0o644
def DIRECTORY_MODE : Nat := 0o755

instance : FileSystem Disk where
  fileExists path disk := .ok (disk.node? path).isSome
  stat path disk :=
    match disk.node? path with
    | none => .error notFound
    | some .directory => .ok ⟨.directory, DIRECTORY_MODE⟩
    | some (.file _ mode) => .ok ⟨.file, mode⟩
  realPath path disk :=
    match disk.node? path with
    | none => .error notFound
    | some _ => .ok (FilePath.normalize path)
  readFile path disk :=
    match disk.node? path with
    | none => .error notFound
    | some .directory => .error isDirectory
    | some (.file data _) => .ok data
  readDirectory path disk :=
    match disk.node? path with
    | none => .error notFound
    | some (.file _ _) => .error notDirectory
    | some .directory => .ok ((disk.below (FilePath.normalize path)).filterMap fun rel =>
        if rel.length = 1 then rel.head? else none)
  readDirectoryRecursive path disk :=
    match disk.node? path with
    | none => .error notFound
    | some (.file _ _) => .error notDirectory
    | some .directory => .ok ((disk.below (FilePath.normalize path)).map fun rel => Text.join rel '/')
  makeDirectory path := change (makeDirectories [] (FilePath.normalize path))
  makeTempDirectory parent stem := fun disk =>
    let path := FilePath.normalize parent ++ [freshName disk (FilePath.normalize parent) stem]
    match disk.at? (FilePath.normalize parent) with
    | some .directory => (.ok path, disk.put path .directory)
    | _ => (.error notFound, disk)
  writeFile path data := change (write (FilePath.normalize path) data FILE_MODE)
  copyFile source target := change fun disk =>
    match disk.node? source with
    | none => .error notFound
    | some .directory => .error isDirectory
    | some (.file data mode) => write (FilePath.normalize target) data mode disk
  rename source target := change (move (FilePath.normalize source) (FilePath.normalize target))
  remove path := change fun disk =>
    match disk.node? path with
    | none => .error notFound
    | some _ => .ok (disk.without (FilePath.normalize path))

/-- A disk with these files and the directories above them. -/
def ofFiles (files : List (String × String)) : Disk :=
  files.foldl (fun disk file =>
    let path := FilePath.append [] file.1
    let made := (makeDirectories [] (FilePath.dirname path) disk).toOption.getD disk
    made.put path (.file (encodeText file.2) FILE_MODE)) ⟨Table.empty⟩

/-! ### What a path leads to -/

theorem at?_put {disk : Disk} {path path' : FilePath} {node : Node} (h : path' ≠ []) :
    (disk.put path node).at? path' = if path' = path then some node else disk.at? path' := by
  simp [at?, put, h]

theorem readFile_of_node {disk : Disk} {path : FilePath} {data : Bytes} {mode : Nat}
    (h : disk.node? path = some (.file data mode)) :
    FileSystem.readFile path disk = (.ok data : Except PlatformError Bytes) := by
  simp only [FileSystem.readFile, h]

theorem fileExists_of_node {disk : Disk} {path : FilePath} {node : Node}
    (h : disk.node? path = some node) :
    FileSystem.fileExists path disk = (.ok true : Except PlatformError Bool) := by
  simp [FileSystem.fileExists, h]

/-- A real path is its own real path. -/
theorem realPath_canonical {disk : Disk} {path real : FilePath}
    (h : FileSystem.realPath path disk = (.ok real : Except PlatformError FilePath)) :
    FileSystem.realPath real disk = (.ok real : Except PlatformError FilePath) := by
  simp only [FileSystem.realPath] at h ⊢
  rcases hnode : disk.node? path with _ | node <;> rw [hnode] at h <;> cases h
  have hreal : disk.node? (FilePath.normalize path) = some node := by
    rw [node?, FilePath.normalize_normalize]
    exact hnode
  rw [hreal, FilePath.normalize_normalize]

/-- Of more numbers than there are entries, one makes a free name. -/
theorem at?_freshName (disk : Disk) (parent : FilePath) (stem : String) :
    disk.at? (parent ++ [disk.freshName parent stem]) = none := by
  rw [freshName]
  simp only
  rcases hfind : (List.range (disk.nodes.entries.length + 1)).find? fun k =>
    !(disk.at? (parent ++ [stem ++ toString k])).isSome with _ | k
  · have hused : ∀ k < disk.nodes.entries.length + 1, parent ++ [stem ++ toString k] ∈ disk.nodes.keys := by
      intro k hk
      have hk := List.find?_eq_none.mp hfind k (List.mem_range.mpr hk)
      by_contra hfree
      rw [at?, if_neg (by simp), Table.get?_eq_none.mpr hfree] at hk
      exact hk rfl
    have hinj : Function.Injective fun k : Nat => parent ++ [stem ++ toString k] := by
      intro i j hij
      have hname : stem ++ toString i = stem ++ toString j := List.head_eq_of_cons_eq (List.append_cancel_left hij)
      have hstem := congrArg String.toList hname
      rw [String.toList_append, String.toList_append, List.append_cancel_left_eq] at hstem
      exact Naming.toString_injective hstem
    have hsub : (List.range (disk.nodes.entries.length + 1)).map
        (fun k => parent ++ [stem ++ toString k]) ⊆ disk.nodes.keys := by
      intro q hq
      obtain ⟨k, hk, rfl⟩ := List.mem_map.mp hq
      exact hused k (List.mem_range.mp hk)
    have hlen := (List.subperm_of_subset (List.nodup_range.map hinj) hsub).length_le
    rw [List.length_map, List.length_range, Table.keys, List.length_map] at hlen
    omega
  · have hk := List.find?_some hfind
    rw [Option.getD_some]
    simpa using hk

theorem at?_foldl_put (f : FilePath → FilePath) {q : FilePath} (hq : q ≠ []) (entries : List (FilePath × Node)) :
    ∀ disk : Disk, (entries.foldl (fun d e => d.put (f e.1) e.2) disk).at? q =
      ((entries.reverse.find? fun e => f e.1 = q).map Prod.snd).or (disk.at? q) := by
  induction entries with
  | nil => exact fun _ => rfl
  | cons e entries ih =>
    intro disk
    rw [List.foldl_cons, ih, at?_put hq, List.reverse_cons, List.find?_append]
    by_cases he : f e.1 = q
    · cases hfind : entries.reverse.find? fun e => f e.1 = q <;> simp [he]
    · cases hfind : entries.reverse.find? fun e => f e.1 = q <;> simp [he, Ne.symm he]

theorem at?_without {disk : Disk} {path : FilePath} (hpath : path ≠ []) (q : FilePath) :
    (disk.without path).at? q = if path <+: q then none else disk.at? q := by
  by_cases hq : q = []
  · subst hq
    rw [if_neg (by simpa using hpath)]
    rfl
  have hwithout : ∀ entry, entry ∈ (disk.without path).nodes.entries ↔
      entry ∈ disk.nodes.entries ∧ ¬ path <+: entry.1 := by
    intro entry
    simp [without]
  rw [at?, at?, if_neg hq, if_neg hq]
  ext node
  rw [Table.get?_eq_some, hwithout]
  split
  · rename_i hunder
    simp [hunder]
  · rename_i hunder
    rw [Table.get?_eq_some]
    exact and_iff_left hunder

/-- Moving puts what is at and under `source` at and under `target`, where nothing was. -/
theorem at?_move {disk disk' : Disk} {source target : FilePath} (hout : ¬ source <+: target)
    (hbelow : ∀ rel, disk.at? target = none → disk.at? (target ++ rel) = none)
    (h : move source target disk = .ok disk') :
    disk.at? target = none ∧ ∀ q, disk'.at? q = if target <+: q then disk.at? (source ++ q.drop target.length)
      else if source <+: q then none else disk.at? q := by
  have hsource : source ≠ [] := fun hnil => hout (hnil ▸ List.nil_prefix)
  unfold move at h
  split at h
  · cases h
  · cases h
  rename_i hnone
  have htarget : target ≠ [] := by
    rintro rfl
    cases hnone
  refine ⟨hnone, fun q => ?_⟩
  rw [← Except.ok.inj h]
  by_cases hq : q = []
  · subst hq
    rw [if_neg (by simpa using htarget), if_neg (by simpa using hsource)]
    rfl
  have hput := at?_foldl_put (fun p => target ++ p.drop source.length) hq
    (disk.nodes.entries.filter fun e => source <+: e.1) (disk.without source)
  rw [at?_without hsource] at hput
  refine Eq.trans hput ?_
  by_cases hunder : target <+: q
  · obtain ⟨rel, rfl⟩ := hunder
    have hbase : (if source <+: target ++ rel then none else disk.at? (target ++ rel)) = none := by
      rw [hbelow rel hnone, ite_self]
    have hentry : disk.at? (source ++ rel) = disk.nodes.get? (source ++ rel) := by
      rw [at?, if_neg (by simp [hsource])]
    rw [hbase, Option.or_none, if_pos (List.prefix_append _ _), List.drop_left, hentry]
    -- the entry that lands here is the one at the same place under `source`
    ext node
    rw [Option.map_eq_some_iff, Table.get?_eq_some]
    have hlands : ∀ e : FilePath × Node, source <+: e.1 →
        (target ++ e.1.drop source.length = target ++ rel ↔ e.1 = source ++ rel) := by
      rintro ⟨p, n⟩ ⟨more, rfl⟩
      simp
    constructor
    · rintro ⟨e, hfind, rfl⟩
      have hmem := List.mem_reverse.mp (List.mem_of_find?_eq_some hfind)
      obtain ⟨hentry, hsource⟩ := List.mem_filter.mp hmem
      have he := (hlands e (by simpa using hsource)).mp (by simpa using List.find?_some hfind)
      rw [← he]
      exact hentry
    · intro hmem
      have hfound : ((disk.nodes.entries.filter fun e => source <+: e.1).reverse.find? fun e =>
          target ++ e.1.drop source.length = target ++ rel).isSome := by
        rw [List.find?_isSome]
        exact ⟨_, List.mem_reverse.mpr (List.mem_filter.mpr ⟨hmem, by simp⟩), by simp⟩
      obtain ⟨e, hfind⟩ := Option.isSome_iff_exists.mp hfound
      have hmem' := List.mem_reverse.mp (List.mem_of_find?_eq_some hfind)
      obtain ⟨hentry, hsource⟩ := List.mem_filter.mp hmem'
      have he := (hlands e (by simpa using hsource)).mp (by simpa using List.find?_some hfind)
      obtain rfl : e = (source ++ rel, node) := List.inj_on_of_nodup_map disk.nodes.nodup hentry hmem he
      exact ⟨_, hfind, rfl⟩
  · rw [List.find?_eq_none.mpr, Option.map_none, Option.none_or, if_neg hunder]
    intro e _
    simpa using fun he : target ++ e.1.drop source.length = q => hunder (he ▸ List.prefix_append _ _)

end Disk
