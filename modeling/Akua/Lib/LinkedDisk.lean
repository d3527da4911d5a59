import Mathlib.Data.List.Induction
import Akua.Lib.FileSystem
import Akua.Lib.Table

/-! A file system with symbolic links, to be read only: files, directories and links by their paths.
    A path is followed component by component as the operating system follows it; a link stands for
    its target, up to a number of links. Whether a recursive listing enters a link that leads to a
    directory differs between runtimes, and is a parameter. -/

/-- What stands at a path, links not followed. -/
inductive LinkNode where
  | file (data : Bytes)
  | directory
  | link (target : String)
deriving DecidableEq

/-- The type of an entry, links not followed. -/
inductive EntryType where
  | file
  | directory
  | symlink
deriving DecidableEq

def LinkNode.type : LinkNode → EntryType
  | .file _ => .file
  | .directory => .directory
  | .link _ => .symlink

/-- `lstat`: the type of an entry itself. -/
class EntryTypes (φ : Type) where
  entryType : FilePath → Reading φ PlatformError EntryType

/-- The longest path a system takes. -/
def MAX_PATH : Nat := 4096

/-- The most links followed on the way of one path. -/
def MAX_LINKS : Nat := 40

structure LinkedDisk (follow : Bool) where
  nodes : Table FilePath LinkNode
  /-- An entry has a name, and stands in a directory. -/
  rooted : ∀ path ∈ nodes.keys, path ≠ [] ∧
    (FilePath.dirname path = [] ∨ nodes.get? (FilePath.dirname path) = some .directory)
  plain : ∀ path ∈ nodes.keys, ∀ c ∈ path, FilePath.Plain c ∧ '\x00' ∉ c.toList
  short : ∀ path ∈ nodes.keys, path.length < MAX_PATH

namespace LinkedDisk

variable {follow : Bool}

/-- What stands at a clean path; the root directory is there without an entry. -/
def at? (disk : LinkedDisk follow) (path : FilePath) : Option LinkNode :=
  if path = [] then some .directory else disk.nodes.get? path

def notFound : PlatformError := ⟨.notFound, "no such file or directory"⟩
def notDirectory : PlatformError := ⟨.other, "not a directory"⟩
def isDirectory : PlatformError := ⟨.other, "is a directory"⟩
def tooManyLinks : PlatformError := ⟨.other, "too many levels of symbolic links"⟩
def tooLong : PlatformError := ⟨.other, "file name too long"⟩
def readOnly : PlatformError := ⟨.other, "read-only file system"⟩

/-- Where a link in the directory `real` starts from. -/
def linkBase (target : String) (real : FilePath) : FilePath :=
  if FilePath.isAbsolute target then [] else real

/-- Follow the components from the real directory `real`; `jump` goes on behind a link. The links
    that are left to follow come back with the real path. -/
def followFrom (disk : LinkedDisk follow) (links : Nat)
    (jump : FilePath → List String → Except PlatformError (FilePath × Nat)) :
    FilePath → List String → Except PlatformError (FilePath × Nat)
  | real, [] => .ok (real, links)
  | real, c :: rest =>
    if disk.at? real ≠ some .directory then .error notDirectory
    else if c = "" ∨ c = "." then followFrom disk links jump real rest
    else if c = ".." then followFrom disk links jump real.dropLast rest
    else
      match disk.at? (real ++ [c]) with
      | none => .error notFound
      | some (.link target) => jump (linkBase target real) (FilePath.segments target ++ rest)
      | some _ => followFrom disk links jump (real ++ [c]) rest

/-- Where a path leads. -/
def resolve (disk : LinkedDisk follow) :
    Nat → FilePath → List String → Except PlatformError (FilePath × Nat)
  | 0 => followFrom disk 0 fun _ _ => .error tooManyLinks
  | links + 1 => followFrom disk (links + 1) (resolve disk links)

/-- The real path and what stands there. -/
def find (disk : LinkedDisk follow) (path : FilePath) : Except PlatformError (FilePath × LinkNode) := do
  let (real, _) ← disk.resolve MAX_LINKS [] path
  match disk.at? real with
  | none => .error notFound
  | some node => .ok (real, node)

/-- The names in a real directory. -/
def children (disk : LinkedDisk follow) (real : FilePath) : List String :=
  disk.nodes.keys.filterMap fun path =>
    if FilePath.dirname path = real then path.getLast? else none

/-- A listing goes on in directories and, where it follows them, in links to directories. -/
def enters (disk : LinkedDisk follow) (path real : FilePath) : Bool :=
  match disk.at? real with
  | some .directory => true
  | some (.link _) => follow && (disk.find path).toOption.any fun found => found.2 = .directory
  | _ => false

/-- Look at the disk. -/
def look {α : Type} (f : LinkedDisk follow → Except PlatformError α) :
    Reading (LinkedDisk follow) PlatformError α := f

/-- List one entry of a directory, and what is inside it. -/
def listEntry (root real : FilePath) (rel : List String)
    (inside : List String → Reading (LinkedDisk follow) PlatformError (List (List String)))
    (name : String) : Reading (LinkedDisk follow) PlatformError (List (List String)) := do
  let entry := rel ++ [name]
  let further ← look fun disk => .ok (disk.enters (root ++ entry) (real ++ [name]))
  if further then (entry :: ·) <$> inside entry else pure [entry]

/-- The entries under `root`, below its entry `rel`. -/
def list (root : FilePath) :
    Nat → List String → Reading (LinkedDisk follow) PlatformError (List (List String))
  | 0, _ => .fail tooLong
  | fuel + 1, rel => do
    let (real, _) ← look fun disk => disk.find (root ++ rel)
    let names ← look fun disk => .ok (disk.children real)
    let below ← forEach (listEntry root real rel (list root fuel)) names
    pure below.flatten

instance : FileSystem (LinkedDisk follow) where
  fileExists path disk :=
    match disk.find path with
    | .ok _ => .ok true
    | .error error => if error.reason = .notFound then .ok false else .error error
  stat path disk := do
    let (_, node) ← disk.find path
    .ok ⟨if node = .directory then .directory else .file, 0o644⟩
  realPath path disk := Prod.fst <$> disk.find path
  readFile path disk := do
    match ← disk.find path with
    | (_, .file data) => .ok data
    | _ => .error isDirectory
  readDirectory path disk := do
    match ← disk.find path with
    | (real, .directory) => .ok (disk.children real)
    | _ => .error notDirectory
  readDirectoryRecursive path disk := do
    match ← disk.find path with
    | (_, .directory) => (·.map fun rel => Text.join rel '/') <$> list path MAX_PATH [] disk
    | _ => .error notDirectory
  makeDirectory _ := Effect.fail readOnly
  makeTempDirectory _ _ := Effect.fail readOnly
  writeFile _ _ := Effect.fail readOnly
  copyFile _ _ := Effect.fail readOnly
  rename _ _ := Effect.fail readOnly
  remove _ := Effect.fail readOnly

instance : EntryTypes (LinkedDisk follow) where
  entryType path disk := do
    let (real, _) ← disk.find (FilePath.dirname path)
    match disk.at? (real ++ path.getLast?.toList) with
    | none => .error notFound
    | some node => .ok node.type

/-! ### Real paths -/

section Real

variable {disk : LinkedDisk follow} {path : FilePath}

/-- What stands at the path is a file or a directory. -/
def IsReal (disk : LinkedDisk follow) (path : FilePath) : Prop :=
  ∃ node, disk.at? path = some node ∧ ∀ target, node ≠ .link target

theorem isReal_root : disk.IsReal [] := ⟨.directory, rfl, by simp⟩

theorem isReal_of_directory (h : disk.at? path = some .directory) : disk.IsReal path :=
  ⟨.directory, h, by simp⟩

theorem isReal_of_file {data : Bytes} (h : disk.at? path = some (.file data)) : disk.IsReal path :=
  ⟨.file data, h, by simp⟩

theorem mem_keys_of_at? {node : LinkNode} (h : disk.at? path = some node) (hne : path ≠ []) :
    path ∈ disk.nodes.keys := by
  rw [at?, if_neg hne] at h
  by_contra hkey
  rw [Table.get?_eq_none.mpr hkey] at h
  cases h

/-- The entry of a name stands in a directory. -/
theorem directory_of_entry {name : String} {node : LinkNode}
    (h : disk.at? (path ++ [name]) = some node) : disk.at? path = some .directory := by
  have hparent := (disk.rooted _ (mem_keys_of_at? h (by simp))).2
  rw [show FilePath.dirname (path ++ [name]) = path by simp [FilePath.dirname]] at hparent
  rw [at?]
  split
  · rfl
  · rename_i hne
    exact hparent.resolve_left hne

/-- On the way to an entry there are directories only. -/
theorem at?_above {init : FilePath} {node : LinkNode} (h : init <+: path) (hne : init ≠ path)
    (hnode : disk.at? path = some node) : disk.at? init = some .directory := by
  obtain ⟨rest, rfl⟩ := h
  induction rest using List.reverseRecOn generalizing node with
  | nil => exact absurd (List.append_nil _).symm hne
  | append_singleton rest name ih =>
    rw [← List.append_assoc] at hnode
    have hdir := directory_of_entry hnode
    by_cases hrest : rest = []
    · rwa [hrest, List.append_nil] at hdir
    · exact ih (by simpa using hrest) hdir

/-- Above a directory stands a directory. -/
theorem isReal_dropLast (h : disk.at? path = some .directory) : disk.IsReal path.dropLast := by
  rcases List.eq_nil_or_concat path with rfl | ⟨init, name, rfl⟩
  · exact isReal_root
  · rw [List.concat_eq_append] at h ⊢
    rw [List.dropLast_concat]
    exact isReal_of_directory (directory_of_entry h)

theorem plain_of_entry {name : String} {node : LinkNode}
    (h : disk.at? (path ++ [name]) = some node) : FilePath.Plain name ∧ '\x00' ∉ name.toList :=
  disk.plain _ (mem_keys_of_at? h (by simp)) name (by simp)

theorem length_of_at? {node : LinkNode} (h : disk.at? path = some node) : path.length < MAX_PATH := by
  by_cases hne : path = []
  · rw [hne]; decide
  · exact disk.short _ (mem_keys_of_at? h hne)

/-- A name is listed in a directory when its entry is there. -/
theorem mem_children {name : String} :
    name ∈ disk.children path ↔ ∃ node, disk.at? (path ++ [name]) = some node := by
  unfold children
  rw [List.mem_filterMap]
  constructor
  · rintro ⟨key, hkey, hlast⟩
    obtain ⟨hdir, hlast⟩ := Option.ite_none_right_eq_some.mp hlast
    have hsplit : key = path ++ [name] := by
      obtain ⟨init, rfl⟩ := List.getLast?_eq_some_iff.mp hlast
      rw [← hdir]
      simp [FilePath.dirname]
    rw [hsplit] at hkey
    rcases hget : disk.nodes.get? (path ++ [name]) with _ | node
    · exact absurd hkey (Table.get?_eq_none.mp hget)
    · exact ⟨node, by rw [at?, if_neg (by simp), hget]⟩
  · rintro ⟨node, hnode⟩
    exact ⟨path ++ [name], mem_keys_of_at? hnode (by simp), by simp [FilePath.dirname]⟩

theorem nodup_children : (disk.children path).Nodup := by
  refine List.Nodup.filterMap ?_ disk.nodes.nodup
  intro a b name ha hb
  simp only [Option.mem_def, Option.ite_none_right_eq_some] at ha hb
  obtain ⟨hadir, ha⟩ := ha
  obtain ⟨hbdir, hb⟩ := hb
  obtain ⟨a, rfl⟩ := List.getLast?_eq_some_iff.mp ha
  obtain ⟨b, rfl⟩ := List.getLast?_eq_some_iff.mp hb
  simp only [FilePath.dirname, List.dropLast_concat] at hadir hbdir
  rw [hadir, hbdir]

end Real

/-! ### Following paths -/

section Follow

variable {disk : LinkedDisk follow} {real r : FilePath} {links left : Nat}

theorem resolve_nil : disk.resolve links real [] = .ok (real, links) := by
  cases links <;> rfl

/-- One component: it stays, goes up, goes down, or jumps behind a link. -/
theorem resolve_cons (c : String) (rest : List String) : disk.resolve links real (c :: rest) =
    if disk.at? real ≠ some .directory then .error notDirectory
    else if c = "" ∨ c = "." then disk.resolve links real rest
    else if c = ".." then disk.resolve links real.dropLast rest
    else
      match disk.at? (real ++ [c]), links with
      | none, _ => .error notFound
      | some (.link _), 0 => .error tooManyLinks
      | some (.link target), links + 1 =>
        disk.resolve links (linkBase target real) (FilePath.segments target ++ rest)
      | some _, links => disk.resolve links (real ++ [c]) rest := by
  cases links with
  | zero =>
    rw [resolve, followFrom]
    rcases disk.at? (real ++ [c]) with _ | _ | _ | _ <;> rfl
  | succ links =>
    rw [resolve, followFrom]
    rcases disk.at? (real ++ [c]) with _ | _ | _ | _ <;> rfl

/-- A path is followed in two halves. The induction is on the links left, and on the components. -/
theorem resolve_append (b : List String) : ∀ (links : Nat) (real : FilePath) (a : List String),
    disk.resolve links real (a ++ b) =
      (disk.resolve links real a).bind fun found => disk.resolve found.2 found.1 b := by
  intro links
  induction links with
  | zero =>
    intro real a
    induction a generalizing real with
    | nil => rw [resolve_nil]; rfl
    | cons c rest ih =>
      rw [List.cons_append, resolve_cons, resolve_cons]
      split
      · rfl
      split
      · exact ih real
      split
      · exact ih real.dropLast
      rcases disk.at? (real ++ [c]) with _ | _ | _ | _
      · rfl
      · exact ih (real ++ [c])
      · exact ih (real ++ [c])
      · rfl
  | succ links ihLinks =>
    intro real a
    induction a generalizing real with
    | nil => rw [resolve_nil]; rfl
    | cons c rest ih =>
      rw [List.cons_append, resolve_cons, resolve_cons]
      split
      · rfl
      split
      · exact ih real
      split
      · exact ih real.dropLast
      rcases disk.at? (real ++ [c]) with _ | _ | _ | target
      · rfl
      · exact ih (real ++ [c])
      · exact ih (real ++ [c])
      · dsimp only
        rw [← List.append_assoc]
        exact ihLinks _ _

/-- What a path leads to is a file or a directory. -/
theorem isReal_of_resolve {comps : List String} (hreal : disk.IsReal real)
    (h : disk.resolve links real comps = .ok (r, left)) : disk.IsReal r := by
  induction links generalizing real comps with
  | zero =>
    induction comps generalizing real with
    | nil =>
      rw [resolve_nil] at h
      cases h
      exact hreal
    | cons c rest ih =>
      rw [resolve_cons] at h
      split at h
      · cases h
      rename_i hdir
      split at h
      · exact ih hreal h
      split at h
      · exact ih (isReal_dropLast (not_not.mp hdir)) h
      rcases hnode : disk.at? (real ++ [c]) with _ | _ | _ | _ <;> rw [hnode] at h
      · cases h
      · exact ih (isReal_of_file hnode) h
      · exact ih (isReal_of_directory hnode) h
      · cases h
  | succ links ihLinks =>
    induction comps generalizing real with
    | nil =>
      rw [resolve_nil] at h
      cases h
      exact hreal
    | cons c rest ih =>
      rw [resolve_cons] at h
      split at h
      · cases h
      rename_i hdir
      split at h
      · exact ih hreal h
      split at h
      · exact ih (isReal_dropLast (not_not.mp hdir)) h
      rcases hnode : disk.at? (real ++ [c]) with _ | _ | _ | target <;> rw [hnode] at h
      · cases h
      · exact ih (isReal_of_file hnode) h
      · exact ih (isReal_of_directory hnode) h
      · refine ihLinks ?_ h
        unfold linkBase
        split
        · exact isReal_root
        · exact hreal

/-- Components without links lead where they say. -/
theorem resolve_real {rel : List String} (h : disk.IsReal (real ++ rel)) :
    disk.resolve links real rel = .ok (real ++ rel, links) := by
  induction rel using List.reverseRecOn with
  | nil => rw [resolve_nil, List.append_nil]
  | append_singleton rel c ih =>
    obtain ⟨node, hnode, hlink⟩ := h
    rw [← List.append_assoc] at hnode
    have hdir := directory_of_entry hnode
    have hplain := (plain_of_entry hnode).1
    rw [resolve_append, ih (isReal_of_directory hdir)]
    show disk.resolve links (real ++ rel) [c] = _
    rw [resolve_cons, if_neg (not_not.mpr hdir), if_neg (by simp [hplain.1, hplain.2.1]),
      if_neg hplain.2.2.1, hnode]
    cases node with
    | link target => exact absurd rfl (hlink target)
    | file data => simp only [resolve_nil, List.append_assoc]
    | directory => simp only [resolve_nil, List.append_assoc]

theorem find_ok {path : FilePath} {node : LinkNode} : disk.find path = .ok (real, node) ↔
    (∃ left, disk.resolve MAX_LINKS [] path = .ok (real, left)) ∧ disk.at? real = some node := by
  unfold find
  rw [except_bind_ok]
  constructor
  · rintro ⟨⟨r, left⟩, hresolve, h⟩
    dsimp only at h
    rcases hnode : disk.at? r with _ | node' <;> rw [hnode] at h
    · cases h
    · cases h
      exact ⟨⟨left, hresolve⟩, hnode⟩
  · rintro ⟨⟨left, hresolve⟩, hnode⟩
    refine ⟨(real, left), hresolve, ?_⟩
    dsimp only
    rw [hnode]

/-- Below a directory that a path leads to, real entries are where they say. -/
theorem find_below {root : FilePath} {rel : List String} {node : LinkNode}
    (hroot : disk.resolve MAX_LINKS [] root = .ok (real, left))
    (hnode : disk.at? (real ++ rel) = some node) (hlink : ∀ target, node ≠ .link target) :
    disk.find (root ++ rel) = .ok (real ++ rel, node) := by
  refine find_ok.mpr ⟨⟨left, ?_⟩, hnode⟩
  rw [resolve_append, hroot]
  exact resolve_real ⟨node, hnode, hlink⟩

theorem find_self {path : FilePath} {node : LinkNode} (hnode : disk.at? path = some node)
    (hlink : ∀ target, node ≠ .link target) : disk.find path = .ok (path, node) :=
  find_ok.mpr ⟨⟨MAX_LINKS, resolve_real ⟨node, hnode, hlink⟩⟩, hnode⟩

/-- A link leads somewhere else, or nowhere. -/
theorem find_link {path : FilePath} {node : LinkNode} {target : String}
    (h : disk.at? real = some (.link target)) : disk.find path ≠ .ok (real, node) := by
  intro hfind
  obtain ⟨⟨left, hresolve⟩, -⟩ := find_ok.mp hfind
  obtain ⟨node', hnode', hlink⟩ := isReal_of_resolve isReal_root hresolve
  rw [h] at hnode'
  exact hlink target (Option.some.inj hnode').symm

/-- Where a path leads is there under its own path, and is no link. -/
theorem find_found {path : FilePath} {node : LinkNode} (h : disk.find path = .ok (real, node)) :
    disk.find real = .ok (real, node) ∧ ∀ target, node ≠ .link target := by
  obtain ⟨⟨left, hresolve⟩, hnode⟩ := find_ok.mp h
  obtain ⟨node', hnode', hlink⟩ := isReal_of_resolve isReal_root hresolve
  rw [hnode] at hnode'
  obtain rfl := Option.some.inj hnode'
  exact ⟨find_self hnode hlink, hlink⟩

end Follow

/-! ### Listings -/

section List

variable {disk : LinkedDisk follow} {root real : FilePath} {left : Nat}

theorem listEntry_ok {real : FilePath} {rel : List String} {name : String}
    {inside : List String → Reading (LinkedDisk follow) PlatformError (List (List String))}
    {out : List (List String)} : listEntry root real rel inside name disk = .ok out ↔
      if disk.enters (root ++ (rel ++ [name])) (real ++ [name]) then
        ∃ more, inside (rel ++ [name]) disk = .ok more ∧ out = (rel ++ [name]) :: more
      else out = [rel ++ [name]] := by
  unfold listEntry
  rw [Reading.bind_ok]
  simp only [look, Except.ok.injEq, exists_eq_left']
  split
  · rw [Reading.map_run]
    rcases inside (rel ++ [name]) disk with e | more <;> simp [Except.map, eq_comm]
  · simp [eq_comm]

/-- A listing of a directory has what it lists of each name in it. -/
theorem list_ok {fuel : Nat} {rel : List String} {entries : List (List String)} :
    list root (fuel + 1) rel disk = .ok entries ↔ ∃ found node below,
      disk.find (root ++ rel) = .ok (found, node) ∧ entries = below.flatten ∧
      List.Forall₂ (fun name out => listEntry root found rel (list root fuel) name disk = .ok out)
        (disk.children found) below := by
  rw [list, Reading.bind_ok]
  constructor
  · rintro ⟨⟨found, node⟩, hfind, h⟩
    obtain ⟨names, hnames, h⟩ := Reading.bind_ok.mp h
    cases hnames
    obtain ⟨below, hbelow, h⟩ := Reading.bind_ok.mp h
    cases h
    exact ⟨found, node, below, hfind, rfl, Reading.forEach_ok.mp hbelow⟩
  · rintro ⟨found, node, below, hfind, rfl, hbelow⟩
    exact ⟨(found, node), hfind, Reading.bind_ok.mpr ⟨disk.children found, rfl,
      Reading.bind_ok.mpr ⟨below, Reading.forEach_ok.mpr hbelow, rfl⟩⟩⟩

/-- Every entry of the tree is listed. The induction is on the depth; the first name on the way to
    an entry is a directory, or the entry itself. -/
theorem mem_list (hroot : disk.resolve MAX_LINKS [] root = .ok (real, left)) :
    ∀ {fuel : Nat} {rel more : List String} {entries : List (List String)} {node : LinkNode},
      list root fuel rel disk = .ok entries → more ≠ [] →
      disk.at? (real ++ rel ++ more) = some node → rel ++ more ∈ entries := by
  intro fuel
  induction fuel with
  | zero => intro rel more entries node h; cases h
  | succ fuel ih =>
    intro rel more entries node h hmore hnode
    obtain ⟨name, more, rfl⟩ := List.exists_cons_of_ne_nil hmore
    obtain ⟨found, node', below, hfind, rfl, hbelow⟩ := list_ok.mp h
    obtain ⟨first, hfirst, hinside⟩ : ∃ first, disk.at? (real ++ rel ++ [name]) = some first ∧
        (more ≠ [] → first = .directory) := by
      by_cases hlast : more = []
      · exact ⟨node, by rw [hlast] at hnode; exact hnode, fun h => absurd hlast h⟩
      · exact ⟨.directory, at?_above
          (show real ++ rel ++ [name] <+: real ++ rel ++ name :: more from ⟨more, by simp⟩) (by simpa using hlast) hnode, fun _ => rfl⟩
    have hdir := directory_of_entry hfirst
    rw [find_below hroot (by rw [hdir]) (by simp)] at hfind
    cases hfind
    obtain ⟨out, hout, hlisted⟩ := exists_of_forall₂ hbelow (mem_children.mpr ⟨first, hfirst⟩)
    refine List.mem_flatten.mpr ⟨out, hout, ?_⟩
    rw [listEntry_ok] at hlisted
    by_cases hlast : more = []
    · subst hlast
      split at hlisted
      · obtain ⟨more, -, rfl⟩ := hlisted
        exact List.mem_cons_self
      · rw [hlisted]
        exact List.mem_cons_self
    · have hfurther : disk.enters (root ++ (rel ++ [name])) (real ++ rel ++ [name]) = true := by
        rw [enters, hfirst, hinside hlast]
      rw [if_pos hfurther] at hlisted
      obtain ⟨inside, hlist, rfl⟩ := hlisted
      have := ih hlist hlast (by simpa using hnode)
      exact List.mem_cons_of_mem _ (by simpa using this)

/-- What is listed, is by plain names without a NUL. -/
theorem plain_of_mem_list : ∀ {fuel : Nat} {rel : List String} {entries : List (List String)},
    list root fuel rel disk = .ok entries →
    (∀ c ∈ rel, FilePath.Plain c ∧ '\x00' ∉ c.toList) → ∀ entry ∈ entries,
      entry ≠ [] ∧ ∀ c ∈ entry, FilePath.Plain c ∧ '\x00' ∉ c.toList := by
  intro fuel
  induction fuel with
  | zero => intro rel entries h; cases h
  | succ fuel ih =>
    intro rel entries h hrel entry hentry
    obtain ⟨found, node, below, -, rfl, hbelow⟩ := list_ok.mp h
    obtain ⟨out, hout, hmem⟩ := List.mem_flatten.mp hentry
    obtain ⟨name, hname, hlisted⟩ := exists_of_forall₂ hbelow.flip hout
    obtain ⟨node', hnode'⟩ := mem_children.mp hname
    have hplain : ∀ c ∈ rel ++ [name], FilePath.Plain c ∧ '\x00' ∉ c.toList := by
      intro c hc
      rcases List.mem_append.mp hc with hc | hc
      · exact hrel c hc
      · rw [List.mem_singleton.mp hc]
        exact plain_of_entry hnode'
    rw [listEntry_ok] at hlisted
    split at hlisted
    · obtain ⟨inside, hlist, rfl⟩ := hlisted
      rcases List.mem_cons.mp hmem with rfl | hmem
      · exact ⟨by simp, hplain⟩
      · exact ih hlist hplain entry hmem
    · rw [hlisted, List.mem_singleton] at hmem
      rw [hmem]
      exact ⟨by simp, hplain⟩

end List

end LinkedDisk
