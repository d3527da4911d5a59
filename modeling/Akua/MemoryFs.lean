import Akua.Host
import Akua.Lib.NamedTree
import Mathlib.Data.List.DropRight

/-! The file system in memory that a git repository is fetched into: the methods isomorphic-git calls, on
    one tree of files and directories. A path is split at its slashes, without its empty components and
    `.`; `..` is a name like any other. -/

namespace Akua.MemoryFs

open NamedTree

structure MemoryFile where
  data : Bytes
  mode : Nat

abbrev Node := NamedTree MemoryFile

inductive FsCode where
  | ENOENT
  | EEXIST
  | ENOTDIR
  | EISDIR
  | ENOTEMPTY
deriving DecidableEq

structure FsError where
  code : FsCode
  path : String
deriving DecidableEq

def FsError.message (error : FsError) : String :=
  let code := match error.code with
    | .ENOENT => "ENOENT"
    | .EEXIST => "EEXIST"
    | .ENOTDIR => "ENOTDIR"
    | .EISDIR => "EISDIR"
    | .ENOTEMPTY => "ENOTEMPTY"
  s!"{code}: {error.path}"

/-- `path.split("/")` without the empty parts and `.`. -/
def parts (path : String) : List String := FilePath.segments path

structure Stats where
  type : String
  mode : Nat
  size : Nat
  ino : Nat
  mtimeMs : Nat := 0
  ctimeMs : Nat := 0
  uid : Nat := 1
  gid : Nat := 1
  dev : Nat := 1

def stats (ino : Nat) : Node → Stats
  | .branch _ => { type := "dir", mode := 0o40755, size := 0, ino }
  | .leaf file => { type := "file", mode := file.mode, size := file.data.length, ino }

inductive Answer where
  | bytes (data : Bytes)
  | text (content : String)
  | names (names : List String)
  | stats (stats : Stats)
  | done

abbrev Method (α : Type) := Effect Node FsError α

def lookup (root : Node) (path : String) : Option Node := find (parts path) root

/-- The directory that an entry stands in, and the entry's name. -/
def parent (path : String) : Method (List String × String) := do
  let root ← .get
  let directory := Text.join (parts path).dropLast '/'
  match (parts path).getLast?, lookup root directory with
  | some name, some (.branch _) => pure (parts directory, name)
  | some _, some (.leaf _) => .fail ⟨.ENOTDIR, path⟩
  | _, _ => .fail ⟨.ENOENT, path⟩

/-- `entries.set(name, node)`. -/
def set (directory : List String) (name : String) (node : Node) : Method Unit :=
  .modify (change (setEntry name node) directory)

/-- `entries.delete(name)`. -/
def delete (directory : List String) (name : String) : Method Unit :=
  .modify (change (deleteEntry name) directory)

variable (P : Platform)

def readFile (path : String) (encoding : Option String) : Method Answer := do
  match lookup (← .get) path with
  | none => .fail ⟨.ENOENT, path⟩
  | some (.branch _) => .fail ⟨.EISDIR, path⟩
  | some (.leaf file) => pure (if encoding = none then .bytes file.data else .text (decodeText P file.data))

/-- `Uint8Array | string`. -/
def bytesOf : Bytes ⊕ String → Bytes
  | .inl data => data
  | .inr text => encodeText text

def writeFile (path : String) (data : Bytes ⊕ String) (mode : Option Nat) : Method Answer := do
  let (directory, name) ← parent path
  set directory name (.leaf ⟨bytesOf data, mode.getD 0o100644⟩)
  pure .done

def unlink (path : String) : Method Answer := do
  match lookup (← .get) path with
  | none => .fail ⟨.ENOENT, path⟩
  | some (.branch _) => .fail ⟨.EISDIR, path⟩
  | some (.leaf _) =>
    let (directory, name) ← parent path
    delete directory name
    pure .done

def readdir (path : String) : Method Answer := do
  match lookup (← .get) path with
  | none => .fail ⟨.ENOENT, path⟩
  | some (.leaf _) => .fail ⟨.ENOTDIR, path⟩
  | some (.branch entries) => pure (.names (entries.map Prod.fst))

def mkdir (path : String) : Method Answer := do
  match lookup (← .get) path with
  | some _ => .fail ⟨.EEXIST, path⟩
  | none =>
    let (directory, name) ← parent path
    set directory name (.branch [])
    pure .done

def rmdir (path : String) : Method Answer := do
  match lookup (← .get) path with
  | none => .fail ⟨.ENOENT, path⟩
  | some (.leaf _) => .fail ⟨.ENOTDIR, path⟩
  | some (.branch (_ :: _)) => .fail ⟨.ENOTEMPTY, path⟩
  | some (.branch []) =>
    let (directory, name) ← parent path
    delete directory name
    pure .done

def stat (path : String) : Method Answer := do
  match lookup (← .get) path with
  | none => .fail ⟨.ENOENT, path⟩
  | some node => pure (.stats (stats (parts path).length node))

inductive Op where
  | readFile (path : String) (encoding : Option String)
  | writeFile (path : String) (data : Bytes ⊕ String) (mode : Option Nat)
  | unlink (path : String)
  | readdir (path : String)
  | mkdir (path : String)
  | rmdir (path : String)
  | stat (path : String)
  | lstat (path : String)
  | readlink (path : String)
  | symlink (target path : String)
  | chmod (path : String) (mode : Nat)

/-- The method of an operation. -/
def run : Op → Method Answer
  | .readFile path encoding => readFile P path encoding
  | .writeFile path data mode => writeFile path data mode
  | .unlink path => unlink path
  | .readdir path => readdir path
  | .mkdir path => mkdir path
  | .rmdir path => rmdir path
  | .stat path | .lstat path => stat path
  | .readlink path | .symlink _ path => .fail ⟨.ENOENT, path⟩
  | .chmod _ _ => pure .done

/-- The steps of a run: each operation with the tree before it. -/
def steps : Node → List Op → List (Node × Op)
  | _, [] => []
  | root, op :: ops => (root, op) :: steps (run P op root).2 ops

/-! ### What POSIX refuses -/

/-- The tree of a system has no entry called `..`. -/
def NoDots (root : Node) : Prop := ∀ path node, find path root = some node → ".." ∉ path

/-- What a path leads to; the empty path leads nowhere. -/
def leadsTo (root : Node) (path : String) : Option Node :=
  if path = "" then none else (follow root [] (Text.split path '/')).bind fun real => find real root

/-- The directory and the name for an entry; the last component must be a name. -/
def slot (root : Node) (components : List String) : Option (List (String × Node) × String) :=
  match components.getLast?, (follow root [] components.dropLast).bind fun real => find real root with
  | some name, some (.branch entries) => if IsName name then some (entries, name) else none
  | _, _ => none

/-- The components of a path to a directory, which may end in slashes. -/
def directoryComponents (path : String) : List String := (Text.split path '/').rdropWhile (· = "")

/-- The operations that a POSIX system refuses on the tree. -/
def Refuses (root : Node) : Op → Prop
  | .readFile path _ => ∀ file, leadsTo root path ≠ some (.leaf file)
  | .writeFile path _ _ => ∀ entries name, slot root (Text.split path '/') = some (entries, name) →
      ∃ below, entries.lookup name = some (.branch below)
  | .unlink path => ∀ entries name file, slot root (Text.split path '/') = some (entries, name) →
      entries.lookup name ≠ some (.leaf file)
  | .readdir path => ∀ entries, leadsTo root path ≠ some (.branch entries)
  | .mkdir path => ∀ entries name, slot root (directoryComponents path) = some (entries, name) →
      entries.lookup name ≠ none
  | .rmdir path => ∀ entries name, slot root (directoryComponents path) = some (entries, name) →
      entries.lookup name ≠ some (.branch [])
  | .stat path | .lstat path | .chmod path _ => leadsTo root path = none
  | .readlink _ => True
  | .symlink _ path => ∀ entries name, slot root (Text.split path '/') = some (entries, name) →
      entries.lookup name ≠ none

def Op.Removes : Op → Prop
  | .unlink _ | .rmdir _ => True
  | _ => False

/-- The tree keeps its shape: what POSIX refuses fails and changes nothing, and only a removal takes a
    file away. -/
structure KeepsShape (root : Node) (op : Op) : Prop where
  refused : Refuses root op → ∃ error, run P op root = (.error error, root)
  files : ¬ op.Removes → ∀ path file, find path root = some (.leaf file) →
    ∃ file', find path (run P op root).2 = some (.leaf file')

/-! ### Where it does -/

def EndsInName (components : List String) : Prop := ∀ c ∈ components.getLast?, IsName c

/-- The path leads to a directory, so far as the names in it go. -/
def IsDirectory (root : Node) (names : List String) : Prop := ∃ entries, find names root = some (.branch entries)

/-- A path to a file ends in a name. -/
def Sharp (root : Node) (path : String) : Prop :=
  ∀ file, lookup root path = some (.leaf file) → EndsInName (Text.split path '/')

/-- The condition on an operation and the tree before it. -/
def Proper (root : Node) : Op → Prop
  | .readFile path _ | .unlink path => Sharp root path
  | .writeFile path _ _ => parts path ≠ [] → IsDirectory root (parts path).dropLast →
      EndsInName (Text.split path '/') ∧ ¬ IsDirectory root (parts path)
  | .readdir path => path ≠ ""
  | .mkdir path => lookup root path = none → IsDirectory root (parts path).dropLast →
      EndsInName (directoryComponents path)
  | .rmdir path => parts path ≠ [] → lookup root path = some (.branch []) → EndsInName (directoryComponents path)
  | .stat path | .lstat path => path ≠ "" ∧ Sharp root path
  | .readlink _ | .symlink _ _ => True
  | .chmod path _ => leadsTo root path ≠ none

/-! ### Paths -/

variable {root : Node} {path : String} {directory : List String} {name : String}
  {entries : List (String × Node)}

theorem parts_eq (path : String) : parts path = names (Text.split path '/') := rfl

theorem parts_join {components : List String} (h : ∀ c ∈ components, c ≠ "" ∧ c ≠ "." ∧ '/' ∉ c.toList) :
    parts (Text.join components '/') = components := by
  by_cases hne : components = []
  · rw [hne]
    decide
  · rw [parts_eq, Text.split_join hne fun c hc => (h c hc).2.2]
    exact List.filter_eq_self.mpr fun c hc => by simp [(h c hc).1, (h c hc).2.1]

theorem parts_directory (path : String) : parts (Text.join (parts path).dropLast '/') = (parts path).dropLast :=
  parts_join fun _ hc => FilePath.of_mem_segments (List.dropLast_subset _ hc)

theorem bind_get_run {α : Type} (f : Node → Method α) : ((Effect.get : Method Node) >>= f) root = f root root := rfl

/-- The parent is found, or the path has no name or no directory to stand in. -/
theorem parent_cases (root : Node) (path : String) :
    (∃ directory name entries, parts path = directory ++ [name] ∧ find directory root = some (.branch entries) ∧
      parent path root = (.ok (directory, name), root)) ∨
    ((∃ error, parent path root = (.error error, root)) ∧
      ¬ (parts path ≠ [] ∧ IsDirectory root (parts path).dropLast)) := by
  have hlookup : lookup root (Text.join (parts path).dropLast '/') = find (parts path).dropLast root := by
    rw [lookup, parts_directory]
  rcases List.eq_nil_or_concat (parts path) with hnil | ⟨directory, name, hparts⟩
  · refine .inr ⟨⟨⟨.ENOENT, path⟩, ?_⟩, fun h => h.1 hnil⟩
    rw [parent, bind_get_run]
    rw [hnil]
    rfl
  · rw [List.concat_eq_append] at hparts
    have hlast : (parts path).getLast? = some name := by rw [hparts, List.getLast?_concat]
    have hdirectory : (parts path).dropLast = directory := by rw [hparts, List.dropLast_concat]
    rw [hdirectory] at hlookup ⊢
    rcases hfind : find directory root with _ | ⟨file | entries⟩
    · refine .inr ⟨⟨⟨.ENOENT, path⟩, ?_⟩, fun ⟨_, entries, h⟩ => ?_⟩
      · rw [parent, bind_get_run]
        rw [hlast, hdirectory, hlookup, hfind]
        rfl
      · rw [hfind] at h
        cases h
    · refine .inr ⟨⟨⟨.ENOTDIR, path⟩, ?_⟩, fun ⟨_, entries, h⟩ => ?_⟩
      · rw [parent, bind_get_run]
        rw [hlast, hdirectory, hlookup, hfind]
        rfl
      · rw [hfind] at h
        cases h
    · refine .inl ⟨directory, name, entries, hparts, hfind, ?_⟩
      rw [parent, bind_get_run]
      rw [hlast, hdirectory, hlookup, hfind, ← hdirectory, parts_directory]
      rfl

/-! ### Paths as POSIX follows them -/

/-- A tree of a system: a directory, without entries called `..`. -/
structure SystemTree (root : Node) : Prop where
  directory : ∃ entries, root = .branch entries
  noDots : NoDots root

theorem not_mem_of_names {components : List String} (h : ".." ∉ names components) : ".." ∉ components :=
  fun hmem => h (List.mem_filter.mpr ⟨hmem, by decide⟩)

theorem leadsTo_of_lookup (hroot : NoDots root) {node : Node} (h : lookup root path = some node)
    (hne : path ≠ "") (hlast : EndsInName (Text.split path '/') ∨ ∃ entries, node = .branch entries) :
    leadsTo root path = some node := by
  have hdots := not_mem_of_names (hroot _ _ h)
  have hfollow : follow root [] (Text.split path '/') = some (parts path) :=
    follow_of_find hdots h fun c hc => hlast.imp (fun hname => hname c hc) id
  rw [leadsTo, if_neg hne, hfollow]
  exact h

theorem endsInName_of_leadsTo (hroot : NoDots root) {file : MemoryFile} {node : Node}
    (h : lookup root path = some (.leaf file)) (hleads : leadsTo root path = some node) :
    EndsInName (Text.split path '/') := by
  have hdots := not_mem_of_names (hroot _ _ h)
  rw [leadsTo] at hleads
  split at hleads
  · cases hleads
  obtain ⟨p, hp, -⟩ := Option.bind_eq_some_iff.mp hleads
  obtain ⟨rfl, hbranch⟩ := follow_some hdots hp
  intro c hc
  by_contra hname
  obtain ⟨entries, hentries⟩ := hbranch c hc hname
  rw [lookup, parts_eq] at h
  rw [List.nil_append, h] at hentries
  cases hentries

theorem slot_of_parts (hroot : NoDots root) {components : List String} (hlast : EndsInName components)
    (hparts : names components = directory ++ [name]) (h : find directory root = some (.branch entries)) :
    slot root components = some (entries, name) := by
  rcases List.eq_nil_or_concat components with rfl | ⟨init, last, rfl⟩
  · simp [names] at hparts
  · rw [List.concat_eq_append] at hlast hparts ⊢
    have hname : IsName last := hlast last (by simp)
    have hsplit : names (init ++ [last]) = names init ++ [last] := by
      rw [names, List.filter_append, names]
      simp [hname.1, hname.2.1]
    rw [hsplit] at hparts
    obtain ⟨rfl, hlast⟩ := List.append_inj' hparts rfl
    obtain rfl := List.singleton_inj.mp hlast
    have hfollow : follow root [] init = some (names init) :=
      follow_of_find (not_mem_of_names (hroot _ _ h)) h fun _ _ => .inr ⟨entries, rfl⟩
    simp only [slot, List.getLast?_concat, List.dropLast_concat, hfollow, Option.bind_some, h, if_pos hname]

theorem endsInName_of_slot {components : List String} {found : List (String × Node) × String}
    (h : slot root components = some found) : EndsInName components := by
  intro c hc
  rw [slot, Option.mem_def.mp hc] at h
  split at h
  · rename_i hname _
    obtain rfl := Option.some.inj hname
    split at h
    · assumption
    · cases h
  · cases h

theorem names_directoryComponents (path : String) : names (directoryComponents path) = parts path := by
  rw [directoryComponents, parts_eq]
  induction Text.split path '/' using List.reverseRecOn with
  | nil => rfl
  | append_singleton components c ih =>
    by_cases hc : c = ""
    · rw [List.rdropWhile_concat_pos _ _ _ (by simp [hc]), ih, names, names, List.filter_append]
      simp [hc]
    · rw [List.rdropWhile_concat_neg _ _ _ (by simp [hc])]

/-! ### What one step does -/

/-- An operation that fails keeps the shape. -/
theorem keepsShape_of_error {op : Op} {e : FsError} (h : run P op root = (.error e, root)) :
    KeepsShape P root op := by
  refine ⟨fun _ => ⟨e, h⟩, fun _ path file hfile => ⟨file, ?_⟩⟩
  rw [h]
  exact hfile

/-- One that succeeds must not be refused. -/
theorem keepsShape_iff_of_ok {op : Op} {answer : Answer} {a : Node} (h : run P op root = (.ok answer, a))
    (hfiles : ¬ Refuses root op → ¬ op.Removes → ∀ path file, find path root = some (.leaf file) →
      ∃ file', find path a = some (.leaf file')) :
    KeepsShape P root op ↔ ¬ Refuses root op := by
  constructor
  · intro hkeeps hrefused
    obtain ⟨error, herror⟩ := hkeeps.refused hrefused
    rw [h] at herror
    cases herror
  · intro hrefused
    refine ⟨fun hr => absurd hr hrefused, fun hremoves path file hfile => ?_⟩
    rw [h]
    exact hfiles hrefused hremoves path file hfile

/-- Setting an entry that is no directory leaves all files where they are. -/
theorem files_set (h : find directory root = some (.branch entries)) {node : Node}
    (hslot : ∀ below, entries.lookup name ≠ some (.branch below))
    (hnode : (∃ file, node = .leaf file) ∨ entries.lookup name = none) (path : List String) (file : MemoryFile)
    (hfile : find path root = some (.leaf file)) :
    ∃ file', find path (change (setEntry name node) directory root) = some (.leaf file') := by
  by_cases hbelow : directory <+: path
  · obtain ⟨rest, rfl⟩ := hbelow
    rw [find_change h]
    rw [find_append, h, Option.bind_some] at hfile
    rcases rest with _ | ⟨first, rest⟩
    · cases hfile
    · rw [find] at hfile ⊢
      rw [lookup_setEntry]
      split
      · rename_i hfirst
        subst hfirst
        obtain ⟨child, hchild, hrest⟩ := Option.bind_eq_some_iff.mp hfile
        -- the entry that is set was a file, so the path ends there
        rcases hnode with ⟨new, rfl⟩ | hnone
        · rcases rest with _ | ⟨second, rest⟩
          · exact ⟨new, rfl⟩
          · cases child with
            | leaf value => cases hrest
            | branch below => exact absurd hchild (hslot below)
        · rw [hnone] at hchild
          cases hchild
      · exact ⟨file, hfile⟩
  · exact ⟨file, (find_change_elsewhere hbelow).1 file |>.mpr hfile⟩

theorem noDots_change (hroot : NoDots root) (h : find directory root = some (.branch entries))
    {f : List (String × Node) → List (String × Node)}
    (hf : ∀ first rest node, find (first :: rest) (.branch (f entries)) = some node →
      (first ≠ ".." ∧ rest = []) ∨ (find (first :: rest) (.branch entries)).isSome) :
    NoDots (change f directory root) := by
  intro path node hnode
  by_cases hbelow : directory <+: path
  · obtain ⟨rest, rfl⟩ := hbelow
    rw [find_change h] at hnode
    have hdirectory := hroot _ _ h
    rcases rest with _ | ⟨first, rest⟩
    · rwa [List.append_nil]
    · rcases hf first rest node hnode with ⟨hfirst, rfl⟩ | hold
      · simp [hdirectory, Ne.symm hfirst]
      · obtain ⟨old, hold⟩ := Option.isSome_iff_exists.mp hold
        exact hroot (directory ++ first :: rest) old (by rw [find_append, h]; exact hold)
  · have hsome : (find path (change f directory root)).isSome = (find path root).isSome :=
      (find_change_elsewhere hbelow).2
    rw [hnode] at hsome
    obtain ⟨old, hold⟩ := Option.isSome_iff_exists.mp hsome.symm
    exact hroot path old hold

theorem parts_ne_nil (h : lookup root path ≠ some root) : parts path ≠ [] := by
  intro hnil
  rw [lookup, hnil] at h
  exact h rfl

/-- Looking at a path, where the answer is made of what stands there. -/
theorem keepsShape_stat (hroot : SystemTree root) {op : Op} (hop : op = .stat path ∨ op = .lstat path) :
    KeepsShape P root op ↔ Proper root op := by
  have hproper : Proper root op ↔ path ≠ "" ∧ Sharp root path := by rcases hop with rfl | rfl <;> rfl
  have hrefuses : Refuses root op ↔ leadsTo root path = none := by rcases hop with rfl | rfl <;> rfl
  have hrun : run P op = stat path := by rcases hop with rfl | rfl <;> rfl
  rw [hproper]
  rcases hlookup : lookup root path with _ | node
  · have herror : run P op root = (.error ⟨.ENOENT, path⟩, root) := by
      rw [hrun, stat, bind_get_run, hlookup]
      rfl
    refine iff_of_true (keepsShape_of_error P herror) ⟨?_, fun file hfile => ?_⟩
    · rintro rfl
      cases hlookup
    · rw [hlookup] at hfile
      cases hfile
  · have hok : run P op root = (.ok (.stats (stats (parts path).length node)), root) := by
      rw [hrun, stat, bind_get_run, hlookup]
      rfl
    rw [keepsShape_iff_of_ok P hok fun _ _ path file hfile => ⟨file, hfile⟩, hrefuses]
    constructor
    · intro hleads
      obtain ⟨other, hother⟩ := Option.ne_none_iff_exists'.mp hleads
      refine ⟨?_, fun file hfile => endsInName_of_leadsTo hroot.noDots hfile hother⟩
      rintro rfl
      exact hleads rfl
    · rintro ⟨hne, hsharp⟩
      have hlast : EndsInName (Text.split path '/') ∨ ∃ entries, node = .branch entries := by
        cases node with
        | leaf file => exact .inl (hsharp file hlookup)
        | branch entries => exact .inr ⟨entries, rfl⟩
      rw [leadsTo_of_lookup hroot.noDots hlookup hne hlast]
      simp

theorem keepsShape_readFile (hroot : SystemTree root) (encoding : Option String) :
    KeepsShape P root (.readFile path encoding) ↔ Sharp root path := by
  rcases hlookup : lookup root path with _ | ⟨file | entries⟩
  · refine iff_of_true (keepsShape_of_error P (e := ⟨.ENOENT, path⟩) ?_) fun file hfile => ?_
    · rw [run, readFile, bind_get_run, hlookup]
      rfl
    · rw [hlookup] at hfile
      cases hfile
  · have hok : run P (.readFile path encoding) root =
        (.ok (if encoding = none then .bytes file.data else .text (decodeText P file.data)), root) := by
      rw [run, readFile, bind_get_run, hlookup]
      rfl
    rw [keepsShape_iff_of_ok P hok fun _ _ path file hfile => ⟨file, hfile⟩, Refuses]
    constructor
    · intro hleads file' hfile'
      obtain ⟨other, hother⟩ := not_forall_not.mp hleads
      exact endsInName_of_leadsTo hroot.noDots hfile' hother
    · intro hsharp hleads
      have hne : path ≠ "" := by
        rintro rfl
        obtain ⟨entries, rfl⟩ := hroot.directory
        cases hlookup
      exact hleads file (leadsTo_of_lookup hroot.noDots hlookup hne (.inl (hsharp file hlookup)))
  · refine iff_of_true (keepsShape_of_error P (e := ⟨.EISDIR, path⟩) ?_) fun file hfile => ?_
    · rw [run, readFile, bind_get_run, hlookup]
      rfl
    · rw [hlookup] at hfile
      cases hfile

theorem keepsShape_readdir (hroot : SystemTree root) : KeepsShape P root (.readdir path) ↔ path ≠ "" := by
  rcases hlookup : lookup root path with _ | ⟨file | entries⟩
  · refine iff_of_true (keepsShape_of_error P (e := ⟨.ENOENT, path⟩) ?_) ?_
    · rw [run, readdir, bind_get_run, hlookup]
      rfl
    · rintro rfl
      cases hlookup
  · refine iff_of_true (keepsShape_of_error P (e := ⟨.ENOTDIR, path⟩) ?_) ?_
    · rw [run, readdir, bind_get_run, hlookup]
      rfl
    · rintro rfl
      obtain ⟨entries, rfl⟩ := hroot.directory
      cases hlookup
  · have hok : run P (.readdir path) root = (.ok (.names (entries.map Prod.fst)), root) := by
      rw [run, readdir, bind_get_run, hlookup]
      rfl
    rw [keepsShape_iff_of_ok P hok fun _ _ path file hfile => ⟨file, hfile⟩, Refuses]
    constructor
    · rintro hleads rfl
      exact hleads fun entries h => by cases h
    · intro hne hleads
      exact hleads entries (leadsTo_of_lookup hroot.noDots hlookup hne (.inr ⟨entries, rfl⟩))

theorem isDirectory_concat (h : find directory root = some (.branch entries)) :
    IsDirectory root (directory ++ [name]) ↔ ∃ below, entries.lookup name = some (.branch below) := by
  rw [IsDirectory, find_concat h]

theorem keepsShape_writeFile (hroot : SystemTree root) (data : Bytes ⊕ String) (mode : Option Nat) :
    KeepsShape P root (.writeFile path data mode) ↔ Proper root (.writeFile path data mode) := by
  rcases parent_cases root path with ⟨directory, name, entries, hparts, hdirectory, hparent⟩ | ⟨⟨error, herror⟩, hnone⟩
  · have hok : run P (.writeFile path data mode) root = (.ok .done,
        change (setEntry name (.leaf ⟨bytesOf data, mode.getD 0o100644⟩)) directory root) := by
      rw [run, writeFile, Effect.bind_of_ok hparent]
      rfl
    have hslot : EndsInName (Text.split path '/') → slot root (Text.split path '/') = some (entries, name) :=
      fun hlast => slot_of_parts hroot.noDots hlast hparts hdirectory
    have hfree : ¬ Refuses root (.writeFile path data mode) ↔
        EndsInName (Text.split path '/') ∧ ¬ IsDirectory root (parts path) := by
      rw [Refuses, hparts, isDirectory_concat hdirectory]
      constructor
      · intro hrefuses
        push Not at hrefuses
        obtain ⟨entries', name', hfound, hbelow⟩ := hrefuses
        have hlast := endsInName_of_slot hfound
        rw [hslot hlast] at hfound
        obtain ⟨rfl, rfl⟩ := Prod.mk.inj (Option.some.inj hfound)
        exact ⟨hlast, fun ⟨below, h⟩ => hbelow below h⟩
      · rintro ⟨hlast, hbelow⟩ hrefuses
        exact hbelow (hrefuses entries name (hslot hlast))
    rw [keepsShape_iff_of_ok P hok, hfree, Proper]
    · constructor
      · exact fun h _ _ => h
      · intro h
        refine h (by rw [hparts]; simp) ⟨entries, ?_⟩
        rw [hparts, List.dropLast_concat]
        exact hdirectory
    · intro hrefuses _
      refine files_set hdirectory (fun below hbelow => ?_) (.inl ⟨_, rfl⟩)
      have hnot := (hfree.mp hrefuses).2
      rw [hparts, isDirectory_concat hdirectory] at hnot
      exact hnot ⟨below, hbelow⟩
  · refine iff_of_true (keepsShape_of_error P (e := error) ?_) fun hne hdirectory => absurd ⟨hne, hdirectory⟩ hnone
    rw [run, writeFile, Effect.bind_of_error herror]

theorem keepsShape_mkdir (hroot : SystemTree root) :
    KeepsShape P root (.mkdir path) ↔ Proper root (.mkdir path) := by
  rcases hlookup : lookup root path with _ | node
  · rcases parent_cases root path with ⟨directory, name, entries, hparts, hdirectory, hparent⟩ | ⟨⟨error, herror⟩, hnone⟩
    · have hok : run P (.mkdir path) root = (.ok .done, change (setEntry name (.branch [])) directory root) := by
        rw [run, mkdir, bind_get_run, hlookup]
        exact Effect.bind_of_ok hparent
      have hfree : entries.lookup name = none := by
        rw [← find_concat hdirectory, ← hparts]
        exact hlookup
      rw [keepsShape_iff_of_ok P hok, Refuses, Proper]
      · constructor
        · intro hrefuses _ _
          push Not at hrefuses
          obtain ⟨entries', name', hfound, -⟩ := hrefuses
          exact endsInName_of_slot hfound
        · intro hproper hrefuses
          have hlast := hproper hlookup ⟨entries, by rw [hparts, List.dropLast_concat]; exact hdirectory⟩
          have hnames : names (directoryComponents path) = directory ++ [name] :=
            (names_directoryComponents path).trans hparts
          exact hrefuses entries name (slot_of_parts hroot.noDots hlast hnames hdirectory) hfree
      · exact fun _ _ => files_set hdirectory (by simp [hfree]) (.inr hfree)
    · refine iff_of_true (keepsShape_of_error P (e := error) ?_) fun _ hdirectory => absurd ⟨?_, hdirectory⟩ hnone
      · rw [run, mkdir, bind_get_run, hlookup]
        exact Effect.bind_of_error herror
      · refine parts_ne_nil (show lookup root path ≠ some root from ?_)
        rw [hlookup]
        simp
  · refine iff_of_true (keepsShape_of_error P (e := ⟨.EEXIST, path⟩) ?_) fun hnone => ?_
    · rw [run, mkdir, bind_get_run, hlookup]
      rfl
    · rw [hlookup] at hnone
      cases hnone

/-- A removal that succeeds: the path has a name, and stands in a directory. -/
theorem parent_of_lookup {node : Node} (h : lookup root path = some node)
    (hne : parts path ≠ []) : ∃ directory name entries, parts path = directory ++ [name] ∧
      find directory root = some (.branch entries) ∧ entries.lookup name = some node ∧
      parent path root = (.ok (directory, name), root) := by
  rcases parent_cases root path with ⟨directory, name, entries, hparts, hdirectory, hparent⟩ | ⟨-, hnone⟩
  · refine ⟨directory, name, entries, hparts, hdirectory, ?_, hparent⟩
    rw [← find_concat hdirectory, ← hparts]
    exact h
  · refine absurd ⟨hne, ?_⟩ hnone
    rw [lookup, ← List.dropLast_concat_getLast hne] at h
    exact branch_of_find h (by simp)

theorem keepsShape_unlink (hroot : SystemTree root) : KeepsShape P root (.unlink path) ↔ Sharp root path := by
  rcases hlookup : lookup root path with _ | ⟨file | entries⟩
  · refine iff_of_true (keepsShape_of_error P (e := ⟨.ENOENT, path⟩) ?_) fun file hfile => ?_
    · rw [run, unlink, bind_get_run, hlookup]
      rfl
    · rw [hlookup] at hfile
      cases hfile
  · have hne : parts path ≠ [] := by
      refine parts_ne_nil (show lookup root path ≠ some root from ?_)
      obtain ⟨entries, rfl⟩ := hroot.directory
      rw [hlookup]
      simp
    obtain ⟨directory, name, entries, hparts, hdirectory, hentry, hparent⟩ := parent_of_lookup hlookup hne
    have hok : run P (.unlink path) root = (.ok .done, change (deleteEntry name) directory root) := by
      rw [run, unlink, bind_get_run, hlookup]
      exact Effect.bind_of_ok hparent
    rw [keepsShape_iff_of_ok P hok fun _ hremoves => absurd trivial hremoves, Refuses]
    constructor
    · intro hrefuses _ _
      push Not at hrefuses
      obtain ⟨entries', name', _, hfound, -⟩ := hrefuses
      exact endsInName_of_slot hfound
    · intro hsharp hrefuses
      exact hrefuses entries name file (slot_of_parts hroot.noDots (hsharp file hlookup) hparts hdirectory) hentry
  · refine iff_of_true (keepsShape_of_error P (e := ⟨.EISDIR, path⟩) ?_) fun file hfile => ?_
    · rw [run, unlink, bind_get_run, hlookup]
      rfl
    · rw [hlookup] at hfile
      cases hfile

theorem keepsShape_rmdir (hroot : SystemTree root) :
    KeepsShape P root (.rmdir path) ↔ Proper root (.rmdir path) := by
  rcases hlookup : lookup root path with _ | ⟨file | ⟨_ | ⟨entry, rest⟩⟩⟩
  · refine iff_of_true (keepsShape_of_error P (e := ⟨.ENOENT, path⟩) ?_) fun _ hempty => ?_
    · rw [run, rmdir, bind_get_run, hlookup]
      rfl
    · rw [hlookup] at hempty
      cases hempty
  · refine iff_of_true (keepsShape_of_error P (e := ⟨.ENOTDIR, path⟩) ?_) fun _ hempty => ?_
    · rw [run, rmdir, bind_get_run, hlookup]
      rfl
    · rw [hlookup] at hempty
      cases hempty
  · by_cases hne : parts path = []
    · -- the root itself has no parent
      refine iff_of_true ?_ fun h => absurd hne h
      rcases parent_cases root path with ⟨_, _, _, hparts, _⟩ | ⟨⟨error, herror⟩, -⟩
      · rw [hne] at hparts
        simp at hparts
      · refine keepsShape_of_error P (e := error) ?_
        rw [run, rmdir, bind_get_run, hlookup]
        exact Effect.bind_of_error herror
    · obtain ⟨directory, name, entries, hparts, hdirectory, hentry, hparent⟩ := parent_of_lookup hlookup hne
      have hok : run P (.rmdir path) root = (.ok .done, change (deleteEntry name) directory root) := by
        rw [run, rmdir, bind_get_run, hlookup]
        exact Effect.bind_of_ok hparent
      rw [keepsShape_iff_of_ok P hok fun _ hremoves => absurd trivial hremoves, Refuses, Proper]
      constructor
      · intro hrefuses _ _
        push Not at hrefuses
        obtain ⟨entries', name', hfound, -⟩ := hrefuses
        exact endsInName_of_slot hfound
      · intro hproper hrefuses
        have hnames : names (directoryComponents path) = directory ++ [name] :=
          (names_directoryComponents path).trans hparts
        exact hrefuses entries name (slot_of_parts hroot.noDots (hproper hne hlookup) hnames hdirectory) hentry
  · refine iff_of_true (keepsShape_of_error P (e := ⟨.ENOTEMPTY, path⟩) ?_) fun _ hempty => ?_
    · rw [run, rmdir, bind_get_run, hlookup]
      rfl
    · rw [hlookup] at hempty
      cases hempty

/-- One step keeps the shape of the tree just when its operation is proper there. -/
theorem keepsShape_iff (hroot : SystemTree root) (op : Op) : KeepsShape P root op ↔ Proper root op := by
  cases op with
  | readFile path encoding => exact keepsShape_readFile P hroot encoding
  | writeFile path data mode => exact keepsShape_writeFile P hroot data mode
  | unlink path => exact keepsShape_unlink P hroot
  | readdir path => exact keepsShape_readdir P hroot
  | mkdir path => exact keepsShape_mkdir P hroot
  | rmdir path => exact keepsShape_rmdir P hroot
  | stat path => exact keepsShape_stat P hroot (.inl rfl)
  | lstat path => exact keepsShape_stat P hroot (.inr rfl)
  | readlink path => exact iff_of_true (keepsShape_of_error P rfl) trivial
  | symlink target path => exact iff_of_true (keepsShape_of_error P rfl) trivial
  | chmod path mode =>
    exact keepsShape_iff_of_ok P (a := root) rfl fun _ _ path file hfile => ⟨file, hfile⟩

/-! ### What a run does -/

theorem directory_change {f : List (String × Node) → List (String × Node)}
    (h : ∃ entries, root = .branch entries) : ∃ entries, change f directory root = .branch entries := by
  obtain ⟨entries, rfl⟩ := h
  cases directory with
  | nil => exact ⟨_, rfl⟩
  | cons name rest => exact ⟨_, rfl⟩

theorem systemTree_set (hroot : SystemTree root) (h : find directory root = some (.branch entries)) {node : Node}
    (hname : name ≠ "..") (hnode : ∀ first rest, find (first :: rest) node = none) :
    SystemTree (change (setEntry name node) directory root) := by
  refine ⟨directory_change hroot.directory, noDots_change hroot.noDots h fun first rest found hfound => ?_⟩
  rw [find, lookup_setEntry] at hfound
  split at hfound
  · rename_i hfirst
    rcases rest with _ | ⟨second, rest⟩
    · exact .inl ⟨hfirst ▸ hname, rfl⟩
    · rw [Option.bind_some, hnode] at hfound
      cases hfound
  · rw [find, hfound]
    exact .inr rfl

theorem systemTree_delete (hroot : SystemTree root) (h : find directory root = some (.branch entries)) :
    SystemTree (change (deleteEntry name) directory root) := by
  refine ⟨directory_change hroot.directory, noDots_change hroot.noDots h fun first rest found hfound => ?_⟩
  rw [find, lookup_deleteEntry] at hfound
  split at hfound
  · cases hfound
  · rw [find, hfound]
    exact .inr rfl

/-- The end of a removal: the entry goes, where the parent is found. -/
theorem systemTree_removal (hroot : SystemTree root) : SystemTree ((do
    let (directory, name) ← parent path
    delete directory name
    pure .done : Method Answer) root).2 := by
  rcases parent_cases root path with ⟨directory, name, entries, -, hdirectory, hparent⟩ | ⟨⟨error, herror⟩, -⟩
  · rw [Effect.bind_of_ok hparent]
    exact systemTree_delete hroot hdirectory
  · rw [Effect.bind_of_error herror]
    exact hroot

/-- A path that ends in a name has it as its last name. -/
theorem ne_dots_of_endsInName {components : List String} (hlast : EndsInName components)
    (hparts : names components = directory ++ [name]) : name ≠ ".." := by
  rcases List.eq_nil_or_concat components with rfl | ⟨init, last, rfl⟩
  · simp [names] at hparts
  · rw [List.concat_eq_append] at hlast hparts
    have hname : IsName last := hlast last (by simp)
    have hsplit : names (init ++ [last]) = names init ++ [last] := by
      rw [names, List.filter_append, names]
      simp [hname.1, hname.2.1]
    rw [hsplit] at hparts
    obtain rfl := List.singleton_inj.mp (List.append_inj' hparts rfl).2
    exact hname.2.2

/-- A proper step leads to a tree of a system. -/
theorem systemTree_run (hroot : SystemTree root) {op : Op} (hproper : Proper root op) :
    SystemTree (run P op root).2 := by
  cases op with
  | readFile path encoding =>
    rw [run, readFile, bind_get_run]
    rcases lookup root path with _ | ⟨file | entries⟩ <;> exact hroot
  | readdir path =>
    rw [run, readdir, bind_get_run]
    rcases lookup root path with _ | ⟨file | entries⟩ <;> exact hroot
  | stat path | lstat path =>
    rw [run, stat, bind_get_run]
    rcases lookup root path with _ | node <;> exact hroot
  | readlink path => exact hroot
  | symlink target path => exact hroot
  | chmod path mode => exact hroot
  | writeFile path data mode =>
    rcases parent_cases root path with ⟨directory, name, entries, hparts, hdirectory, hparent⟩ | ⟨⟨error, herror⟩, -⟩
    · rw [run, writeFile, Effect.bind_of_ok hparent]
      have hlast := (hproper (by rw [hparts]; simp)
        ⟨entries, by rw [hparts, List.dropLast_concat]; exact hdirectory⟩).1
      exact systemTree_set hroot hdirectory (ne_dots_of_endsInName hlast hparts) fun _ _ => rfl
    · rw [run, writeFile, Effect.bind_of_error herror]
      exact hroot
  | mkdir path =>
    rw [run]
    rcases hlookup : lookup root path with _ | node
    · rcases parent_cases root path with ⟨directory, name, entries, hparts, hdirectory, hparent⟩ | ⟨⟨error, herror⟩, -⟩
      · have hlast := hproper hlookup ⟨entries, by rw [hparts, List.dropLast_concat]; exact hdirectory⟩
        have hname := ne_dots_of_endsInName hlast ((names_directoryComponents path).trans hparts)
        have hrun : mkdir path root = (.ok .done, change (setEntry name (.branch [])) directory root) := by
          rw [mkdir, bind_get_run, hlookup]
          exact Effect.bind_of_ok hparent
        rw [hrun]
        exact systemTree_set hroot hdirectory hname fun _ _ => rfl
      · have hrun : mkdir path root = (.error error, root) := by
          rw [mkdir, bind_get_run, hlookup]
          exact Effect.bind_of_error herror
        rw [hrun]
        exact hroot
    · rw [mkdir, bind_get_run, hlookup]
      exact hroot
  | unlink path =>
    rw [run, unlink, bind_get_run]
    rcases lookup root path with _ | ⟨file | entries⟩
    · exact hroot
    · exact systemTree_removal hroot
    · exact hroot
  | rmdir path =>
    rw [run, rmdir, bind_get_run]
    rcases lookup root path with _ | ⟨file | ⟨_ | ⟨entry, rest⟩⟩⟩
    · exact hroot
    · exact hroot
    · exact systemTree_removal hroot
    · exact hroot

theorem run_keepsShape_iff (hroot : SystemTree root) (ops : List Op) :
    (∀ step ∈ steps P root ops, KeepsShape P step.1 step.2) ↔ ∀ step ∈ steps P root ops, Proper step.1 step.2 := by
  induction ops generalizing root with
  | nil => exact ⟨fun _ _ hstep => absurd hstep List.not_mem_nil, fun _ _ hstep => absurd hstep List.not_mem_nil⟩
  | cons op ops ih =>
    rw [steps, List.forall_mem_cons, List.forall_mem_cons, keepsShape_iff P hroot op]
    exact and_congr_right fun hproper => ih (systemTree_run P hroot hproper)

/-- The file system as it is made. -/
def empty : Node := .branch []

theorem systemTree_empty : SystemTree empty := by
  refine ⟨⟨[], rfl⟩, fun path node h => ?_⟩
  rcases path with _ | ⟨name, rest⟩
  · exact List.not_mem_nil
  · cases h

/-- Every step of a run keeps the shape of the tree just when every operation of it is proper where it
    comes. -/
theorem memory_fs_shape_iff (ops : List Op) :
    (∀ step ∈ steps P empty ops, KeepsShape P step.1 step.2) ↔
      ∀ step ∈ steps P empty ops, Proper step.1 step.2 :=
  run_keepsShape_iff P systemTree_empty ops

/-- A directory is made, a file is written into it, and a file over it. -/
def overwriting : List Op :=
  [.mkdir "d", .writeFile "d/f" (.inl [1]) none, .writeFile "d" (.inl [2]) none]

/-- The tree before the last step. -/
def directoryTree : Node := .branch [("d", .branch [("f", .leaf ⟨[1], 0o100644⟩)])]

/-- The last step succeeds, and the file in the directory is gone. -/
theorem directory_overwritten :
    run (.ofTables [] [] [] []) (.writeFile "d" (.inl [2]) none) directoryTree =
        (.ok .done, .branch [("d", .leaf ⟨[2], 0o100644⟩)]) ∧
      ¬ ∀ step ∈ steps (.ofTables [] [] [] []) empty overwriting,
        KeepsShape (.ofTables [] [] [] []) step.1 step.2 := by
  have hrun : run (.ofTables [] [] [] []) (.writeFile "d" (.inl [2]) none) directoryTree =
      (.ok .done, .branch [("d", .leaf ⟨[2], 0o100644⟩)]) := by rfl
  have hmem : (directoryTree, .writeFile "d" (.inl [2]) none) ∈ steps (.ofTables [] [] [] []) empty overwriting :=
    List.mem_of_getElem? (i := 2) rfl
  refine ⟨hrun, fun h => ?_⟩
  obtain ⟨file, hfile⟩ := (h _ hmem).files id ["d", "f"] ⟨[1], 0o100644⟩ rfl
  rw [hrun] at hfile
  cases hfile

end Akua.MemoryFs
