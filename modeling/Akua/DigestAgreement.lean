import Mathlib.Data.List.Pairwise
import Akua.TreeDigest
import Akua.Lib.LinkedDisk

/-! Three programs digest a directory: `treeDigest` of a loaded snapshot, `hashDirectory`, and the
    previous release's `hash_dir`. All of them frame the files one after another. They differ in the
    files they take, since a snapshot follows links and the other two leave them out, and in the
    order of the files, which is by UTF-16 code units here and by UTF-8 bytes there. On a tree
    without links to files, whose files the two orders sort alike, they hash one stream. -/

namespace Akua

open FileSystem

/-! ### The previous release -/

namespace Rust

section Walk

variable {φ : Type} [FileSystem φ] [EntryTypes φ]

/-- The files under `dir`, by their path relative to `root`. Links are left out. -/
def collectFiles (root : FilePath) : Nat → FilePath → Reading φ PlatformError (List (FilePath × FilePath))
  | 0, _ => .fail ⟨.other, "File name too long"⟩
  | depth + 1, dir => do
    let names ← readDirectory dir
    let found ← forEach (fun name => do
      let path := dir ++ [name]
      let ft ← EntryTypes.entryType path
      match ft with
      | .directory => collectFiles root depth path
      | .file => pure [(path.drop root.length, path)]
      | .symlink => pure []) names
    pure found.flatten

/-- `a <= b`: paths go component by component, a component by its bytes. -/
def AtMost (a b : FilePath) : Prop :=
  (a.map fun c => (encodeText c).map UInt8.toNat) ≤ b.map fun c => (encodeText c).map UInt8.toNat

instance : DecidableRel AtMost := fun a b =>
  inferInstanceAs (Decidable ((a.map fun c => (encodeText c).map UInt8.toNat) ≤
    b.map fun c => (encodeText c).map UInt8.toNat))

/-- What `hash_dir` hashes, and how many bytes of it are content. -/
def hashedStream (root : FilePath) : Reading φ PlatformError (Bytes × Nat) := do
  let files ← collectFiles root PATH_MAX root
  let sorted := files.insertionSort fun a b => AtMost a.1 b.1
  let contents ← forEach (fun f => readFile f.2) sorted
  pure ((sorted.zip contents).flatMap fun f => fileStream (Text.join f.1.1 '/') f.2,
    contents.foldl (fun size data => size + data.length) 0)

def hashDir (P : Platform) (root : FilePath) : Reading φ PlatformError (String × Nat) :=
  (fun stream => (sha256 P stream.1, stream.2)) <$> hashedStream root

end Walk

instance : Std.Total AtMost := ⟨fun _ _ => le_total _ _⟩

instance : IsTrans FilePath AtMost := ⟨fun _ _ _ h h' => le_trans h h'⟩

theorem AtMost.antisymm {a b : FilePath} (h : AtMost a b) (h' : AtMost b a) : a = b := by
  have hkey := le_antisymm h h'
  refine List.map_injective_iff.mpr (fun c d hcd => ?_) hkey
  have hbytes := List.map_injective_iff.mpr (fun _ _ => UInt8.toNat_inj.mp) hcd
  exact encodeText_injective hbytes

end Rust

/-- What `hashDirectory` hashes, and how many bytes of it are content. -/
def hashedStream {φ : Type} [FileSystem φ] (root : FilePath) :
    Reading φ PlatformError (Bytes × Nat) := do
  let files ← collectFiles root (fun _ => true) (fun _ => false)
  let contents ← forEach (fun file => readFile (FilePath.join root file)) files
  pure ((files.zip contents).flatMap fun f => fileStream f.1 f.2,
    contents.foldl (fun size data => size + data.length) 0)

theorem hashDirectory_eq {φ : Type} [FileSystem φ] (P : Platform) (root : FilePath) (fs : φ) :
    hashDirectory P root fs =
      ((fun stream => (sha256 P stream.1, stream.2)) <$> hashedStream root) fs := by
  unfold hashDirectory hashedStream
  rw [Reading.map_run]
  rcases hfiles : collectFiles root (fun _ => true) (fun _ => false) fs with e | files
  · rw [Reading.bind_of_error hfiles, Reading.bind_of_error hfiles]
    rfl
  rw [Reading.bind_of_ok hfiles, Reading.bind_of_ok hfiles]
  rcases hcontents : forEach (fun file => readFile (FilePath.join root file)) files fs with e | contents
  · rw [Reading.bind_of_error hcontents, Reading.bind_of_error hcontents]
    rfl
  · rw [Reading.bind_of_ok hcontents, Reading.bind_of_ok hcontents]
    rfl

/-! ### The order of paths -/

theorem cons_le_cons {a b : List Nat} {as bs : List (List Nat)} :
    a :: as ≤ b :: bs ↔ a < b ∨ a = b ∧ as ≤ bs := by
  have hlex : ∀ x y : List (List Nat), x < y ↔ List.Lex (· < ·) x y := fun _ _ => Iff.rfl
  rw [← not_lt, ← not_lt, hlex, hlex, List.cons_lex_cons_iff]
  constructor
  · intro h
    rcases lt_trichotomy a b with hlt | rfl | hlt
    · exact Or.inl hlt
    · exact Or.inr ⟨rfl, fun hmore => h (Or.inr ⟨rfl, hmore⟩)⟩
    · exact absurd (Or.inl hlt) h
  · rintro (hlt | ⟨rfl, hmore⟩) (hlt' | ⟨he, hmore'⟩)
    · exact lt_asymm hlt hlt'
    · exact hlt.ne he.symm
    · exact lt_irrefl _ hlt'
    · exact hmore hmore'

/-- A component list is at most another by the code units of its components. -/
theorem componentsAtMost_iff : ∀ {a b : List String},
    componentsAtMost a b = true ↔ a.map Text.units ≤ b.map Text.units
  | [], b => by
      have hnil : ([] : List (List Nat)) ≤ b.map Text.units := not_lt.mp List.not_lex_nil
      exact iff_of_true rfl hnil
  | a :: as, [] => by
      have hnil : ([] : List (List Nat)) < (a :: as).map Text.units := List.Lex.nil
      exact iff_of_false (by simp [componentsAtMost]) (not_le.mpr hnil)
  | a :: as, b :: bs => by
      rw [componentsAtMost, List.map_cons, List.map_cons, cons_le_cons]
      split
      · rename_i h
        rw [componentsAtMost_iff, h]
        simp
      · rename_i h
        have hne : Text.units a ≠ Text.units b := fun he => h (Text.units_injective he)
        simp [Text.less, hne]

theorem comparePaths_iff {a b : String} : comparePaths a b = true ↔
    (Text.split a '/').map Text.units ≤ (Text.split b '/').map Text.units :=
  componentsAtMost_iff

theorem comparePaths_antisymm {a b : String} (h : comparePaths a b = true)
    (h' : comparePaths b a = true) : a = b := by
  rw [comparePaths_iff] at h h'
  have hsplit := List.map_injective_iff.mpr Text.units_injective (le_antisymm h h')
  rw [← Text.join_split a '/', hsplit, Text.join_split]

instance : Std.Total fun a b : String => comparePaths a b = true := ⟨fun a b => by
  rw [comparePaths_iff, comparePaths_iff]
  exact le_total _ _⟩

instance : IsTrans String fun a b => comparePaths a b = true := ⟨fun a b c h h' => by
  rw [comparePaths_iff] at *
  exact le_trans h h'⟩

/-! ### The files of a tree -/

section Tree

variable {follow : Bool}

/-- The files in a real directory and below, links left out, by their path from it. -/
def filesBelow (disk : LinkedDisk follow) : Nat → FilePath → List (List String)
  | 0, _ => []
  | depth + 1, dir => (disk.children dir).flatMap fun name =>
    match disk.at? (dir ++ [name]) with
    | some (.file _) => [[name]]
    | some .directory => (filesBelow disk depth (dir ++ [name])).map (name :: ·)
    | _ => []

/-- The content of a real file. -/
def contentAt (disk : LinkedDisk follow) (path : FilePath) : Bytes :=
  match disk.at? path with
  | some (.file data) => data
  | _ => []

variable {disk : LinkedDisk follow} {root real : FilePath} {left : Nat}

theorem normal_of_at? {path : FilePath} {node : LinkNode} (h : disk.at? path = some node) :
    FilePath.Normal path := by
  intro c hc
  by_cases hne : path = []
  · rw [hne] at hc
    exact absurd hc List.not_mem_nil
  · exact (disk.plain _ (LinkedDisk.mem_keys_of_at? h hne) c hc).1

/-- A path is a file below when it is one. The induction is on the depth that is left: where none
    is, a path would be too long. -/
theorem mem_filesBelow : ∀ {depth : Nat} {dir : FilePath} {rel : List String},
    MAX_PATH ≤ depth + dir.length → (rel ∈ filesBelow disk depth dir ↔
      rel ≠ [] ∧ ∃ data, disk.at? (dir ++ rel) = some (.file data)) := by
  intro depth
  induction depth with
  | zero =>
    intro dir rel hdepth
    refine iff_of_false List.not_mem_nil ?_
    rintro ⟨-, data, hdata⟩
    have hshort := LinkedDisk.length_of_at? hdata
    rw [List.length_append] at hshort
    omega
  | succ depth ih =>
    intro dir rel hdepth
    have ih' : ∀ name more, more ∈ filesBelow disk depth (dir ++ [name]) ↔
        more ≠ [] ∧ ∃ data, disk.at? (dir ++ [name] ++ more) = some (.file data) :=
      fun name more => ih (by rw [List.length_append, List.length_singleton]; omega)
    rw [filesBelow, List.mem_flatMap]
    constructor
    · rintro ⟨name, -, hrel⟩
      rcases hnode : disk.at? (dir ++ [name]) with _ | _ | _ | _ <;> rw [hnode] at hrel
      · cases hrel
      · rw [List.mem_singleton.mp hrel]
        exact ⟨by simp, _, hnode⟩
      · obtain ⟨more, hmore, rfl⟩ := List.mem_map.mp hrel
        obtain ⟨-, data, hdata⟩ := (ih' name more).mp hmore
        exact ⟨by simp, data, by simpa using hdata⟩
      · cases hrel
    · rintro ⟨hne, data, hdata⟩
      obtain ⟨name, more, rfl⟩ := List.exists_cons_of_ne_nil hne
      by_cases hlast : more = []
      · subst hlast
        exact ⟨name, LinkedDisk.mem_children.mpr ⟨_, hdata⟩, by rw [hdata]; simp⟩
      · have hdir : disk.at? (dir ++ [name]) = some .directory :=
          LinkedDisk.at?_above (show dir ++ [name] <+: dir ++ name :: more from ⟨more, by simp⟩)
            (by simpa using hlast) hdata
        refine ⟨name, LinkedDisk.mem_children.mpr ⟨_, hdir⟩, ?_⟩
        rw [hdir]
        exact List.mem_map.mpr ⟨more, (ih' name more).mpr ⟨hlast, data, by simpa using hdata⟩, rfl⟩

theorem nodup_filesBelow : ∀ {depth : Nat} {dir : FilePath}, (filesBelow disk depth dir).Nodup := by
  intro depth
  induction depth with
  | zero => intro dir; exact List.nodup_nil
  | succ depth ih =>
    intro dir
    have hhead : ∀ {name rel}, (rel ∈ match disk.at? (dir ++ [name]) with
        | some (.file _) => [[name]]
        | some .directory => (filesBelow disk depth (dir ++ [name])).map (name :: ·)
        | _ => []) → rel.head? = some name := by
      intro name rel hrel
      rcases hnode : disk.at? (dir ++ [name]) with _ | _ | _ | _ <;> rw [hnode] at hrel
      · cases hrel
      · rw [List.mem_singleton.mp hrel]
        rfl
      · obtain ⟨more, -, rfl⟩ := List.mem_map.mp hrel
        rfl
      · cases hrel
    rw [filesBelow, List.nodup_flatMap]
    constructor
    · intro name _
      rcases disk.at? (dir ++ [name]) with _ | _ | _ | _
      · exact List.nodup_nil
      · exact List.nodup_singleton _
      · exact (List.nodup_map_iff (List.cons_injective)).mpr ih
      · exact List.nodup_nil
    · refine LinkedDisk.nodup_children.imp fun {a b} hab rel ha hb => hab ?_
      exact Option.some.inj ((hhead ha).symm.trans (hhead hb))

/-- The components of a file's path are plain names without a NUL. -/
theorem plain_of_mem_filesBelow {depth : Nat} {dir : FilePath} {rel : List String}
    (hdepth : MAX_PATH ≤ depth + dir.length) (h : rel ∈ filesBelow disk depth dir) :
    rel ≠ [] ∧ ∀ c ∈ rel, FilePath.Plain c ∧ '\x00' ∉ c.toList := by
  obtain ⟨hne, data, hdata⟩ := (mem_filesBelow hdepth).mp h
  refine ⟨hne, fun c hc => ?_⟩
  exact disk.plain _ (LinkedDisk.mem_keys_of_at? hdata (by simp [hne])) c
    (List.mem_append_right _ hc)

theorem stat_at {path : FilePath} {node : LinkNode} (h : disk.find path = .ok (real, node)) :
    stat path disk = .ok ⟨if node = .directory then .directory else .file, 0o644⟩ := by
  show ((disk.find path).bind fun found => _) = _
  rw [h]
  rfl

theorem readDirectory_at {path : FilePath} (h : disk.find path = .ok (real, .directory)) :
    readDirectory path disk = .ok (disk.children real) := by
  simp only [readDirectory, h]
  rfl

theorem readFile_found {path : FilePath} {data : Bytes}
    (h : disk.find path = .ok (real, .file data)) : readFile path disk = .ok data := by
  simp only [readFile, h]
  rfl

/-- A file is read where it is listed. -/
theorem readFile_at {rel : FilePath} {data : Bytes}
    (hroot : disk.resolve MAX_LINKS [] root = .ok (real, left))
    (h : disk.at? (real ++ rel) = some (.file data)) :
    readFile (root ++ rel) disk = .ok (contentAt disk (real ++ rel)) := by
  rw [readFile_found (LinkedDisk.find_below hroot h (by simp)), contentAt, h]

theorem realPath_at {path : FilePath} {node : LinkNode} (h : disk.find path = .ok (real, node)) :
    realPath path disk = .ok real := by
  show Prod.fst <$> disk.find path = _
  rw [h]
  rfl

/-- A link is found elsewhere than where it is listed. -/
theorem realPath_link {path : FilePath} {target : String}
    (h : disk.at? real = some (.link target)) : (realPath path disk).toOption ≠ some real := by
  show (Prod.fst <$> disk.find path).toOption ≠ some real
  rcases hfind : disk.find path with e | ⟨found, node⟩
  · exact nofun
  · intro he
    obtain rfl : found = real := Option.some.inj he
    exact LinkedDisk.find_link h hfind

theorem join_eq_empty {rel : FilePath} (h : FilePath.Normal rel) :
    Text.join rel '/' = "" ↔ rel = [] := by
  constructor
  · intro he
    by_contra hne
    have hsplit := Text.split_join hne fun c hc => (h c hc).2.2.2
    rw [he] at hsplit
    have hempty : "" ∈ rel := by
      rw [← hsplit]
      decide
    exact (h _ hempty).1 rfl
  · rintro rfl
    rfl

/-- The walk here lists the files below a directory. -/
theorem walk_eq (hnormal : FilePath.Normal root)
    (hroot : disk.resolve MAX_LINKS [] root = .ok (real, left)) : ∀ {depth : Nat} {rel : List String},
    disk.at? (real ++ rel) = some .directory → MAX_PATH ≤ depth + (real ++ rel).length →
    walk root (fun _ => true) (fun _ => false) depth (Text.join rel '/') disk =
      .ok ((filesBelow disk depth (real ++ rel)).map fun more => Text.join (rel ++ more) '/') := by
  intro depth
  induction depth with
  | zero =>
    intro rel hdir hdepth
    have hshort := LinkedDisk.length_of_at? hdir
    omega
  | succ depth ih =>
    intro rel hdir hdepth
    have hreal := normal_of_at? hdir
    have hrel : FilePath.Normal rel := fun c hc => hreal c (List.mem_append_right _ hc)
    have hdirectory : (if Text.join rel '/' = "" then root
        else FilePath.join root (Text.join rel '/')) = root ++ rel := by
      rw [FilePath.join_components hnormal hrel]
      split
      · rename_i h
        rw [(join_eq_empty hrel).mp h, List.append_nil]
      · rfl
    have hfind := LinkedDisk.find_below hroot hdir (by simp)
    rw [walk]
    dsimp only
    rw [hdirectory, Reading.bind_of_ok (realPath_at hfind),
      Reading.bind_of_ok (readDirectory_at hfind),
      Reading.bind_of_ok (Reading.forEach_of_forall (g := fun name =>
        match disk.at? (real ++ rel ++ [name]) with
        | some (.file _) => [Text.join (rel ++ [name]) '/']
        | some .directory => (filesBelow disk depth (real ++ rel ++ [name])).map fun more =>
          Text.join (rel ++ name :: more) '/'
        | _ => []) ?_)]
    · rw [Reading.pure_run, filesBelow, List.map_flatMap, ← List.flatMap_def]
      refine congrArg Except.ok (List.flatMap_congr fun name _ => ?_)
      rcases disk.at? (real ++ rel ++ [name]) with _ | _ | _ | _ <;> simp
    · intro name hname
      obtain ⟨node, hnode⟩ := LinkedDisk.mem_children.mp hname
      have hplain := (LinkedDisk.plain_of_entry hnode).1
      have hjoin : FilePath.join (root ++ rel) name = root ++ (rel ++ [name]) := by
        rw [FilePath.join_plain (List.forall_mem_append.mpr ⟨hnormal, hrel⟩) hplain,
          List.append_assoc]
      have hjoinReal : FilePath.join (real ++ rel) name = real ++ rel ++ [name] :=
        FilePath.join_plain hreal hplain
      have hentry : (if Text.join rel '/' = "" then name else Text.join rel '/' ++ "/" ++ name) =
          Text.join (rel ++ [name]) '/' := by
        split
        · rename_i h
          rw [(join_eq_empty hrel).mp h, List.nil_append, Text.join_singleton]
        · rename_i h
          rw [Text.join_concat name '/' fun he => h ((join_eq_empty hrel).mpr he), String.append_assoc]
      rw [if_neg (by simp), hjoin, hjoinReal, Reading.bind_of_ok Reading.option_run, hentry]
      by_cases hlink : ∃ target, node = .link target
      · obtain ⟨target, rfl⟩ := hlink
        rw [if_pos (realPath_link hnode), hnode]
        rfl
      · have hfile := LinkedDisk.find_below hroot
          (show disk.at? (real ++ (rel ++ [name])) = some node by rwa [← List.append_assoc])
          fun target he => hlink ⟨target, he⟩
        rw [← List.append_assoc real] at hfile
        have hself : disk.find (real ++ rel ++ [name]) = .ok (real ++ rel ++ [name], node) :=
          LinkedDisk.find_self hnode fun target he => hlink ⟨target, he⟩
        rw [if_neg (by rw [realPath_at hfile]; simp [Except.toOption]), Reading.bind_of_ok (stat_at hself),
          hnode]
        cases node with
        | link target => exact absurd ⟨target, rfl⟩ hlink
        | file data => rfl
        | directory =>
          show walk root _ _ depth (Text.join (rel ++ [name]) '/') disk = _
          rw [ih (by rwa [← List.append_assoc]) (by simp at hdepth ⊢; omega)]
          simp only [List.append_assoc, List.singleton_append]

/-- The type of an entry of a directory. -/
theorem entryType_at {rel : FilePath} {name : String}
    (hroot : disk.resolve MAX_LINKS [] root = .ok (real, left)) {node : LinkNode}
    (h : disk.at? (real ++ rel ++ [name]) = some node) :
    EntryTypes.entryType (root ++ rel ++ [name]) disk = .ok node.type := by
  have hfind := LinkedDisk.find_below hroot (LinkedDisk.directory_of_entry h) (by simp)
  simp only [EntryTypes.entryType]
  rw [FilePath.dirname, List.dropLast_concat, hfind, List.getLast?_concat, except_bind_ok]
  exact ⟨(real ++ rel, .directory), rfl, by simp only [Option.toList_some, h]⟩

/-- The previous release's walk lists the same files in the same order. -/
theorem rust_collectFiles_eq (hroot : disk.resolve MAX_LINKS [] root = .ok (real, left)) :
    ∀ {depth : Nat} {rel : List String},
      disk.at? (real ++ rel) = some .directory → MAX_PATH ≤ depth + (real ++ rel).length →
      Rust.collectFiles root depth (root ++ rel) disk =
        .ok ((filesBelow disk depth (real ++ rel)).map fun more =>
          (rel ++ more, root ++ (rel ++ more))) := by
  intro depth
  induction depth with
  | zero =>
    intro rel hdir hdepth
    have hshort := LinkedDisk.length_of_at? hdir
    omega
  | succ depth ih =>
    intro rel hdir hdepth
    rw [Rust.collectFiles,
      Reading.bind_of_ok (readDirectory_at (LinkedDisk.find_below hroot hdir (by simp))),
      Reading.bind_of_ok (Reading.forEach_of_forall (g := fun name =>
        match disk.at? (real ++ rel ++ [name]) with
        | some (.file _) => [(rel ++ [name], root ++ (rel ++ [name]))]
        | some .directory => (filesBelow disk depth (real ++ rel ++ [name])).map fun more =>
          (rel ++ name :: more, root ++ (rel ++ name :: more))
        | _ => []) ?_)]
    · rw [Reading.pure_run, filesBelow, List.map_flatMap, ← List.flatMap_def]
      refine congrArg Except.ok (List.flatMap_congr fun name _ => ?_)
      rcases disk.at? (real ++ rel ++ [name]) with _ | _ | _ | _ <;> simp
    · intro name hname
      obtain ⟨node, hnode⟩ := LinkedDisk.mem_children.mp hname
      rw [Reading.bind_of_ok (entryType_at hroot hnode), hnode]
      cases node with
      | link target => rfl
      | file data =>
        show Except.ok [(List.drop root.length (root ++ rel ++ [name]), root ++ rel ++ [name])] = _
        rw [List.append_assoc, List.drop_left]
      | directory =>
        show Rust.collectFiles root depth (root ++ rel ++ [name]) disk = _
        rw [List.append_assoc root, ih (by rwa [← List.append_assoc]) (by simp at hdepth ⊢; omega)]
        simp only [List.append_assoc, List.singleton_append]

/-! ### The streams -/

/-- The content of a real file, by its path as text. -/
def contentOf (disk : LinkedDisk follow) (real : FilePath) (file : String) : Bytes :=
  contentAt disk (real ++ Text.split file '/')

/-- The paths of the tree's files. -/
def pathsOf (disk : LinkedDisk follow) (real : FilePath) : List String :=
  (filesBelow disk MAX_PATH real).map fun rel => Text.join rel '/'

theorem split_path {rel : List String} (h : rel ∈ filesBelow disk MAX_PATH real) :
    Text.split (Text.join rel '/') '/' = rel := by
  obtain ⟨hne, hplain⟩ := plain_of_mem_filesBelow (by omega) h
  exact Text.split_join hne fun c hc => (hplain c hc).1.2.2.2

theorem mem_pathsOf {file : String} : file ∈ pathsOf disk real ↔
    ∃ data, disk.at? (real ++ Text.split file '/') = some (.file data) := by
  rw [pathsOf, List.mem_map]
  constructor
  · rintro ⟨rel, hrel, rfl⟩
    rw [split_path hrel]
    exact ((mem_filesBelow (by omega)).mp hrel).2
  · rintro ⟨data, hdata⟩
    exact ⟨Text.split file '/', (mem_filesBelow (by omega)).mpr ⟨Text.split_ne_nil file '/', data, hdata⟩,
      Text.join_split file '/'⟩

theorem nodup_pathsOf : (pathsOf disk real).Nodup := by
  refine (List.nodup_map_iff_inj_on nodup_filesBelow).mpr fun a ha b hb he => ?_
  rw [← split_path ha, he, split_path hb]

/-- Files that are read one by one are framed in their order. -/
theorem frames_zip {α : Type} (name : α → String) (content : α → Bytes) (l : List α) :
    ((l.zip (l.map content)).flatMap fun f => fileStream (name f.1) f.2) =
      frames (l.map fun x => (name x, content x)) := by
  induction l with
  | nil => rfl
  | cons x l ih =>
    rw [List.map_cons, List.zip_cons_cons, List.flatMap_cons, ih]
    rfl

theorem collectFiles_eq (hnormal : FilePath.Normal root)
    (hroot : disk.find root = .ok (real, .directory)) :
    collectFiles root (fun _ => true) (fun _ => false) disk = .ok (sortPaths (pathsOf disk real)) := by
  obtain ⟨⟨left, hresolve⟩, hdir⟩ := LinkedDisk.find_ok.mp hroot
  have hexists : fileExists root disk = .ok true := by
    simp only [fileExists, hroot]
  have hwalk := @walk_eq _ disk root real left hnormal hresolve PATH_MAX []
    (by rwa [List.append_nil]) (Nat.le_add_right _ _)
  simp only [List.append_nil, List.nil_append] at hwalk
  unfold collectFiles
  rw [Reading.bind_of_ok hexists]
  exact Reading.bind_of_ok hwalk

/-- `hashDirectory` hashes the files of the tree in the order of code units. -/
theorem hashedStream_eq (hnormal : FilePath.Normal root)
    (hroot : disk.find root = .ok (real, .directory)) : ∃ size, hashedStream root disk = .ok
      (frames ((sortPaths (pathsOf disk real)).map fun file => (file, contentOf disk real file)), size) := by
  obtain ⟨⟨left, hresolve⟩, -⟩ := LinkedDisk.find_ok.mp hroot
  have hread : ∀ file ∈ sortPaths (pathsOf disk real),
      readFile (FilePath.join root file) disk = .ok (contentOf disk real file) := by
    intro file hfile
    obtain ⟨data, hdata⟩ := mem_pathsOf.mp ((List.mem_insertionSort _).mp hfile)
    have hplain : FilePath.Normal (Text.split file '/') := fun c hc =>
      normal_of_at? hdata c (List.mem_append_right _ hc)
    have hjoin := FilePath.join_components hnormal hplain
    rw [Text.join_split] at hjoin
    rw [hjoin]
    exact readFile_at hresolve hdata
  unfold hashedStream
  rw [Reading.bind_of_ok (collectFiles_eq hnormal hroot),
    Reading.bind_of_ok (Reading.forEach_of_forall hread)]
  exact ⟨_, congrArg (fun stream => Except.ok (stream, _)) (frames_zip id (contentOf disk real) _)⟩

/-- The tree's files in the order of bytes. -/
def rustPaths (disk : LinkedDisk follow) (real : FilePath) : List (List String) :=
  (filesBelow disk MAX_PATH real).insertionSort Rust.AtMost

theorem rust_hashedStream_eq (hroot : disk.find root = .ok (real, .directory)) :
    ∃ size, Rust.hashedStream root disk = .ok (frames ((rustPaths disk real).map fun rel =>
      (Text.join rel '/', contentAt disk (real ++ rel))), size) := by
  obtain ⟨⟨left, hresolve⟩, hdir⟩ := LinkedDisk.find_ok.mp hroot
  have hcollect := @rust_collectFiles_eq _ disk root real left hresolve PATH_MAX []
    (by rwa [List.append_nil]) (Nat.le_add_right _ _)
  simp only [List.append_nil, List.nil_append] at hcollect
  have hsorted : ((filesBelow disk PATH_MAX real).map fun rel => (rel, root ++ rel)).insertionSort
      (fun a b => Rust.AtMost a.1 b.1) = (rustPaths disk real).map fun rel => (rel, root ++ rel) :=
    (List.map_insertionSort Rust.AtMost (fun a b => Rust.AtMost a.1 b.1) (fun rel => (rel, root ++ rel))
      (filesBelow disk PATH_MAX real) fun _ _ _ _ => Iff.rfl).symm
  have hread : ∀ f ∈ (rustPaths disk real).map fun rel => (rel, root ++ rel),
      readFile f.2 disk = .ok (contentAt disk (real ++ f.1)) := by
    intro f hf
    obtain ⟨rel, hrel, rfl⟩ := List.mem_map.mp hf
    obtain ⟨-, data, hdata⟩ := (mem_filesBelow (by omega)).mp ((List.mem_insertionSort _).mp hrel)
    exact readFile_at hresolve hdata
  unfold Rust.hashedStream
  rw [Reading.bind_of_ok hcollect, hsorted, Reading.bind_of_ok (Reading.forEach_of_forall hread)]
  refine ⟨_, congrArg (fun stream => Except.ok (stream, _)) ?_⟩
  rw [frames_zip (fun f : FilePath × FilePath => Text.join f.1 '/') (fun f => contentAt disk (real ++ f.1)),
    List.map_map]
  rfl

/-! ### The snapshot -/

/-- What is listed leads into the directory, and to a file only where the file is. -/
def FilesAsListed (disk : LinkedDisk follow) (root real : FilePath) : Prop :=
  ∃ entries, LinkedDisk.list root MAX_PATH [] disk = .ok entries ∧ ∀ entry ∈ entries,
    ∃ target node, disk.find (root ++ entry) = .ok (target, node) ∧ FilePath.Within real target ∧
      ∀ data, node = .file data → target = real ++ entry

/-- The orders by code units and by bytes sort the tree's files alike. -/
def OrderedAlike (disk : LinkedDisk follow) (real : FilePath) : Prop :=
  ∀ a b, (∃ data, disk.at? (real ++ a) = some (.file data)) →
    (∃ data, disk.at? (real ++ b) = some (.file data)) →
    (comparePaths (Text.join a '/') (Text.join b '/') = true ↔ Rust.AtMost a b)

/-- What a snapshot takes of what an entry leads to. -/
def fileData : LinkNode → Option Bytes
  | .file data => some data
  | _ => none

theorem platform_ok {α : Type} {m : Reading (LinkedDisk follow) PlatformError α} {a : α} :
    platform m disk = .ok a ↔ m disk = .ok a :=
  Reading.mapError_ok

/-- What a snapshot takes of one entry: the file it leads to. -/
theorem fileOf_found {rel : String} {target : FilePath} {node : LinkNode}
    (hfind : disk.find (FilePath.join root rel) = .ok (target, node)) (hwithin : FilePath.Within real target) :
    fileOf root real rel disk = .ok (fileData node) := by
  obtain ⟨hself, hlink⟩ := LinkedDisk.find_found hfind
  unfold fileOf
  rw [Reading.bind_of_ok (platform_ok.mpr (realPath_at hfind)), if_neg (not_not.mpr hwithin),
    Reading.bind_of_ok (platform_ok.mpr (stat_at hself))]
  cases node with
  | directory => rfl
  | link target => exact absurd rfl (hlink target)
  | file data =>
    show (some <$> platform (readFile target)) disk = _
    rw [Reading.map_run, platform_ok.mpr (readFile_found hself)]
    rfl

theorem realPath_found {path target : FilePath} :
    realPath path disk = .ok target ↔ ∃ node, disk.find path = .ok (target, node) := by
  constructor
  · intro h
    have hpath : Prod.fst <$> disk.find path = .ok target := h
    rcases hfind : disk.find path with e | ⟨found, node⟩ <;> rw [hfind] at hpath
    · cases hpath
    · cases hpath
      exact ⟨node, rfl⟩
  · rintro ⟨node, hfind⟩
    exact realPath_at hfind

theorem fileOf_ok {rel : String} {content : Option Bytes} :
    fileOf root real rel disk = .ok content ↔ ∃ target node,
      disk.find (FilePath.join root rel) = .ok (target, node) ∧ FilePath.Within real target ∧
      content = fileData node := by
  constructor
  · intro h
    have hrun := h
    unfold fileOf at h
    obtain ⟨target, htarget, h⟩ := Reading.bind_ok.mp h
    obtain ⟨node, hfind⟩ := realPath_found.mp (platform_ok.mp htarget)
    split at h
    · cases h
    rename_i hwithin
    rw [fileOf_found hfind (not_not.mp hwithin)] at hrun
    exact ⟨target, node, hfind, not_not.mp hwithin, (Except.ok.inj hrun).symm⟩
  · rintro ⟨target, node, hfind, hwithin, rfl⟩
    exact fileOf_found hfind hwithin

theorem readDirectoryRecursive_at (hroot : disk.find root = .ok (real, .directory)) :
    readDirectoryRecursive root disk =
      (LinkedDisk.list root MAX_PATH [] disk).map fun entries =>
        entries.map fun entry => Text.join entry '/' := by
  simp only [readDirectoryRecursive, hroot]
  rfl

theorem loadSnapshot_eq (hroot : disk.find root = .ok (real, .directory))
    {entries : List (List String)} (hlist : LinkedDisk.list root MAX_PATH [] disk = .ok entries) :
    loadSnapshot root disk = (Text.sorted (entries.map fun entry => Text.join entry '/')).foldlM
      (loadEntry root real) Table.empty disk := by
  have hentries : platform (readDirectoryRecursive root) disk =
      .ok (entries.map fun entry => Text.join entry '/') := by
    rw [platform_ok, readDirectoryRecursive_at hroot, hlist]
    rfl
  unfold loadSnapshot
  rw [Reading.bind_of_ok (platform_ok.mpr (realPath_at hroot)), Reading.bind_of_ok hentries]

/-- A load takes every entry's file, under the entry's path. -/
theorem loadSnapshot_ok (hnormal : FilePath.Normal root)
    (hroot : disk.find root = .ok (real, .directory)) {files : Snapshot}
    (h : loadSnapshot root disk = .ok files) : ∃ entries,
      LinkedDisk.list root MAX_PATH [] disk = .ok entries ∧
      (∀ entry ∈ entries, (entry ≠ [] ∧ ∀ c ∈ entry, FilePath.Plain c ∧ '\x00' ∉ c.toList) ∧
        ∃ target node, disk.find (root ++ entry) = .ok (target, node) ∧ FilePath.Within real target ∧
        files.get? (Text.join entry '/') = fileData node) ∧
      ∀ file ∈ files.keys, ∃ entry ∈ entries, file = Text.join entry '/' := by
  obtain ⟨entries, hlist⟩ : ∃ entries, LinkedDisk.list root MAX_PATH [] disk = .ok entries := by
    unfold loadSnapshot at h
    obtain ⟨_, -, h⟩ := Reading.bind_ok.mp h
    obtain ⟨_, hnames, -⟩ := Reading.bind_ok.mp h
    rw [platform_ok, readDirectoryRecursive_at hroot] at hnames
    rcases hlist : LinkedDisk.list root MAX_PATH [] disk with e | entries
    · rw [hlist] at hnames
      cases hnames
    · exact ⟨entries, rfl⟩
  rw [loadSnapshot_eq hroot hlist] at h
  have hmem : ∀ file, file ∈ Text.sorted (entries.map fun entry => Text.join entry '/') ↔
      ∃ entry ∈ entries, Text.join entry '/' = file := fun file => by
    rw [Text.mem_sorted, List.mem_map]
  -- each entry was read, so each has its content
  have hcontent : ∀ file ∈ Text.sorted (entries.map fun entry => Text.join entry '/'),
      fileOf root real file disk = .ok ((fileOf root real file disk).toOption.getD none) := by
    intro file hfile
    obtain ⟨content, hread⟩ := fileOf_of_foldlM h file hfile
    rw [hread]
    rfl
  obtain ⟨out, hout, hget⟩ := foldlM_loadEntry
    (fun file => (fileOf root real file disk).toOption.getD none) Table.empty hcontent
  obtain rfl : out = files := Except.ok.inj (hout.symm.trans h)
  refine ⟨entries, hlist, fun entry hentry => ?_, fun file hfile => ?_⟩
  · obtain ⟨hne, hplain⟩ := LinkedDisk.plain_of_mem_list hlist (fun _ hc => absurd hc List.not_mem_nil)
      entry hentry
    have hfile := (hmem (Text.join entry '/')).mpr ⟨entry, hentry, rfl⟩
    obtain ⟨content, hread⟩ := fileOf_of_foldlM h _ hfile
    obtain ⟨target, node, hfind, hwithin, rfl⟩ := fileOf_ok.mp hread
    rw [FilePath.join_components hnormal fun c hc => (hplain c hc).1] at hfind
    refine ⟨⟨hne, hplain⟩, target, node, hfind, hwithin, ?_⟩
    rw [hget, hread]
    simp only [Except.toOption, Option.getD_some]
    rcases fileData node with _ | data
    · exact if_neg (by simp)
    · exact if_pos ⟨hfile, rfl⟩
  · obtain ⟨data, hdata⟩ := Option.ne_none_iff_exists'.mp fun hnone => Table.get?_eq_none.mp hnone hfile
    rw [hget] at hdata
    split at hdata
    · rename_i hkey
      obtain ⟨entry, hentry, he⟩ := (hmem file).mp hkey.1
      exact ⟨entry, hentry, he.symm⟩
    · cases hdata

/-! ### Agreement -/

/-- Two lists of paths framed alike are the same list, where the second list's files have their
    content in both. -/
theorem paths_eq_of_frames {f g : String → Bytes} : ∀ {l m : List String},
    (∀ name ∈ l, '\x00' ∉ name.toList) → (∀ name ∈ m, '\x00' ∉ name.toList ∧ f name = g name) →
    frames (l.map fun name => (name, f name)) = frames (m.map fun name => (name, g name)) → l = m
  | [], [], _, _, _ => rfl
  | [], _ :: _, _, _, he => absurd (frames_eq_nil.mp he.symm) (by simp)
  | _ :: _, [], _, _, he => absurd (frames_eq_nil.mp he) (by simp)
  | name :: l, name' :: m, hl, hm, he => by
      obtain ⟨hnul, hlRest⟩ := List.forall_mem_cons.mp hl
      obtain ⟨⟨hnul', hcontent⟩, hmRest⟩ := List.forall_mem_cons.mp hm
      rw [List.map_cons, List.map_cons, frames_cons, frames_cons] at he
      obtain ⟨hname, htail⟩ := first_frame hnul hnul' he
      rw [hname, hcontent] at htail
      have hrest := (List.cons.inj (List.append_cancel_left htail)).2
      rw [hname, paths_eq_of_frames hlRest hmRest hrest]

theorem no_nul_of_mem_pathsOf {file : String} (h : file ∈ pathsOf disk real) :
    '\x00' ∉ file.toList := by
  obtain ⟨rel, hrel, rfl⟩ := List.mem_map.mp h
  intro hnul
  rcases Text.mem_join hnul with hslash | ⟨c, hc, hcnul⟩
  · exact absurd hslash (by decide)
  · exact ((plain_of_mem_filesBelow (by omega) hrel).2 c hc).2 hcnul

theorem contentOf_path {rel : List String} (h : rel ∈ filesBelow disk MAX_PATH real) :
    contentOf disk real (Text.join rel '/') = contentAt disk (real ++ rel) := by
  rw [contentOf, split_path h]

/-- Two orders that sort a list the same way compare its elements alike. -/
theorem alike_of_pairwise {α : Type} {r s : α → α → Prop} {l : List α} (hr : l.Pairwise r)
    (hs : l.Pairwise s) (hrefl : ∀ a, r a a ∧ s a a)
    (hanti : ∀ a ∈ l, ∀ b ∈ l, r b a ∧ r a b ∨ s b a ∧ s a b → a = b) :
    ∀ a ∈ l, ∀ b ∈ l, (r a b ↔ s a b) := by
  have hboth : l.Pairwise fun a b => (r a b ↔ s a b) ∧ (r b a ↔ s b a) := by
    refine List.Pairwise.imp_of_mem (fun {a b} ha hb h => ?_) (hr.and hs)
    refine ⟨iff_of_true h.1 h.2, fun hba => ?_, fun hba => ?_⟩
    · rw [hanti a ha b hb (Or.inl ⟨hba, h.1⟩)]
      exact (hrefl b).2
    · rw [hanti a ha b hb (Or.inr ⟨hba, h.2⟩)]
      exact (hrefl b).1
  have hself : ∀ x ∈ l, (r x x ↔ s x x) ∧ (r x x ↔ s x x) := fun x _ =>
    ⟨iff_of_true (hrefl x).1 (hrefl x).2, iff_of_true (hrefl x).1 (hrefl x).2⟩
  have hsymm : Std.Symm fun a b => (r a b ↔ s a b) ∧ (r b a ↔ s b a) := ⟨fun _ _ h => ⟨h.2, h.1⟩⟩
  intro a ha b hb
  exact (hboth.forall_of_forall hself ha hb).1

/-- The previous release hashes the same stream exactly where the two orders sort the files alike. -/
theorem rust_frames_iff (hdir : disk.at? real = some .directory) : frames ((sortPaths (pathsOf disk real)).map fun file =>
      (file, contentOf disk real file)) =
    frames ((rustPaths disk real).map fun rel => (Text.join rel '/', contentAt disk (real ++ rel))) ↔
      OrderedAlike disk real := by
  have hmem : ∀ rel, rel ∈ rustPaths disk real ↔ rel ∈ filesBelow disk MAX_PATH real := fun rel =>
    List.mem_insertionSort _
  have hframes : (rustPaths disk real).map (fun rel => (Text.join rel '/', contentAt disk (real ++ rel))) =
      ((rustPaths disk real).map fun rel => Text.join rel '/').map fun file =>
        (file, contentOf disk real file) := by
    rw [List.map_map]
    refine List.map_congr_left fun rel hrel => ?_
    rw [Function.comp, contentOf_path ((hmem rel).mp hrel)]
  have hperm : ((rustPaths disk real).map fun rel => Text.join rel '/').Perm (pathsOf disk real) :=
    (List.perm_insertionSort _ _).map _
  have hsorted := List.pairwise_insertionSort Rust.AtMost (filesBelow disk MAX_PATH real)
  have hfile : ∀ {rel : List String}, rel ∈ filesBelow disk MAX_PATH real ↔
      rel ≠ [] ∧ ∃ data, disk.at? (real ++ rel) = some (.file data) := mem_filesBelow (by omega)
  rw [hframes]
  constructor
  · intro he
    have hlist := paths_eq_of_frames
      (fun name hname => no_nul_of_mem_pathsOf ((List.mem_insertionSort _).mp hname))
      (fun name hname => ⟨no_nul_of_mem_pathsOf (hperm.mem_iff.mp hname), rfl⟩) he
    have hunits : (rustPaths disk real).Pairwise fun a b =>
        comparePaths (Text.join a '/') (Text.join b '/') = true := by
      rw [← List.pairwise_map (f := fun rel => Text.join rel '/') (R := fun a b => comparePaths a b = true),
        ← hlist]
      exact List.pairwise_insertionSort _ _
    have halike := alike_of_pairwise hunits hsorted
      (fun a => ⟨comparePaths_iff.mpr (le_refl _), le_refl _⟩) fun a ha b hb h => by
        rcases h with ⟨hba, hab⟩ | ⟨hba, hab⟩
        · rw [← split_path ((hmem a).mp ha), comparePaths_antisymm hab hba,
            split_path ((hmem b).mp hb)]
        · exact Rust.AtMost.antisymm hab hba
    have hrel : ∀ {rel}, (∃ data, disk.at? (real ++ rel) = some (.file data)) →
        rel ∈ rustPaths disk real := by
      rintro rel ⟨data, hdata⟩
      refine (hmem rel).mpr (hfile.mpr ⟨?_, data, hdata⟩)
      rintro rfl
      rw [List.append_nil, hdir] at hdata
      cases hdata
    exact fun a b ha hb => halike a (hrel ha) b (hrel hb)
  · intro halike
    have hpaths : sortPaths (pathsOf disk real) = (rustPaths disk real).map fun rel => Text.join rel '/' := by
      refine List.Perm.eq_of_pairwise (fun a b _ _ => comparePaths_antisymm)
        (List.pairwise_insertionSort _ _) ?_ ((List.perm_insertionSort _ _).trans hperm.symm)
      rw [List.pairwise_map]
      refine List.Pairwise.imp_of_mem (fun {a b} ha hb hab => ?_) hsorted
      exact (halike a b (hfile.mp ((hmem a).mp ha)).2 (hfile.mp ((hmem b).mp hb)).2).mpr hab
    rw [hpaths]

/-- A snapshot has every file of the tree. -/
theorem snapshot_has (hnormal : FilePath.Normal root)
    (hroot : disk.find root = .ok (real, .directory)) {files : Snapshot}
    (h : loadSnapshot root disk = .ok files) {file : String} (hfile : file ∈ pathsOf disk real) :
    files.get? file = some (contentOf disk real file) := by
  obtain ⟨entries, hlist, hentries, -⟩ := loadSnapshot_ok hnormal hroot h
  obtain ⟨⟨left, hresolve⟩, hdir⟩ := LinkedDisk.find_ok.mp hroot
  obtain ⟨data, hdata⟩ := mem_pathsOf.mp hfile
  have hentry : Text.split file '/' ∈ entries :=
    LinkedDisk.mem_list hresolve hlist (Text.split_ne_nil file '/')
      (show disk.at? (real ++ [] ++ Text.split file '/') = _ by rwa [List.append_nil])
  obtain ⟨-, target, node, hfind, -, hget⟩ := hentries _ hentry
  rw [LinkedDisk.find_below hresolve hdata (by simp)] at hfind
  cases hfind
  rw [Text.join_split] at hget
  rw [hget, contentOf, contentAt, hdata]
  rfl

theorem no_nul_of_mem_keys (hnormal : FilePath.Normal root)
    (hroot : disk.find root = .ok (real, .directory)) {files : Snapshot}
    (h : loadSnapshot root disk = .ok files) {file : String} (hfile : file ∈ files.keys) :
    '\x00' ∉ file.toList := by
  obtain ⟨entries, -, hentries, hkeys⟩ := loadSnapshot_ok hnormal hroot h
  obtain ⟨entry, hentry, rfl⟩ := hkeys file hfile
  intro hnul
  rcases Text.mem_join hnul with hslash | ⟨c, hc, hcnul⟩
  · exact absurd hslash (by decide)
  · exact ((hentries entry hentry).1.2 c hc).2 hcnul

/-- The snapshot is hashed as the tree's files exactly where its keys are their paths. -/
theorem snapshot_stream_iff (hnormal : FilePath.Normal root)
    (hroot : disk.find root = .ok (real, .directory)) {files : Snapshot}
    (h : loadSnapshot root disk = .ok files) :
    treeStream files = frames ((sortPaths (pathsOf disk real)).map fun file =>
      (file, contentOf disk real file)) ↔ ∀ file ∈ files.keys, file ∈ pathsOf disk real := by
  have hmem : ∀ {l : List String} {file : String}, file ∈ sortPaths l ↔ file ∈ l :=
    List.mem_insertionSort _
  rw [treeStream_eq, framedFiles]
  constructor
  · intro he file hfile
    have hlist := paths_eq_of_frames
      (fun name hname => no_nul_of_mem_keys hnormal hroot h (hmem.mp hname))
      (fun name hname => ⟨no_nul_of_mem_pathsOf (hmem.mp hname), by
        rw [snapshot_has hnormal hroot h (hmem.mp hname), Option.getD_some]⟩) he
    rw [← hmem, ← hlist, hmem]
    exact hfile
  · intro hkeys
    have hperm : files.keys.Perm (pathsOf disk real) := by
      refine (List.perm_ext_iff_of_nodup files.nodup nodup_pathsOf).mpr fun file =>
        ⟨hkeys file, fun hfile => ?_⟩
      by_contra hnone
      have hget := snapshot_has hnormal hroot h hfile
      rw [Table.get?_eq_none.mpr hnone] at hget
      cases hget
    have hsorted : sortPaths files.keys = sortPaths (pathsOf disk real) :=
      List.Perm.eq_of_pairwise (fun a b _ _ => comparePaths_antisymm)
        (List.pairwise_insertionSort _ _) (List.pairwise_insertionSort _ _)
        ((List.perm_insertionSort _ _).trans (hperm.trans (List.perm_insertionSort _ _).symm))
    rw [hsorted]
    refine congrArg frames (List.map_congr_left fun file hfile => ?_)
    rw [snapshot_has hnormal hroot h (hmem.mp hfile), Option.getD_some]

/-- A tree whose files are as listed loads, and only its files are keys. -/
theorem filesAsListed_iff (hnormal : FilePath.Normal root)
    (hroot : disk.find root = .ok (real, .directory)) : FilesAsListed disk root real ↔
      ∃ files, loadSnapshot root disk = .ok files ∧ ∀ file ∈ files.keys, file ∈ pathsOf disk real := by
  obtain ⟨⟨left, hresolve⟩, hdir⟩ := LinkedDisk.find_ok.mp hroot
  constructor
  · rintro ⟨entries, hlist, hentries⟩
    have hread : ∀ file ∈ Text.sorted (entries.map fun entry => Text.join entry '/'),
        fileOf root real file disk = .ok ((fileOf root real file disk).toOption.getD none) := by
      intro file hfile
      rw [Text.mem_sorted] at hfile
      obtain ⟨entry, hentry, rfl⟩ := List.mem_map.mp hfile
      obtain ⟨target, node, hfind, hwithin, -⟩ := hentries entry hentry
      have hplain := (LinkedDisk.plain_of_mem_list hlist
        (fun _ hc => absurd hc List.not_mem_nil) entry hentry).2
      rw [← FilePath.join_components hnormal fun c hc => (hplain c hc).1] at hfind
      rw [fileOf_found hfind hwithin]
      rfl
    obtain ⟨files, hfold, -⟩ := foldlM_loadEntry
      (fun file => (fileOf root real file disk).toOption.getD none) Table.empty hread
    rw [← loadSnapshot_eq hroot hlist] at hfold
    refine ⟨files, hfold, fun file hfile => ?_⟩
    obtain ⟨entries', hlist', hload, hkeys⟩ := loadSnapshot_ok hnormal hroot hfold
    obtain rfl : entries' = entries := Except.ok.inj (hlist'.symm.trans hlist)
    obtain ⟨entry, hentry, rfl⟩ := hkeys file hfile
    obtain ⟨⟨hne, hplain⟩, target, node, hfind, -, hget⟩ := hload entry hentry
    obtain ⟨target', node', hfind', -, hhere⟩ := hentries entry hentry
    rw [hfind] at hfind'
    cases hfind'
    cases node with
    | directory => exact absurd hfile (Table.get?_eq_none.mp hget)
    | link target => exact absurd hfile (Table.get?_eq_none.mp hget)
    | file data =>
      obtain rfl := hhere data rfl
      rw [mem_pathsOf, Text.split_join hne fun c hc => (hplain c hc).1.2.2.2]
      exact ⟨data, (LinkedDisk.find_ok.mp hfind).2⟩
  · rintro ⟨files, hload, hkeys⟩
    obtain ⟨entries, hlist, hentries, -⟩ := loadSnapshot_ok hnormal hroot hload
    refine ⟨entries, hlist, fun entry hentry => ?_⟩
    obtain ⟨⟨hne, hplain⟩, target, node, hfind, hwithin, hget⟩ := hentries entry hentry
    refine ⟨target, node, hfind, hwithin, ?_⟩
    rintro data rfl
    have hkey : Text.join entry '/' ∈ files.keys := by
      by_contra hnone
      rw [Table.get?_eq_none.mpr hnone] at hget
      cases hget
    obtain ⟨data', hdata'⟩ := mem_pathsOf.mp (hkeys _ hkey)
    rw [Text.split_join hne fun c hc => (hplain c hc).1.2.2.2] at hdata'
    rw [LinkedDisk.find_below hresolve hdata' (by simp)] at hfind
    cases hfind
    rfl

/-- A snapshot's digest, the directory's and the previous release's are taken from one stream
    exactly when nothing in the directory leads to a file elsewhere, out of it or nowhere, and
    code units and bytes sort its files alike. -/
theorem digests_agree_iff (disk : LinkedDisk follow) {root real : FilePath}
    (hnormal : FilePath.Normal root) (hroot : disk.find root = .ok (real, .directory)) :
    (∃ files stream size size', loadSnapshot root disk = .ok files ∧ treeStream files = stream ∧
      hashedStream root disk = .ok (stream, size) ∧ Rust.hashedStream root disk = .ok (stream, size')) ↔
      FilesAsListed disk root real ∧ OrderedAlike disk real := by
  have hdir := (LinkedDisk.find_ok.mp hroot).2
  obtain ⟨size, hhere⟩ := hashedStream_eq hnormal hroot
  obtain ⟨size', hrust⟩ := rust_hashedStream_eq hroot
  rw [filesAsListed_iff hnormal hroot, ← rust_frames_iff hdir]
  constructor
  · rintro ⟨files, stream, s, s', hload, rfl, hhere', hrust'⟩
    rw [hhere] at hhere'
    rw [hrust] at hrust'
    have htree := (Prod.mk.inj (Except.ok.inj hhere')).1
    have hprevious := (Prod.mk.inj (Except.ok.inj hrust')).1
    exact ⟨⟨files, hload, (snapshot_stream_iff hnormal hroot hload).mp htree.symm⟩,
      htree.trans hprevious.symm⟩
  · rintro ⟨⟨files, hload, hkeys⟩, halike⟩
    refine ⟨files, _, size, size', hload, rfl, ?_, ?_⟩
    · rw [hhere, (snapshot_stream_iff hnormal hroot hload).mpr hkeys]
    · rw [hrust, ← halike, (snapshot_stream_iff hnormal hroot hload).mpr hkeys]

end Tree

/-! ### Trees where they agree, and where they differ -/

/-- A directory with a file, and one below it. -/
def nestedTree : LinkedDisk false where
  nodes :=
    { entries := [(["d"], .directory), (["d", "b"], .directory), (["d", "b", "c"], .file [121]),
        (["d", "a"], .file [120])]
      nodup := by decide }
  rooted := by decide
  plain := by decide
  short := by decide

theorem nested_tree_alike : FilesAsListed nestedTree ["d"] ["d"] ∧ OrderedAlike nestedTree ["d"] :=
  (digests_agree_iff nestedTree (by decide) (by rfl)).mp
    ⟨(Table.empty.set "a" [120]).set "b/c" [121], _, 2, 2, by rfl, rfl, by rfl, by rfl⟩

/-- A directory with a file and a link to it. -/
def linkedTree : LinkedDisk false where
  nodes :=
    { entries := [(["d"], .directory), (["d", "a"], .file [120]), (["d", "b"], .link "a")]
      nodup := by decide }
  rooted := by decide
  plain := by decide
  short := by decide

/-- The snapshot has the file behind the link too, the directory's digest does not. -/
theorem link_hashed_here_only : FilePath.Normal ["d"] ∧
    linkedTree.find ["d"] = .ok (["d"], .directory) ∧
    ¬ ∃ files stream size size', loadSnapshot ["d"] linkedTree = .ok files ∧ treeStream files = stream ∧
      hashedStream ["d"] linkedTree = .ok (stream, size) ∧
      Rust.hashedStream ["d"] linkedTree = .ok (stream, size') := by
  refine ⟨by decide, by rfl, ?_⟩
  rintro ⟨files, stream, size, size', hload, rfl, hhere, -⟩
  have hfiles : loadSnapshot ["d"] linkedTree = .ok ((Table.empty.set "a" [120]).set "b" [120]) := by rfl
  have hstream : hashedStream ["d"] linkedTree = .ok (fileStream "a" [120], 1) := by rfl
  rw [hfiles] at hload
  rw [hstream] at hhere
  cases hload
  exact absurd (Prod.mk.inj (Except.ok.inj hhere)).1 (by decide +kernel)

/-- Two files that the orders by code units and by bytes sort differently. -/
example : comparePaths "😀" "\uFFFD" = true ∧ ¬ Rust.AtMost ["😀"] ["\uFFFD"] := by decide +kernel

end Akua
