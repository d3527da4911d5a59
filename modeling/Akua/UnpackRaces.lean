import Akua.Lib.Interleave
import Akua.Untar
import Mathlib.Data.List.Infix

/-! Fetches that unpack one cache slot at the same time, in one process or in several. Each unpacks
    into a directory of its own next to the slot and renames it there; the first rename wins, and
    the others clean up after themselves. The operating system makes directories, writes files and
    removes trees step by step, so a fetch that is cut off leaves any part of these behind. -/

namespace Akua.Racing

/-! ### The file system -/

inductive Item where
  | file (data : Bytes)
  | directory
deriving DecidableEq

/-- What stands at each path. Paths are real ones: a cache holds no links. -/
abbrev Tree := FilePath → Option Item

/-- The tree under a directory, by relative paths. -/
def below (directory : FilePath) (s : Tree) : Tree := fun rel => s (directory ++ rel)

inductive Call where
  | makeDirectory (path : FilePath)
  | fileExists (path : FilePath)
  | makeTempDirectory (parent : FilePath) (stem : String)
  | writeFile (path : FilePath) (data : Bytes)
  | rename (source target : FilePath)
  | remove (path : FilePath)

def Call.Reply : Call → Type
  | .makeDirectory _ => Unit
  | .fileExists _ => Bool
  | .makeTempDirectory _ _ => FilePath
  | .writeFile _ _ => Unit
  | .rename _ _ => Unit
  | .remove _ => Unit

/-- The directories down to `path` are there. -/
def made (path : FilePath) (s : Tree) : Tree := fun q => if q <+: path then some .directory else s q

/-- Some of the missing directories down to `path` are made. -/
def Making (path : FilePath) (s s' : Tree) : Prop :=
  ∀ q, s' q = s q ∨ (q <+: path ∧ s q = none ∧ s' q = some .directory)

/-- Nothing stands at `path` and under it. -/
def removed (path : FilePath) (s : Tree) : Tree := fun q => if path <+: q then none else s q

/-- Some of what stands under `path` is removed. -/
def Removing (path : FilePath) (s s' : Tree) : Prop :=
  ∀ q, s' q = s q ∨ (path <+: q ∧ q ≠ path ∧ s' q = none)

/-- The tree of `source` stands at `target`. -/
def moved (source target : FilePath) (s : Tree) : Tree := fun q =>
  if target <+: q then s (source ++ q.drop target.length)
  else if source <+: q then none
  else s q

/-- A directory can be renamed to `target`: nothing stands there, or an empty directory. -/
def Vacant (target : FilePath) (s : Tree) : Prop :=
  (s target = none ∨ s target = some .directory) ∧ ∀ q, target <+: q → q ≠ target → s q = none

/-- The operating system. Every call may fail, with the part of its work that was done. -/
def kernel : Kernel Tree Call Call.Reply PlatformError where
  progress
    | .makeDirectory path, s, s' => Making path s s'
    | .writeFile path _, s, s' => s path ≠ some .directory ∧
        ∃ written, s' = Function.update s path (some (.file written))
    | .remove path, s, s' => Removing path s s'
    | _, _, _ => False
  answers
    | .makeDirectory path, s, .ok _, s' =>
      (∀ q, q <+: path → s q = none ∨ s q = some .directory) ∧ s' = made path s
    | .makeDirectory path, s, .error _, s' => Making path s s'
    | .fileExists path, s, .ok present, s' => present = (s path).isSome ∧ s' = s
    | .makeTempDirectory parent stem, s, .ok path, s' =>
      (∃ suffix, path = parent ++ [stem ++ suffix] ∧ FilePath.Plain (stem ++ suffix)) ∧
        (∀ q, path <+: q → s q = none) ∧ s' = Function.update s path (some .directory)
    | .writeFile path data, s, .ok _, s' =>
      s (FilePath.dirname path) = some .directory ∧ s path ≠ some .directory ∧
        s' = Function.update s path (some (.file data))
    | .writeFile path _, s, .error _, s' => s' = s ∨ (s path ≠ some .directory ∧
        ∃ written, s' = Function.update s path (some (.file written)))
    | .rename source target, s, .ok _, s' =>
      s source = some .directory ∧ Vacant target s ∧ ¬ source <+: target ∧ s' = moved source target s
    | .remove path, s, .ok _, s' => s' = removed path s
    | .remove path, s, .error _, s' => Removing path s s'
    | _, s, .error _, s' => s' = s

/-! ### The program -/

abbrev Fetch (α : Type) := Fiber Call Call.Reply PlatformError α

def makeDirectory (path : FilePath) : Fetch Unit := Fiber.perform (Call.makeDirectory path)

def fileExists (path : FilePath) : Fetch Bool := Fiber.perform (Call.fileExists path)

def makeTempDirectory (parent : FilePath) (stem : String) : Fetch FilePath :=
  Fiber.perform (Call.makeTempDirectory parent stem)

def writeFile (path : FilePath) (data : Bytes) : Fetch Unit := Fiber.perform (Call.writeFile path data)

def rename (source target : FilePath) : Fetch Unit := Fiber.perform (Call.rename source target)

def remove (path : FilePath) : Fetch Unit := Fiber.perform (Call.remove path)

/-- Write one entry below `directory`. -/
def writeEntry (directory : FilePath) (entry : ArchiveEntry) : Fetch Unit := do
  let target := FilePath.join directory entry.path
  makeDirectory (FilePath.dirname target)
  writeFile target entry.data

/-- After the move: a racing fetch that landed the same content wins. -/
def afterMove (staging slot : FilePath) : Except PlatformError Unit → Fetch Unit
  | .ok _ => pure ()
  | .error error => do
    let present ← fileExists slot
    if present then remove staging else Fiber.fail error

/-- Move the staged directory into place. -/
def moveIntoPlace (staging slot : FilePath) : Fetch Unit := do
  let outcome ← (rename staging slot).result
  afterMove staging slot outcome

/-- Write the entries into the staged directory, then move it into place. -/
def fill (staging slot : FilePath) (entries : List ArchiveEntry) : Fetch Unit := do
  let _ ← forEach (writeEntry staging) entries
  moveIntoPlace staging slot

/-- Write `entries` under a staging directory next to `slot`, then move it into place. -/
def unpackInto (slot : FilePath) (entries : List ArchiveEntry) : Fetch Unit := do
  makeDirectory (FilePath.dirname slot)
  let present ← fileExists slot
  if present then pure ()
  else do
    let staging ← makeTempDirectory (FilePath.dirname slot) "akua-stage-"
    fill staging slot entries

section Alone

variable {φ : Type} [FileSystem φ]

/-- The calls, answered by a file system. -/
def onFileSystem : (c : Call) → Run φ PlatformError c.Reply
  | .makeDirectory path => Run.makeDirectory path
  | .fileExists path => Run.read (FileSystem.fileExists path)
  | .makeTempDirectory parent stem => Run.onDisk (FileSystem.makeTempDirectory parent stem)
  | .writeFile path data => Run.writeFile path data
  | .rename source target => Run.onDisk (FileSystem.rename source target)
  | .remove path => Run.remove path

theorem interpret_writeEntry (staging : FilePath) (entry : ArchiveEntry) :
    (writeEntry staging entry).interpret onFileSystem =
      (Akua.writeEntry staging entry : Run φ PlatformError Unit) := by
  rw [writeEntry, Fiber.interpret_bind]
  rfl

theorem interpret_moveIntoPlace (staging slot : FilePath) :
    (moveIntoPlace staging slot).interpret onFileSystem =
      (Akua.moveIntoPlace staging slot : Run φ PlatformError Unit) := by
  have hrename : (rename staging slot).interpret onFileSystem =
      (Run.onDisk (FileSystem.rename staging slot) : Run φ PlatformError Unit) := rfl
  have hexists : (fileExists slot).interpret onFileSystem =
      (Run.read (FileSystem.fileExists slot) : Run φ PlatformError Bool) := rfl
  rw [moveIntoPlace, Fiber.interpret_bind, Fiber.interpret_result, Akua.moveIntoPlace, hrename]
  refine congrArg _ (funext fun outcome => ?_)
  cases outcome with
  | ok _ => rfl
  | error error =>
    rw [afterMove, Fiber.interpret_bind, hexists]
    refine congrArg _ (funext fun present => ?_)
    cases present <;> rfl

/-- Run alone, the program is the one of the downloads. -/
theorem interpret_unpackInto (slot : FilePath) (entries : List ArchiveEntry) :
    (unpackInto slot entries).interpret onFileSystem =
      (Akua.unpackInto slot entries : Run φ PlatformError Unit) := by
  have hmake : (makeDirectory (FilePath.dirname slot)).interpret onFileSystem =
      (Run.makeDirectory (FilePath.dirname slot) : Run φ PlatformError Unit) := rfl
  have hexists : (fileExists slot).interpret onFileSystem =
      (Run.read (FileSystem.fileExists slot) : Run φ PlatformError Bool) := rfl
  have hstage : (makeTempDirectory (FilePath.dirname slot) "akua-stage-").interpret onFileSystem =
      (Run.onDisk (FileSystem.makeTempDirectory (FilePath.dirname slot) "akua-stage-") :
        Run φ PlatformError FilePath) := rfl
  rw [unpackInto, Fiber.interpret_bind, Akua.unpackInto, hmake]
  refine congrArg _ (funext fun _ => ?_)
  rw [Fiber.interpret_bind, hexists]
  refine congrArg _ (funext fun present => ?_)
  cases present with
  | true => rfl
  | false =>
    simp only [Bool.false_eq_true, if_false]
    rw [Fiber.interpret_bind, hstage]
    refine congrArg _ (funext fun staging => ?_)
    rw [fill, Fiber.interpret_bind, Fiber.interpret_forEach, interpret_moveIntoPlace]
    simp only [interpret_writeEntry]

end Alone

/-! ### What a slot holds -/

/-- The path of an entry below the directory it is unpacked into. -/
def stagedPath (entry : ArchiveEntry) : FilePath := Text.split entry.path '/'

/-- The directories above an entry are there. -/
def withFolders (entry : ArchiveEntry) (t : Tree) : Tree := made (FilePath.dirname (stagedPath entry)) t

def addEntry (t : Tree) (entry : ArchiveEntry) : Tree :=
  Function.update (withFolders entry t) (stagedPath entry) (some (.file entry.data))

/-- The tree that unpacking `entries` in order gives. -/
def unpacked (entries : List ArchiveEntry) : Tree :=
  entries.foldl addEntry fun q => if q = [] then some .directory else none

/-- Nothing stands at the slot or under it. -/
def Absent (slot : FilePath) (s : Tree) : Prop := ∀ rel, below slot s rel = none

/-- The slot holds all the entries, and nothing else. -/
def Complete (slot : FilePath) (entries : List ArchiveEntry) (s : Tree) : Prop :=
  below slot s = unpacked entries

theorem stagedPath_ne_nil (entry : ArchiveEntry) : stagedPath entry ≠ [] := Text.split_ne_nil _ _

theorem unpacked_concat (before : List ArchiveEntry) (entry : ArchiveEntry) :
    unpacked (before ++ [entry]) = addEntry (unpacked before) entry := by
  rw [unpacked, List.foldl_append]
  rfl

/-- What entries are unpacked into is a directory. -/
theorem addEntry_root {t : Tree} (entry : ArchiveEntry) : addEntry t entry [] = some .directory := by
  rw [addEntry, Function.update_of_ne (stagedPath_ne_nil entry).symm, withFolders, made,
    if_pos List.nil_prefix]

theorem unpacked_root (entries : List ArchiveEntry) : unpacked entries [] = some .directory := by
  rcases List.eq_nil_or_concat entries with rfl | ⟨before, entry, rfl⟩
  · rfl
  · rw [List.concat_eq_append, unpacked_concat, addEntry_root]

/-! ### Steps and the trees under directories -/

section Below

variable {d path : FilePath} {s s' t : Tree}

theorem below_made (h : ¬ d <+: path) : below d (made path s) = below d s := by
  funext rel
  exact if_neg fun hp => h ((List.prefix_append d rel).trans hp)

theorem below_made_append (rel : FilePath) : below d (made (d ++ rel) s) = made rel (below d s) := by
  funext q
  simp [below, made]

theorem below_making (h : ¬ d <+: path) (hm : Making path s s') : below d s' = below d s := by
  funext rel
  rcases hm (d ++ rel) with he | ⟨hp, -, -⟩
  · exact he
  · exact absurd ((List.prefix_append d rel).trans hp) h

theorem below_making_append {rel : FilePath} (hm : Making (d ++ rel) s s') :
    Making rel (below d s) (below d s') := by
  intro q
  have hq := hm (d ++ q)
  rwa [List.prefix_append_right_inj] at hq

theorem Making.refl : Making path s s := fun _ => Or.inl rfl

theorem Making.trans (h : Making path t s) (h' : Making path s s') : Making path t s' := by
  intro q
  rcases h' q with he | ⟨hp, hs, hs'⟩
  · rw [he]
    exact h q
  · rcases h q with he | ⟨-, -, hdir⟩
    · exact Or.inr ⟨hp, he ▸ hs, hs'⟩
    · rw [hs] at hdir
      cases hdir

/-- Making the rest of the directories makes them all. -/
theorem made_of_making (h : Making path t s) : made path s = made path t := by
  funext q
  unfold made
  by_cases hq : q <+: path
  · rw [if_pos hq, if_pos hq]
  · rw [if_neg hq, if_neg hq]
    exact (h q).resolve_right fun hm => hq hm.1

theorem below_update (h : ¬ d <+: path) (v : Option Item) :
    below d (Function.update s path v) = below d s := by
  funext rel
  have hne : d ++ rel ≠ path := by
    rintro rfl
    exact h (List.prefix_append d rel)
  exact Function.update_of_ne hne _ _

theorem below_update_append (rel : FilePath) (v : Option Item) :
    below d (Function.update s (d ++ rel) v) = Function.update (below d s) rel v := by
  funext q
  by_cases hq : q = rel
  · subst hq
    simp [below]
  · rw [Function.update_of_ne hq, below, Function.update_of_ne (by simpa using hq), below]

/-- Two directories of one parent have nothing in common. -/
theorem sibling_apart (parent : FilePath) {a b : String} (h : a ≠ b) (rel : FilePath) :
    ¬ (parent ++ [a]) <+: (parent ++ [b]) ++ rel := by
  rw [List.append_assoc, List.prefix_append_right_inj]
  rintro ⟨rest, hrest⟩
  exact h (List.cons.inj hrest).1

theorem not_prefix_parent (parent : FilePath) (a : String) : ¬ (parent ++ [a]) <+: parent := by
  intro h
  have := h.length_le
  rw [List.length_append, List.length_singleton] at this
  omega

end Below

/-! ### Where a fetch stands -/

/-- The points of a fetch between its calls, with what it has in hand there. -/
inductive Point where
  | start
  | check
  | stage
  /-- The entries of `before` are in `staging`; the directories of the next one are made, or the
      tree is moved. -/
  | filling (staging : FilePath) (before rest : List ArchiveEntry)
  /-- The directories of `entry` are there; it is written. -/
  | writing (staging : FilePath) (before : List ArchiveEntry) (entry : ArchiveEntry)
      (rest : List ArchiveEntry)
  /-- The move failed. -/
  | lost (staging : FilePath) (error : PlatformError)
  /-- Another fetch's slot is there. -/
  | clean (staging : FilePath)
  | done (outcome : Except PlatformError Unit)

section Points

variable (slot : FilePath) (entries : List ArchiveEntry)

/-- What is left to do at a point. -/
def Point.program : Point → Fetch Unit
  | .start => unpackInto slot entries
  | .check => do
    let present ← fileExists slot
    if present then pure ()
    else do
      let staging ← makeTempDirectory (FilePath.dirname slot) "akua-stage-"
      fill staging slot entries
  | .stage => do
    let staging ← makeTempDirectory (FilePath.dirname slot) "akua-stage-"
    fill staging slot entries
  | .filling staging _ rest => fill staging slot rest
  | .writing staging _ entry rest => do
    writeFile (FilePath.join staging entry.path) entry.data
    fill staging slot rest
  | .lost staging error => do
    let present ← fileExists slot
    if present then remove staging else Fiber.fail error
  | .clean staging => remove staging
  | .done outcome => .done outcome

/-- The staging directory of a fetch. -/
def Point.staging? : Point → Option FilePath
  | .filling staging _ _ => some staging
  | .writing staging _ _ _ => some staging
  | .lost staging _ => some staging
  | .clean staging => some staging
  | _ => none

/-- A staging directory stands next to the slot, under a name of its own. -/
def Staged (staging : FilePath) : Prop :=
  ∃ suffix, staging = FilePath.dirname slot ++ ["akua-stage-" ++ suffix] ∧
    FilePath.Plain ("akua-stage-" ++ suffix)

/-- What a staging directory holds while the entries of `before` are in it. -/
def Filled (before rest : List ArchiveEntry) (t : Tree) : Prop :=
  match rest with
  | [] => t = unpacked before
  | entry :: _ => Making (FilePath.dirname (stagedPath entry)) (unpacked before) t

/-- What holds where a fetch stands. -/
def At (s : Tree) : Point → Prop
  | .filling staging before rest =>
    Staged slot staging ∧ entries = before ++ rest ∧ Filled before rest (below staging s)
  | .writing staging before entry rest =>
    Staged slot staging ∧ entries = before ++ entry :: rest ∧
      ∀ rel, rel ≠ stagedPath entry → below staging s rel = withFolders entry (unpacked before) rel
  | .lost staging _ => Staged slot staging ∧ s staging = some .directory
  | .clean staging => Staged slot staging ∧ s staging = some .directory ∧ Complete slot entries s
  | .done (.ok _) => Complete slot entries s
  | _ => True

variable {slot entries} {s s' : Tree}

theorem At.staged {point : Point} (h : At slot entries s point) {staging : FilePath}
    (hp : point.staging? = some staging) : Staged slot staging := by
  cases point with
  | filling t _ _ => exact Option.some.inj hp ▸ h.1
  | writing t _ _ _ => exact Option.some.inj hp ▸ h.1
  | lost t _ => exact Option.some.inj hp ▸ h.1
  | clean t => exact Option.some.inj hp ▸ h.1
  | start => cases hp
  | check => cases hp
  | stage => cases hp
  | done _ => cases hp

/-- A fetch's staging directory is there. -/
theorem At.directory {point : Point} (h : At slot entries s point) {staging : FilePath}
    (hp : point.staging? = some staging) : s staging = some .directory := by
  cases point with
  | filling t before rest =>
    obtain rfl := Option.some.inj hp
    have hfilled := h.2.2
    rw [← List.append_nil t]
    change below t s [] = some .directory
    cases rest with
    | nil => rw [hfilled, unpacked_root]
    | cons entry rest =>
      rcases hfilled [] with he | ⟨-, hnone, -⟩
      · rw [he, unpacked_root]
      · rw [unpacked_root] at hnone
        cases hnone
  | writing t before entry rest =>
    obtain rfl := Option.some.inj hp
    have hroot := h.2.2 [] (stagedPath_ne_nil entry).symm
    rw [withFolders, made, if_pos List.nil_prefix] at hroot
    rwa [below, List.append_nil] at hroot
  | lost t _ => exact Option.some.inj hp ▸ h.2
  | clean t => exact Option.some.inj hp ▸ h.2.1
  | start => cases hp
  | check => cases hp
  | stage => cases hp
  | done _ => cases hp

/-- What holds at a point depends on its staging directory, and on the slot being complete. -/
theorem At.frame {point : Point} (h : At slot entries s point)
    (hstaging : ∀ staging, point.staging? = some staging → below staging s' = below staging s)
    (hslot : Complete slot entries s → Complete slot entries s') : At slot entries s' point := by
  have hroot : ∀ staging, point.staging? = some staging → s staging = some .directory →
      s' staging = some .directory := by
    intro staging hp hs
    have hbelow := congrFun (hstaging staging hp) []
    rw [below, below, List.append_nil] at hbelow
    rw [hbelow, hs]
  cases point with
  | filling t before rest =>
    refine ⟨h.1, h.2.1, ?_⟩
    rw [hstaging t rfl]
    exact h.2.2
  | writing t before entry rest =>
    refine ⟨h.1, h.2.1, ?_⟩
    rw [hstaging t rfl]
    exact h.2.2
  | lost t error => exact ⟨h.1, hroot t rfl h.2⟩
  | clean t => exact ⟨h.1, hroot t rfl h.2.1, hslot h.2.2⟩
  | done outcome =>
    cases outcome with
    | ok _ => exact hslot h
    | error _ => trivial
  | start => trivial
  | check => trivial
  | stage => trivial

end Points

/-! ### Steps -/

section Steps

variable {slot : FilePath} {entries : List ArchiveEntry} {s s' : Tree}

/-- A slot as the fetchers name it: a path whose last component is no staging name. -/
def CacheSlot (slot : FilePath) : Prop :=
  FilePath.Normal slot ∧ ∃ base, slot = FilePath.dirname slot ++ [base] ∧
    ∀ suffix, base ≠ "akua-stage-" ++ suffix

/-- The slot is absent, or complete. -/
def Whole (slot : FilePath) (entries : List ArchiveEntry) (s : Tree) : Prop :=
  Absent slot s ∨ Complete slot entries s

/-- What a step from one point to another does: it keeps the slot whole and the staging directories
    of others as they are, and takes no staging directory that is in use. -/
structure Moves (slot : FilePath) (entries : List ArchiveEntry) (s s' : Tree) (p p' : Point) : Prop where
  whole : Whole slot entries s'
  complete : Complete slot entries s → Complete slot entries s'
  others : ∀ t, Staged slot t → p.staging? ≠ some t → s t = some .directory → below t s' = below t s
  at_point : At slot entries s' p'
  own : ∀ t, p'.staging? = some t → p.staging? = some t ∨ s t = none

variable {p p' : Point}

/-- A step that does not touch the slot. -/
theorem Moves.of_kept (hwhole : Whole slot entries s) (hslot : below slot s' = below slot s)
    (hothers : ∀ t, Staged slot t → p.staging? ≠ some t → s t = some .directory →
      below t s' = below t s)
    (hat : At slot entries s' p') (hown : ∀ t, p'.staging? = some t → p.staging? = some t ∨ s t = none) :
    Moves slot entries s s' p p' := by
  have hcomplete : Complete slot entries s → Complete slot entries s' := fun h => hslot.trans h
  refine ⟨?_, hcomplete, hothers, hat, hown⟩
  rcases hwhole with h | h
  · exact Or.inl fun rel => (congrFun hslot rel).trans (h rel)
  · exact Or.inr (hcomplete h)

/-- A step that changes nothing. -/
theorem Moves.still (hwhole : Whole slot entries s) (hat : At slot entries s p')
    (hown : ∀ t, p'.staging? = some t → p.staging? = some t) : Moves slot entries s s p p' :=
  .of_kept hwhole rfl (fun _ _ _ _ => rfl) hat fun t ht => Or.inl (hown t ht)

/-- The slot and a staging directory have nothing in common. -/
theorem slot_apart {staging : FilePath} (hslot : CacheSlot slot) (hstaged : Staged slot staging) :
    (∀ rel, ¬ slot <+: staging ++ rel) ∧ ∀ rel, ¬ staging <+: slot ++ rel := by
  obtain ⟨-, base, hbase, hname⟩ := hslot
  obtain ⟨suffix, rfl, -⟩ := hstaged
  rw [hbase]
  constructor <;> intro rel
  · simpa [FilePath.dirname] using sibling_apart (FilePath.dirname slot) (hname suffix) rel
  · simpa [FilePath.dirname] using
      sibling_apart (FilePath.dirname slot) (hname suffix).symm rel

/-- A step inside the staging directory of the fetch. -/
theorem Moves.inside {staging : FilePath} (hslot : CacheSlot slot) (hwhole : Whole slot entries s)
    (hstaged : Staged slot staging) (hp : p.staging? = some staging)
    (hs : ∀ d, (∀ rel, ¬ d <+: staging ++ rel) → (∀ rel, ¬ staging <+: d ++ rel) →
      below d s' = below d s)
    (hat : At slot entries s' p') (hown : ∀ t, p'.staging? = some t → t = staging) :
    Moves slot entries s s' p p' := by
  obtain ⟨hslot, hslot'⟩ := slot_apart hslot hstaged
  refine .of_kept hwhole (hs slot hslot hslot') (fun t ht hne _ => ?_) hat
    fun t ht => Or.inl (hown t ht ▸ hp)
  obtain ⟨suffix, rfl, -⟩ := hstaged
  obtain ⟨other, rfl, -⟩ := ht
  have hsuffix : "akua-stage-" ++ other ≠ "akua-stage-" ++ suffix := by
    intro he
    exact hne (by rw [hp, he])
  exact hs _ (sibling_apart _ hsuffix) (sibling_apart _ hsuffix.symm)

/-- The slot is there only when it is complete. -/
theorem Whole.complete_of_present (h : Whole slot entries s) (hs : (s slot).isSome) :
    Complete slot entries s := by
  refine h.resolve_left fun habsent => ?_
  have hnone := habsent []
  rw [below, List.append_nil] at hnone
  rw [hnone] at hs
  cases hs

/-- Directories down to the slot's parent are made. -/
theorem Moves.parent {p' : Point} (hslot : CacheSlot slot) (hwhole : Whole slot entries s)
    (hs : ∀ d, ¬ d <+: FilePath.dirname slot → below d s' = below d s) (hat : At slot entries s' p')
    (hown : p'.staging? = none) : Moves slot entries s s' p p' := by
  obtain ⟨-, base, hbase, -⟩ := hslot
  refine .of_kept hwhole (hs slot ?_) (fun t ht _ _ => hs t ?_) hat fun t ht => ?_
  · have hne := not_prefix_parent (FilePath.dirname slot) base
    rwa [← hbase] at hne
  · obtain ⟨suffix, rfl, -⟩ := ht
    exact not_prefix_parent _ _
  · rw [hown] at ht
    cases ht

/-! ### The calls of a fetch -/

/-- The path an entry is written at. -/
theorem join_stagedPath {staging : FilePath} {entry : ArchiveEntry} (hslot : CacheSlot slot)
    (hstaged : Staged slot staging) (hentry : StaysBelow entry.path) :
    FilePath.join staging entry.path = staging ++ stagedPath entry := by
  obtain ⟨suffix, rfl, hplain⟩ := hstaged
  have hnormal : FilePath.Normal (FilePath.dirname slot ++ ["akua-stage-" ++ suffix]) := by
    intro c hc
    rcases List.mem_append.mp hc with hc | hc
    · exact hslot.1 c (List.dropLast_subset _ hc)
    · exact List.mem_singleton.mp hc ▸ hplain
  rw [hentry.join, FilePath.normalize_normal hnormal]
  rfl

theorem dirname_stagedPath (staging : FilePath) (entry : ArchiveEntry) :
    FilePath.dirname (staging ++ stagedPath entry) = staging ++ FilePath.dirname (stagedPath entry) :=
  List.dropLast_append_of_ne_nil (stagedPath_ne_nil entry)

theorem fill_cons (staging : FilePath) (entry : ArchiveEntry) (rest : List ArchiveEntry) :
    fill staging slot (entry :: rest) =
      (do makeDirectory (FilePath.dirname (FilePath.join staging entry.path))
          writeFile (FilePath.join staging entry.path) entry.data
          fill staging slot rest) := by
  rw [fill, Fiber.forEach_cons_bind, writeEntry, Fiber.bind_assoc']
  rfl

/-! ### Each point -/

theorem progress_moves (hslot : CacheSlot slot) (hentries : ∀ entry ∈ entries, StaysBelow entry.path)
    (hwhole : Whole slot entries s) (hat : At slot entries s p) {c : Call}
    {k : Except PlatformError c.Reply → Fetch Unit} (hcall : p.program slot entries = .call c k)
    (h : kernel.progress c s s') : Moves slot entries s s' p p := by
  cases p with
  | start =>
    have hcall : unpackInto slot entries = .call c k := hcall
    cases hcall
    exact .parent hslot hwhole (fun d hd => below_making hd h) trivial rfl
  | check =>
    cases hcall
    cases h
  | stage =>
    cases hcall
    cases h
  | filling staging before rest =>
    obtain ⟨hstaged, hbefore, hfilled⟩ := hat
    cases rest with
    | nil =>
      cases hcall
      cases h
    | cons entry rest =>
      have hcall : fill staging slot (entry :: rest) = .call c k := hcall
      rw [fill_cons] at hcall
      cases hcall
      rw [join_stagedPath hslot hstaged (hentries entry (by simp [hbefore])), dirname_stagedPath] at h
      refine .inside hslot hwhole hstaged rfl (fun d hd _ => below_making (hd _) h)
        ⟨hstaged, hbefore, ?_⟩ fun t ht => (Option.some.inj ht).symm
      exact hfilled.trans (below_making_append h)
  | writing staging before entry rest =>
    obtain ⟨hstaged, hbefore, hfilled⟩ := hat
    cases hcall
    obtain ⟨-, written, rfl⟩ := h
    rw [join_stagedPath hslot hstaged (hentries entry (by simp [hbefore]))]
    refine .inside hslot hwhole hstaged rfl (fun d hd _ => below_update (hd _) _)
      ⟨hstaged, hbefore, fun rel hrel => ?_⟩ fun t ht => (Option.some.inj ht).symm
    rw [below_update_append, Function.update_of_ne hrel]
    exact hfilled rel hrel
  | lost staging error =>
    cases hcall
    cases h
  | clean staging =>
    obtain ⟨hstaged, hdirectory, hcomplete⟩ := hat
    cases hcall
    have hothers : ∀ d, (∀ rel, ¬ d <+: staging ++ rel) → (∀ rel, ¬ staging <+: d ++ rel) →
        below d s' = below d s :=
      fun d _ hd => funext fun rel => (h (d ++ rel)).resolve_right fun hr => hd rel hr.1
    have hstill : s' staging = some .directory := by
      rcases h staging with he | ⟨-, hne, -⟩
      · rw [he, hdirectory]
      · exact absurd rfl hne
    obtain ⟨hapart, hapart'⟩ := slot_apart hslot hstaged
    have hcomplete' : Complete slot entries s' := (hothers slot hapart hapart').trans hcomplete
    exact .inside hslot hwhole hstaged rfl hothers ⟨hstaged, hstill, hcomplete'⟩
      fun t ht => (Option.some.inj ht).symm
  | done outcome => cases hcall

/-- An answer leads to the point where the rest of the program starts. -/
def Leads (slot : FilePath) (entries : List ArchiveEntry) (s s' : Tree) (p : Point)
    (next : Fetch Unit) : Prop :=
  ∃ p' : Point, p'.program slot entries = next ∧ Moves slot entries s s' p p'

/-- A failure that changed nothing. -/
theorem leads_failed (hwhole : Whole slot entries s) (error : PlatformError) :
    Leads slot entries s s p (.done (.error error)) :=
  ⟨.done (.error error), rfl, .still hwhole trivial fun _ ht => by cases ht⟩

theorem start_leads (hslot : CacheSlot slot) (hwhole : Whole slot entries s) {r : Except PlatformError Unit}
    (h : kernel.answers (.makeDirectory (FilePath.dirname slot)) s r s') :
    Leads slot entries s s' .start (Fiber.onOk (fun _ => Point.check.program slot entries) r) := by
  cases r with
  | ok _ =>
    obtain ⟨-, rfl⟩ := h
    exact ⟨.check, rfl, .parent hslot hwhole (fun d hd => below_made hd) trivial rfl⟩
  | error error =>
    exact ⟨.done (.error error), rfl, .parent hslot hwhole (fun d hd => below_making hd h) trivial rfl⟩

theorem check_leads (hwhole : Whole slot entries s) {r : Except PlatformError Bool}
    (h : kernel.answers (.fileExists slot) s r s') :
    Leads slot entries s s' .check (Fiber.onOk (fun present =>
      if present then pure () else Point.stage.program slot entries) r) := by
  cases r with
  | ok present =>
    obtain ⟨hpresent, rfl⟩ := h
    cases present with
    | true =>
      exact ⟨.done (.ok ()), rfl, .still hwhole (hwhole.complete_of_present hpresent.symm)
        fun _ ht => by cases ht⟩
    | false => exact ⟨.stage, rfl, .still hwhole trivial fun _ ht => by cases ht⟩
  | error error =>
    obtain rfl := h
    exact leads_failed hwhole error

theorem stage_leads (hslot : CacheSlot slot) (hwhole : Whole slot entries s)
    {r : Except PlatformError FilePath}
    (h : kernel.answers (.makeTempDirectory (FilePath.dirname slot) "akua-stage-") s r s') :
    Leads slot entries s s' .stage (Fiber.onOk (fun staging => fill staging slot entries) r) := by
  cases r with
  | ok staging =>
    obtain ⟨hstaged, hfresh, rfl⟩ := h
    have hnone : s staging = none := hfresh staging (List.prefix_refl _)
    refine ⟨.filling staging [] entries, rfl, .of_kept hwhole ?_ ?_ ⟨hstaged, rfl, ?_⟩ ?_⟩
    · have hapart := (slot_apart hslot hstaged).1 []
      rw [List.append_nil] at hapart
      exact below_update hapart _
    · intro t ht _ hdirectory
      refine below_update (fun hprefix => ?_) _
      obtain ⟨suffix, rfl, -⟩ := hstaged
      obtain ⟨other, rfl, -⟩ := ht
      by_cases he : "akua-stage-" ++ other = "akua-stage-" ++ suffix
      · rw [he, hnone] at hdirectory
        cases hdirectory
      · have hapart := sibling_apart (FilePath.dirname slot) he []
        rw [List.append_nil] at hapart
        exact hapart hprefix
    · have hempty : below staging (Function.update s staging (some .directory)) = unpacked [] := by
        funext rel
        by_cases hrel : rel = []
        · subst hrel
          simp [below, unpacked]
        · have hne : staging ++ rel ≠ staging := by simpa using hrel
          rw [below, Function.update_of_ne hne, hfresh _ (List.prefix_append _ _), unpacked]
          simp [hrel]
      rw [hempty]
      cases entries with
      | nil => rfl
      | cons entry rest => exact Making.refl
    · intro t ht
      exact Or.inr (Option.some.inj ht ▸ hnone)
  | error error =>
    obtain rfl := h
    exact leads_failed hwhole error

theorem folder_leads (hslot : CacheSlot slot) (hwhole : Whole slot entries s) {staging : FilePath}
    {before rest : List ArchiveEntry} {entry : ArchiveEntry} (hentry : StaysBelow entry.path)
    (hat : At slot entries s (.filling staging before (entry :: rest))) {r : Except PlatformError Unit}
    (h : kernel.answers (.makeDirectory (FilePath.dirname (FilePath.join staging entry.path))) s r s') :
    Leads slot entries s s' (.filling staging before (entry :: rest))
      (Fiber.onOk (fun _ => (Point.writing staging before entry rest).program slot entries) r) := by
  obtain ⟨hstaged, hbefore, hfilled⟩ := hat
  rw [join_stagedPath hslot hstaged hentry, dirname_stagedPath] at h
  cases r with
  | ok _ =>
    obtain ⟨-, rfl⟩ := h
    refine ⟨.writing staging before entry rest, rfl,
      .inside hslot hwhole hstaged rfl (fun d hd _ => below_made (hd _))
        ⟨hstaged, hbefore, fun rel _ => ?_⟩ fun t ht => (Option.some.inj ht).symm⟩
    rw [below_made_append, made_of_making hfilled]
    rfl
  | error error =>
    exact ⟨.done (.error error), rfl, .inside hslot hwhole hstaged rfl
      (fun d hd _ => below_making (hd _) h) trivial fun _ ht => by cases ht⟩

theorem file_leads (hslot : CacheSlot slot) (hwhole : Whole slot entries s) {staging : FilePath}
    {before rest : List ArchiveEntry} {entry : ArchiveEntry} (hentry : StaysBelow entry.path)
    (hat : At slot entries s (.writing staging before entry rest)) {r : Except PlatformError Unit}
    (h : kernel.answers (.writeFile (FilePath.join staging entry.path) entry.data) s r s') :
    Leads slot entries s s' (.writing staging before entry rest)
      (Fiber.onOk (fun _ => fill staging slot rest) r) := by
  obtain ⟨hstaged, hbefore, hfilled⟩ := hat
  rw [join_stagedPath hslot hstaged hentry] at h
  cases r with
  | ok _ =>
    obtain ⟨-, -, rfl⟩ := h
    refine ⟨.filling staging (before ++ [entry]) rest, rfl,
      .inside hslot hwhole hstaged rfl (fun d hd _ => below_update (hd _) _)
        ⟨hstaged, by rw [hbefore, List.append_assoc]; rfl, ?_⟩ fun t ht => (Option.some.inj ht).symm⟩
    have hwritten : below staging (Function.update s (staging ++ stagedPath entry)
        (some (.file entry.data))) = unpacked (before ++ [entry]) := by
      rw [below_update_append, unpacked_concat, addEntry]
      funext rel
      by_cases hrel : rel = stagedPath entry
      · rw [hrel, Function.update_self, Function.update_self]
      · rw [Function.update_of_ne hrel, Function.update_of_ne hrel]
        exact hfilled rel hrel
    rw [hwritten]
    cases rest with
    | nil => rfl
    | cons next rest => exact Making.refl
  | error error =>
    refine ⟨.done (.error error), rfl, ?_⟩
    rcases h with rfl | ⟨-, written, rfl⟩
    · exact .still hwhole trivial fun _ ht => by cases ht
    · exact .inside hslot hwhole hstaged rfl (fun d hd _ => below_update (hd _) _) trivial
        fun _ ht => by cases ht

/-- The tree of the slot after a move is the staged one; directories apart from both stay. -/
theorem below_moved {staging : FilePath} : below slot (moved staging slot s) = below staging s := by
  funext rel
  simp [below, moved]

theorem below_moved_apart {d staging : FilePath} (hslot : ∀ rel, ¬ slot <+: d ++ rel)
    (hstaging : ∀ rel, ¬ staging <+: d ++ rel) : below d (moved staging slot s) = below d s := by
  funext rel
  rw [below, moved, if_neg (hslot rel), if_neg (hstaging rel)]
  rfl

/-- The move makes the slot complete; a move that fails changes nothing. -/
theorem move_leads (hslot : CacheSlot slot) (hwhole : Whole slot entries s) {staging : FilePath}
    {before : List ArchiveEntry} (hat : At slot entries s (.filling staging before []))
    {r : Except PlatformError Unit} (h : kernel.answers (.rename staging slot) s r s') :
    Leads slot entries s s' (.filling staging before []) (afterMove staging slot r) := by
  have hdirectory := hat.directory rfl
  obtain ⟨hstaged, hbefore, hfilled⟩ := hat
  cases r with
  | ok _ =>
    obtain ⟨-, -, -, rfl⟩ := h
    have hcomplete : Complete slot entries (moved staging slot s) := by
      rw [Complete, below_moved, hbefore, List.append_nil]
      exact hfilled
    refine ⟨.done (.ok ()), rfl, ⟨Or.inr hcomplete, fun _ => hcomplete, fun t ht hne _ => ?_,
      hcomplete, fun _ ht => by cases ht⟩⟩
    obtain ⟨hslot, -⟩ := slot_apart hslot ht
    refine below_moved_apart hslot fun rel => ?_
    obtain ⟨suffix, rfl, -⟩ := hstaged
    obtain ⟨other, rfl, -⟩ := ht
    exact sibling_apart _ (fun he => hne (by rw [← he]; rfl)) rel
  | error error =>
    obtain rfl := h
    exact ⟨.lost staging error, rfl, .still hwhole ⟨hstaged, hdirectory⟩ fun _ ht => ht⟩

theorem lost_leads (hwhole : Whole slot entries s) {staging : FilePath} {error : PlatformError}
    (hat : At slot entries s (.lost staging error)) {r : Except PlatformError Bool}
    (h : kernel.answers (.fileExists slot) s r s') :
    Leads slot entries s s' (.lost staging error) (Fiber.onOk (fun present =>
      if present then remove staging else Fiber.fail error) r) := by
  obtain ⟨hstaged, hdirectory⟩ := hat
  cases r with
  | ok present =>
    obtain ⟨hpresent, rfl⟩ := h
    cases present with
    | true =>
      exact ⟨.clean staging, rfl, .still hwhole
        ⟨hstaged, hdirectory, hwhole.complete_of_present hpresent.symm⟩ fun _ ht => ht⟩
    | false => exact leads_failed hwhole error
  | error error' =>
    obtain rfl := h
    exact leads_failed hwhole error'

theorem clean_leads (hslot : CacheSlot slot) (hwhole : Whole slot entries s) {staging : FilePath}
    (hat : At slot entries s (.clean staging)) {r : Except PlatformError Unit}
    (h : kernel.answers (.remove staging) s r s') :
    Leads slot entries s s' (.clean staging) (.done r) := by
  obtain ⟨hstaged, -, hcomplete⟩ := hat
  obtain ⟨hapart, hapart'⟩ := slot_apart hslot hstaged
  cases r with
  | ok _ =>
    obtain rfl := h
    have hothers : ∀ d, (∀ rel, ¬ d <+: staging ++ rel) → (∀ rel, ¬ staging <+: d ++ rel) →
        below d (removed staging s) = below d s :=
      fun d _ hd => funext fun rel => if_neg (hd rel)
    exact ⟨.done (.ok ()), rfl, .inside hslot hwhole hstaged rfl hothers
      ((hothers slot hapart hapart').trans hcomplete) fun _ ht => by cases ht⟩
  | error error =>
    have hothers : ∀ d, (∀ rel, ¬ d <+: staging ++ rel) → (∀ rel, ¬ staging <+: d ++ rel) →
        below d s' = below d s :=
      fun d _ hd => funext fun rel => (h (d ++ rel)).resolve_right fun hr => hd rel hr.1
    exact ⟨.done (.error error), rfl, .inside hslot hwhole hstaged rfl hothers trivial
      fun _ ht => by cases ht⟩

theorem answer_leads (hslot : CacheSlot slot) (hentries : ∀ entry ∈ entries, StaysBelow entry.path)
    (hwhole : Whole slot entries s) (hat : At slot entries s p) {c : Call}
    {k : Except PlatformError c.Reply → Fetch Unit} (hcall : p.program slot entries = .call c k)
    {r : Except PlatformError c.Reply} (h : kernel.answers c s r s') :
    Leads slot entries s s' p (k r) := by
  cases p with
  | start =>
    cases hcall
    exact start_leads hslot hwhole h
  | check =>
    cases hcall
    exact check_leads hwhole h
  | stage =>
    cases hcall
    exact stage_leads hslot hwhole h
  | filling staging before rest =>
    cases rest with
    | nil =>
      cases hcall
      exact move_leads hslot hwhole hat h
    | cons entry rest =>
      have hentry := hentries entry (by simp [hat.2.1])
      have hcall : fill staging slot (entry :: rest) = .call c k := hcall
      rw [fill_cons] at hcall
      cases hcall
      exact folder_leads hslot hwhole hentry hat h
  | writing staging before entry rest =>
    have hentry := hentries entry (by simp [hat.2.1])
    cases hcall
    exact file_leads hslot hwhole hentry hat h
  | lost staging error =>
    cases hcall
    exact lost_leads hwhole hat h
  | clean staging =>
    cases hcall
    exact clean_leads hslot hwhole hat h
  | done outcome => cases hcall

end Steps

/-! ### Races -/

section Races

variable {ι : Type} [DecidableEq ι] {slot : FilePath} {entries : List ArchiveEntry}

/-- A fetch that is done stands at its end. -/
theorem program_done {p : Point} {outcome : Except PlatformError Unit}
    (h : p.program slot entries = .done outcome) : p = .done outcome := by
  cases p with
  | done outcome' =>
    cases h
    rfl
  | filling staging before rest =>
    cases rest with
    | nil => cases h
    | cons entry rest =>
      have h : fill staging slot (entry :: rest) = .done outcome := h
      rw [fill_cons] at h
      cases h
  | start => cases h
  | check => cases h
  | stage => cases h
  | writing _ _ _ _ => cases h
  | lost _ _ => cases h
  | clean _ => cases h

/-- What holds throughout a race. -/
structure Race (slot : FilePath) (entries : List ArchiveEntry) (s : Tree) (points : ι → Point) :
    Prop where
  whole : Whole slot entries s
  at_point : ∀ i, At slot entries s (points i)
  apart : ∀ i j, i ≠ j → ∀ t, (points i).staging? = some t → (points j).staging? ≠ some t

theorem Race.step {s s' : Tree} {points : ι → Point} (h : Race slot entries s points) {i : ι}
    {p : Point} (hmoves : Moves slot entries s s' (points i) p) :
    Race slot entries s' (Function.update points i p) := by
  refine ⟨hmoves.whole, fun j => ?_, fun j k hjk t hj hk => ?_⟩
  · by_cases hj : j = i
    · subst hj
      rw [Function.update_self]
      exact hmoves.at_point
    · rw [Function.update_of_ne hj]
      refine (h.at_point j).frame (fun t ht => ?_) hmoves.complete
      exact hmoves.others t ((h.at_point j).staged ht) (fun hi => h.apart j i hj t ht hi)
        ((h.at_point j).directory ht)
  · -- a staging directory that the step takes was not there before
    have hnew : ∀ j, j ≠ i → (points j).staging? = some t → p.staging? ≠ some t := by
      intro j hji hj hp
      rcases hmoves.own t hp with hi | hnone
      · exact h.apart j i hji t hj hi
      · rw [(h.at_point j).directory hj] at hnone
        cases hnone
    by_cases hji : j = i
    · subst hji
      rw [Function.update_self] at hj
      rw [Function.update_of_ne hjk.symm] at hk
      exact hnew k hjk.symm hk hj
    · rw [Function.update_of_ne hji] at hj
      by_cases hki : k = i
      · subst hki
        rw [Function.update_self] at hk
        exact hnew j hji hj hk
      · rw [Function.update_of_ne hki] at hk
        exact h.apart j k hjk t hj hk

/-- However the steps of fetches that unpack the same entries into one slot interleave, and wherever
    they fail or stop, the slot is absent or complete in every state, and complete once one of them
    has succeeded. -/
theorem slot_atomic (hslot : CacheSlot slot) (hentries : ∀ entry ∈ entries, StaysBelow entry.path)
    {start : Tree} (hstart : Absent slot start ∨ Complete slot entries start)
    {now : Kernel.Config Tree Call Call.Reply PlatformError Unit ι}
    {trace : List (ι × Kernel.Event Call Call.Reply PlatformError)}
    (h : kernel.Runs ⟨start, fun _ => unpackInto slot entries⟩ trace now) :
    (Absent slot now.shared ∨ Complete slot entries now.shared) ∧
      ∀ i, now.fibers i = .done (.ok ()) → Complete slot entries now.shared := by
  have hinit : Race slot entries start fun _ : ι => Point.start :=
    ⟨hstart, fun _ => trivial, fun _ _ _ _ ht => by cases ht⟩
  have hprogress : ∀ {s s' : Tree} {points : ι → Point} {i c k}, Race slot entries s points →
      (points i).program slot entries = .call c k → kernel.progress c s s' →
      Race slot entries s' points := by
    intro s s' points i c k hI hcall hp
    have hstep := hI.step (progress_moves hslot hentries hI.whole (hI.at_point i) hcall hp)
    rwa [Function.update_eq_self] at hstep
  have hanswer : ∀ {s s' : Tree} {points : ι → Point} {i c k r}, Race slot entries s points →
      (points i).program slot entries = .call c k → kernel.answers c s r s' →
      ∃ point : Point, point.program slot entries = k r ∧
        Race slot entries s' (Function.update points i point) := by
    intro s s' points i c k r hI hcall ha
    obtain ⟨point, hpoint, hmoves⟩ := answer_leads hslot hentries hI.whole (hI.at_point i) hcall ha
    exact ⟨point, hpoint, hI.step hmoves⟩
  obtain ⟨points, hpoints, hnow⟩ := Kernel.invariant_of_points (Point.program slot entries)
    (fun _ => Race slot entries) hprogress hanswer (fun _ => rfl) hinit h
  refine ⟨hnow.whole, fun i hdone => ?_⟩
  have hat := hnow.at_point i
  rw [program_done ((hpoints i).symm.trans hdone)] at hat
  exact hat

end Races

/-! ### Two fetches, of which one loses -/

def emptyCache : Tree := fun q => if q = [] then some .directory else none

def cacheSlot : FilePath := ["cache", "abc"]

def oneFile : List ArchiveEntry := [{ path := "web.yaml", data := [97] }]

/-- The staging directories of the two. -/
def stagingOf : Bool → FilePath
  | true => ["cache", "akua-stage-x"]
  | false => ["cache", "akua-stage-y"]

/-- What a fetch has made when it comes to the move. -/
def staged (i : Bool) (s : Tree) : Tree :=
  Function.update (made (stagingOf i) (Function.update (made ["cache"] s) (stagingOf i) (some .directory)))
    (stagingOf i ++ ["web.yaml"]) (some (.file [97]))

theorem staged_apart (i : Bool) {s : Tree} {q : FilePath} (h : ¬ q <+: stagingOf i ++ ["web.yaml"]) :
    staged i s q = s q := by
  have hstaging : ¬ q <+: stagingOf i := fun hq => h (hq.trans (List.prefix_append _ _))
  have hparent : ¬ q <+: ["cache"] := fun hq => hstaging (hq.trans (by cases i <;> decide))
  have hne : q ≠ stagingOf i := fun he => hstaging (he ▸ List.prefix_rfl)
  have hne' : q ≠ stagingOf i ++ ["web.yaml"] := fun he => h (he ▸ List.prefix_rfl)
  simp [staged, made, hparent, hstaging, hne, hne']

/-- A fetch comes to the move when nothing is in its way. -/
theorem comes_to_move (i : Bool) {s : Tree} (hparents : ∀ q ∈ [[], ["cache"]], s q = none ∨ s q = some .directory)
    (hslot : s cacheSlot = none) (hfree : ∀ q, stagingOf i <+: q → s q = none) :
    kernel.Goes i s (unpackInto cacheSlot oneFile) (staged i s) (moveIntoPlace (stagingOf i) cacheSlot) := by
  have hparent : stagingOf i = ["cache"] ++ [(stagingOf i).getLastD ""] := by cases i <;> rfl
  have hbelow : ∀ q, stagingOf i <+: q → ¬ q <+: ["cache"] := by
    intro q hq hq'
    have hlength := hq.length_le.trans hq'.length_le
    rw [hparent] at hlength
    exact absurd hlength (by simp)
  have hfill : fill (stagingOf i) cacheSlot oneFile = makeDirectory (stagingOf i) >>= fun _ =>
      writeFile (stagingOf i ++ ["web.yaml"]) [97] >>= fun _ => moveIntoPlace (stagingOf i) cacheSlot := by
    have hjoin : FilePath.join (stagingOf i) "web.yaml" = stagingOf i ++ ["web.yaml"] := by cases i <;> decide
    rw [oneFile, fill_cons, hjoin, FilePath.dirname, List.dropLast_concat]
    rfl
  have hcache : kernel.answers (.makeDirectory ["cache"]) s (.ok ()) (made ["cache"] s) :=
    ⟨fun q hq => hparents q ((List.mem_inits q ["cache"]).mpr hq), rfl⟩
  have hcheck : kernel.answers (.fileExists cacheSlot) (made ["cache"] s) (.ok false) (made ["cache"] s) := by
    refine ⟨?_, rfl⟩
    rw [made, if_neg (by decide), hslot]
    rfl
  have hstage : kernel.answers (.makeTempDirectory ["cache"] "akua-stage-") (made ["cache"] s) (.ok (stagingOf i))
      (Function.update (made ["cache"] s) (stagingOf i) (some .directory)) := by
    refine ⟨?_, fun q hq => ?_, rfl⟩
    · cases i with
      | true => exact ⟨"x", rfl, by decide⟩
      | false => exact ⟨"y", rfl, by decide⟩
    · rw [made, if_neg (hbelow q hq), hfree q hq]
  have hfolder : kernel.answers (.makeDirectory (stagingOf i))
      (Function.update (made ["cache"] s) (stagingOf i) (some .directory)) (.ok ())
      (made (stagingOf i) (Function.update (made ["cache"] s) (stagingOf i) (some .directory))) := by
    refine ⟨fun q hq => .inr ?_, rfl⟩
    by_cases hself : q = stagingOf i
    · rw [hself, Function.update_self]
    · rw [hparent, List.prefix_concat_iff, ← hparent] at hq
      rw [Function.update_of_ne hself, made, if_pos (hq.resolve_left hself)]
  have hwrite : kernel.answers (.writeFile (stagingOf i ++ ["web.yaml"]) [97])
      (made (stagingOf i) (Function.update (made ["cache"] s) (stagingOf i) (some .directory))) (.ok ())
      (staged i s) := by
    have hnot : ¬ stagingOf i ++ ["web.yaml"] <+: stagingOf i := fun h => absurd h.length_le (by simp)
    have hne : stagingOf i ++ ["web.yaml"] ≠ stagingOf i := by simp
    refine ⟨?_, ?_, rfl⟩
    · rw [FilePath.dirname, List.dropLast_concat, made, if_pos List.prefix_rfl]
    · rw [made, if_neg hnot, Function.update_of_ne hne, made, if_neg (hbelow _ (List.prefix_append _ _)),
        hfree _ (List.prefix_append _ _)]
      simp
  have hmoved : kernel.Goes i (Function.update (made ["cache"] s) (stagingOf i) (some .directory))
      (fill (stagingOf i) cacheSlot oneFile) (staged i s) (moveIntoPlace (stagingOf i) cacheSlot) := by
    rw [hfill]
    exact .answered hfolder (.answered hwrite .refl)
  exact .answered hcache (.answered hcheck (.answered hstage hmoved))

/-- The tree when both have come to the move. -/
def bothStaged : Tree := staged false (staged true emptyCache)

/-- The tree when the first has moved. -/
def oneMoved : Tree := moved (stagingOf true) cacheSlot bothStaged

def lostRename : PlatformError := ⟨.alreadyExists, "directory not empty"⟩

theorem lost_rename_completes : CacheSlot cacheSlot ∧ (∀ entry ∈ oneFile, StaysBelow entry.path) ∧
    Absent cacheSlot emptyCache ∧ ∃ now trace before, kernel.Runs ⟨emptyCache, fun _ : Bool =>
      unpackInto cacheSlot oneFile⟩ trace now ∧
      trace = before ++ [(true, .answered (.rename (stagingOf true) cacheSlot) (.ok ())),
        (false, .answered (.rename (stagingOf false) cacheSlot) (.error lostRename)),
        (false, .answered (.fileExists cacheSlot) (.ok true)),
        (false, .answered (.remove (stagingOf false)) (.ok ()))] ∧
      (∀ i, now.fibers i = .done (.ok ())) ∧ (∀ i, now.shared (stagingOf i) = none) ∧
      Complete cacheSlot oneFile now.shared := by
  have hslot : CacheSlot cacheSlot := by
    refine ⟨by decide, "abc", rfl, fun suffix he => ?_⟩
    have hlist := congrArg String.toList he
    rw [String.toList_append] at hlist
    exact absurd (List.cons.inj hlist).2 (by simp)
  have hentries : ∀ entry ∈ oneFile, StaysBelow entry.path := by
    intro entry hentry
    rw [List.mem_singleton.mp hentry]
    exact ⟨by decide, by decide, by decide⟩
  have habsent : Absent cacheSlot emptyCache := by
    intro rel
    simp [below, emptyCache, cacheSlot]
  refine ⟨hslot, hentries, habsent, ?_⟩
  -- both come to the move before either moves
  have htrue : ∀ q, stagingOf true <+: q → emptyCache q = none := by
    rintro _ ⟨rel, rfl⟩
    rfl
  have hfalse : ∀ q, stagingOf false <+: q → staged true emptyCache q = none := by
    rintro _ ⟨rel, rfl⟩
    rw [staged_apart true (by simp [stagingOf])]
    rfl
  obtain ⟨first, -, hrun⟩ := comes_to_move true (s := emptyCache) (by decide) rfl htrue
    (fun _ => unpackInto cacheSlot oneFile) rfl
  obtain ⟨second, -, hrun⟩ := hrun.goes
    (comes_to_move false (s := staged true emptyCache) (by decide) (by decide) hfalse)
    (Function.update_of_ne Bool.false_ne_true _ _)
  have hvacant : Vacant cacheSlot bothStaged := by
    refine ⟨.inl (by decide), ?_⟩
    rintro _ ⟨rel, rfl⟩ -
    rw [bothStaged, staged_apart false (by simp [cacheSlot, stagingOf]),
      staged_apart true (by simp [cacheSlot, stagingOf])]
    rfl
  have hwins : kernel.answers (.rename (stagingOf true) cacheSlot) bothStaged (.ok ()) oneMoved :=
    ⟨by decide, hvacant, by decide, rfl⟩
  have hloses : kernel.answers (.rename (stagingOf false) cacheSlot) oneMoved (.error lostRename) oneMoved := rfl
  have hpresent : (oneMoved cacheSlot).isSome = true := by decide
  have hsees : kernel.answers (.fileExists cacheSlot) oneMoved (.ok true) oneMoved := ⟨hpresent.symm, rfl⟩
  have hcleans : kernel.answers (.remove (stagingOf false)) oneMoved (.ok ()) (removed (stagingOf false) oneMoved) := rfl
  replace hrun := hrun.answer (i := true) (k := afterMove (stagingOf true) cacheSlot) rfl hwins
  replace hrun := hrun.answer (i := false) (k := afterMove (stagingOf false) cacheSlot) rfl hloses
  replace hrun := hrun.answer (i := false) rfl hsees
  replace hrun := hrun.answer (i := false) (k := Fiber.done) rfl hcleans
  refine ⟨_, _, first ++ second, hrun, by simp, fun i => ?_, fun i => ?_, ?_⟩
  · cases i <;> rfl
  · cases i <;> decide
  · exact (slot_atomic hslot hentries (Or.inl habsent) hrun).2 false rfl

end Akua.Racing
