import Akua.Lib.Effect
import Akua.Lib.Text

/-! File systems as a program sees them. A path is absolute and given by its components (a relative
    path is taken from the working directory before it gets here); `join` cleans a path lexically,
    as `path.join` does, while `append` leaves `..` to the operating system. The operations are a
    class without laws: what they answer, or how they fail, is the operating system's. -/

abbrev Bytes := List UInt8

/-- The UTF-8 bytes of a string. -/
def encodeText (s : String) : Bytes := s.toUTF8.data.toList

/-- The string whose UTF-8 bytes these are, if they are UTF-8. -/
def decodeUtf8 (bytes : Bytes) : Option String := String.fromUTF8? ⟨bytes.toArray⟩

@[simp] theorem decodeUtf8_encodeText (s : String) : decodeUtf8 (encodeText s) = some s := by
  have h : (⟨(encodeText s).toArray⟩ : ByteArray) = s.toUTF8 := by simp [encodeText]
  rw [decodeUtf8, h]
  simp only [String.fromUTF8?, String.toUTF8_eq_toByteArray, Option.dite_none_right_eq_some,
    Option.some.injEq]
  exact ⟨s.isValidUTF8, rfl⟩

theorem encodeText_append (s t : String) : encodeText (s ++ t) = encodeText s ++ encodeText t := by
  simp [encodeText]

/-- An absolute path, by its components. -/
abbrev FilePath := List String

namespace FilePath

/-- A component that names an entry: not empty, no separator, and not `.` or `..`. -/
def Plain (s : String) : Prop := s ≠ "" ∧ s ≠ "." ∧ s ≠ ".." ∧ '/' ∉ s.toList

instance (s : String) : Decidable (Plain s) := inferInstanceAs (Decidable (_ ∧ _))

/-- One component of a path as it is cleaned: `..` drops the last one, and `/..` is `/`. -/
def push (path : FilePath) (component : String) : FilePath :=
  if component = "" ∨ component = "." then path
  else if component = ".." then path.dropLast
  else path ++ [component]

def normalize (components : List String) : FilePath := components.foldl push []

/-- `path.join(base, rel)`. -/
def join (base : FilePath) (rel : String) : FilePath := normalize (base ++ Text.split rel '/')

/-- The components of a relative path, without the empty ones and `.`. -/
def segments (rel : String) : List String :=
  (Text.split rel '/').filter fun c => c ≠ "" ∧ c ≠ "."

/-- `base/rel` as the operating system reads it: empty and `.` components are skipped, and `..` is
    left for it to follow. -/
def append (base : FilePath) (rel : String) : FilePath := base ++ segments rel

/-- `path.resolve(path)`, from the working directory `cwd`. -/
def resolve (cwd : FilePath) (path : String) : FilePath :=
  if Text.startsWith path "/" then join [] path else join cwd path

/-- `path.dirname(path)`. -/
def dirname (path : FilePath) : FilePath := path.dropLast

/-- The path as text. -/
def toString (path : FilePath) : String := "/" ++ Text.join path '/'

/-- `path.isAbsolute(rel)`. -/
def isAbsolute (rel : String) : Bool := Text.startsWith rel "/"

/-- `target === root || target.startsWith(root + path.sep)`. -/
def Within (root target : FilePath) : Prop := target = root ∨ (root ≠ [] ∧ root <+: target)

instance (root target : FilePath) : Decidable (Within root target) := inferInstanceAs (Decidable (_ ∨ _))

/-- `target` is an entry of the directory `root`. -/
def DirectChild (root target : FilePath) : Prop := ∃ name, Plain name ∧ target = root ++ [name]

/-- A path as `path.join` returns it. -/
def Normal (path : FilePath) : Prop := ∀ c ∈ path, Plain c

instance (path : FilePath) : Decidable (Normal path) := inferInstanceAs (Decidable (∀ c ∈ path, Plain c))

theorem push_plain {path : FilePath} {c : String} (h : Plain c) : push path c = path ++ [c] := by
  obtain ⟨h₁, h₂, h₃, -⟩ := h
  simp [push, h₁, h₂, h₃]

theorem push_normal {path : FilePath} {c : String} (hp : Normal path) (hc : '/' ∉ c.toList) :
    Normal (push path c) := by
  unfold push
  split
  · exact hp
  · split
    · exact fun x hx => hp x (List.dropLast_subset _ hx)
    · rename_i h₁ h₂
      rw [not_or] at h₁
      intro x hx
      rcases List.mem_append.mp hx with hx | hx
      · exact hp x hx
      · rw [List.mem_singleton.mp hx]
        exact ⟨h₁.1, h₁.2, h₂, hc⟩

theorem foldl_push_plain : ∀ (l : List String) (base : FilePath), (∀ c ∈ l, Plain c) →
    l.foldl push base = base ++ l
  | [], base, _ => by simp
  | c :: l, base, h => by
      rw [List.foldl_cons, push_plain (h c List.mem_cons_self),
        foldl_push_plain l _ fun x hx => h x (List.mem_cons_of_mem _ hx)]
      simp

/-- Cleaning changes nothing in a clean path. -/
theorem normalize_normal {path : FilePath} (h : Normal path) : normalize path = path := by
  rw [normalize, foldl_push_plain path [] h, List.nil_append]

theorem normalize_normalize (path : FilePath) : normalize (normalize path) = normalize path := by
  have hpush : ∀ (l : List String) (base : FilePath), (∀ c ∈ base, c ≠ "" ∧ c ≠ "." ∧ c ≠ "..") →
      ∀ c ∈ l.foldl push base, c ≠ "" ∧ c ≠ "." ∧ c ≠ ".." := by
    intro l
    induction l with
    | nil => exact fun _ h => h
    | cons c l ih =>
      intro base h
      refine ih _ fun x hx => ?_
      unfold push at hx
      split at hx
      · exact h x hx
      · split at hx
        · exact h x (List.dropLast_subset _ hx)
        · rename_i h₁ h₂
          rcases List.mem_append.mp hx with hx | hx
          · exact h x hx
          · rw [List.mem_singleton.mp hx]
            rw [not_or] at h₁
            exact ⟨h₁.1, h₁.2, h₂⟩
  have hid : ∀ (l : List String) (base : FilePath), (∀ c ∈ l, c ≠ "" ∧ c ≠ "." ∧ c ≠ "..") →
      l.foldl push base = base ++ l := by
    intro l
    induction l with
    | nil => simp
    | cons c l ih =>
      intro base h
      obtain ⟨h₁, h₂, h₃⟩ := h c List.mem_cons_self
      rw [List.foldl_cons, show push base c = base ++ [c] by simp [push, h₁, h₂, h₃],
        ih _ fun x hx => h x (List.mem_cons_of_mem _ hx), List.append_assoc, List.singleton_append]
  exact hid _ [] (hpush path [] (by simp))

theorem join_eq {base : FilePath} (h : Normal base) (rel : String) :
    join base rel = (Text.split rel '/').foldl push base := by
  rw [join, normalize, List.foldl_append, ← normalize, normalize_normal h]

theorem foldl_push_normal : ∀ (l : List String) (base : FilePath), Normal base →
    (∀ c ∈ l, '/' ∉ c.toList) → Normal (l.foldl push base)
  | [], _, hb, _ => hb
  | c :: l, _, hb, h =>
      foldl_push_normal l _ (push_normal hb (h c List.mem_cons_self))
        fun x hx => h x (List.mem_cons_of_mem _ hx)

theorem join_normal {base : FilePath} (h : Normal base) (rel : String) : Normal (join base rel) := by
  rw [join_eq h]
  exact foldl_push_normal _ _ h fun _ => Text.not_mem_of_mem_split

/-- Joining a plain name goes one level down. -/
theorem join_plain {base : FilePath} (hb : Normal base) {name : String} (h : Plain name) :
    join base name = base ++ [name] := by
  rw [join_eq hb, Text.split_of_not_mem h.2.2.2]
  exact push_plain h

/-- Joining plain components goes down along them. -/
theorem join_components {base : FilePath} (hb : Normal base) {rel : List String} (h : Normal rel) :
    join base (Text.join rel '/') = base ++ rel := by
  rw [join_eq hb]
  by_cases hne : rel = []
  · subst hne
    exact (List.append_nil base).symm
  · rw [Text.split_join hne fun c hc => (h c hc).2.2.2, foldl_push_plain rel base h]

/-- The components of `a/b` are those of `a`, then those of `b`. -/
theorem segments_slash (a b : String) : segments (a ++ "/" ++ b) = segments a ++ segments b := by
  rw [segments, Text.split_append (by rfl), List.filter_append]
  rfl

theorem of_mem_segments {s c : String} (h : c ∈ segments s) : c ≠ "" ∧ c ≠ "." ∧ '/' ∉ c.toList := by
  obtain ⟨hc, hne⟩ := List.mem_filter.mp h
  simp only [ne_eq, decide_eq_true_eq] at hne
  exact ⟨hne.1, hne.2, Text.not_mem_of_mem_split hc⟩

theorem resolve_normal {cwd : FilePath} (h : Normal cwd) (path : String) : Normal (resolve cwd path) := by
  unfold resolve
  split
  · exact join_normal (fun _ hc => absurd hc List.not_mem_nil) path
  · exact join_normal h path

theorem directChild_join {base : FilePath} (hb : Normal base) {name : String} (h : Plain name) :
    DirectChild base (join base name) :=
  ⟨name, h, join_plain hb h⟩

end FilePath

/-! ### The operating system -/

/-- Why the operating system refused. -/
inductive Reason where
  | notFound
  | permissionDenied
  | alreadyExists
  | other
deriving DecidableEq

structure PlatformError where
  reason : Reason
  message : String
deriving DecidableEq

inductive FileKind where
  | file
  | directory
  | other
deriving DecidableEq

structure FileInfo where
  type : FileKind
  mode : Nat
deriving DecidableEq

/-- The file system calls, over the states `φ` of a file system. `makeDirectory` and `remove` are
    the recursive ones; `readDirectoryRecursive` lists paths relative to the directory. -/
class FileSystem (φ : Type) where
  fileExists : FilePath → Reading φ PlatformError Bool
  stat : FilePath → Reading φ PlatformError FileInfo
  realPath : FilePath → Reading φ PlatformError FilePath
  readFile : FilePath → Reading φ PlatformError Bytes
  readDirectory : FilePath → Reading φ PlatformError (List String)
  readDirectoryRecursive : FilePath → Reading φ PlatformError (List String)
  makeDirectory : FilePath → Effect φ PlatformError Unit
  makeTempDirectory : FilePath → String → Effect φ PlatformError FilePath
  writeFile : FilePath → Bytes → Effect φ PlatformError Unit
  copyFile : FilePath → FilePath → Effect φ PlatformError Unit
  rename : FilePath → FilePath → Effect φ PlatformError Unit
  remove : FilePath → Effect φ PlatformError Unit
