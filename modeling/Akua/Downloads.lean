import Akua.Archive

/-! Shared by the dependency fetchers: bounded downloads, and the cache directories with the way a
    slot of them is written. -/

namespace Akua

variable (P : Platform)

inductive CacheKind where
  | oci
  | helm
  | git
  | url
deriving DecidableEq

def CacheKind.name : CacheKind → String
  | .oci => "oci"
  | .helm => "helm"
  | .git => "git"
  | .url => "url"

/-- An environment variable that is set and not empty. -/
def envSet (name : String) : Option String := (P.env name).filter (· ≠ "")

/-- `$XDG_CACHE_HOME/akua/<kind>`, else `$HOME/.cache/akua/<kind>`, else `.akua/cache/<kind>`. -/
def cacheRoot (kind : CacheKind) : FilePath :=
  match envSet P "XDG_CACHE_HOME", envSet P "HOME" with
  | some xdg, _ => FilePath.join (FilePath.join (FilePath.resolve P.cwd xdg) "akua") kind.name
  | none, some home =>
    FilePath.join (FilePath.join (FilePath.join (FilePath.resolve P.cwd home) ".cache") "akua") kind.name
  | none, none => FilePath.join (FilePath.join (FilePath.join P.cwd ".akua") "cache") kind.name

theorem cacheRoot_normal (kind : CacheKind) : FilePath.Normal (cacheRoot P kind) := by
  unfold cacheRoot
  split <;> apply FilePath.join_normal <;> apply FilePath.join_normal
  · exact FilePath.resolve_normal P.cwd_normal _
  · exact FilePath.join_normal (FilePath.resolve_normal P.cwd_normal _) _
  · exact FilePath.join_normal P.cwd_normal _

/-- The number is greater than `limit`, read off its text: `1e+21` and up have an exponent. -/
def Number.exceeds (n : Number) (limit : Nat) : Bool :=
  let digits := n.toList.takeWhile Char.isDigit
  let rest := n.toList.drop digits.length
  let value := digits.foldl (fun v c => v * 10 + (c.toNat - '0'.toNat)) 0
  n = "Infinity" ||
    match digits, rest with
    | [], _ => false
    | _, [] => limit < value
    | _, _ => if rest.contains '+' then true else if rest.contains '-' then false
      else limit < value || limit == value

/-- The body of a 2xx response, read up to `limit` bytes; `status` words a non-2xx answer. -/
def readBounded (response : HttpResponse) (url : String) (limit : Nat)
    (status : Nat → String → String) : Except String Bytes :=
  if response.status < 200 ∨ 300 ≤ response.status then
    let text := (response.body.toOption.map (decodeText P)).getD ""
    .error (status response.status (String.ofList (text.toList.take 300)))
  else
    let declared := (response.headers.lookup "content-length").map P.toNumber
    if declared.any (Number.exceeds · limit) then
      .error ("response from `" ++ url ++ "` exceeds the " ++ toString limit ++
        "-byte ceiling (declared " ++ declared.getD "" ++ " bytes)")
    else
      match response.body with
      | .error message => .error ("reading response body from `" ++ url ++ "`: " ++ message)
      | .ok bytes =>
        if bytes.length > limit then
          .error ("response from `" ++ url ++ "` exceeds the " ++ toString limit ++ "-byte ceiling")
        else .ok bytes

section Unpack

variable {φ : Type} [FileSystem φ]

/-- Write one entry below `directory`. -/
def writeEntry (directory : FilePath) (entry : ArchiveEntry) : Run φ PlatformError Unit := do
  let target := FilePath.join directory entry.path
  Run.makeDirectory (FilePath.dirname target)
  Run.writeFile target entry.data

/-- Move the staged directory into place; a racing fetch that landed the same content wins. -/
def moveIntoPlace (staging slot : FilePath) : Run φ PlatformError Unit := do
  let moved ← (Run.onDisk (FileSystem.rename staging slot)).result
  match moved with
  | .ok _ => pure ()
  | .error error => do
    let present ← Run.read (FileSystem.fileExists slot)
    if present then Run.remove staging else Effect.fail error

/-- Write `entries` under a staging directory next to `slot`, then move it into place. -/
def unpackInto (slot : FilePath) (entries : List ArchiveEntry) : Run φ PlatformError Unit := do
  Run.makeDirectory (FilePath.dirname slot)
  let present ← Run.read (FileSystem.fileExists slot)
  if present then pure ()
  else
    let staging ← Run.onDisk (FileSystem.makeTempDirectory (FilePath.dirname slot) "akua-stage-")
    let _ ← forEach (writeEntry staging) entries
    moveIntoPlace staging slot

open Run in
/-- Unpacking only writes. -/
theorem logs_unpackInto {p : Event → Prop} (hp : ∀ e, e.IsWrite → p e) (slot : FilePath)
    (entries : List ArchiveEntry) :
    Logs p (unpackInto slot entries : Run φ PlatformError Unit) := by
  refine logs_bind (logs_makeDirectory hp _) fun _ _ _ _ => logs_bind (logs_read _) ?_
  intro present _ _ _
  split
  · exact logs_pure _
  refine logs_bind (logs_onDisk _) fun staging _ _ _ => logs_bind (logs_forEach ?_) ?_
  · intro entry _
    exact logs_bind (logs_makeDirectory hp _) fun _ _ _ _ => logs_writeFile hp _ _
  · intro _ _ _ _
    refine logs_bind (logs_result (logs_onDisk _)) fun moved _ _ _ => ?_
    rcases moved with error | _
    · refine logs_bind (logs_read _) fun present _ _ _ => ?_
      split
      · exact logs_remove hp _
      · exact logs_fail _
    · exact logs_pure _

end Unpack

/-- What a fetcher may log: slots of its own cache, signatures it verified, and writes. -/
def FetcherEvent (slots : FilePath) (named : FilePath → Prop) : Event → Prop
  | .cacheSlot root slot => root = slots ∧ named slot
  | .workspaceTree _ | .fetch _ _ => False
  | _ => True

theorem FetcherEvent.of_write {slots : FilePath} {named : FilePath → Prop} {e : Event} (h : e.IsWrite) :
    FetcherEvent slots named e := by
  cases e <;> trivial

end Akua
