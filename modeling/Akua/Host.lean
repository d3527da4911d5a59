import Akua.Lib.FileSystem
import Akua.Value

/-! What the program runs on: the failures it reports, the third-party code and the services of the
    operating system it calls (`Platform`, a parameter of every function that needs one), and the
    state a run changes (`World`). A run also leaves a trace: the calls and checks it made, the
    last one first. Nothing in the program reads the trace; it is there for the statements. -/

namespace Akua

/-! ### Failures -/

structure ManifestInvalid where
  path : FilePath
  code : String
  message : String
deriving DecidableEq

structure LockInvalid where
  path : FilePath
  message : String
deriving DecidableEq

/-- A Package entry whose real path lies outside the Package. -/
structure PathEscape where
  path : String
deriving DecidableEq

structure DependencyUnresolved where
  dependency : String
  code : String
  message : String
  /-- A source served other bytes than `akua.lock` pins. -/
  drift : Bool := false
deriving DecidableEq

/-- The exit codes of the CLI contract. -/
inductive ExitCode where
  | userError
  | systemError
deriving DecidableEq

/-- A failure the CLI reports: the structured error and its exit code. -/
structure CliFailure where
  code : String
  message : String
  exitCode : ExitCode
  path : Option FilePath := none
  suggestion : Option String := none
deriving DecidableEq

/-- Everything a verb fails with. `exitWith` is a verdict already printed. -/
inductive Failure where
  | platform (error : PlatformError)
  | pathEscape (error : PathEscape)
  | manifestInvalid (error : ManifestInvalid)
  | lockInvalid (error : LockInvalid)
  | dependencyUnresolved (error : DependencyUnresolved)
  | crdsInvalid (message : String)
  | cli (error : CliFailure)
  | exitWith (exitCode : ExitCode)
deriving DecidableEq

def PathEscape.message (error : PathEscape) : String :=
  "E_PATH_ESCAPE: `" ++ error.path ++ "` resolves outside the Package"

def Failure.message : Failure → String
  | .platform error => error.message
  | .pathEscape error => error.message
  | .manifestInvalid error => error.message
  | .lockInvalid error => error.message
  | .dependencyUnresolved error => error.message
  | .crdsInvalid message => message
  | .cli error => error.code ++ ": " ++ error.message
  | .exitWith _ => ""

/-- A file-system failure in the operating system's words. -/
def osMessage (error : PlatformError) : String :=
  match error.reason with
  | .notFound => "No such file or directory (os error 2)"
  | .permissionDenied => "Permission denied (os error 13)"
  | .alreadyExists => "File exists (os error 17)"
  | .other => error.message

/-- A host failure as the contract reports it. -/
def reportable : Failure → Failure
  | .platform error => .cli { code := "E_IO", message := error.message, exitCode := .systemError }
  | .pathEscape error =>
    .cli { code := "E_PATH_ESCAPE", message := error.message, exitCode := .userError,
           path := some (FilePath.append [] error.path) }
  | .manifestInvalid error =>
    .cli { code := error.code, message := error.message, exitCode := .userError,
           path := some error.path }
  | .lockInvalid error =>
    .cli { code := "E_LOCK_PARSE", message := error.message, exitCode := .userError,
           path := some error.path }
  | .dependencyUnresolved error =>
    .cli { code := error.code, message := error.message, exitCode := .userError }
  | failure => failure

/-! ### The platform -/

/-- The 64 lower-case hexadecimal digits of a SHA-256 digest. -/
structure Hex256 where
  digits : String
  length : digits.toList.length = 64
  hex : ∀ c ∈ digits.toList, c ∈ "0123456789abcdef".toList

/-- One digit, 64 times. -/
def Hex256.repeated (c : Char) (h : c ∈ "0123456789abcdef".toList) : Hex256 where
  digits := String.ofList (List.replicate 64 c)
  length := by simp
  hex x hx := by
    rw [String.toList_ofList] at hx
    rw [List.eq_of_mem_replicate hx]
    exact h

structure HttpRequest where
  method : String := "GET"
  url : String
  params : List (String × String) := []
  headers : List (String × String) := []
  body : Bytes := []
deriving DecidableEq

/-- A server's answer; the body may break off. -/
structure HttpResponse where
  status : Nat
  headers : List (String × String) := []
  body : Except String Bytes

/-- An object of a git store, by what it names. -/
inductive GitObject where
  | commit (tree : String)
  | tag (object : String)
  /-- Entries: name, mode, type (`blob`, `tree` or `commit`) and object id. -/
  | tree (entries : List (String × String × String × String))
  | blob (data : Bytes)

/-- What one fetch brought. -/
structure GitStore where
  fetchHead : Option String
  readObject : String → Except String GitObject

structure BasicAuth where
  username : String
  password : String
deriving DecidableEq

/-- Third-party code, and what the process is given by its environment. A server's answer may
    depend on everything it was asked before. -/
structure Platform where
  /-- `TOML.parse`: the document, or the reader's message. -/
  parseToml : String → Except String Value
  /-- `JSON.parse`. -/
  parseJson : String → Except String Value
  /-- `YAML.parse`. -/
  parseYaml : String → Except String Value
  /-- `new YAML.Document(value).toString(..)`, with the strings the test accepts single-quoted. -/
  printYaml : (String → Bool) → Value → String
  /-- How `toLowerCase` treats the characters beyond ASCII. -/
  casing : Text.Casing
  /-- The message of a schema that refuses a document. -/
  schemaIssue : Value → String
  /-- `Number(text)`. -/
  toNumber : String → Number
  sha256Hex : Bytes → Hex256
  /-- What a lenient `TextDecoder` makes of bytes that are not UTF-8. -/
  replaceInvalid : Bytes → String
  /-- An SPKI public key for ECDSA on P-256, or why it is none. -/
  importKey : Bytes → Except String Bytes
  /-- ECDSA with SHA-256: key, `r || s`, payload. -/
  verifyEcdsa : Bytes → Bytes → Bytes → Except String Bool
  /-- `DecompressionStream("gzip")`: what comes out, and why it broke off. -/
  inflate : Bytes → Bytes × Option String
  /-- `Bun.deflateSync` at level 6. -/
  deflate : Bytes → Bytes
  crc32 : Bytes → Nat
  env : String → Option String
  /-- The working directory: relative paths are taken from it. -/
  cwd : FilePath
  cwd_normal : FilePath.Normal cwd
  /-- How the running CLI spells itself. -/
  cliName : String
  http : List HttpRequest → HttpRequest → Except String HttpResponse
  /-- What the URL parser makes of a scheme and an authority: percent-decoded, in lower case, without
      the default port. -/
  canonicalHost : (scheme authority : String) → String
  /-- A shallow fetch of one ref of a git remote. -/
  gitFetch : List HttpRequest → (url ref : String) → Option BasicAuth → Except String GitStore
  /-- `Bun.semver.satisfies(version, range)`. -/
  semverSatisfies : String → String → Bool
  /-- `Bun.semver.order(a, b) > 0`. -/
  semverGreater : String → String → Bool

/-- A platform given by what it answers on a few inputs: documents by their text, digests by their
    bytes, responses by their url. Its archives are not compressed. -/
def Platform.ofTables (documents : List (String × Value)) (digests : List (Bytes × Hex256))
    (responses : List (String × HttpResponse)) (env : List (String × String)) : Platform where
  parseToml text := ((documents.lookup text).map Except.ok).getD (.error "not a document")
  parseJson text := ((documents.lookup text).map Except.ok).getD (.error "not a document")
  parseYaml text := ((documents.lookup text).map Except.ok).getD (.error "not a document")
  printYaml _ _ := ""
  casing :=
    { lower := fun _ c _ => [c]
      no_slash := fun _ c _ hc h => hc (by rw [← List.mem_singleton.mp h]; decide) }
  schemaIssue _ := "not of the schema"
  toNumber := id
  sha256Hex bytes := ((digests.find? fun d => d.1 = bytes).map Prod.snd).getD
    (.repeated '0' (by decide))
  replaceInvalid _ := "\uFFFD"
  importKey := .ok
  verifyEcdsa _ _ _ := .ok true
  inflate bytes := (bytes, none)
  deflate := id
  crc32 _ := 0
  env name := env.lookup name
  cwd := []
  cwd_normal _ hc := absurd hc List.not_mem_nil
  cliName := "akuapkg"
  canonicalHost _ authority := authority
  http _ request := ((responses.lookup request.url).map Except.ok).getD (.error "unreachable")
  gitFetch _ _ _ _ := .error "unreachable"
  semverSatisfies version range := version = range
  semverGreater a b := Text.less b a

variable (P : Platform)

/-- `sha256:<hex>` of `bytes`. -/
def sha256 (bytes : Bytes) : String := "sha256:" ++ (P.sha256Hex bytes).digits

/-- A decoder drops a leading byte order mark. -/
def dropMark (bytes : Bytes) : Bytes :=
  if [0xEF, 0xBB, 0xBF].isPrefixOf bytes then bytes.drop 3 else bytes

/-- `new TextDecoder().decode(bytes)`. -/
def decodeText (bytes : Bytes) : String :=
  (decodeUtf8 (dropMark bytes)).getD (P.replaceInvalid (dropMark bytes))

/-- `new TextDecoder("utf-8", { fatal: true }).decode(bytes)`. -/
def decodeStrict (bytes : Bytes) : Option String := decodeUtf8 (dropMark bytes)

/-- Text that does not start with a byte order mark reads back. -/
theorem decodeText_encodeText {text : String} (h : (encodeText text).head? ≠ some 0xEF) :
    decodeText P (encodeText text) = text := by
  have hmark : dropMark (encodeText text) = encodeText text := by
    unfold dropMark
    split
    · rename_i hp
      rcases hb : encodeText text with _ | ⟨b, rest⟩ <;> rw [hb] at hp h
      · simp at hp
      · simp only [List.isPrefixOf_cons_cons, Bool.and_eq_true, beq_iff_eq] at hp
        exact absurd (by rw [hp.1]; rfl) h
    · rfl
  simp [decodeText, hmark]

/-! ### The world -/

/-- `fs.readFileString(path)`. -/
def readFileString {φ : Type} [FileSystem φ] (path : FilePath) : Reading φ PlatformError String :=
  decodeText P <$> FileSystem.readFile path

/-- What a run did. -/
inductive Event where
  /-- Resolution loaded this directory of the workspace. -/
  | workspaceTree (directory : FilePath)
  /-- A cache directory was looked up or written. -/
  | cacheSlot (root slot : FilePath)
  /-- A fetcher was called, with this pin and this recorded signature. -/
  | fetch (pin lockedSignature : Option String)
  /-- This key verified the signature of the manifest with this digest. -/
  | signatureVerified (publicKeyPem manifestDigest : String)
  | writeFile (path : FilePath) (data : Bytes)
  | makeDirectory (path : FilePath)
  | remove (path : FilePath)
  | copyFile (source target : FilePath)
deriving DecidableEq

/-- The event is a change of the file system. -/
def Event.IsWrite : Event → Prop
  | .writeFile .. | .makeDirectory _ | .remove _ | .copyFile .. => True
  | _ => False

structure World (φ : Type) where
  fs : φ
  /-- The requests sent so far. -/
  requests : List HttpRequest := []
  trace : List Event := []

/-- A run of the program that can fail with an `ε`. -/
abbrev Run (φ ε α : Type) : Type := Effect (World φ) ε α

namespace Run

variable {φ ε α : Type}

/-- Look at the file system. -/
def read (m : Reading φ ε α) : Run φ ε α := fun w => (m w.fs, w)

/-- Change the file system. -/
def onDisk (m : Effect φ ε α) : Run φ ε α := fun w => ((m w.fs).1, { w with fs := (m w.fs).2 })

def log (event : Event) : Run φ ε Unit := Effect.modify fun w => { w with trace := event :: w.trace }

/-- Send a request. -/
def send (request : HttpRequest) : Run φ String HttpResponse := fun w =>
  (P.http w.requests request, { w with requests := w.requests ++ [request] })

/-- Fetch a ref of a git remote. -/
def fetchGit (url ref : String) (auth : Option BasicAuth) : Run φ String GitStore := fun w =>
  (P.gitFetch w.requests url ref auth, { w with requests := w.requests ++ [{ url }] })

theorem read_bind_of_ok {β : Type} {m : Reading φ ε α} {f : α → Run φ ε β} {a : α} {w : World φ}
    (h : m w.fs = .ok a) : (read m >>= f) w = f a w :=
  Effect.bind_of_ok (by simp [read, h])

theorem read_bind_of_error {β : Type} {m : Reading φ ε α} {f : α → Run φ ε β} {e : ε} {w : World φ}
    (h : m w.fs = .error e) : (read m >>= f) w = (.error e, w) :=
  Effect.bind_of_error (by simp [read, h])

/-- A run that starts with a look goes on where it stands. -/
theorem read_bind_ok {β : Type} {m : Reading φ ε α} {f : α → Run φ ε β} {b : β} {w w' : World φ} :
    (read m >>= f) w = (.ok b, w') ↔ ∃ a, m w.fs = .ok a ∧ f a w = (.ok b, w') := by
  rw [Effect.bind_ok]
  constructor
  · rintro ⟨a, w₁, h, hf⟩
    obtain ⟨hm, rfl⟩ : m w.fs = .ok a ∧ w = w₁ := by simpa [read] using h
    exact ⟨a, hm, hf⟩
  · rintro ⟨a, h, hf⟩
    exact ⟨a, w, by simp [read, h], hf⟩

/-! ### What a run logs -/

/-- Every event `m` adds to the trace has `p`, however the run ends. -/
def Logs (p : Event → Prop) (m : Run φ ε α) : Prop :=
  ∀ w, ∃ new, (m w).2.trace = new ++ w.trace ∧ ∀ e ∈ new, p e

section Logs

variable {β ε' : Type} {p q : Event → Prop} {m : Run φ ε α}

theorem Logs.mono (h : Logs p m) (hpq : ∀ e, p e → q e) : Logs q m := fun w =>
  let ⟨new, hn, hp⟩ := h w
  ⟨new, hn, fun e he => hpq e (hp e he)⟩

/-- What the trace held, it still holds. -/
theorem Logs.mem (h : Logs p m) {w : World φ} {e : Event} (he : e ∈ w.trace) :
    e ∈ (m w).2.trace := by
  obtain ⟨new, hn, -⟩ := h w
  rw [hn]; exact List.mem_append_right _ he

/-- What the trace holds, it held or the run logged. -/
theorem Logs.mem_or (h : Logs p m) {w : World φ} {e : Event} (he : e ∈ (m w).2.trace) :
    p e ∨ e ∈ w.trace := by
  obtain ⟨new, hn, hp⟩ := h w
  rw [hn, List.mem_append] at he
  exact he.imp_left (hp e)

/-- A run keeps the event it starts with. -/
theorem mem_log_bind {f : Unit → Run φ ε β} {event : Event} (hf : Logs p (f ())) (w : World φ) :
    event ∈ ((log event >>= f) w).2.trace := by
  rw [Effect.bind_of_ok (show log event w = (.ok (), { w with trace := event :: w.trace }) from rfl)]
  exact hf.mem List.mem_cons_self

/-- What the first half of a run logged, the run logged. -/
theorem mem_bind {f : α → Run φ ε β} {w : World φ} {event : Event}
    (hm : event ∈ (m w).2.trace) (hf : ∀ a, Logs p (f a)) : event ∈ ((m >>= f) w).2.trace := by
  rcases hms : m w with ⟨e | a, w₁⟩ <;> rw [hms] at hm
  · rwa [Effect.bind_of_error hms]
  · rw [Effect.bind_of_ok hms]
    exact (hf a).mem hm

/-- In a run from an empty trace, every event is one the run logged. -/
theorem Logs.all (h : Logs p m) {w : World φ} (hw : w.trace = []) : ∀ e ∈ (m w).2.trace, p e := by
  obtain ⟨new, hn, hp⟩ := h w
  rw [hn, hw, List.append_nil]; exact hp

theorem logs_of_trace (h : ∀ w, (m w).2.trace = w.trace) : Logs p m := fun w =>
  ⟨[], by simp [h w], fun _ he => absurd he List.not_mem_nil⟩

theorem logs_pure (a : α) : Logs p (pure a : Run φ ε α) := logs_of_trace fun _ => rfl
theorem logs_fail (e : ε) : Logs p (Effect.fail e : Run φ ε α) := logs_of_trace fun _ => rfl
theorem logs_ofExcept (x : Except ε α) : Logs p (Effect.ofExcept x : Run φ ε α) :=
  logs_of_trace fun _ => rfl
theorem logs_read (r : Reading φ ε α) : Logs p (read r) := logs_of_trace fun _ => rfl
theorem logs_onDisk (r : Effect φ ε α) : Logs p (onDisk r) := logs_of_trace fun _ => rfl
theorem logs_send (request : HttpRequest) : Logs p (send P request : Run φ String HttpResponse) :=
  logs_of_trace fun _ => rfl

theorem logs_log {event : Event} (h : p event) : Logs p (log event : Run φ ε Unit) := fun _ =>
  ⟨[event], rfl, by simpa using h⟩

theorem logs_fetchGit (url ref : String) (auth : Option BasicAuth) :
    Logs p (fetchGit P url ref auth : Run φ String GitStore) := logs_of_trace fun _ => rfl

theorem logs_bind {f : α → Run φ ε β} (hm : Logs p m)
    (hf : ∀ a w w', m w = (.ok a, w') → Logs p (f a)) : Logs p (m >>= f) := by
  intro w
  obtain ⟨new, hn, hp⟩ := hm w
  rcases hms : m w with ⟨e | a, w₁⟩
  · rw [Effect.bind_of_error hms]
    exact ⟨new, by simpa [hms] using hn, hp⟩
  · rw [Effect.bind_of_ok hms]
    obtain ⟨new', hn', hp'⟩ := hf a w w₁ hms w₁
    refine ⟨new' ++ new, ?_, fun e he => (List.mem_append.mp he).elim (hp' e) (hp e)⟩
    rw [hn', List.append_assoc]
    rw [hms] at hn
    exact congrArg _ hn

theorem logs_mapError {f : ε → ε'} (hm : Logs p m) : Logs p (Effect.mapError f m) := hm

theorem logs_result (hm : Logs p m) : Logs p (m.result : Run φ ε' (Except ε α)) := hm

theorem logs_forEach {f : α → Run φ ε β} : ∀ {l : List α}, (∀ x ∈ l, Logs p (f x)) →
    Logs p (forEach f l)
  | [], _ => logs_pure _
  | _ :: _, h =>
    logs_bind (h _ List.mem_cons_self) fun _ _ _ _ =>
      logs_bind (logs_forEach fun y hy => h y (List.mem_cons_of_mem _ hy)) fun _ _ _ _ =>
        logs_pure _

theorem logs_ite {c : Prop} [Decidable c] {m' : Run φ ε α} (ht : c → Logs p m)
    (he : ¬c → Logs p m') : Logs p (if c then m else m') := by
  by_cases h : c
  · rw [if_pos h]; exact ht h
  · rw [if_neg h]; exact he h

end Logs

variable [FileSystem φ]

def makeDirectory (path : FilePath) : Run φ PlatformError Unit := do
  log (.makeDirectory path)
  onDisk (FileSystem.makeDirectory path)

def writeFile (path : FilePath) (data : Bytes) : Run φ PlatformError Unit := do
  log (.writeFile path data)
  onDisk (FileSystem.writeFile path data)

def writeFileString (path : FilePath) (text : String) : Run φ PlatformError Unit :=
  writeFile path (encodeText text)

def copyFile (source target : FilePath) : Run φ PlatformError Unit := do
  log (.copyFile source target)
  onDisk (FileSystem.copyFile source target)

def remove (path : FilePath) : Run φ PlatformError Unit := do
  log (.remove path)
  onDisk (FileSystem.remove path)

section Writes

variable {p : Event → Prop} (hp : ∀ e, e.IsWrite → p e)

include hp

theorem logs_makeDirectory (path : FilePath) : Logs p (makeDirectory path : Run φ PlatformError Unit) :=
  logs_bind (logs_log (hp _ trivial)) fun _ _ _ _ => logs_onDisk _

theorem logs_writeFile (path : FilePath) (data : Bytes) :
    Logs p (writeFile path data : Run φ PlatformError Unit) :=
  logs_bind (logs_log (hp _ trivial)) fun _ _ _ _ => logs_onDisk _

theorem logs_remove (path : FilePath) : Logs p (remove path : Run φ PlatformError Unit) :=
  logs_bind (logs_log (hp _ trivial)) fun _ _ _ _ => logs_onDisk _

end Writes

end Run

end Akua
