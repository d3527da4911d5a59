import Akua.Host
import Akua.Lib.Interleave

/-! The command line's config file, which any number of processes read and update. An update reads
    the whole document, edits it and renames a new document over the file; no lock is held in
    between. -/

namespace Akua.SecureConfig

/-! ### Calls -/

/-- What an operation of the service was doing. -/
inductive Access where
  | read
  | write
  | remove
deriving DecidableEq

/-- What an operation fails with: the cause comes wrapped with the operation and the file. -/
inductive Failure where
  | platform (error : PlatformError)
  | parse (message : String)
  | secureConfig (operation : Access) (path : FilePath) (cause : Failure)
deriving DecidableEq

/-- What the service asks of the operating system. -/
inductive Call where
  | readFileString (path : FilePath)
  | randomUUID
  | makeDirectory (path : FilePath) (mode : Nat)
  | chmod (path : FilePath) (mode : Nat)
  /-- The file is created, and must not be there. -/
  | openExclusive (path : FilePath) (mode : Nat)
  | writeText (path : FilePath) (text : String)
  | rename (source target : FilePath)
  /-- A missing file is removed already. -/
  | remove (path : FilePath)

def Call.Reply : Call → Type
  | .readFileString _ => String
  | .randomUUID => String
  | .makeDirectory _ _ => Unit
  | .chmod _ _ => Unit
  | .openExclusive _ _ => Unit
  | .writeText _ _ => Unit
  | .rename _ _ => Unit
  | .remove _ => Unit

/-- The text files, and the UUIDs that were handed out. -/
structure Files where
  text : FilePath → Option String
  issued : List String

/-- Write, replace or (with no text) remove one file. -/
def Files.put (s : Files) (path : FilePath) (text : Option String) : Files :=
  { s with text := Function.update s.text path text }

/-- The operating system. Every call may fail; a file is written bit by bit. A UUID is never handed
    out twice. -/
def kernel : Kernel Files Call Call.Reply Failure where
  progress
    | .writeText path _, s, s' => s.text path ≠ none ∧ ∃ written, s' = s.put path (some written)
    | _, _, _ => False
  answers
    | .readFileString path, s, .ok text, s' => s.text path = some text ∧ s' = s
    | .readFileString path, s, .error e, s' =>
      (∃ error, e = .platform error ∧ (error.reason = .notFound → s.text path = none)) ∧ s' = s
    | .randomUUID, s, .ok uuid, s' => uuid ∉ s.issued ∧ s' = { s with issued := uuid :: s.issued }
    | .openExclusive path _, s, .ok _, s' => s.text path = none ∧ s' = s.put path (some "")
    | .writeText path text, s, .ok _, s' => s.text path ≠ none ∧ s' = s.put path (some text)
    | .rename source target, s, .ok _, s' =>
      ∃ text, s.text source = some text ∧ s' = (s.put source none).put target (some text)
    | .remove path, s, .ok _, s' => s' = s.put path none
    | _, s, _, s' => s' = s

/-! ### The service -/

/-- A program of the service, whose calls interleave with those of other processes. -/
abbrev Command (α : Type) := Fiber Call Call.Reply Failure α

def readFileString (path : FilePath) : Command String := Fiber.perform (Call.readFileString path)
def randomUUID : Command String := Fiber.perform Call.randomUUID
def makeDirectory (path : FilePath) (mode : Nat) : Command Unit :=
  Fiber.perform (Call.makeDirectory path mode)
def chmod (path : FilePath) (mode : Nat) : Command Unit := Fiber.perform (Call.chmod path mode)
def rename (source target : FilePath) : Command Unit := Fiber.perform (Call.rename source target)
def remove (path : FilePath) : Command Unit := Fiber.perform (Call.remove path)

/-- Write a file that must not be there. -/
def writeFileString (path : FilePath) (text : String) (mode : Nat) : Command Unit := do
  Fiber.perform (Call.openExclusive path mode)
  Fiber.perform (Call.writeText path text)

/-- The document and its directory are for the user only. -/
def CONFIG_FILE_MODE : Nat := 0o600
def CONFIG_DIR_MODE : Nat := 0o700

/-- Run `finalizer` whatever comes of `m`, and ignore what comes of it. -/
def ensuring {α : Type} (m : Command α) (finalizer : Command Unit) : Command α :=
  m.andThen fun outcome => finalizer.andThen fun _ => .done outcome

/-- A JSON object. -/
abbrev Config := List (String × Value)

/-- The workspace that was saved. -/
structure StoredWorkspace where
  id : String
  name : Option String
deriving DecidableEq

/-- The saved workspace in the document; a missing name is left out. -/
def StoredWorkspace.toValue (workspace : StoredWorkspace) : Value :=
  .object (("id", .string workspace.id) :: (workspace.name.map fun name => ("name", .string name)).toList)

/-- `Schema.decodeUnknownOption(StoredWorkspace)`. -/
def StoredWorkspace.decode (raw : Value) : Option StoredWorkspace := do
  let id ← Value.required Value.asString "id" raw
  let name ← Value.optionalKey Value.asString "name" raw
  some { id, name }

/-- `{ ...config, [key]: value }`. -/
def withKey (config : Config) (key : String) (value : Value) : Config := Table.insert key value config

/-- `const { [key]: _, ...remaining } = config`. -/
def withoutKey (config : Config) (key : String) : Config := config.filter fun e => e.1 ≠ key

/-- `Object.hasOwn(config, key)`. -/
def hasOwn (config : Config) (key : String) : Bool := (config.lookup key).isSome

mutual

/-- `JSON.stringify(value, null, 2)`, on a line that is indented by `indent`. -/
def pretty (indent : String) : Value → String
  | .array [] => "[]"
  | .array values => "[\n" ++ ",\n".intercalate (prettyAll (indent ++ "  ") values) ++ "\n" ++ indent ++ "]"
  | .object [] => "\x7b\x7d"
  | .object entries => "\x7b\n" ++ ",\n".intercalate (prettyEntries (indent ++ "  ") entries) ++ "\n" ++
      indent ++ "\x7d"
  | value => value.stringify

/-- The elements of an array, each on a line of its own. -/
def prettyAll (indent : String) : List Value → List String
  | [] => []
  | value :: values => (indent ++ pretty indent value) :: prettyAll indent values

/-- The entries of an object, each on a line of its own. -/
def prettyEntries (indent : String) : List (String × Value) → List String
  | [] => []
  | (key, value) :: entries =>
    (indent ++ Value.quoteJson key ++ ": " ++ pretty indent value) :: prettyEntries indent entries

end

/-- The document of a config. -/
def document (config : Config) : String := pretty "" (.object config) ++ "\n"

section Service

variable (P : Platform)

/-- The object in a document; anything else than an object is refused. -/
def parseConfig (raw : String) : Except Failure Config :=
  match P.parseJson raw with
  | .error message => .error (.parse message)
  | .ok (.object entries) => .ok entries
  | .ok _ => .error (.parse "Akua config must be a JSON object.")

/-- A file that is not there; every other failure is passed on. -/
def isNotFound : Failure → Bool
  | .platform error => error.reason = .notFound
  | _ => false

/-- The config file as a JSON object; a missing file is an empty one. -/
def readConfig (configPath : FilePath) : Command Config := do
  let answer ← (readFileString configPath).result
  let raw ← match answer with
    | .ok raw => pure raw
    | .error cause => if isNotFound cause then pure "\x7b\x7d" else Fiber.fail cause
  Fiber.done (parseConfig P raw)

/-- A hidden file beside the config, so that the rename stays within one directory. -/
def temporaryPath (configPath : FilePath) (uuid : String) : FilePath :=
  FilePath.dirname configPath ++ [".config.json." ++ uuid ++ ".tmp"]

/-- Atomic replace: a user-only temporary file renamed over the config. -/
def writeConfig (configPath : FilePath) (config : Config) : Command Unit := do
  let directory := FilePath.dirname configPath
  let uuid ← randomUUID
  let temporary := temporaryPath configPath uuid
  ensuring (do
    makeDirectory directory CONFIG_DIR_MODE
    chmod directory CONFIG_DIR_MODE
    writeFileString temporary (document config) CONFIG_FILE_MODE
    chmod temporary CONFIG_FILE_MODE
    rename temporary configPath
    chmod configPath CONFIG_FILE_MODE) (remove temporary)

/-- What the caller is told: which operation failed, on which file, and why. -/
def failure (operation : Access) (configPath : FilePath) (cause : Failure) : Failure :=
  .secureConfig operation configPath cause

/-- The stored token, if there is one that is not empty. -/
def readToken (configPath : FilePath) : Command (Option String) :=
  Fiber.mapError (failure .read configPath) do
    let config ← readConfig P configPath
    match config.lookup "token" with
    | some (.string token) => pure (if token ≠ "" then some token else none)
    | _ => pure none

/-- Store a token, and keep every other key. -/
def saveToken (configPath : FilePath) (token : String) : Command Unit :=
  Fiber.mapError (failure .write configPath) do
    let config ← readConfig P configPath
    writeConfig configPath (withKey config "token" (.string token))

/-- Drop the token; the answer says whether one was stored. -/
def removeToken (configPath : FilePath) : Command Bool :=
  Fiber.mapError (failure .remove configPath) do
    let read ← (readConfig P configPath).result
    match read with
    -- An unreadable file is removed; one without a token is left alone.
    | .error cause =>
      if isNotFound cause then pure false
      else do
        remove configPath
        pure true
    | .ok config =>
      if !hasOwn config "token" then pure false
      else do
        writeConfig configPath (withoutKey config "token")
        match config.lookup "token" with
        | some (.string token) => pure (token ≠ "")
        | _ => pure false

/-- The stored workspace; one that does not decode counts as none. -/
def readWorkspace (configPath : FilePath) : Command (Option StoredWorkspace) :=
  Fiber.mapError (failure .read configPath) do
    let config ← readConfig P configPath
    pure ((config.lookup "workspace").bind StoredWorkspace.decode)

/-- Store a workspace, and keep every other key. -/
def saveWorkspace (configPath : FilePath) (workspace : StoredWorkspace) : Command Unit :=
  Fiber.mapError (failure .write configPath) do
    let config ← readConfig P configPath
    writeConfig configPath (withKey config "workspace" workspace.toValue)

/-- Drop the workspace; the answer says whether there was one. -/
def removeWorkspace (configPath : FilePath) : Command Bool :=
  Fiber.mapError (failure .remove configPath) do
    let config ← readConfig P configPath
    if !hasOwn config "workspace" then pure false
    else do
      writeConfig configPath (withoutKey config "workspace")
      pure true

/-- The operations, as the processes run them. -/
inductive Operation where
  | readToken
  | saveToken (token : String)
  | removeToken
  | readWorkspace
  | saveWorkspace (workspace : StoredWorkspace)
  | removeWorkspace

/-- What the operations answer. -/
inductive Outcome where
  | token (token : Option String)
  | workspace (workspace : Option StoredWorkspace)
  | removed (removed : Bool)
  | saved
deriving DecidableEq

/-- An operation of the service on the file at `configPath`. -/
def Operation.run (configPath : FilePath) : Operation → Command Outcome
  | .readToken => do
    let token ← SecureConfig.readToken P configPath
    pure (.token token)
  | .saveToken token => do
    SecureConfig.saveToken P configPath token
    pure .saved
  | .removeToken => do
    let removed ← SecureConfig.removeToken P configPath
    pure (.removed removed)
  | .readWorkspace => do
    let workspace ← SecureConfig.readWorkspace P configPath
    pure (.workspace workspace)
  | .saveWorkspace workspace => do
    SecureConfig.saveWorkspace P configPath workspace
    pure .saved
  | .removeWorkspace => do
    let removed ← SecureConfig.removeWorkspace P configPath
    pure (.removed removed)

end Service

end Akua.SecureConfig
