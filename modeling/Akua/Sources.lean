import Akua.Oci
import Akua.Snapshot

/-! The other fetchers: git commits, single files by URL, and charts of Helm repositories, each
    with its own cache and pin. -/

namespace Akua

variable (P : Platform)

/-- Look for what the lock pins, if it pins anything. -/
def onPin {φ ε α : Type} (pin : Option String) (lookup : String → Run φ ε (Option α)) :
    Run φ ε (Option α) :=
  match pin with
  | none => pure none
  | some pin => lookup pin

theorem logs_onPin {φ ε α : Type} {p : Event → Prop} {pin : Option String}
    {lookup : String → Run φ ε (Option α)} (h : ∀ digest ∈ pin, Run.Logs p (lookup digest)) :
    Run.Logs p (onPin pin lookup) := by
  unfold onPin
  split
  · exact Run.logs_pure _
  · exact h _ rfl

section Git

structure GitFetchFailed where
  message : String
  /-- Refused because the network is forbidden, not because a fetch failed. -/
  offline : Bool := false
deriving DecidableEq

/-- A tag, or a commit. -/
inductive GitRef where
  | tag (tag : String)
  | rev (rev : String)
deriving DecidableEq

/-- What the remote is asked for. -/
def GitRef.wanted : GitRef → String
  | .tag name => "refs/tags/" ++ name
  | .rev commit => commit

/-- A commit to fetch: a remote, a tag or a commit of it, and what the lock says it is. -/
structure GitRequest where
  url : String
  ref : GitRef
  /-- The `akua.lock` commit (without the `git:` prefix) the fetch must land on. -/
  pin : Option String
  offline : Bool
  auth : Option BasicAuth := none
deriving DecidableEq

/-- A checkout of the cache and the commit in it. -/
structure FetchedCommit where
  directory : FilePath
  commit : String
deriving DecidableEq

/-- A full 40-character commit id. -/
def isFullSha (rev : String) : Bool :=
  rev.toList.length = 40 && rev.toList.all fun c => c ∈ "0123456789abcdef".toList

/-- A tree entry name that is safe to write. -/
def safeName (name : String) : Bool :=
  name ≠ "" && name ≠ "." && name ≠ ".." && name ≠ ".git" &&
    name.toList.all fun c => c ≠ '/' && c ≠ '\\' && c ≠ '\x00'

/-- The cache of checkouts. -/
def gitCheckouts : FilePath := FilePath.join (cacheRoot P .git) "checkouts"

/-- The checkout of one commit. -/
def checkout (commit : String) : FilePath := FilePath.join (gitCheckouts P) commit

def gitFailed (message : String) : GitFetchFailed := { message }

/-- Read an object, naming what was attempted in the failure. -/
def readObject (store : GitStore) (what oid : String) : Except GitFetchFailed GitObject :=
  (store.readObject oid).mapError fun cause => gitFailed (what ++ ": " ++ cause)

/-- Every blob under a tree, relative to the checkout; symlinks and submodules are skipped. -/
def gitFiles (store : GitStore) : Nat → String → String → Except GitFetchFailed (List ArchiveEntry)
  | 0, _, _ => .error (gitFailed "reading tree: File name too long")
  | depth + 1, oid, directory => do
    let object ← readObject store "reading tree" oid
    match object with
    | .tree entries => do
      let found ← forEach (fun (name, mode, type, oid) =>
        let relative := if directory = "" then name else directory ++ "/" ++ name
        if !safeName name then
          .error (gitFailed ("tree entry `" ++ name ++ "` is not a safe file name"))
        else if type = "tree" then gitFiles store depth oid relative
        else if type = "blob" ∧ mode ≠ "120000" then do
          let object ← readObject store "reading blob" oid
          match object with
          | .blob data => .ok [{ path := relative, data }]
          | _ => .error (gitFailed "reading blob: not a blob")
        else .ok []) entries
      .ok found.flatten
    | _ => .error (gitFailed "reading tree: not a tree")

/-- An annotated tag points at a tag object: peel it to the commit, in at most eight hops. -/
def peelCommit (store : GitStore) (wanted : String) : Nat → String → Except GitFetchFailed String
  | 0, commit => .ok commit
  | hops + 1, commit => do
    let object ← readObject store "reading object" commit
    match object with
    | .commit _ => .ok commit
    | .tag object => peelCommit store wanted hops object
    | _ => .error (gitFailed ("`" ++ wanted ++ "` does not point at a commit"))

variable {φ : Type} [FileSystem φ]

/-- The checkout of a commit: the pinned one of the cache, or what the remote sends, which must be the
    pinned commit. -/
def gitFetch (request : GitRequest) : Run φ GitFetchFailed FetchedCommit := do
  let hit ← onPin request.pin fun pin => do
    let present ← slotPresent (gitCheckouts P) (checkout P pin)
    pure (if present then some pin else none)
  match hit with
  | some pin => pure { directory := checkout P pin, commit := pin }
  | none =>
    let wanted := request.ref.wanted
    if request.offline then
      Effect.fail
        { offline := true
          message := if request.pin.isSome then
              "offline mode and the git cache doesn't have this commit - run `" ++ P.cliName ++
                " add` online first"
            else "offline mode needs a lockfile-pinned commit - run `" ++ P.cliName ++
              " add` first" }
    else if request.ref = .rev wanted ∧ ¬ isFullSha wanted then
      Effect.fail (gitFailed ("rev `" ++ wanted ++ "` must be a full 40-character commit SHA"))
    else if ¬ Text.startsWith request.url "http://" ∧ ¬ Text.startsWith request.url "https://" then
      Effect.fail (gitFailed ("`" ++ request.url ++ "`: only http(s) git remotes are supported"))
    else do
      let store ← (Run.fetchGit P request.url wanted request.auth).mapError fun cause =>
        gitFailed ("fetching `" ++ request.url ++ "` at `" ++ wanted ++ "`: " ++ cause)
      let commit ← Effect.ofExcept (peelCommit store wanted 8 (store.fetchHead.getD ""))
      if request.pin.any (· ≠ commit) then
        Effect.fail (gitFailed ("`" ++ request.url ++ "` at `" ++ wanted ++ "` is commit " ++
          commit ++ ", but akua.lock pins " ++ request.pin.getD ""))
      else do
        let object ← Effect.ofExcept (readObject store "reading commit" commit)
        match object with
        | .commit tree => do
          let entries ← Effect.ofExcept (gitFiles store PATH_MAX tree "")
          Run.log (.cacheSlot (gitCheckouts P) (checkout P commit))
          (unpackInto (checkout P commit) entries).mapError fun error =>
            gitFailed ("io error at " ++ FilePath.toString (cacheRoot P .git) ++ ": " ++ error.message)
          pure { directory := checkout P commit, commit }
        | _ => Effect.fail (gitFailed "reading commit: not a commit")

open Run in
theorem logs_gitFetch (request : GitRequest) :
    Logs (FetcherEvent (gitCheckouts P) (PinSlot (checkout P) request.pin))
      (gitFetch P request : Run φ GitFetchFailed FetchedCommit) := by
  unfold gitFetch
  refine logs_bind (logs_onPin fun pin hpin => logs_bind (logs_slotPresent ⟨rfl, pinSlot_pin hpin⟩)
    fun _ _ _ _ => logs_pure _) fun hit _ _ _ => ?_
  split
  · exact logs_pure _
  refine logs_ite (fun _ => logs_fail _) fun _ => logs_ite (fun _ => logs_fail _) fun _ =>
    logs_ite (fun _ => logs_fail _) fun _ =>
    logs_bind (logs_mapError (logs_fetchGit P _ _ _)) fun store _ _ _ =>
    logs_bind (logs_ofExcept _) fun commit _ _ _ => logs_ite (fun _ => logs_fail _) fun hpin =>
    logs_bind (logs_ofExcept _) fun object _ _ _ => ?_
  split
  · exact logs_bind (logs_ofExcept _) fun entries _ _ _ =>
      logs_bind (logs_log ⟨rfl, pinSlot_fetched hpin⟩) fun _ _ _ _ =>
      logs_bind (logs_mapError (logs_unpackInto (fun _ => FetcherEvent.of_write) _ _))
        fun _ _ _ _ => logs_pure _
  · exact logs_fail _

end Git

section Url

structure UrlFetchFailed where
  message : String
  /-- Refused because the network is forbidden, not because a fetch failed. -/
  offline : Bool := false
  /-- The server sent other bytes than `akua.lock` pins. -/
  drift : Bool := false
deriving DecidableEq

/-- A file to fetch, and the digest the lock says it has. -/
structure UrlRequest where
  url : String
  /-- The `akua.lock` digest the file must have. -/
  pin : Option String
  offline : Bool
deriving DecidableEq

structure FetchedFile where
  /-- A directory holding only the file. -/
  directory : FilePath
  digest : String
deriving DecidableEq

def MAX_FILE_BYTES : Nat := 64 * 1024 * 1024

/-- The URL's last path segment as a safe file name. -/
def urlFileName (url : String) : String :=
  let path := String.ofList (url.toList.takeWhile fun c => c ≠ '?' && c ≠ '#')
  let last := (Text.split path '/').getLastD ""
  -- each UTF-16 code unit is replaced
  let name := String.ofList (last.toList.flatMap fun c =>
    if c.isAlphanum || c = '.' || c = '_' || c = '-' then [c]
    else List.replicate (Text.utf16 c).length '_')
  if name = "" ∨ name = "." ∨ name = ".." then "download.yaml" else name

/-- The directory of the cache that holds the file of a digest. -/
def urlSlot (digest : String) : FilePath := FilePath.join (cacheRoot P .url) (Text.stripPrefix digest "sha256:")

variable {φ : Type} [FileSystem φ]

/-- The file of a URL: the pinned one of the cache, or what the server sends, which must have the pinned
    digest. -/
def urlFetch (request : UrlRequest) : Run φ UrlFetchFailed FetchedFile := do
  let name := urlFileName request.url
  let failed (message : String) : UrlFetchFailed := { message }
  let hit ← onPin request.pin fun pin => do
    Run.log (.cacheSlot (cacheRoot P .url) (urlSlot P pin))
    let present ← Run.read
      ((FileSystem.fileExists (FilePath.join (urlSlot P pin) name)).orElseSucceed false)
    pure (if present then some pin else none)
  match hit with
  | some pin => pure { directory := urlSlot P pin, digest := pin }
  | none =>
    if request.offline then
      Effect.fail
        { offline := true
          message := if request.pin.isSome then
              "offline mode and the url cache doesn't have this file - run `" ++ P.cliName ++
                " add` online first"
            else "offline mode needs a lockfile-pinned digest - run `" ++ P.cliName ++
              " add` first" }
    else if !Text.startsWith request.url "https://" then
      Effect.fail (failed ("`" ++ request.url ++ "`: only https:// URLs are supported"))
    else do
      let response ← (Run.send P { url := request.url }).mapError fun cause =>
        failed ("fetching " ++ request.url ++ ": " ++ cause)
      let bytes ← Effect.ofExcept ((readBounded P response request.url MAX_FILE_BYTES
        fun status _ => "fetching " ++ request.url ++ ": HTTP " ++ toString status).mapError failed)
      let digest := sha256 P bytes
      if request.pin.any (· ≠ digest) then
        Effect.fail
          { drift := true
            message := "`" ++ request.url ++ "` has digest " ++ digest ++
              ", but akua.lock pins " ++ request.pin.getD "" }
      else do
        Run.log (.cacheSlot (cacheRoot P .url) (urlSlot P digest))
        (unpackInto (urlSlot P digest) [{ path := name, data := bytes }]).mapError fun error =>
          failed ("io error at " ++ FilePath.toString (cacheRoot P .url) ++ ": " ++ error.message)
        pure { directory := urlSlot P digest, digest }

open Run in
theorem logs_urlFetch (request : UrlRequest) :
    Logs (FetcherEvent (cacheRoot P .url) (PinSlot (urlSlot P) request.pin))
      (urlFetch P request : Run φ UrlFetchFailed FetchedFile) := by
  unfold urlFetch
  refine logs_bind (logs_onPin fun pin hpin => logs_bind (logs_log ⟨rfl, pinSlot_pin hpin⟩)
    fun _ _ _ _ => logs_bind (logs_read _) fun _ _ _ _ => logs_pure _) fun hit _ _ _ => ?_
  split
  · exact logs_pure _
  exact logs_ite (fun _ => logs_fail _) fun _ => logs_ite (fun _ => logs_fail _) fun _ =>
    logs_bind (logs_mapError (logs_send P _)) fun response _ _ _ =>
    logs_bind (logs_ofExcept _) fun bytes _ _ _ => logs_ite (fun _ => logs_fail _) fun hpin =>
    logs_bind (logs_log ⟨rfl, pinSlot_fetched hpin⟩) fun _ _ _ _ =>
    logs_bind (logs_mapError (logs_unpackInto (fun _ => FetcherEvent.of_write) _ _))
      fun _ _ _ _ => logs_pure _

end Url

section Helm

structure HelmRepositoryFailed where
  message : String
  /-- Refused because the network is forbidden, not because a fetch failed. -/
  offline : Bool := false
deriving DecidableEq

/-- How much of an index and of a chart is read. -/
def MAX_INDEX_BYTES : Nat := 32 * 1024 * 1024
def MAX_TARBALL_BYTES : Nat := 1024 * 1024 * 1024

/-- One version of a chart in the index of a repository. -/
structure IndexEntry where
  version : String
  urls : Option (Option (List String)) := none
deriving DecidableEq

/-- `index.yaml`: the versions of each chart. -/
structure RepositoryIndex where
  entries : Option (Table String (Option (List IndexEntry))) := none

open Value in
def IndexEntry.decode (raw : Value) : Option IndexEntry := do
  let version ← required asString "version" raw
  let urls ← optionalKey (nullOr (asArray asString)) "urls" raw
  some { version, urls }

open Value in
def RepositoryIndex.decode (raw : Value) : Option RepositoryIndex := do
  let entries ← optionalKey (asRecord (nullOr (asArray IndexEntry.decode))) "entries" raw
  some { entries }

/-- A chart to fetch: a repository, a name and a range of versions, and what the lock says it is. -/
structure ChartRequest where
  repository : String
  chart : String
  /-- An exact version or a semver requirement. -/
  version : String
  /-- The `akua.lock` digest the tarball must have. -/
  pin : Option String
  offline : Bool
deriving DecidableEq

/-- An unpacked chart of the cache, with the digest of its tarball and the version that was found. -/
structure FetchedChart where
  directory : FilePath
  /-- The tarball's digest: what `akua.lock` pins. -/
  digest : String
  /-- The exact version selected. -/
  version : String
deriving DecidableEq

/-- What follows `<digits>.<digits>.<digits>`, if the text starts so. -/
def afterCore (text : List Char) : Option (List Char) :=
  let number (cs : List Char) : Option (List Char) :=
    if (cs.takeWhile Char.isDigit) = [] then none else some (cs.dropWhile Char.isDigit)
  let dot : List Char → Option (List Char)
    | '.' :: cs => some cs
    | _ => none
  do number (← dot (← number (← dot (← number text))))

/-- A plain version: `^\d+\.\d+\.\d+(?:[-+].*)?$`. -/
def isPlainVersion (text : String) : Bool :=
  match afterCore text.toList with
  | some [] => true
  | some (c :: cs) =>
    (c = '-' || c = '+') && cs.all fun d => d ∉ ['\n', '\r', '\u2028', '\u2029']
  | none => false

/-- Groups of `[0-9A-Za-z.-]+`, separated by `+`; `open_` when a group must still begin. -/
def suffixGroups : Bool → List Char → Bool
  | open_, [] => !open_
  | open_, c :: cs =>
    if c.isAlphanum || c = '.' || c = '-' then suffixGroups false cs
    else c = '+' && !open_ && suffixGroups true cs

/-- A semver entry: `^\d+\.\d+\.\d+(?:[-+][0-9A-Za-z.-]+)*$`. -/
def isSemver (text : String) : Bool :=
  match afterCore text.toList with
  | some [] => true
  | some (c :: cs) => (c = '-' || c = '+') && suffixGroups true cs
  | none => false

/-- The semver range a requirement means: a plain version is exactly that version, and comparators
    are separated by commas. -/
def versionRange (requirement : String) : String :=
  let trimmed := trim requirement
  let plain := Text.stripPrefix trimmed "v"
  if isPlainVersion plain then "=" ++ plain
  else String.ofList (trimmed.toList.map fun c => if c = ',' then ' ' else c)

/-- A published version satisfies a requirement; a leading `v` is ignored, and a version that is not
    semver satisfies none. -/
def satisfies (requirement version : String) : Bool :=
  let version := Text.stripPrefix version "v"
  isSemver version && P.semverSatisfies version (versionRange requirement)

/-- The version a range selects, and where its tarball is. -/
structure SelectedVersion where
  version : String
  url : Option String
deriving DecidableEq

/-- Keep the higher of the best version so far and an entry. -/
def betterVersion (requirement : String) (best : Option SelectedVersion) (entry : IndexEntry) :
    Option SelectedVersion :=
  let version := Text.stripPrefix entry.version "v"
  if satisfies P requirement entry.version &&
      best.all fun b => P.semverGreater version b.version then
    some { version, url := entry.urls.bind fun urls => urls.bind List.head? }
  else best

/-- The highest published version satisfying the requirement, and its download. -/
def selectVersion (index : RepositoryIndex) (chart requirement : String) :
    Except String (String × String) :=
  match index.entries.bind fun entries => (entries.get? chart).bind id with
  | none => .error ("chart `" ++ chart ++ "` not found in repo index")
  | some entries =>
    match entries.foldl (betterVersion P requirement) none with
    | none =>
      .error ("no version of `" ++ chart ++ "` satisfies `" ++ requirement ++ "`; available: " ++
        ", ".intercalate (Text.sorted (entries.map IndexEntry.version)))
    | some { version, url := none } =>
      .error ("chart `" ++ chart ++ "`@`" ++ version ++ "` has no download URL in the index")
    | some { version, url := some url } => .ok (version, url)

/-- An index entry's tarball URL, absolute; a scheme downgrade is refused. -/
def tarballUrl (repository url chart : String) : Except String String :=
  if Text.startsWith url "https://" then .ok url
  else if Text.startsWith url "http://" then
    if Text.startsWith repository "https://" then
      .error ("index for `" ++ chart ++ "` points its tarball at an http:// URL (`" ++ url ++
        "`) but the repo was fetched over https:// - refusing the scheme downgrade")
    else .ok url
  else .ok (Text.trimEnd repository '/' ++ "/" ++ Text.trimStart url '/')

/-- The directory of the cache that holds the chart of a digest. -/
def helmSlot (digest : String) : FilePath :=
  FilePath.join (cacheRoot P .helm) (Text.stripPrefix digest "sha256:")

variable {φ : Type} [FileSystem φ]

/-- The unpacked chart for `digest`: `<slot>/<chart>/`, or a chart packed at the archive root. -/
def cachedChart {ε : Type} (digest chart : String) : Run φ ε (Option FilePath) := do
  Run.log (.cacheSlot (cacheRoot P .helm) (helmSlot P digest))
  let nested ← Run.read ((FileSystem.fileExists
    (FilePath.join (FilePath.join (helmSlot P digest) chart) "Chart.yaml")).orElseSucceed false)
  if nested then pure (some (FilePath.join (helmSlot P digest) chart))
  else
    let atRoot ← Run.read ((FileSystem.fileExists
      (FilePath.join (helmSlot P digest) "Chart.yaml")).orElseSucceed false)
    pure (if atRoot then some (helmSlot P digest) else none)

/-- One request to a repository, with at most `limit` bytes of its answer. -/
def helmGet (url : String) (limit : Nat) : Run φ HelmRepositoryFailed Bytes := do
  let failed (message : String) : HelmRepositoryFailed := { message }
  let response ← (Run.send P { url }).mapError fun cause =>
    failed ("fetching " ++ url ++ ": " ++ cause)
  Effect.ofExcept ((readBounded P response url limit fun status _ =>
    "fetching " ++ url ++ ": HTTP " ++ toString status).mapError failed)

/-- The index in `index.yaml`. -/
def decodeIndex (text : String) : Except String RepositoryIndex := do
  let raw ← P.parseYaml text
  match RepositoryIndex.decode raw with
  | some index => .ok index
  | none => .error (P.schemaIssue raw)

/-- The chart of a repository: the pinned one of the cache, or the best version the index has in the
    range, whose tarball must have the pinned digest. -/
def helmFetch (request : ChartRequest) : Run φ HelmRepositoryFailed FetchedChart := do
  let failed (message : String) : HelmRepositoryFailed := { message }
  let hit ← onPin request.pin fun pin => do
    let directory ← cachedChart P pin request.chart
    pure (directory.map fun directory => (directory, pin))
  match hit with
  | some (directory, pin) => pure { directory, digest := pin, version := request.version }
  | none =>
    if request.offline then
      Effect.fail
        { offline := true
          message := if request.pin.isSome then
              "offline mode and the helm cache doesn't have this dep - run `" ++ P.cliName ++
                " add` online first"
            else "offline mode needs a lockfile-pinned digest - run `" ++ P.cliName ++
              " add` first" }
    else do
      let indexBytes ← helmGet P (Text.trimEnd request.repository '/' ++ "/index.yaml")
        MAX_INDEX_BYTES
      let index ← Effect.ofExcept ((decodeIndex P (decodeText P indexBytes)).mapError
        fun message => failed ("parsing index.yaml: " ++ message))
      let (version, url) ← Effect.ofExcept
        ((selectVersion P index request.chart request.version).mapError failed)
      let download ← Effect.ofExcept
        ((tarballUrl request.repository url request.chart).mapError failed)
      let tarball ← helmGet P download MAX_TARBALL_BYTES
      let digest := sha256 P tarball
      if request.pin.any (· ≠ digest) then
        Effect.fail (failed ("digest mismatch for `" ++ request.chart ++ "`: expected " ++
          request.pin.getD "" ++ ", got " ++ digest))
      else do
        let entries ← Effect.ofExcept ((gunzip P tarball >>= untar P).mapError fun message =>
          failed ("extracting `" ++ request.chart ++ "`: " ++ message))
        Run.log (.cacheSlot (cacheRoot P .helm) (helmSlot P digest))
        (unpackInto (helmSlot P digest) entries).mapError fun error =>
          failed ("io error at " ++ FilePath.toString (cacheRoot P .helm) ++ ": " ++ error.message)
        let directory ← cachedChart P digest request.chart
        match directory with
        | none =>
          Effect.fail (failed ("chart `" ++ request.chart ++ "` has no Chart.yaml in its tarball"))
        | some directory => pure { directory, digest, version }

section Logs

open Run

variable {named : FilePath → Prop}

theorem logs_cachedChart {ε : Type} {digest chart : String} (h : named (helmSlot P digest)) :
    Logs (FetcherEvent (cacheRoot P .helm) named)
      (cachedChart P digest chart : Run φ ε (Option FilePath)) :=
  logs_bind (logs_log ⟨rfl, h⟩) fun _ _ _ _ => logs_bind (logs_read _) fun _ _ _ _ =>
    logs_ite (fun _ => logs_pure _) fun _ => logs_bind (logs_read _) fun _ _ _ _ => logs_pure _

omit [FileSystem φ] in
theorem logs_helmGet {p : Event → Prop} (url : String) (limit : Nat) :
    Logs p (helmGet P url limit : Run φ HelmRepositoryFailed Bytes) :=
  logs_bind (logs_mapError (logs_send P _)) fun _ _ _ _ => logs_ofExcept _

theorem logs_helmFetch (request : ChartRequest) :
    Logs (FetcherEvent (cacheRoot P .helm) (PinSlot (helmSlot P) request.pin))
      (helmFetch P request : Run φ HelmRepositoryFailed FetchedChart) := by
  unfold helmFetch
  refine logs_bind (logs_onPin fun pin hpin => logs_bind (logs_cachedChart P (pinSlot_pin hpin))
    fun _ _ _ _ => logs_pure _) fun hit _ _ _ => ?_
  split
  · exact logs_pure _
  refine logs_ite (fun _ => logs_fail _) fun _ => logs_bind (logs_helmGet P _ _) fun _ _ _ _ =>
    logs_bind (logs_ofExcept _) fun index _ _ _ =>
    logs_bind (logs_ofExcept _) fun ⟨version, url⟩ _ _ _ => ?_
  dsimp only
  refine logs_bind (logs_ofExcept _) fun download _ _ _ =>
    logs_bind (logs_helmGet P _ _) fun tarball _ _ _ => logs_ite (fun _ => logs_fail _) fun hpin => ?_
  have hslot : PinSlot (helmSlot P) request.pin (helmSlot P (sha256 P tarball)) :=
    pinSlot_fetched hpin
  refine logs_bind (logs_ofExcept _) fun entries _ _ _ => logs_bind (logs_log ⟨rfl, hslot⟩)
    fun _ _ _ _ => logs_bind (logs_mapError (logs_unpackInto (fun _ => FetcherEvent.of_write) _ _))
    fun _ _ _ _ => logs_bind (logs_cachedChart P hslot) fun directory _ _ _ => ?_
  split
  · exact logs_fail _
  · exact logs_pure _

end Logs

end Helm

end Akua
