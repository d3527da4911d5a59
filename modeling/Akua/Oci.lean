import Akua.Downloads

/-! OCI-distributed dependencies: pulled into a content-addressed cache and verified against the
    layer digest, the `akua.lock` pin and, when a cosign key is configured, a keyed signature. -/

namespace Akua

variable (P : Platform)

structure OciPullFailed where
  /-- E_DEP_RESOLVE, E_COSIGN_VERIFY or E_COSIGN_SIG_MISSING. -/
  code : String := "E_DEP_RESOLVE"
  message : String
  /-- Refused because the network is forbidden, not because a pull failed. -/
  offline : Bool := false
  /-- The registry served other bytes than `akua.lock` pins. -/
  drift : Bool := false
deriving DecidableEq

def HELM_LAYER : String := "application/vnd.cncf.helm.chart.content.v1.tar+gzip"
def AKUA_LAYER : String := "application/vnd.akua.package.content.v1.tar+gzip"
def OCI_MANIFEST : String := "application/vnd.oci.image.manifest.v1+json"
def DSSE_LAYER : String := "application/vnd.dsse.envelope.v1+json"
def KCL_LAYER : String := "application/vnd.oci.image.layer.v1.tar"
def KCL_LAYER_GZIP : String := "application/vnd.oci.image.layer.v1.tar+gzip"
def KCL_ANNOTATIONS : List String :=
  ["org.kcllang.package.name", "org.kclpkg.package.name", "dev.akua.package.name"]
def MANIFEST_TYPES : List String :=
  [OCI_MANIFEST, "application/vnd.docker.distribution.manifest.v2+json"]
def COSIGN_LAYER : String := "application/vnd.dev.cosign.simplesigning.v1+json"
def COSIGN_SIGNATURE : String := "dev.cosignproject.cosign/signature"
def MAX_MANIFEST_BYTES : Nat := 32 * 1024 * 1024
def MAX_BLOB_BYTES : Nat := 1024 * 1024 * 1024

/-! ### Manifests -/

structure OciLayer where
  mediaType : String
  digest : String
  size : Option Number := none
  annotations : Option (Table String String) := none
deriving DecidableEq

structure OciManifest where
  layers : List OciLayer
  annotations : Option (Table String String) := none
deriving DecidableEq

open Value in
def OciLayer.decode (raw : Value) : Option OciLayer := do
  let mediaType ← required asString "mediaType" raw
  let digest ← required asString "digest" raw
  let size ← optionalKey asNumber "size" raw
  let annotations ← optionalKey (asRecord asString) "annotations" raw
  some { mediaType, digest, size, annotations }

open Value in
def OciManifest.decode (raw : Value) : Option OciManifest := do
  let layers ← required (asArray OciLayer.decode) "layers" raw
  let annotations ← optionalKey (asRecord asString) "annotations" raw
  some { layers, annotations }

def decodeOciManifest (bytes : Bytes) : Except String OciManifest := do
  let raw ← P.parseJson (decodeText P bytes)
  match OciManifest.decode raw with
  | some manifest => .ok manifest
  | none => .error (P.schemaIssue raw)

def OciManifest.layerOf (manifest : OciManifest) (mediaTypes : List String) : Option OciLayer :=
  manifest.layers.find? fun layer => layer.mediaType ∈ mediaTypes

/-- Helm wins ties, then Akua Packages, then annotated kpm KCL modules. -/
def packageLayer (manifest : OciManifest) : Option OciLayer :=
  manifest.layerOf [HELM_LAYER] <|> manifest.layerOf [AKUA_LAYER] <|>
    if KCL_ANNOTATIONS.any fun key => manifest.annotations.any fun a => a.has key then
      manifest.layerOf [KCL_LAYER, KCL_LAYER_GZIP]
    else none

/-- The artifact's only layer, when it is a tar or tar+gzip archive. -/
def archiveLayer (manifest : OciManifest) : Option OciLayer :=
  match manifest.layers with
  | [layer] =>
    let endings := [".tar", "+tar", "/tar"].flatMap fun tar => [tar, tar ++ "+gzip", tar ++ ".gz"]
    if endings.any (Text.endsWith layer.mediaType) then some layer else none
  | _ => none

/-- The layer a pull unpacks. -/
def wantedLayer (anyArchive : Bool) (manifest : OciManifest) : Option OciLayer :=
  packageLayer manifest <|> if anyArchive then archiveLayer manifest else none

/-! ### References -/

structure OciReference where
  registry : String
  repository : String
deriving DecidableEq

/-- `oci://<registry>/<repository>`. -/
def parseReference (reference : String) : Option OciReference :=
  if !Text.startsWith reference "oci://" then none
  else
    match Text.cut (Text.after reference "oci://") "/" with
    | some (registry, repository) =>
      if registry = "" ∨ repository = "" then none else some { registry, repository }
    | none => none

/-- Loopback registries speak plain HTTP; everything else HTTPS. -/
def scheme (registry : String) : String :=
  let host :=
    if Text.startsWith registry "[" then
      match Text.cut registry "]" with
      | some (bracketed, _) => Text.after bracketed "["
      | none => Text.before (Text.after registry "[") "]"
    else
      match Text.split registry ':' with
      | [host, _] => host
      | _ => registry
  if host ∈ ["localhost", "127.0.0.1", "::1"] then "http" else "https"

def OciReference.base (parsed : OciReference) : String :=
  scheme parsed.registry ++ "://" ++ parsed.registry ++ "/v2/" ++ parsed.repository

/-- The cosign sidecar tag of an artifact: `sha256:<hex>` as `sha256-<hex>.<suffix>`. -/
def sidecarTag (manifestDigest suffix : String) : String :=
  (if Text.startsWith manifestDigest "sha256:" then "sha256-" ++ Text.after manifestDigest "sha256:"
   else manifestDigest) ++ "." ++ suffix

/-! ### Requests -/

inductive Credentials where
  | basic (username password : String)
  | bearer (token : String)

/-- Configured credentials by registry, or why reading them failed. -/
abbrev CredentialStore := Except OciPullFailed (Table String Credentials)

/-- Standard base64 with padding. -/
def toBase64 : Bytes → List Char
  | [] => []
  | bytes =>
    let digit (n : Nat) : Char :=
      "ABCDEFGHIJKLMNOPQRSTUVWXYZabcdefghijklmnopqrstuvwxyz0123456789+/".toList.getD n '='
    match bytes with
    | a :: b :: c :: rest =>
      [digit (a.toNat / 4), digit (a.toNat % 4 * 16 + b.toNat / 16),
       digit (b.toNat % 16 * 4 + c.toNat / 64), digit (c.toNat % 64)] ++ toBase64 rest
    | [a, b] =>
      [digit (a.toNat / 4), digit (a.toNat % 4 * 16 + b.toNat / 16), digit (b.toNat % 16 * 4), '=']
    | [a] => [digit (a.toNat / 4), digit (a.toNat % 4 * 16), '=', '=']
    | [] => []

def authorization : Credentials → String
  | .bearer token => "Bearer " ++ token
  | .basic username password =>
    "Basic " ++ String.ofList (toBase64 (encodeText (username ++ ":" ++ password)))

structure Challenge where
  realm : String
  service : Option String := none
  scope : Option String := none
deriving DecidableEq

/-- The content of a quoted string with its escapes undone, and what follows the closing quote. -/
def quotedContent : List Char → Option (List Char × List Char)
  | [] => none
  | '"' :: rest => some ([], rest)
  | ['\\'] => none
  | '\\' :: c :: rest =>
    if c ∈ ['\n', '\r', '\u2028', '\u2029'] then none
    else (quotedContent rest).map fun q => (c :: q.1, q.2)
  | c :: rest => (quotedContent rest).map fun q => (c :: q.1, q.2)

/-- What follows a value: white space, then a comma or the end. -/
def afterValue (rest : List Char) : Option (List Char) :=
  match rest.dropWhile isSpace with
  | [] => some []
  | ',' :: rest => some rest
  | _ => none

/-- The value after `=`: `"quoted, value"`, or everything up to the next comma. -/
def challengeValue (cs : List Char) : String × List Char :=
  let cs := cs.dropWhile isSpace
  let quoted := match cs with
    | '"' :: rest => do
      let (content, rest) ← quotedContent rest
      let rest ← afterValue rest
      some (String.ofList content, rest)
    | _ => none
  quoted.getD (trim (String.ofList (cs.takeWhile (· ≠ ','))), (cs.dropWhile (· ≠ ',')).drop 1)

/-- One `key=value` here, and what follows it. -/
def challengeField (cs : List Char) : Option ((String × String) × List Char) :=
  let keyChar (c : Char) : Bool := c ≠ '=' && c ≠ ',' && !isSpace c
  let cs := cs.dropWhile isSpace
  let key := cs.takeWhile keyChar
  match (cs.dropWhile keyChar).dropWhile isSpace with
  | '=' :: rest =>
    if key = [] then none
    else
      let (value, rest) := challengeValue rest
      some ((String.ofList key, value), rest)
  | _ => none

/-- Every field, searched for from each place the one before it ended. -/
def challengeFields : Nat → List Char → List (String × String)
  | 0, _ => []
  | _, [] => []
  | fuel + 1, c :: cs =>
    match challengeField (c :: cs) with
    | some (entry, rest) => entry :: challengeFields fuel rest
    | none => challengeFields fuel cs

/-- `WWW-Authenticate: Bearer realm="...",service="...",scope="..."`. -/
def bearerChallenge (header : Option String) : Option Challenge :=
  match header with
  | none => none
  | some header =>
    if !Text.startsWith header "Bearer " then none
    else
      let text := (Text.after header "Bearer ").toList
      let fields := Table.ofList (challengeFields (text.length + 1) text)
      match fields.get? "realm" with
      | none | some "" => none
      | some realm => some { realm, service := fields.get? "service", scope := fields.get? "scope" }

example : bearerChallenge (some "Bearer realm=\"https://a/t\",scope=\"repository:x:pull,push\"") =
    some { realm := "https://a/t", scope := some "repository:x:pull,push" } := by decide

def failed (message : String) (code : String := "E_DEP_RESOLVE") : OciPullFailed := { code, message }

/-- The body of a registry's answer, failing on a non-2xx status or past `limit` bytes. -/
def body (response : HttpResponse) (url : String) (limit : Nat) : Except OciPullFailed Bytes :=
  (readBounded P response url limit fun status text =>
    "registry returned " ++ toString status ++ " for `" ++ url ++ "`: " ++ text).mapError failed

def rejected (name : String) : OciPullFailed :=
  failed ("registry `" ++ name ++ "` rejected auth. Configure credentials in " ++
    "`~/.config/akua/auth.toml` or `docker login` for `~/.docker/config.json`.")

/-- `token.token || token.access_token || ""`. -/
def decodeToken (text : String) : Except String String := do
  let raw ← P.parseJson text
  let decoded := do
    let token ← Value.optionalKey Value.asString "token" raw
    let access ← Value.optionalKey Value.asString "access_token" raw
    some ((token.filter (· ≠ "") <|> access).getD "")
  match decoded with
  | some token => .ok token
  | none => .error (P.schemaIssue raw)

structure GetRequest where
  url : String
  registry : String
  accept : List String := []
  limit : Nat

def manifestRequest (parsed : OciReference) (tag : String) (accept : List String) : GetRequest where
  url := parsed.base ++ "/manifests/" ++ tag
  registry := parsed.registry
  accept := accept
  limit := MAX_MANIFEST_BYTES

def blobRequest (parsed : OciReference) (digest : String) (limit : Nat) : GetRequest where
  url := parsed.base ++ "/blobs/" ++ digest
  registry := parsed.registry
  limit := limit

section Registry

variable {φ : Type}

/-- Send one request of a registry exchange. -/
def exchange (request : HttpRequest) : Run φ OciPullFailed HttpResponse :=
  (Run.send P request).mapError fun cause =>
    failed ("http error on `" ++ request.url ++ "`: " ++ cause)

def exchangeToken (challenge : Challenge) (configured : Option Credentials) :
    Run φ OciPullFailed String := do
  let params := (challenge.service.map fun s => [("service", s)]).getD [] ++
    (challenge.scope.map fun s => [("scope", s)]).getD []
  let headers := (configured.map fun c => [("Authorization", authorization c)]).getD []
  let response ← exchange P { url := challenge.realm, params, headers }
  let bytes ← Effect.ofExcept (body P response challenge.realm MAX_MANIFEST_BYTES)
  let token ← Effect.ofExcept ((decodeToken P (decodeText P bytes)).mapError fun message =>
    failed ("http error on `" ++ challenge.realm ++ "`: " ++ message))
  if token = "" then Effect.fail (rejected (challenge.service.getD challenge.realm))
  else pure token

/-- One attempt at a GET, with a bearer token if there is one. -/
def attempt (request : GetRequest) (configured : Option Credentials) (bearer : Option String) :
    Run φ OciPullFailed HttpResponse :=
  let accept := if request.accept = [] then []
    else [("Accept", ", ".intercalate request.accept)]
  let token := bearer <|> match configured with
    | some (.bearer token) => some token
    | _ => none
  exchange P { url := request.url,
               headers := accept ++ (token.map fun t => [("Authorization", "Bearer " ++ t)]).getD [] }

/-- A GET with the registry's auth: anonymous or configured, then the bearer-token exchange on a
    401. Also returns the token to use from here on. -/
def get (credentials : CredentialStore) (request : GetRequest) (token : Option String) :
    Run φ OciPullFailed (Bytes × Option String) := do
  let store ← Effect.ofExcept credentials
  let configured := store.get? request.registry
  let response ← attempt P request configured token
  if response.status ≠ 401 then
    let bytes ← Effect.ofExcept (body P response request.url request.limit)
    pure (bytes, token)
  else
    match bearerChallenge (response.headers.lookup "www-authenticate") with
    | none => Effect.fail (rejected request.registry)
    | some challenge => do
      let bearer ← exchangeToken P challenge configured
      let response ← attempt P request configured (some bearer)
      if response.status = 401 then Effect.fail (rejected request.registry)
      else
        let bytes ← Effect.ofExcept (body P response request.url request.limit)
        pure (bytes, some bearer)

end Registry

/-! ### The cache -/

section Pull

variable {φ : Type} [FileSystem φ]

/-- Where unpacked artifacts live, content-addressed. -/
def ociSlots : FilePath := FilePath.join (cacheRoot P .oci) "sha256"

def cacheSlot (digest : String) : FilePath := FilePath.join (ociSlots P) (Text.stripPrefix digest "sha256:")

/-- Whether a slot is there; an unreadable one is not. -/
def slotPresent {ε : Type} (root slot : FilePath) : Run φ ε Bool := do
  Run.log (.cacheSlot root slot)
  Run.read ((FileSystem.fileExists slot).orElseSucceed false)

/-- The cached artifact for `digest`, if it was unpacked before. -/
def cached {ε : Type} (digest : String) : Run φ ε (Option FilePath) := do
  let present ← slotPresent (ociSlots P) (cacheSlot P digest)
  pure (if present then some (cacheSlot P digest) else none)

def unpack (slot : FilePath) (entries : List ArchiveEntry) : Run φ OciPullFailed Unit := do
  Run.log (.cacheSlot (ociSlots P) slot)
  (unpackInto slot entries).mapError fun error => failed ("i/o at the OCI cache: " ++ error.message)

/-! ### Pulling -/

structure PullRequest where
  /-- `oci://<registry>/<repository>`. -/
  reference : String
  /-- The tag (`version` in `akua.toml`). -/
  version : String
  /-- The `akua.lock` digest the layer must have. -/
  pin : Option String
  /-- No network: the pinned digest must already be cached. -/
  offline : Bool
  cosignPublicKey : Option String
  /-- The `akua.lock` signature recorded with `pin`: a cached copy it vouches for needs no
      re-verification. -/
  lockedSignature : Option String
  /-- Accept any single tar or tar+gzip layer when no package layer is found. -/
  anyArchive : Bool := false
deriving DecidableEq

structure Pulled where
  /-- The unpacked artifact, a directory in the cache. -/
  directory : FilePath
  /-- The layer (blob) digest: what `akua.lock` pins. -/
  digest : String
  /-- The reference of the configured key that verified these bytes, when one is configured. -/
  signature : Option String
deriving DecidableEq

def missingSignature (reference digest tag detail : String) : OciPullFailed :=
  failed ("cosign signature for `" ++ reference ++ "@" ++ digest ++
    "` is missing or malformed at `" ++ tag ++ "`: " ++ detail) "E_COSIGN_SIG_MISSING"

/-- The signature of the manifest with this digest, fetched and checked. -/
def verifySignature (credentials : CredentialStore) (parsed : OciReference)
    (manifestDigest publicKeyPem : String) (token : Option String) :
    Run φ OciPullFailed (Option String) := do
  let reference := "oci://" ++ parsed.registry ++ "/" ++ parsed.repository
  let tag := "sha256-" ++ Text.stripPrefix manifestDigest "sha256:" ++ ".sig"
  let missing := missingSignature reference manifestDigest tag
  let (bytes, token) ← (get P credentials (manifestRequest parsed tag MANIFEST_TYPES) token
    ).mapError fun error => missing error.message
  let manifest ← Effect.ofExcept ((decodeOciManifest P bytes).mapError missing)
  match manifest.layerOf [COSIGN_LAYER] with
  | none => Effect.fail (missing ("no layer with media type " ++ COSIGN_LAYER))
  | some layer =>
    match layer.annotations.bind fun annotations => annotations.get? COSIGN_SIGNATURE with
    | none => Effect.fail (missing ("layer missing `" ++ COSIGN_SIGNATURE ++ "` annotation"))
    | some signature => do
      let (payload, token) ← (get P credentials
        (blobRequest parsed layer.digest MAX_MANIFEST_BYTES) token).mapError fun error => missing ("payload blob: " ++ error.message)
      let keyed : KeyedRequest :=
        { publicKeyPem, payload, signatureBase64 := signature, manifestDigest }
      Effect.ofExcept ((verifyKeyed P keyed).mapError fun message =>
        failed ("cosign verify failed for `" ++ reference ++ "@" ++ manifestDigest ++ "`: " ++
          message) "E_COSIGN_VERIFY")
      Run.log (.signatureVerified publicKeyPem manifestDigest)
      pure token

/-- A cached copy of the pinned artifact. With a key configured it is only as good as the lock's
    record that this key verified it; otherwise it is verified again online. -/
def cachedPull (request : PullRequest) (signature : Option String) :
    Run φ OciPullFailed (Option Pulled) :=
  match request.pin with
  | none => pure none
  | some pin => do
    let hit ← cached P pin
    match hit with
    | none => pure none
    | some directory =>
      if signature = none ∨ request.lockedSignature = signature then
        pure (some { directory, digest := pin, signature })
      else if request.offline then
        Effect.fail
          { code := "E_COSIGN_SIG_MISSING"
            offline := true
            message := "akua.lock does not record `" ++ request.reference ++ "@" ++ pin ++
              "` as verified by `[signing].cosign_public_key`, and offline mode can't fetch its " ++
              "signature - run `" ++ P.cliName ++ " lock` online" }
      else pure none

/-- The manifest a tag names, its signature checked when a key is configured. -/
def pullManifest (credentials : CredentialStore) (request : PullRequest) (parsed : OciReference) :
    Run φ OciPullFailed (OciManifest × Option String) := do
  let (bytes, token) ← get P credentials
    (manifestRequest parsed request.version MANIFEST_TYPES) none
  let manifest ← Effect.ofExcept ((decodeOciManifest P bytes).mapError fun message =>
    failed ("malformed manifest JSON: " ++ message))
  match request.cosignPublicKey with
  | none => pure (manifest, token)
  | some key => do
    let token ← verifySignature P credentials parsed (sha256 P bytes) key token
    pure (manifest, token)

/-- The blob of a layer and its digest: the one the layer declares, and the lock pins. -/
def pullBlob (credentials : CredentialStore) (request : PullRequest) (parsed : OciReference)
    (layer : OciLayer) (token : Option String) : Run φ OciPullFailed (Bytes × String) := do
  let url := parsed.base ++ "/blobs/" ++ layer.digest
  if layer.size.any (Number.exceeds · MAX_BLOB_BYTES) then
    Effect.fail (failed ("response body for `" ++ url ++ "` exceeds the " ++
      toString MAX_BLOB_BYTES ++ "-byte ceiling (registry declared " ++ layer.size.getD "" ++
      " bytes)"))
  else
    let (blob, _) ← get P credentials (blobRequest parsed layer.digest MAX_BLOB_BYTES) token
    let digest := sha256 P blob
    if digest ≠ layer.digest then
      Effect.fail (failed ("pulled blob digest `" ++ digest ++ "` doesn't match layer-declared `" ++
        layer.digest ++ "`"))
    else if request.pin.any (· ≠ digest) then
      Effect.fail
        { drift := true
          message := "pulled blob digest `" ++ digest ++ "` doesn't match lockfile-pinned `" ++
            request.pin.getD "" ++ "` for `" ++ request.reference ++ ":" ++ request.version ++ "`" }
    else pure (blob, digest)

/-- The files of a layer: a tar, compressed or not. -/
def layerEntries (layer : OciLayer) (blob : Bytes) : Except String (List ArchiveEntry) :=
  if layer.mediaType = KCL_LAYER ∨ Text.endsWith layer.mediaType ".tar" then untar P blob
  else gunzip P blob >>= untar P

def pull (credentials : CredentialStore) (request : PullRequest) : Run φ OciPullFailed Pulled :=
  match parseReference request.reference with
  | none =>
    Effect.fail (failed ("invalid OCI reference `" ++ request.reference ++
      "`: expected `oci://<registry>/<repo>`"))
  | some parsed => do
    let signature ← Effect.ofExcept
      ((request.cosignPublicKey.mapM (keyedSignatureRef P)).mapError fun message =>
        failed ("cosign public key: " ++ message) "E_COSIGN_VERIFY")
    let hit ← cachedPull P request signature
    match hit with
    | some pulled => pure pulled
    | none =>
      if request.offline then
        Effect.fail
          { offline := true
            message := if request.pin.isSome then
                "offline mode and the OCI cache doesn't have this dep - run `" ++ P.cliName ++
                  " add` online first"
              else "offline mode needs a lockfile-pinned digest - run `" ++ P.cliName ++
                " add` first" }
      else do
        let (manifest, token) ← pullManifest P credentials request parsed
        match wantedLayer request.anyArchive manifest with
        | none =>
          Effect.fail (failed ("manifest for `" ++ request.reference ++ ":" ++ request.version ++
            "` has no recognised package layer - expected helm `" ++ HELM_LAYER ++ "`, akua `" ++
            AKUA_LAYER ++ "`, or KCL `" ++ KCL_LAYER ++ "` (or `+gzip`) with " ++
            "`org.kcllang.package.*` / `org.kclpkg.package.*` / `dev.akua.package.*` annotations"))
        | some layer => do
          let (blob, digest) ← pullBlob P credentials request parsed layer token
          let entries ← Effect.ofExcept ((layerEntries P layer blob).mapError fun message =>
            failed ("extracting chart tarball: " ++ message))
          unpack P (cacheSlot P digest) entries
          pure { directory := cacheSlot P digest, digest, signature }

/-! ### What pulling logs -/

open Run

variable {p : Event → Prop}

omit [FileSystem φ] in
theorem logs_exchange (request : HttpRequest) :
    Logs p (exchange P request : Run φ OciPullFailed HttpResponse) :=
  logs_mapError (logs_send P request)

omit [FileSystem φ] in
theorem logs_exchangeToken (challenge : Challenge) (configured : Option Credentials) :
    Logs p (exchangeToken P challenge configured : Run φ OciPullFailed String) := by
  refine logs_bind (logs_exchange P _) fun _ _ _ _ => logs_bind (logs_ofExcept _) fun _ _ _ _ =>
    logs_bind (logs_ofExcept _) fun token _ _ _ => ?_
  split
  · exact logs_fail _
  · exact logs_pure _

omit [FileSystem φ] in
/-- A GET leaves no mark in the trace. -/
theorem logs_get (credentials : CredentialStore) (request : GetRequest) (token : Option String) :
    Logs p (get P credentials request token : Run φ OciPullFailed (Bytes × Option String)) := by
  have attempt_logs : ∀ configured bearer,
      Logs p (attempt P request configured bearer : Run φ OciPullFailed HttpResponse) :=
    fun _ _ => logs_exchange P _
  refine logs_bind (logs_ofExcept _) fun store _ _ _ =>
    logs_bind (attempt_logs _ _) fun response _ _ _ => ?_
  refine logs_ite (fun _ => logs_bind (logs_ofExcept _) fun _ _ _ _ => logs_pure _) fun _ => ?_
  split
  · exact logs_fail _
  refine logs_bind (logs_exchangeToken P _ _) fun bearer _ _ _ =>
    logs_bind (attempt_logs _ _) fun response _ _ _ => ?_
  exact logs_ite (fun _ => logs_fail _) fun _ =>
    logs_bind (logs_ofExcept _) fun _ _ _ _ => logs_pure _

omit [FileSystem φ] in
theorem logs_verifySignature (credentials : CredentialStore) (parsed : OciReference)
    (manifestDigest publicKeyPem : String) (token : Option String)
    (h : p (.signatureVerified publicKeyPem manifestDigest)) :
    Logs p (verifySignature P credentials parsed manifestDigest publicKeyPem token :
      Run φ OciPullFailed (Option String)) := by
  refine logs_bind (logs_mapError (logs_get P _ _ _)) fun fetched _ _ _ =>
    logs_bind (logs_ofExcept _) fun manifest _ _ _ => ?_
  split
  · exact logs_fail _
  split
  · exact logs_fail _
  refine logs_bind (logs_mapError (logs_get P _ _ _)) fun payload _ _ _ =>
    logs_bind (logs_ofExcept _) fun _ _ _ _ => logs_bind (logs_log h) fun _ _ _ _ => logs_pure _

theorem logs_slotPresent {ε : Type} {root slot : FilePath} (h : p (.cacheSlot root slot)) :
    Logs p (slotPresent root slot : Run φ ε Bool) :=
  logs_bind (logs_log h) fun _ _ _ _ => logs_read _

omit [FileSystem φ] in
theorem logs_pullManifest (credentials : CredentialStore) (request : PullRequest)
    (parsed : OciReference) (h : ∀ pem digest, p (.signatureVerified pem digest)) :
    Logs p (pullManifest P credentials request parsed :
      Run φ OciPullFailed (OciManifest × Option String)) := by
  refine logs_bind (logs_get P _ _ _) fun fetched _ _ _ =>
    logs_bind (logs_ofExcept _) fun manifest _ _ _ => ?_
  split
  · exact logs_pure _
  · exact logs_bind (logs_verifySignature P _ _ _ _ _ (h _ _)) fun _ _ _ _ => logs_pure _

omit [FileSystem φ] in
theorem logs_pullBlob (credentials : CredentialStore) (request : PullRequest)
    (parsed : OciReference) (layer : OciLayer) (token : Option String) :
    Logs p (pullBlob P credentials request parsed layer token :
      Run φ OciPullFailed (Bytes × String)) := by
  refine logs_ite (fun _ => logs_fail _) fun _ => logs_bind (logs_get P _ _ _) fun blob _ _ _ => ?_
  exact logs_ite (fun _ => logs_fail _) fun _ => logs_ite (fun _ => logs_fail _) fun _ => logs_pure _

theorem logs_unpack (hp : ∀ e, e.IsWrite → p e) {slot : FilePath} {entries : List ArchiveEntry}
    (h : p (.cacheSlot (ociSlots P) slot)) :
    Logs p (unpack P slot entries : Run φ OciPullFailed Unit) :=
  logs_bind (logs_log h) fun _ _ _ _ => logs_mapError (logs_unpackInto hp _ _)

omit [FileSystem φ] in
/-- A pulled blob has the digest of its bytes, which its layer declares and the lock pins. -/
theorem pullBlob_ok {credentials : CredentialStore} {request : PullRequest} {parsed : OciReference}
    {layer : OciLayer} {token : Option String} {w w' : World φ} {blob : Bytes} {digest : String}
    (h : pullBlob P credentials request parsed layer token w = (.ok (blob, digest), w')) :
    digest = sha256 P blob ∧ digest = layer.digest ∧ ∀ pin ∈ request.pin, pin = digest := by
  unfold pullBlob at h
  split at h
  · simp at h
  obtain ⟨⟨bytes, token'⟩, w₁, -, h⟩ := Effect.bind_ok.mp h
  by_cases hd : sha256 P bytes ≠ layer.digest
  · simp [hd] at h
  by_cases hp : (request.pin.any (· ≠ sha256 P bytes)) = true
  · simp only [if_neg hd, if_pos hp] at h; simp at h
  simp only [if_neg hd, if_neg hp] at h
  obtain ⟨⟨rfl, rfl⟩, -⟩ : (bytes = blob ∧ sha256 P bytes = digest) ∧ w₁ = w' := by simpa using h
  refine ⟨rfl, not_not.mp hd, fun pin hpin => ?_⟩
  simpa [Option.mem_def.mp hpin] using hp

/-! ### What a pull returns -/

theorem mem_of_layerOf {manifest : OciManifest} {types : List String} {layer : OciLayer}
    (h : manifest.layerOf types = some layer) : layer ∈ manifest.layers :=
  List.mem_of_find?_eq_some h

theorem mem_of_packageLayer {manifest : OciManifest} {layer : OciLayer}
    (h : packageLayer manifest = some layer) : layer ∈ manifest.layers := by
  simp only [packageLayer, Option.orElse_eq_orElse, Option.orElse_eq_or, Option.or_eq_some_iff,
    Option.ite_none_right_eq_some] at h
  rcases h with h | ⟨-, h | ⟨-, -, h⟩⟩ <;> exact mem_of_layerOf h

theorem mem_of_archiveLayer {manifest : OciManifest} {layer : OciLayer}
    (h : archiveLayer manifest = some layer) : layer ∈ manifest.layers := by
  unfold archiveLayer at h
  split at h
  · rename_i only hlayers
    rw [hlayers, List.mem_singleton]
    exact (Option.some.inj (Option.ite_none_right_eq_some.mp h).2).symm
  · cases h

theorem mem_of_wantedLayer {anyArchive : Bool} {manifest : OciManifest} {layer : OciLayer}
    (h : wantedLayer anyArchive manifest = some layer) : layer ∈ manifest.layers := by
  simp only [wantedLayer, Option.orElse_eq_orElse, Option.orElse_eq_or, Option.or_eq_some_iff,
    Option.ite_none_right_eq_some] at h
  rcases h with h | ⟨-, -, h⟩
  · exact mem_of_packageLayer h
  · exact mem_of_archiveLayer h

omit [FileSystem φ] in
/-- Where a signature check succeeds, the trace says so. -/
theorem verifySignature_ok {credentials : CredentialStore} {parsed : OciReference}
    {manifestDigest publicKeyPem : String} {token token' : Option String} {w w' : World φ}
    (h : verifySignature P credentials parsed manifestDigest publicKeyPem token w =
      (.ok token', w')) : .signatureVerified publicKeyPem manifestDigest ∈ w'.trace := by
  obtain ⟨⟨bytes, token₁⟩, w₁, -, h⟩ := Effect.bind_ok.mp h
  obtain ⟨manifest, w₂, -, h⟩ := Effect.bind_ok.mp h
  rcases hlayer : manifest.layerOf [COSIGN_LAYER] with _ | layer
  · rw [hlayer] at h; cases h
  rw [hlayer] at h
  dsimp only at h
  rcases hsig : layer.annotations.bind fun a => a.get? COSIGN_SIGNATURE with _ | signature
  · rw [hsig] at h; cases h
  rw [hsig] at h
  obtain ⟨⟨payload, token₂⟩, w₃, -, h⟩ := Effect.bind_ok.mp h
  obtain ⟨_, w₄, -, h⟩ := Effect.bind_ok.mp h
  obtain ⟨_, w₅, hlog, h⟩ := Effect.bind_ok.mp h
  cases hlog
  cases h
  exact List.mem_cons_self

omit [FileSystem φ] in
/-- Where a key is configured, the manifest that comes back is one whose signature it verified. -/
theorem pullManifest_ok {credentials : CredentialStore} {request : PullRequest}
    {parsed : OciReference} {w w' : World φ} {manifest : OciManifest} {token : Option String}
    (h : pullManifest P credentials request parsed w = (.ok (manifest, token), w')) :
    ∃ bytes, decodeOciManifest P bytes = .ok manifest ∧
      ∀ pem ∈ request.cosignPublicKey, .signatureVerified pem (sha256 P bytes) ∈ w'.trace := by
  obtain ⟨⟨bytes, token₁⟩, w₁, -, h⟩ := Effect.bind_ok.mp h
  obtain ⟨decoded, w₂, hdecode, h⟩ := Effect.bind_ok.mp h
  obtain ⟨hdecode, -⟩ := Effect.ofExcept_ok.mp hdecode
  have hbytes : decodeOciManifest P bytes = .ok decoded := by
    rcases hd : decodeOciManifest P bytes with e | m <;> rw [hd] at hdecode <;>
      simp_all [Except.mapError]
  rcases hkey : request.cosignPublicKey with _ | pem
  · rw [hkey] at h
    cases h
    exact ⟨bytes, hbytes, fun _ h => by cases h⟩
  · rw [hkey] at h
    obtain ⟨token₂, w₃, hverify, h⟩ := Effect.bind_ok.mp h
    cases h
    refine ⟨bytes, hbytes, fun pem' hpem' => ?_⟩
    cases hpem'
    exact verifySignature_ok P hverify

/-- A cached copy comes back for the pin, and only when the lock vouches for it. -/
theorem cachedPull_ok {request : PullRequest} {signature : Option String} {w w' : World φ}
    {pulled : Pulled} (h : cachedPull P request signature w = (.ok (some pulled), w')) :
    request.pin = some pulled.digest ∧ pulled.signature = signature ∧
      (signature = none ∨ request.lockedSignature = signature) := by
  unfold cachedPull at h
  rcases hpin : request.pin with _ | pin
  · rw [hpin] at h; cases h
  rw [hpin] at h
  obtain ⟨hit, w₁, -, h⟩ := Effect.bind_ok.mp h
  rcases hit with _ | directory
  · cases h
  dsimp only at h
  by_cases hv : signature = none ∨ request.lockedSignature = signature
  · rw [if_pos hv] at h
    cases h
    exact ⟨rfl, rfl, hv⟩
  · rw [if_neg hv] at h
    split at h <;> cases h

/-- What a pull returns: the pinned copy from the cache, which the lock vouches for when a key is
    configured, or the layer of a manifest it fetched, which the key verified. -/
theorem pull_ok {credentials : CredentialStore} {request : PullRequest} {pulled : Pulled}
    {w w' : World φ} (h : pull P credentials request w = (.ok pulled, w')) :
    request.cosignPublicKey.mapM (keyedSignatureRef P) = .ok pulled.signature ∧
    (∀ pin ∈ request.pin, pin = pulled.digest) ∧
    ((pulled.digest ∈ request.pin ∧
        (pulled.signature = none ∨ request.lockedSignature = pulled.signature)) ∨
      ∃ bytes manifest layer, decodeOciManifest P bytes = .ok manifest ∧
        layer ∈ manifest.layers ∧ layer.digest = pulled.digest ∧
        ∀ pem ∈ request.cosignPublicKey, .signatureVerified pem (sha256 P bytes) ∈ w'.trace) := by
  unfold pull at h
  rcases hparsed : parseReference request.reference with _ | parsed
  · rw [hparsed] at h; cases h
  rw [hparsed] at h
  obtain ⟨signature, w₁, hsignature, h⟩ := Effect.bind_ok.mp h
  obtain ⟨hsignature, -⟩ := Effect.ofExcept_ok.mp hsignature
  have hmap : request.cosignPublicKey.mapM (keyedSignatureRef P) = .ok signature := by
    rcases hm : request.cosignPublicKey.mapM (keyedSignatureRef P) with e | m <;>
      rw [hm] at hsignature <;> simp_all [Except.mapError]
  obtain ⟨hit, w₂, hcached, h⟩ := Effect.bind_ok.mp h
  rcases hit with _ | found
  · -- nothing usable in the cache: the manifest, then its layer
    dsimp only at h
    by_cases hoffline : request.offline = true
    · rw [if_pos hoffline] at h; cases h
    rw [if_neg hoffline] at h
    obtain ⟨⟨manifest, token⟩, w₃, hmanifest, h⟩ := Effect.bind_ok.mp h
    dsimp only at h
    rcases hlayer : wantedLayer request.anyArchive manifest with _ | layer
    · rw [hlayer] at h; cases h
    rw [hlayer] at h
    obtain ⟨⟨blob, digest⟩, w₄, hblob, h⟩ := Effect.bind_ok.mp h
    obtain ⟨entries, w₅, hentries, h⟩ := Effect.bind_ok.mp h
    obtain ⟨_, w₆, hunpack, h⟩ := Effect.bind_ok.mp h
    cases h
    obtain ⟨-, hdeclared, hpinned⟩ := pullBlob_ok P hblob
    obtain ⟨bytes, hdecode, hverified⟩ := pullManifest_ok P hmanifest
    obtain ⟨-, rfl⟩ := Effect.ofExcept_ok.mp hentries
    refine ⟨hmap, hpinned, .inr ⟨bytes, manifest, layer, hdecode, mem_of_wantedLayer hlayer,
      hdeclared.symm, fun pem hpem => ?_⟩⟩
    have hblobs : Logs (fun _ => True)
        (pullBlob P credentials request parsed layer token : Run φ _ _) :=
      logs_pullBlob P credentials request parsed layer token
    have hunpacks : Logs (fun _ => True)
        (unpack P (cacheSlot P digest) entries : Run φ _ _) := logs_unpack P (fun _ _ => trivial) trivial
    have h₄ := hblobs.mem (hverified pem hpem)
    rw [hblob] at h₄
    have h₆ := hunpacks.mem h₄
    rw [hunpack] at h₆
    exact h₆
  · cases h
    obtain ⟨hpin, hsig, hv⟩ := cachedPull_ok P hcached
    refine ⟨by rw [hsig]; exact hmap, by simp [hpin], .inl ⟨hpin, by rw [hsig]; exact hv⟩⟩

/-- The slot a pinned fetch names is its pin's. -/
def PinSlot (slotOf : String → FilePath) (pin : Option String) (slot : FilePath) : Prop :=
  ∀ digest ∈ pin, slot = slotOf digest

theorem pinSlot_pin {slotOf : String → FilePath} {pin : Option String} {digest : String}
    (h : digest ∈ pin) : PinSlot slotOf pin (slotOf digest) := fun _ h' => by
  rw [Option.mem_unique h h']

/-- A fetch that goes on has the digest it was pinned to. -/
theorem pinSlot_fetched {slotOf : String → FilePath} {pin : Option String} {digest : String}
    (h : ¬ pin.any (· ≠ digest) = true) : PinSlot slotOf pin (slotOf digest) := by
  rintro pinned hmem
  rw [Option.mem_def.mp hmem] at h
  simp only [Option.any_some, decide_eq_true_eq, not_not] at h
  rw [h]

theorem logs_cachedPull (request : PullRequest) (signature : Option String) :
    Logs (FetcherEvent (ociSlots P) (PinSlot (cacheSlot P) request.pin))
      (cachedPull P request signature : Run φ OciPullFailed (Option Pulled)) := by
  unfold cachedPull
  split
  · exact logs_pure _
  rename_i pin hpin
  refine logs_bind (logs_bind (logs_slotPresent ⟨rfl, pinSlot_pin hpin⟩) fun _ _ _ _ =>
    logs_pure _) fun hit _ _ _ => ?_
  split
  · exact logs_pure _
  exact logs_ite (fun _ => logs_pure _) fun _ => logs_ite (fun _ => logs_fail _) fun _ => logs_pure _

theorem logs_pull (credentials : CredentialStore) (request : PullRequest) :
    Logs (FetcherEvent (ociSlots P) (PinSlot (cacheSlot P) request.pin))
      (pull P credentials request : Run φ OciPullFailed Pulled) := by
  unfold pull
  split
  · exact logs_fail _
  refine logs_bind (logs_ofExcept _) fun signature _ _ _ =>
    logs_bind (logs_cachedPull P request signature) fun hit _ _ _ => ?_
  split
  · exact logs_pure _
  refine logs_ite (fun _ => logs_fail _) fun _ =>
    logs_bind (logs_pullManifest P _ _ _ fun _ _ => trivial) fun ⟨manifest, token⟩ _ _ _ => ?_
  dsimp only
  split
  · exact logs_fail _
  refine logs_bind (logs_pullBlob P _ _ _ _ _) fun ⟨blob, digest⟩ w w' hblob =>
    logs_bind (logs_ofExcept _) fun entries _ _ _ => ?_
  obtain ⟨-, -, hpinned⟩ := pullBlob_ok P hblob
  exact logs_bind (logs_unpack P (fun _ => FetcherEvent.of_write)
    ⟨rfl, fun pin hpin => by rw [hpinned pin hpin]⟩) fun _ _ _ _ => logs_pure _

end Pull

/-! ### Attestations -/

section Attestation

variable {φ : Type}

structure AttestationFound where
  manifestDigest : String
  layerDigests : List String
  envelope : Option Bytes
deriving DecidableEq

/-- The DSSE attestation of the artifact `tag` names, when there is one. -/
def pullAttestation (credentials : CredentialStore) (reference tag : String) :
    Run φ OciPullFailed AttestationFound :=
  match parseReference reference with
  | none =>
    Effect.fail (failed ("invalid OCI reference `" ++ reference ++
      "`: expected `oci://<registry>/<repo>`"))
  | some parsed => do
    let (bytes, token) ← get P credentials (manifestRequest parsed tag MANIFEST_TYPES) none
    let malformed (message : String) := failed ("manifest parse: " ++ message)
    let manifest ← Effect.ofExcept ((decodeOciManifest P bytes).mapError malformed)
    let manifestDigest := sha256 P bytes
    let layerDigests := manifest.layers.map OciLayer.digest
    let sidecar := sidecarTag manifestDigest "att"
    let attestation ← (get P credentials (manifestRequest parsed sidecar [OCI_MANIFEST]) token
      ).result
    match attestation with
    | .error error =>
      if (Text.cut error.message " returned 404 ").isSome then
        pure { manifestDigest, layerDigests, envelope := none }
      else Effect.fail error
    | .ok (bytes, token) => do
      let manifest ← Effect.ofExcept ((decodeOciManifest P bytes).mapError malformed)
      match manifest.layerOf [DSSE_LAYER] with
      | none =>
        Effect.fail (failed ("manifest at `" ++ reference ++ ":" ++ sidecar ++
          "` has no akua package layer (media type " ++ AKUA_LAYER ++ ")"))
      | some layer => do
        let (envelope, _) ← get P credentials (blobRequest parsed layer.digest MAX_MANIFEST_BYTES) token
        pure { manifestDigest, layerDigests, envelope := some envelope }

end Attestation

end Akua
