import Akua.Oci

/-! What goes up to a registry: a packed Package with its config and manifest, and the cosign
    sidecars that are attached to it. Every upload shares one token cell with the requests before
    it; the cell is passed along and returned. -/

namespace Akua

variable (P : Platform)

/-- A registry refused or failed an upload. -/
structure OciPushFailed where
  message : String
deriving DecidableEq

def AKUA_CONFIG : String := "application/vnd.akua.package.config.v1+json"
def OCI_EMPTY_CONFIG : String := "application/vnd.oci.image.config.v1+json"

/-! ### Manifests that are written -/

/-- A blob as a manifest names it. -/
def descriptor (mediaType : String) (bytes : Bytes) : List (String × Value) :=
  [("mediaType", .string mediaType), ("size", .number (toString bytes.length)),
    ("digest", .string (sha256 P bytes))]

def manifestBytes (config : List (String × Value)) (layer : List (String × Value)) : Bytes :=
  encodeText (Value.stringify (.object
    [("schemaVersion", .number "2"), ("mediaType", .string OCI_MANIFEST),
      ("config", .object config), ("layers", .array [.object layer])]))

structure PublishDigests where
  config : Bytes
  manifest : Bytes
  manifestDigest : String
  layerDigest : String
  layerSize : Nat

/-- The bytes a Package publish uploads for `tarball`. -/
def publishDigests (tarball : Bytes) (akuaVersion : String) : PublishDigests :=
  let config := encodeText (Value.stringify (.object [("akuaVersion", .string akuaVersion)]))
  let manifest := manifestBytes (descriptor P AKUA_CONFIG config) (descriptor P AKUA_LAYER tarball)
  { config, manifest, manifestDigest := sha256 P manifest, layerDigest := sha256 P tarball,
    layerSize := tarball.length }

/-- The layer of a sidecar: the fields it was asked for keep their places. -/
def sidecarLayer (mediaType : String) (annotations : List (String × Value)) (payload : Bytes) :
    List (String × Value) :=
  descriptor P mediaType payload ++
    if annotations = [] then [] else [("annotations", .object annotations)]

/-! ### Requests -/

structure SendRequest where
  method : String
  url : String
  registry : String
  body : Bytes
  contentType : String := "application/octet-stream"

def pushFailed (message : String) : OciPushFailed := { message }

/-- The token a request is sent with: the exchanged one, or a configured bearer token. -/
def bearerOf (configured : Option Credentials) (bearer : Option String) : Option String :=
  bearer <|> match configured with
    | some (.bearer token) => some token
    | _ => none

/-- What one attempt at an upload sends. -/
def SendRequest.http (request : SendRequest) (bearer : Option String) : HttpRequest where
  method := request.method
  url := request.url
  headers := ("Content-Type", request.contentType) ::
    (bearer.map fun t => [("Authorization", "Bearer " ++ t)]).getD []
  body := request.body

def origin (registry : String) : String := scheme registry ++ "://" ++ registry

def startRequest (target : OciReference) : SendRequest where
  method := "POST"
  url := origin target.registry ++ "/v2/" ++ target.repository ++ "/blobs/uploads/"
  registry := target.registry
  body := []

/-- Where the registry wants the bytes. -/
def uploadUrl (registry location : String) : String :=
  if Text.startsWith location "http://" || Text.startsWith location "https://" then location
  else origin registry ++ location

def putRequest (target : OciReference) (location : String) (bytes : Bytes) : SendRequest where
  method := "PUT"
  url :=
    let url := uploadUrl target.registry location
    url ++ (if '?' ∈ url.toList then "&" else "?") ++ "digest=" ++ sha256 P bytes
  registry := target.registry
  body := bytes

def manifestPut (target : OciReference) (tag : String) (manifest : Bytes) : SendRequest where
  method := "PUT"
  url := origin target.registry ++ "/v2/" ++ target.repository ++ "/manifests/" ++ tag
  registry := target.registry
  body := manifest
  contentType := OCI_MANIFEST

section Push

variable {φ : Type}

def attemptUpload (request : SendRequest) (configured : Option Credentials)
    (bearer : Option String) : Run φ OciPushFailed HttpResponse :=
  (Run.send P (request.http (bearerOf configured bearer))).mapError fun cause =>
    pushFailed ("http error on `" ++ request.url ++ "`: " ++ cause)

/-- A POST or PUT with the registry's auth, retried once with a bearer token after a 401
    challenge. -/
def send (credentials : CredentialStore) (request : SendRequest) (token : Option String) :
    Run φ OciPushFailed (HttpResponse × Option String) := do
  let store ← Effect.ofExcept (credentials.mapError fun error => pushFailed error.message)
  let configured := store.get? request.registry
  let response ← attemptUpload P request configured token
  if response.status ≠ 401 then pure (response, token)
  else
    match bearerChallenge (response.headers.lookup "www-authenticate") with
    | none => Effect.fail (pushFailed (rejected request.registry).message)
    | some challenge => do
      let bearer ← (exchangeToken P challenge configured).mapError fun error =>
        pushFailed error.message
      let response ← attemptUpload P request configured (some bearer)
      if response.status = 401 then Effect.fail (pushFailed (rejected request.registry).message)
      else pure (response, some bearer)

def failedUpload (response : HttpResponse) : OciPushFailed :=
  let text := match response.body with
    | .ok bytes => decodeText P bytes
    | .error _ => ""
  pushFailed ("registry returned " ++ toString response.status ++ " on blob upload: " ++ text)

/-- A monolithic blob upload: `POST .../blobs/uploads/`, then `PUT <location>?digest=`. -/
def uploadBlob (credentials : CredentialStore) (target : OciReference) (bytes : Bytes)
    (token : Option String) : Run φ OciPushFailed (Option String) := do
  let (started, token) ← send P credentials (startRequest target) token
  match started.headers.lookup "location" with
  | none =>
    Effect.fail (pushFailed "registry didn't return a Location header on blob upload start")
  | some location => do
    let (put, token) ← send P credentials (putRequest P target location bytes) token
    if put.status ≠ 201 ∧ put.status ≠ 202 then Effect.fail (failedUpload P put)
    else pure token

def putManifest (credentials : CredentialStore) (target : OciReference) (tag : String)
    (manifest : Bytes) (token : Option String) : Run φ OciPushFailed Unit := do
  let (response, _) ← send P credentials (manifestPut target tag manifest) token
  if response.status < 200 ∨ 300 ≤ response.status then Effect.fail (failedUpload P response)
  else pure ()

def target (reference : String) : Except OciPushFailed OciReference :=
  match parseReference reference with
  | none => .error (pushFailed ("invalid OCI reference `" ++ reference ++
      "`: expected `oci://<registry>/<repo>`"))
  | some parsed => .ok parsed

/-- Two blobs, then the manifest that names them. -/
def pushArtifact (credentials : CredentialStore) (parsed : OciReference) (tag : String)
    (layer config manifest : Bytes) : Run φ OciPushFailed Unit := do
  let token ← uploadBlob P credentials parsed layer none
  let token ← uploadBlob P credentials parsed config token
  putManifest P credentials parsed tag manifest token

/-- Upload a packed Package under `tag`: layer, config, then manifest. -/
def pushPackage (credentials : CredentialStore) (reference tag : String) (tarball : Bytes)
    (akuaVersion : String) : Run φ OciPushFailed PublishDigests := do
  let parsed ← Effect.ofExcept (target reference)
  let digests := publishDigests P tarball akuaVersion
  pushArtifact P credentials parsed tag tarball digests.config digests.manifest
  pure digests

/-- A cosign sidecar: `payload` as its one layer, under an empty config. -/
def pushSidecar (credentials : CredentialStore) (reference tag : String) (payload : Bytes)
    (mediaType : String) (annotations : List (String × Value)) : Run φ OciPushFailed String := do
  let parsed ← Effect.ofExcept (target reference)
  let config := encodeText (Value.stringify (.object []))
  let manifest := manifestBytes (descriptor P OCI_EMPTY_CONFIG config)
    (sidecarLayer P mediaType annotations payload)
  pushArtifact P credentials parsed tag payload config manifest
  pure tag

/-- Attach a keyed cosign signature; its tag. -/
def pushSignature (credentials : CredentialStore) (reference manifestDigest : String)
    (payload : Bytes) (signatureBase64 : String) : Run φ OciPushFailed String :=
  pushSidecar P credentials reference (sidecarTag manifestDigest "sig") payload COSIGN_LAYER
    [(COSIGN_SIGNATURE, .string signatureBase64)]

/-- Attach a DSSE attestation; its tag. -/
def pushAttestation (credentials : CredentialStore) (reference manifestDigest : String)
    (envelope : Bytes) : Run φ OciPushFailed String :=
  pushSidecar P credentials reference (sidecarTag manifestDigest "att") envelope DSSE_LAYER []

end Push

/-! ### Published Packages -/

structure PulledPackage where
  /-- The `.tar.gz` that was uploaded. -/
  tarball : Bytes
  manifestDigest : String
  layerDigest : String
deriving DecidableEq

/-- A published Akua Package's tarball. -/
def pullPackage {φ : Type} (credentials : CredentialStore) (reference tag : String) :
    Run φ OciPullFailed PulledPackage :=
  match parseReference reference with
  | none =>
    Effect.fail (failed ("invalid OCI reference `" ++ reference ++
      "`: expected `oci://<registry>/<repo>`"))
  | some parsed => do
    let (bytes, token) ← get P credentials (manifestRequest parsed tag [OCI_MANIFEST]) none
    let manifest ← Effect.ofExcept ((decodeOciManifest P bytes).mapError fun message =>
      failed ("manifest parse: " ++ message))
    match manifest.layerOf [AKUA_LAYER] with
    | none =>
      Effect.fail (failed ("manifest at `" ++ reference ++ ":" ++ tag ++
        "` has no akua package layer (media type " ++ AKUA_LAYER ++ ")"))
    | some layer => do
      let (tarball, _) ← get P credentials (blobRequest parsed layer.digest MAX_BLOB_BYTES) token
      if sha256 P tarball ≠ layer.digest then
        Effect.fail (failed ("pulled blob digest `" ++ sha256 P tarball ++
          "` doesn't match manifest-declared `" ++ layer.digest ++ "`"))
      else pure { tarball, manifestDigest := sha256 P bytes, layerDigest := layer.digest }

end Akua
