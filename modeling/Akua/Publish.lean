import Akua.PackageTar
import Akua.Signing
import Akua.Workspace

/-! `publish`: pack the workspace, push it, and, when `akua.toml` names a cosign private key, sign it
    (`.sig`) and attest its SLSA provenance (`.att`). -/

namespace Akua

structure PublishFlags where
  ociRef : String
  /-- Defaults to the package's version. -/
  tag : Option String := none
  /-- Skip signing even when a private key is configured. -/
  noSign : Bool := false
  /-- Skip the attestation, which always pairs with signing. -/
  noAttest : Bool := false
  workspace : FilePath := []

structure PublishOutput where
  oci_ref : String
  tag : String
  manifest_digest : String
  layer_digest : String
  layer_size : Nat
  signature_tag : Option String
  attestation_tag : Option String
deriving DecidableEq

/-- A failure that is reported, or an exception nobody catches. -/
inductive PublishFailure where
  | reported (failure : Failure)
  | defect (cause : String)
deriving DecidableEq

def publishFailed (message : String) : PublishFailure :=
  .reported (cliFailure "E_PUBLISH_FAILED" message .userError)

def cosignFailed : SigningFailure → PublishFailure
  | .invalid message => publishFailed ("cosign: " ++ message)
  | .defect cause => .defect cause

section Verb

variable (P : Platform) (W : WebCrypto) {φ : Type} [FileSystem φ] (services : FetchServices φ)
  (credentials : CredentialStore)

/-- `$AKUA_COSIGN_PASSPHRASE`. -/
def cosignPassphrase : Option String := envSet P "AKUA_COSIGN_PASSPHRASE"

/-- The private key in its file, when one is configured and signing is not skipped. -/
def privateKey (flags : PublishFlags) (manifest : Manifest) : Reading φ Failure (Option String) :=
  match if flags.noSign then none else manifest.signing.bind Signing.cosign_private_key with
  | none => pure none
  | some keyPath =>
    some <$> (readFileString P (joinPath flags.workspace keyPath)).mapError fun error =>
      cliFailure "E_PUBLISH_FAILED" error.message .userError (some (joinPath flags.workspace keyPath))
        (some ("akua.toml [signing].cosign_private_key must resolve to a PEM-encoded PKCS#8 P-256 private key " ++
          "file."))

/-- The signature of a pushed manifest; its tag. -/
def publishSignature (ociRef manifestDigest key : String) : Run φ PublishFailure String := do
  let payload := simpleSigningPayload (dockerReference ociRef) manifestDigest
  let signature ← Effect.ofExcept ((signKeyed W key payload (cosignPassphrase P)).mapError cosignFailed)
  (pushSignature P credentials ociRef manifestDigest payload signature).mapError fun error =>
    publishFailed error.message

/-- The lockfile, if there is one. -/
def publishedLock (workspace : FilePath) : Reading φ Failure (Option Lock) := do
  let text ← readOptional P (lockPath workspace)
  Reading.ofExcept (text.mapM fun text => (parseLock P text (lockPath workspace)).mapError fun error =>
    cliFailure "E_LOCK_PARSE" ("failed to parse " ++ FilePath.toString (lockPath workspace) ++ ": " ++ error.message)
      .userError)

/-- The provenance of a pushed manifest; its tag. -/
def publishAttestation (flags : PublishFlags) (tag manifestDigest version key : String) :
    Run φ PublishFailure String := do
  let lock ← (Run.read (publishedLock P flags.workspace)).mapError .reported
  let statement := provenanceStatement { reference := flags.ociRef, tag, manifestDigest, lock, version }
  let envelope ← Effect.ofExcept
    ((signDsse W key "application/vnd.in-toto+json" statement (cosignPassphrase P)).mapError cosignFailed)
  (pushAttestation P credentials flags.ociRef manifestDigest envelope).mapError fun error => publishFailed error.message

/-- Push the tarball, then sign and attest what was pushed. -/
def publishTarball (flags : PublishFlags) (tag version : String) (key : Option String) (tarball : Bytes) :
    Run φ PublishFailure PublishOutput := do
  let pushed ← (pushPackage P credentials flags.ociRef tag tarball version).mapError fun error =>
    publishFailed error.message
  match key with
  | none =>
    pure { oci_ref := flags.ociRef, tag, manifest_digest := pushed.manifestDigest, layer_digest := pushed.layerDigest,
           layer_size := pushed.layerSize, signature_tag := none, attestation_tag := none }
  | some key => do
    let signatureTag ← publishSignature P W credentials flags.ociRef pushed.manifestDigest key
    let attestationTag ← if flags.noAttest then pure none
      else some <$> publishAttestation P W credentials flags tag pushed.manifestDigest version key
    pure { oci_ref := flags.ociRef, tag, manifest_digest := pushed.manifestDigest, layer_digest := pushed.layerDigest,
           layer_size := pushed.layerSize, signature_tag := some signatureTag, attestation_tag := attestationTag }

def publish (version : String) (flags : PublishFlags) : Run φ PublishFailure PublishOutput := do
  let manifest ← (Run.read ((loadManifest P flags.workspace).mapError (manifestFailure none))).mapError .reported
  let vendored ← vendorTrees P services flags.workspace
  let tarball ← (Run.read (packWorkspace P flags.workspace vendored)).mapError fun error =>
    .reported (cliFailure "E_IO" error.message .userError)
  let key ← (Run.read (privateKey P flags manifest)).mapError .reported
  publishTarball P W credentials flags (flags.tag.getD manifest.package.version) version key tarball

/-- What a publish of the workspace pushes: the tarball it packs, and the key it signs with. -/
structure Publication (flags : PublishFlags) (w : World φ) where
  manifest : Manifest
  vendored : List VendorTree
  /-- The world in which the push starts. -/
  packed : World φ
  tarball : Bytes
  key : Option String
  loads : loadManifest P flags.workspace w.fs = .ok manifest
  resolves : vendorTrees P services flags.workspace w = ((.ok vendored : Except PublishFailure _), packed)
  packs : packWorkspace P flags.workspace vendored packed.fs = .ok tarball
  reads_key : privateKey P flags manifest packed.fs = .ok key

omit [FileSystem φ] in
theorem read_ok {ε α : Type} {m : Reading φ ε α} {a : α} {w w' : World φ} :
    Run.read m w = (.ok a, w') ↔ m w.fs = .ok a ∧ w = w' := by
  simp [Run.read]

/-- A publish pushes what it has packed. -/
theorem publish_iff {version : String} {flags : PublishFlags} {w w' : World φ} {output : PublishOutput} :
    publish P W services credentials version flags w = (.ok output, w') ↔
      ∃ p : Publication P services flags w,
        publishTarball P W credentials flags (flags.tag.getD p.manifest.package.version) version p.key p.tarball
          p.packed = (.ok output, w') := by
  rw [publish]
  constructor
  · intro h
    obtain ⟨manifest, w₁, hloaded, h⟩ := Effect.bind_ok.mp h
    obtain ⟨vendored, packed, hvendored, h⟩ := Effect.bind_ok.mp h
    obtain ⟨tarball, w₂, hpacked, h⟩ := Effect.bind_ok.mp h
    obtain ⟨key, w₃, hread, h⟩ := Effect.bind_ok.mp h
    obtain ⟨hmanifest, rfl⟩ := read_ok.mp (Effect.mapError_ok.mp hloaded)
    obtain ⟨htarball, rfl⟩ := read_ok.mp (Effect.mapError_ok.mp hpacked)
    obtain ⟨hkey, rfl⟩ := read_ok.mp (Effect.mapError_ok.mp hread)
    exact ⟨⟨manifest, vendored, packed, tarball, key, Reading.mapError_ok.mp hmanifest, hvendored, htarball, hkey⟩, h⟩
  · rintro ⟨⟨manifest, vendored, packed, tarball, key, hmanifest, hvendored, htarball, hkey⟩, h⟩
    have hloaded : (Run.read ((loadManifest P flags.workspace).mapError (manifestFailure none)) : Run φ Failure _) w =
        (.ok manifest, w) := read_ok.mpr ⟨Reading.mapError_ok.mpr hmanifest, rfl⟩
    have hpacked : (Run.read (packWorkspace P flags.workspace vendored) : Run φ _ _) packed = (.ok tarball, packed) :=
      read_ok.mpr ⟨htarball, rfl⟩
    have hread : (Run.read (privateKey P flags manifest) : Run φ _ _) packed = (.ok key, packed) := read_ok.mpr ⟨hkey, rfl⟩
    exact (Effect.bind_of_ok (Effect.mapError_ok.mpr hloaded)).trans ((Effect.bind_of_ok hvendored).trans
      ((Effect.bind_of_ok (Effect.mapError_ok.mpr hpacked)).trans
        ((Effect.bind_of_ok (Effect.mapError_ok.mpr hread)).trans h)))

end Verb

end Akua
