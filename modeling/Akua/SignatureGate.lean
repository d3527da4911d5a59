import Akua.Workspace

/-! The signature gate. With a public key configured, the files of an OCI dependency come back
    through a fresh pull, which verifies the manifest that names their layer, or through a copy that
    is already here: the cache, the vendored tree or the generated schemas. Each of these is taken
    only where `akua.lock` records a signature of this key for the digest that comes back. -/

namespace Akua

variable (P : Platform)

/-- The lock's entry for the dependency records a signature of this key for the digest. -/
def Vouched (entries : List LockedPackage) (name oci version publicKeyPem digest : String) : Prop :=
  ∃ reference entry, keyedSignatureRef P publicKeyPem = .ok reference ∧ entry ∈ entries ∧
    entry.name = name ∧ entry.source = oci ∧ entry.version = version ∧
    entry.signature = some reference ∧ entry.digest = digest

/-- This key verified the manifest that names the layer with the digest. -/
def VerifiedNow (publicKeyPem digest : String) (trace : List Event) : Prop :=
  ∃ bytes manifest layer, decodeOciManifest P bytes = .ok manifest ∧ layer ∈ manifest.layers ∧
    layer.digest = digest ∧ .signatureVerified publicKeyPem (sha256 P bytes) ∈ trace

section Routes

variable {P} {φ : Type} [FileSystem φ] {credentials : CredentialStore} {request : DependencyRequest}
  {isScoped : Bool} {w w' : World φ} {reference : String} {spec : DependencySpec}

/-- The entry of the dependency records this signature for this digest. -/
def Recorded (request : DependencyRequest) (reference digest : String) : Prop :=
  ∃ entry, (request.locked = some entry ∨ request.pinned = some entry) ∧
    entry.signature = some reference ∧ entry.digest = digest

omit [FileSystem φ] in
theorem vendoredSource_recorded {tree : DependencyTree} {source : SourceTree}
    (h : vendoredSource P request spec tree = .ok source) (hspec : spec.isOci = true)
    (htrusted : request.trustedSignature = some reference) :
    Recorded request reference source.digest := by
  unfold vendoredSource at h
  rw [if_pos ⟨hspec, by rw [htrusted]; rfl⟩] at h
  by_cases hany : (request.locked.any fun e => e.signature = request.trustedSignature ∧
      e.digest = vendoredDigest spec request.locked tree.digest) = true
  · rw [if_pos hany] at h
    cases h
    obtain ⟨entry, hentry, hmatch⟩ := (Option.any_eq_true _ _).mp hany
    obtain ⟨hsignature, hdigest⟩ := of_decide_eq_true hmatch
    exact ⟨entry, Or.inl hentry, hsignature.trans htrusted, hdigest⟩
  · rw [if_neg hany] at h
    cases h

theorem fromVendored_recorded {source : SourceTree}
    (h : fromVendored P request spec isScoped w = (.ok source, w')) (hspec : spec.isOci = true)
    (htrusted : request.trustedSignature = some reference) :
    Recorded request reference source.digest := by
  obtain ⟨tree, w₁, -, h⟩ := Effect.bind_ok.mp h
  exact vendoredSource_recorded (Effect.ofExcept_ok.mp h).1 hspec htrusted

/-- Generated schemas are used only when the lock pins what they were generated from. -/
theorem fromGenerated_recorded {selector : String} {resolved : ResolvedDependency}
    (h : fromGenerated P request selector w = (.ok (some resolved), w'))
    (hspec : (dependencySpec request.dependency).isOci = true)
    (htrusted : request.trustedSignature = some reference) :
    Recorded request reference resolved.digest := by
  unfold fromGenerated at h
  dsimp only at h
  split at h
  · cases h
  obtain ⟨generated, -, h⟩ := Run.read_bind_ok.mp h
  cases generated with
  | none => cases h
  | some tree =>
    dsimp only at h
    by_cases hstale : generatedStale P request selector tree = true
    · rw [if_pos hstale] at h
      cases h
    rw [if_neg hstale] at h
    by_cases hunsigned : (dependencySpec request.dependency).isOci = true ∧
        request.trustedSignature.isSome = true ∧
        request.locked.bind LockedPackage.signature ≠ request.trustedSignature
    · rw [if_pos hunsigned] at h
      cases h
    rw [if_neg hunsigned] at h
    cases h
    have hsignature : request.locked.bind LockedPackage.signature = some reference := by
      rw [← htrusted]
      by_contra hne
      exact hunsigned ⟨hspec, by rw [htrusted]; rfl, hne⟩
    obtain ⟨entry, hentry, hsigned⟩ := Option.bind_eq_some_iff.mp hsignature
    refine ⟨entry, Or.inl hentry, hsigned, ?_⟩
    have hlocked : (request.locked.any fun entry => entry.digest = tree.provenance.digest ∧
        entry.crds_digest = some (treeDigest P tree.files)) = true := by
      unfold generatedStale at hstale
      simp only [Bool.or_eq_true, not_or, Bool.not_eq_true'] at hstale
      simpa using hstale.2
    rw [hentry, Option.any_some] at hlocked
    exact (of_decide_eq_true hlocked).1

/-- A pull is of a verified manifest's layer, or of the pin with its recorded signature. -/
theorem fromOci_signed {oci version pem : String} {source : SourceTree}
    (h : fromOci P (.live P credentials) request oci version isScoped w = (.ok source, w'))
    (hkey : request.cosignPublicKey = some pem)
    (hreference : keyedSignatureRef P pem = .ok reference) :
    VerifiedNow P pem source.digest w'.trace ∨ Recorded request reference source.digest := by
  obtain ⟨_, w₁, -, h⟩ := Effect.bind_ok.mp h
  obtain ⟨pulled, w₂, hpull, h⟩ := Effect.bind_ok.mp h
  obtain ⟨tree, -, h⟩ := Run.read_bind_ok.mp h
  cases h
  obtain ⟨hsignature, -, hroute⟩ := pull_ok P (Effect.mapError_ok.mp hpull)
  dsimp only at hsignature hroute
  have hsigned : pulled.signature = some reference := by
    rw [hkey] at hsignature
    simp only [Option.mapM_some, hreference] at hsignature
    exact (Except.ok.inj hsignature).symm
  rcases hroute with ⟨hpin, hcached⟩ | ⟨bytes, manifest, layer, hdecode, hlayer, hdigest, hverified⟩
  · obtain ⟨entry, hentry, hpinned⟩ := Option.map_eq_some_iff.mp hpin
    rw [hsigned, hentry, Option.bind_some] at hcached
    exact Or.inr ⟨entry, Or.inr hentry, hcached.resolve_left (by simp), hpinned⟩
  · exact Or.inl ⟨bytes, manifest, layer, hdecode, hlayer, hdigest, hverified pem hkey⟩

/-- An OCI source without `replace` comes vendored or pulled. -/
theorem resolveSourceTree_signed {oci version pem : String} {source : SourceTree}
    (h : resolveSourceTree P (.live P credentials) request isScoped w = (.ok source, w'))
    (hspec : dependencySpec request.dependency = .oci oci version)
    (hreplace : request.dependency.replace = none) (hkey : request.cosignPublicKey = some pem)
    (hreference : keyedSignatureRef P pem = .ok reference)
    (htrusted : request.trustedSignature = some reference) :
    VerifiedNow P pem source.digest w'.trace ∨ Recorded request reference source.digest := by
  unfold resolveSourceTree at h
  rw [hreplace] at h
  obtain ⟨vendored, w₁, -, h⟩ := Effect.bind_ok.mp h
  cases vendored with
  | true =>
    rw [if_pos rfl, hspec] at h
    exact Or.inr (fromVendored_recorded h rfl htrusted)
  | false =>
    rw [if_neg (by simp), hspec] at h
    exact fromOci_signed h hkey hreference

theorem resolveDependency_signed {oci version pem : String} {resolved : ResolvedDependency}
    (h : resolveDependency P (.live P credentials) request w = (.ok resolved, w'))
    (hspec : dependencySpec request.dependency = .oci oci version)
    (hreplace : request.dependency.replace = none) (hkey : request.cosignPublicKey = some pem)
    (hreference : keyedSignatureRef P pem = .ok reference)
    (htrusted : request.trustedSignature = some reference) :
    VerifiedNow P pem resolved.digest w'.trace ∨ Recorded request reference resolved.digest := by
  unfold resolveDependency at h
  cases hselector : crdSelector request.dependency with
  | none =>
    rw [hselector] at h
    obtain ⟨tree, w₁, htree, h⟩ := Effect.bind_ok.mp h
    cases h
    exact resolveSourceTree_signed htree hspec hreplace hkey hreference htrusted
  | some selector =>
    rw [hselector] at h
    obtain ⟨generated, w₁, hgenerated, h⟩ := Effect.bind_ok.mp h
    cases generated with
    | some found =>
      cases h
      exact Or.inr (fromGenerated_recorded hgenerated (by rw [hspec]; rfl) htrusted)
    | none =>
      obtain ⟨tree, w₂, htree, h⟩ := Effect.bind_ok.mp h
      have hsigned := resolveSourceTree_signed htree hspec hreplace hkey hreference htrusted
      cases h
      exact hsigned

/-- The entry a request was made with is one of the lock's, for the dependency as it is declared. -/
theorem vouched_of_recorded {workspace : FilePath} {manifest : Manifest} {options : ResolveOptions}
    {context : ResolveContext} {fs : φ} {name oci version pem digest : String}
    {dependency : Dependency}
    (hcontext : resolveContext P workspace manifest options fs = .ok context)
    (hspec : dependencySpec dependency = .oci oci version)
    (hreference : keyedSignatureRef P pem = .ok reference)
    (h : Recorded (context.request P (name, dependency)) reference digest) :
    Vouched P context.entries name oci version pem digest := by
  obtain ⟨lock, -, -, -, -, hentries, hpins, -⟩ := resolveContext_ok hcontext
  obtain ⟨entry, hentry, hsignature, hdigest⟩ := h
  have hdeclared : declaredBy name dependency entry = true := by
    rcases hentry with h | h <;> exact List.find?_some h
  have hmem : entry ∈ context.entries := by
    rcases hentry with h | h
    · exact List.mem_of_find?_eq_some h
    · have hpin : entry ∈ context.pins := List.mem_of_find?_eq_some h
      obtain ⟨l, rfl, hl⟩ := mem_of_pinsOf (hpins ▸ hpin)
      rw [hentries]
      exact hl
  simp only [declaredBy, lockRecordFor, hspec, DependencySpec.isHelm, Bool.and_eq_true,
    decide_eq_true_eq, Bool.false_or] at hdeclared
  exact ⟨reference, entry, hreference, hmem, hdeclared.1.1, hdeclared.1.2, hdeclared.2, hsignature,
    hdigest⟩

end Routes

/-- With a key configured and checked, an OCI dependency without `replace` comes back only when this
    run verified the manifest that names its layer, or when the lock's entry for its name, source
    and version records this key's signature for the digest that comes back. -/
theorem signature_gate {φ : Type} [FileSystem φ] {credentials : CredentialStore} {workspace : FilePath}
    {manifest : Manifest} {options : ResolveOptions} {context : ResolveContext} {fs : φ}
    {name oci version : String} {dependency : Dependency} {resolved : ResolvedDependency}
    {disk : φ} {requests : List HttpRequest} {w' : World φ}
    (hcontext : resolveContext P workspace manifest options fs = .ok context)
    (hkey : (manifest.signing.bind Signing.cosign_public_key).isSome)
    (hverify : options.verifySignatures = true)
    (hspec : dependencySpec dependency = .oci oci version) (hreplace : dependency.replace = none)
    (h : resolveDependency P (.live P credentials) (context.request P (name, dependency))
      { fs := disk, requests } = (.ok resolved, w')) :
    ∃ pem, configuredCosignKey P workspace manifest fs = .ok (some pem) ∧
      (VerifiedNow P pem resolved.digest w'.trace ∨
        Vouched P context.entries name oci version pem resolved.digest) := by
  obtain ⟨lock, -, hsigning, htrusted, -, -, -, -⟩ := resolveContext_ok hcontext
  rw [signingKey, if_pos hverify] at hsigning
  obtain ⟨file, hfile⟩ := Option.isSome_iff_exists.mp hkey
  have hpem : ∃ pem, context.cosignPublicKey = some pem := by
    unfold configuredCosignKey at hsigning
    rw [hfile] at hsigning
    rw [Reading.mapError_ok, Reading.map_run] at hsigning
    rcases hread : readFileString P (FilePath.join workspace file) fs with error | text <;>
      rw [hread] at hsigning
    · cases hsigning
    · exact ⟨text, (Except.ok.inj hsigning).symm⟩
  obtain ⟨pem, hpem⟩ := hpem
  rw [hpem] at htrusted
  have hreference : ∃ reference, keyedSignatureRef P pem = .ok reference ∧
      context.trustedSignature = some reference := by
    rw [Option.mapM_some] at htrusted
    rcases hr : keyedSignatureRef P pem with error | reference <;> rw [hr] at htrusted
    · cases htrusted
    · exact ⟨reference, rfl, (Except.ok.inj htrusted).symm⟩
  obtain ⟨reference, hreference, htrusted⟩ := hreference
  refine ⟨pem, hpem ▸ hsigning, ?_⟩
  exact (resolveDependency_signed h hspec hreplace hpem hreference htrusted).imp_right
    (vouched_of_recorded hcontext hspec hreference)

/-! ### A vendored copy -/

/-- `web`, vendored and locked with a signature of the key in `/ws/k`. -/
def signedWorkspace : SampleWorkspace where
  dependencies := [("web", [("oci", "oci://r/web"), ("version", "2")])]
  signing := [("cosign_public_key", "k")]
  lock := [[("name", "web"), ("version", "2"), ("source", "oci://r/web"),
    ("digest", "sha256:0000000000000000000000000000000000000000000000000000000000000000"),
    ("signature", "cosign:key:sha256:0000000000000000000000000000000000000000000000000000000000000000")]]
  files := [("ws/k", "AAAA"), ("ws/.akua/vendor/web/f", "x")]

def signedDependency : Dependency where
  oci := some "oci://r/web"
  version := some "2"

def signedManifest : Manifest where
  package := { name := "app", version := "0.1.0", edition := "akua.dev/v1alpha1" }
  signing := some { cosign_public_key := some "k" }
  dependencies := some (Table.ofList [("web", signedDependency)])

def signedEntry : LockedPackage where
  name := "web"
  version := "2"
  source := "oci://r/web"
  digest := "sha256:0000000000000000000000000000000000000000000000000000000000000000"
  signature :=
    some "cosign:key:sha256:0000000000000000000000000000000000000000000000000000000000000000"

def signedContext : ResolveContext where
  workspace := SampleWorkspace.root
  entries := [signedEntry]
  pins := [signedEntry]
  cosignPublicKey := some "AAAA"
  trustedSignature := signedEntry.signature
  options := { offline := true }

theorem resolveContext_signed : resolveContext signedWorkspace.host SampleWorkspace.root
    signedManifest { offline := true } signedWorkspace.disk = .ok signedContext := by
  have hvalid : validateLock signedWorkspace.host (lockDocument signedWorkspace.lock)
      ["ws", "akua.lock"] = .ok { version := "1", package := some [signedEntry] } := by
    decide +kernel
  have hlock : readLock signedWorkspace.host SampleWorkspace.root signedWorkspace.disk =
      .ok (some { version := "1", package := some [signedEntry] }) := by
    rw [SampleWorkspace.readLock_eq, hvalid]
    rfl
  have hkey : signingKey signedWorkspace.host SampleWorkspace.root signedManifest
      { offline := true } signedWorkspace.disk = .ok (some "AAAA") := by
    decide +kernel
  have htrusted : (some "AAAA").mapM (keyedSignatureRef signedWorkspace.host) =
      .ok signedEntry.signature := by
    decide +kernel
  have hremote : Text.startsWith signedEntry.source "path+file://" = false := by decide
  rw [resolveContext, Reading.bind_of_ok hlock, Reading.bind_of_ok hkey, htrusted]
  simp [Except.mapError, Reading.bind_of_ok, pinsOf, pinnedEntries, Lock.packages, signedContext, hremote]

theorem signature_gate_vendored :
    ∃ pem, configuredCosignKey signedWorkspace.host SampleWorkspace.root signedManifest
        signedWorkspace.disk = .ok (some pem) ∧
      ∃ resolved w', resolveDependency signedWorkspace.host signedWorkspace.services
          (signedContext.request signedWorkspace.host ("web", signedDependency))
          { fs := signedWorkspace.disk } = (.ok resolved, w') ∧
        (VerifiedNow signedWorkspace.host pem resolved.digest w'.trace ∨
          Vouched signedWorkspace.host [signedEntry] "web" "oci://r/web" "2" pem
            resolved.digest) := by
  obtain ⟨resolved, w', h⟩ := Effect.exists_ok (show (resolveDependency signedWorkspace.host
    signedWorkspace.services (signedContext.request signedWorkspace.host
      ("web", signedDependency)) { fs := signedWorkspace.disk }).1.toOption.isSome = true by
    decide +kernel)
  obtain ⟨pem, hpem, hsigned⟩ := signature_gate signedWorkspace.host resolveContext_signed rfl rfl
    rfl rfl h
  exact ⟨pem, hpem, resolved, w', h, hsigned⟩

end Akua
