import Akua.Workspace

/-! `verify`: `akua.toml` against `akua.lock`, the trees of the path dependencies, the recorded
    signatures and the attestations. A clean report does not say that a render is pinned: `verify`
    finds a dependency's entry by its name alone, resolution by name, source and version. The main
    result says when a clean report does pin every fetch. -/

namespace Akua

variable (P : Platform)

inductive Violation where
  | unlockedDep (name : String)
  | orphanLocked (name version : String)
  | missingSignature (name version : String)
  | signatureUnverifiable (name version signature : String)
  | signatureMismatch (name version expected actual : String)
  | pathDigestDrift (name expected actual : String)
  | pathMissing (name : String) (path : FilePath)
  | attestationMissing (name ociRef : String)
  | attestationInvalid (name ociRef detail : String)
  | attestationSubjectMismatch (name expected claimed : String)
deriving DecidableEq

/-- Reported without failing: what `strict_signing` would reject when it is off. -/
structure UnsignedDep where
  name : String
  version : String
deriving DecidableEq

structure VerifyOutput where
  declaredDeps : Nat
  lockedPackages : Nat
  strictSigning : Bool
  violations : List Violation
  warnings : List UnsignedDep
deriving DecidableEq

/-! ### The checks -/

/-- Declared dependencies without an entry of their name. -/
def unlockedViolations (declared : Table String Dependency) (packages : List LockedPackage) :
    List Violation :=
  ((Text.sorted declared.keys).filter fun name => !packages.any fun entry => entry.name = name).map
    .unlockedDep

/-- Entries without a declared dependency of their name. -/
def orphanViolations (declared : Table String Dependency) (packages : List LockedPackage) :
    List Violation :=
  (packages.filter fun entry => (property declared entry.name).isNone).map fun entry =>
    .orphanLocked entry.name entry.version

def LockedPackage.isPath (entry : LockedPackage) : Bool :=
  Text.startsWith entry.source "path+file://"

/-- Signatures are required by default only when there is a key to check them against. -/
def strictSigning (manifest : Manifest) : Bool :=
  manifest.package.strict_signing.getD (manifest.signing.bind Signing.cosign_public_key).isSome

/-- A recorded signature counts only if it names the configured key. -/
def signatureViolation (trusted : Option String) (entry : LockedPackage) : Option Violation :=
  match entry.signature, trusted with
  | none, _ => some (.missingSignature entry.name entry.version)
  | some signature, none => some (.signatureUnverifiable entry.name entry.version signature)
  | some signature, some trusted =>
    if signature = trusted then none
    else some (.signatureMismatch entry.name entry.version trusted signature)

def unsignedWarnings (packages : List LockedPackage) : List UnsignedDep :=
  (packages.filter fun entry => !entry.isPath && entry.signature.isNone).map fun entry =>
    ⟨entry.name, entry.version⟩

/-- What `strict_signing` rejects, given the text of the configured key. -/
def signatureViolations (manifest : Manifest) (packages : List LockedPackage)
    (publicKey : Option String) (keyFile : Option FilePath) : Except Failure (List Violation) :=
  if strictSigning manifest then do
    let trusted ← (publicKey.mapM (keyedSignatureRef P)).mapError fun message =>
      cliFailure "E_COSIGN_VERIFY" message .userError keyFile
    .ok ((packages.filter fun entry => !entry.isPath).filterMap (signatureViolation trusted))
  else .ok []

/-- A path dependency whose tree is not the one its entry records. -/
def driftViolation (workspace : FilePath) (entry : LockedPackage) (requested : String) :
    Option DependencyTree → List Violation
  | none => [.pathMissing entry.name (joinPath workspace requested)]
  | some tree =>
    if tree.digest ≠ entry.digest then [.pathDigestDrift entry.name entry.digest tree.digest] else []

/-- The subjects of an in-toto statement, by their digests. -/
def decodeStatement (text : String) : Except String (List (Table String String)) :=
  match P.parseJson text with
  | .error message => .error message
  | .ok raw =>
    let subject := Value.required (Value.asRecord Value.asString) "digest"
    match Value.required (Value.asArray subject) "subject" raw with
    | some subjects => .ok subjects
    | none => .error (P.schemaIssue raw)

/-- The statement must describe the manifest. -/
def statementViolation (entry : LockedPackage) (manifestDigest : String)
    (subjects : List (Table String String)) : Option Violation :=
  if subjects.any fun digest => digest.get? "sha256" = some (Text.stripPrefix manifestDigest "sha256:")
  then none
  else some (.attestationSubjectMismatch entry.name manifestDigest
    ("sha256:" ++ (subjects.head?.bind (Table.get? · "sha256")).getD "<absent>"))

/-- The artifact must carry the pinned layer, and its attestation must verify and describe it. -/
def foundViolation (entry : LockedPackage) (publicKey : String) (found : AttestationFound) :
    Option Violation :=
  let invalid (detail : String) : Option Violation :=
    some (.attestationInvalid entry.name entry.source detail)
  if entry.digest ∉ found.layerDigests then
    some (.attestationSubjectMismatch entry.name entry.digest
      (found.layerDigests.head?.getD "<absent>"))
  else
    match found.envelope with
    | none => some (.attestationMissing entry.name entry.source)
    | some envelope =>
      match verifyDsse P publicKey envelope with
      | .error message => invalid message
      | .ok payload =>
        match decodeStatement P (decodeText P payload) with
        | .error message => invalid ("in-toto statement parse: " ++ message)
        | .ok subjects => statementViolation entry found.manifestDigest subjects

section Disk

variable {φ : Type} [FileSystem φ]

def pathViolations (workspace : FilePath) (declared : Table String Dependency) (entry : LockedPackage) :
    Reading φ Failure (List Violation) :=
  match (property declared entry.name).bind Dependency.path with
  | none => pure []
  | some requested => do
    let tree ← (pathDependencyTree P workspace entry.name requested).option
    pure (driftViolation workspace entry requested tree)

variable (services : FetchServices φ)

def attestationViolation {ε : Type} (publicKey : String) (entry : LockedPackage) :
    Run φ ε (Option Violation) := do
  let found ← (services.pullAttestation entry.source entry.version).result
  match found with
  | .error error =>
    pure (some (.attestationInvalid entry.name entry.source ("pull failed: " ++ error.message)))
  | .ok found => pure (foundViolation P entry publicKey found)

/-- The text of the configured key file. -/
def readPublicKey (keyFile : Option FilePath) : Reading φ Failure (Option String) :=
  match keyFile with
  | none => pure none
  | some file => (some <$> readFileString P file).mapError fun error =>
    cliFailure "E_IO" (osMessage error) .userError (some file) (some
      "akua.toml [signing].cosign_public_key must resolve to a PEM-encoded public key file.")

def attestationViolations (publicKey : Option String) (packages : List LockedPackage) :
    Run φ Failure (List Violation) :=
  match publicKey with
  | none => pure []
  | some pem =>
    List.reduceOption <$> forEach (attestationViolation P services pem)
      (packages.filter fun entry => Text.startsWith entry.source "oci://")

/-- The lockfile, which `verify` must have. -/
def requireLock (workspace : FilePath) : Reading φ Failure Lock := do
  let text ← readOptional P (lockPath workspace)
  match text with
  | none => .fail (cliFailure "E_LOCK_MISSING" "akua.lock not found" .userError
      (some (lockPath workspace)) (some "run `akuapkg add` to resolve deps and generate the lockfile"))
  | some text => .ofExcept ((parseLock P text (lockPath workspace)).mapError fun error =>
      cliFailure "E_LOCK_PARSE" error.message .userError (some (lockPath workspace)))

/-- The report on a manifest and a lock. -/
def verifyLoaded (workspace : FilePath) (manifest : Manifest) (lock : Lock) :
    Run φ Failure VerifyOutput := do
  let declared := manifest.declared
  let packages := lock.packages
  let keyFile := (manifest.signing.bind Signing.cosign_public_key).map (joinPath workspace)
  let publicKey ← Run.read (readPublicKey P keyFile)
  let signatures ← Effect.ofExcept (signatureViolations P manifest packages publicKey keyFile)
  let paths ← Run.read (forEach (pathViolations P workspace declared)
    (packages.filter LockedPackage.isPath))
  let attestations ← attestationViolations P services publicKey packages
  pure
    { declaredDeps := declared.keys.length
      lockedPackages := packages.length
      strictSigning := strictSigning manifest
      violations := unlockedViolations declared packages ++ orphanViolations declared packages ++
        signatures ++ paths.flatten ++ attestations
      warnings := if strictSigning manifest then [] else unsignedWarnings packages }

/-- The report of `verify`. -/
def verifyReport (workspace : FilePath) : Run φ Failure VerifyOutput := do
  let manifest ← Run.read ((loadManifest P workspace).mapError
    (manifestFailure (some "run `akuapkg init` or check the working directory")))
  let lock ← Run.read (requireLock P workspace)
  verifyLoaded P services workspace manifest lock

/-- `verify`: the report, and its exit code. -/
def workspaceVerify (workspace : FilePath) : Run φ Failure VerifyOutput := do
  let output ← verifyReport P services workspace
  if output.violations.isEmpty then pure output else Effect.fail (.exitWith .userError)

end Disk

/-! ### What a clean report says -/

theorem unlockedViolations_eq_nil {declared : Table String Dependency}
    {packages : List LockedPackage} :
    unlockedViolations declared packages = [] ↔
      ∀ name ∈ declared.keys, ∃ entry ∈ packages, entry.name = name := by
  simp [unlockedViolations, List.filter_eq_nil_iff]

section Clean

variable {φ : Type} [FileSystem φ] {services : FetchServices φ} {workspace : FilePath}
  {manifest : Manifest} {lock : Lock} {output : VerifyOutput} {w w' : World φ}

/-- What a report is made of. -/
theorem verifyReport_ok (h : verifyReport P services workspace w = (.ok output, w')) :
    ∃ manifest lock publicKey signatures paths attestations,
      loadManifest P workspace w.fs = .ok manifest ∧ requireLock P workspace w.fs = .ok lock ∧
      signatureViolations P manifest lock.packages publicKey
        ((manifest.signing.bind Signing.cosign_public_key).map (joinPath workspace)) =
          .ok signatures ∧
      forEach (pathViolations P workspace manifest.declared)
        (lock.packages.filter LockedPackage.isPath) w.fs = .ok paths ∧
      attestationViolations P services publicKey lock.packages w = (.ok attestations, w') ∧
      output.violations = unlockedViolations manifest.declared lock.packages ++
        orphanViolations manifest.declared lock.packages ++ signatures ++ paths.flatten ++
        attestations := by
  obtain ⟨manifest, hmanifest, h⟩ := Run.read_bind_ok.mp h
  obtain ⟨lock, hlock, h⟩ := Run.read_bind_ok.mp h
  obtain ⟨publicKey, -, h⟩ := Run.read_bind_ok.mp h
  obtain ⟨signatures, hsignatures, h⟩ := Effect.ofExcept_bind_ok.mp h
  obtain ⟨paths, hpaths, h⟩ := Run.read_bind_ok.mp h
  obtain ⟨attestations, w₆, hattestations, h⟩ := Effect.bind_ok.mp h
  cases h
  exact ⟨manifest, lock, publicKey, signatures, paths, attestations,
    Reading.mapError_ok.mp hmanifest, hlock, hsignatures, hpaths, hattestations, rfl⟩

theorem verifyReport_of_loaded (hmanifest : loadManifest P workspace w.fs = .ok manifest)
    (hlock : requireLock P workspace w.fs = .ok lock) :
    verifyReport P services workspace w = verifyLoaded P services workspace manifest lock w := by
  rw [verifyReport, Run.read_bind_of_ok (Reading.mapError_ok.mpr hmanifest),
    Run.read_bind_of_ok hlock]

theorem workspaceVerify_ok (h : workspaceVerify P services workspace w = (.ok output, w')) :
    verifyReport P services workspace w = (.ok output, w') ∧ output.violations = [] := by
  obtain ⟨report, w₁, hreport, h⟩ := Effect.bind_ok.mp h
  by_cases hclean : report.violations.isEmpty = true
  · rw [if_pos hclean] at h
    cases h
    exact ⟨hreport, List.isEmpty_iff.mp hclean⟩
  · rw [if_neg hclean] at h
    cases h

theorem workspaceVerify_of_loaded (hmanifest : loadManifest P workspace w.fs = .ok manifest)
    (hlock : requireLock P workspace w.fs = .ok lock) :
    workspaceVerify P services workspace w = (do
      let output ← verifyLoaded P services workspace manifest lock
      if output.violations.isEmpty then pure output
      else Effect.fail (.exitWith .userError)) w := by
  rw [workspaceVerify]
  exact Effect.bind_congr (verifyReport_of_loaded P hmanifest hlock)

/-- Where `verify` finds nothing, every declared dependency has an entry of its name. -/
theorem verify_clean_locked (h : workspaceVerify P services workspace w = (.ok output, w'))
    (hmanifest : loadManifest P workspace w.fs = .ok manifest)
    (hlock : requireLock P workspace w.fs = .ok lock) :
    ∀ name ∈ manifest.declared.keys, ∃ entry ∈ lock.packages, entry.name = name := by
  obtain ⟨hreport, hclean⟩ := workspaceVerify_ok P h
  obtain ⟨manifest', lock', _, _, _, _, hmanifest', hlock', -, -, -, hviolations⟩ :=
    verifyReport_ok P hreport
  cases hmanifest.symm.trans hmanifest'
  cases hlock.symm.trans hlock'
  rw [hclean] at hviolations
  simp only [List.nil_eq, List.append_eq_nil_iff] at hviolations
  exact unlockedViolations_eq_nil.mp hviolations.1.1.1.1

/-! ### When a clean report pins every fetch -/

/-- The entry records the declared source, and the declared version or one that meets the
    requirement. -/
def ForDeclared (dependency : Dependency) (entry : LockedPackage) : Prop :=
  entry.source = (lockRecordFor dependency).source ∧
    match dependencySpec dependency with
    | .helm _ _ requirement => P.semverSatisfies entry.version requirement = true
    | _ => entry.version = (lockRecordFor dependency).version

/-- A render fetches the dependency against the digest of an entry for what it declares. -/
def Pinned (lock : Lock) (name : String) (dependency : Dependency) : Prop :=
  ∃ entry, lockEntryFor (pinnedEntries lock) name dependency = some entry ∧
    ForDeclared P dependency entry

/-- An entry that was written for another declaration, or pins no fetch. -/
def Stale (dependency : Dependency) (entry : LockedPackage) : Prop :=
  ¬ (ForDeclared P dependency entry ∧ entry.isPath = false)

/-- Where a stale entry bears the dependency's name, an entry that is not stale comes before every
    other one that resolution would take. -/
def StaleCovered (packages : List LockedPackage) (name : String) (dependency : Dependency) : Prop :=
  (∃ entry ∈ packages, entry.name = name ∧ Stale P dependency entry) →
    ∃ before entry after, packages = before ++ entry :: after ∧
      entry.name = name ∧ ¬ Stale P dependency entry ∧
      ∀ e ∈ before, declaredBy name dependency e = true → e.isPath = true

variable {P} in
theorem declaredBy_of_forDeclared {name : String} {dependency : Dependency} {entry : LockedPackage}
    (hname : entry.name = name) (h : ForDeclared P dependency entry) :
    declaredBy name dependency entry = true := by
  obtain ⟨hsource, hversion⟩ := h
  cases hspec : dependencySpec dependency <;> rw [hspec] at hversion <;>
    simp [declaredBy, hname, hsource, hspec, DependencySpec.isHelm, hversion]

theorem lockEntryFor_pinnedEntries {name : String} {dependency : Dependency} :
    lockEntryFor (pinnedEntries lock) name dependency =
      lock.packages.find? fun e => !e.isPath && declaredBy name dependency e := by
  simp [lockEntryFor, pinnedEntries, List.find?_filter, LockedPackage.isPath]

theorem pinned_iff_staleCovered {name : String} {dependency : Dependency}
    (hname : ∃ entry ∈ lock.packages, entry.name = name) :
    Pinned P lock name dependency ↔ StaleCovered P lock.packages name dependency := by
  rw [Pinned, lockEntryFor_pinnedEntries]
  constructor
  · rintro ⟨entry, hfind, hentry⟩ -
    obtain ⟨hmatch, before, after, hsplit, hbefore⟩ := List.find?_eq_some_iff_append.mp hfind
    simp only [Bool.and_eq_true, Bool.not_eq_true'] at hmatch
    refine ⟨before, entry, after, hsplit, ?_, not_not.mpr ⟨hentry, hmatch.1⟩, fun e he hd => ?_⟩
    · simp only [declaredBy, Bool.and_eq_true, decide_eq_true_eq] at hmatch
      exact hmatch.2.1.1
    · simpa [hd] using hbefore e he
  · intro hcovered
    by_cases hstale : ∃ entry ∈ lock.packages, entry.name = name ∧ Stale P dependency entry
    · obtain ⟨before, entry, after, hsplit, hentry, hfresh, hbefore⟩ := hcovered hstale
      obtain ⟨hfor, hpath⟩ := not_not.mp hfresh
      refine ⟨entry, List.find?_eq_some_iff_append.mpr ⟨?_, before, after, hsplit, ?_⟩, hfor⟩
      · simp [hpath, declaredBy_of_forDeclared hentry hfor]
      · intro e he
        have := hbefore e he
        cases hd : declaredBy name dependency e <;> simp_all
    · -- no entry of the name is stale: the first one found will do
      push Not at hstale
      obtain ⟨entry, hmem, hentry⟩ := hname
      obtain ⟨hfor, hpath⟩ := not_not.mp (hstale entry hmem hentry)
      have hsome : (lock.packages.find? fun e => !e.isPath && declaredBy name dependency e).isSome :=
        List.find?_isSome.mpr
          ⟨entry, hmem, by simp [hpath, declaredBy_of_forDeclared hentry hfor]⟩
      obtain ⟨found, hfound⟩ := Option.isSome_iff_exists.mp hsome
      have hmatch := List.find?_some hfound
      simp only [declaredBy, Bool.and_eq_true, decide_eq_true_eq] at hmatch
      exact ⟨found, hfound,
        (not_not.mp (hstale found (List.mem_of_find?_eq_some hfound) hmatch.2.1.1)).1⟩

/-- After a clean `verify`, the render of every remote dependency is pinned to what `akua.toml`
    declares exactly when no stale entry of its name is left uncovered. -/
theorem verify_pins_iff (h : workspaceVerify P services workspace w = (.ok output, w'))
    (hmanifest : loadManifest P workspace w.fs = .ok manifest)
    (hlock : requireLock P workspace w.fs = .ok lock) :
    (∀ name dependency, (name, dependency) ∈ manifest.declared.entries →
      dependency.path = none → dependency.replace = none → Pinned P lock name dependency) ↔
    ∀ name dependency, (name, dependency) ∈ manifest.declared.entries →
      dependency.path = none → dependency.replace = none →
      StaleCovered P lock.packages name dependency := by
  have hiff : ∀ name dependency, (name, dependency) ∈ manifest.declared.entries →
      (Pinned P lock name dependency ↔ StaleCovered P lock.packages name dependency) :=
    fun name dependency hmem => pinned_iff_staleCovered P
      (verify_clean_locked P h hmanifest hlock name (List.mem_map_of_mem hmem))
  exact forall₃_congr fun name dependency hmem =>
    forall₂_congr fun _ _ => hiff name dependency hmem

end Clean

/-! ### An edited version -/

/-- `web` is declared at 2.0.0 and was locked at `version`. -/
def webWorkspace (version : String) : SampleWorkspace where
  dependencies := [("web", [("oci", "oci://registry.example/web"), ("version", "2.0.0")])]
  lock := [[("name", "web"), ("version", version), ("source", "oci://registry.example/web"),
    ("digest", "sha256:5f70bf18a086007016e948b04aed3b82103a36bea41755b6cddfaf10ace3c6ef")]]

def webDependency : Dependency where
  oci := some "oci://registry.example/web"
  version := some "2.0.0"

def webManifest : Manifest where
  package := { name := "app", version := "0.1.0", edition := "akua.dev/v1alpha1" }
  signing := some {}
  dependencies := some (Table.ofList [("web", webDependency)])

def webEntry (version : String) : LockedPackage where
  name := "web"
  version := version
  source := "oci://registry.example/web"
  digest := "sha256:5f70bf18a086007016e948b04aed3b82103a36bea41755b6cddfaf10ace3c6ef"

theorem SampleWorkspace.requireLock_eq {sample : SampleWorkspace} :
    requireLock sample.host root sample.disk =
      (validateLock sample.host (lockDocument sample.lock) ["ws", "akua.lock"]).mapError
        fun error => cliFailure "E_LOCK_PARSE" error.message .userError
          (some ["ws", "akua.lock"]) := by
  have hpath : lockPath root = ["ws", "akua.lock"] := by decide
  rw [requireLock, hpath, Reading.bind_of_ok readOptional_lock]
  simp only [Reading.ofExcept_run, parseLock_lockText]

theorem SampleWorkspace.workspaceVerify_eq {sample : SampleWorkspace} {manifest : Manifest}
    {lock : Lock} (hmanifest : loadManifest sample.host root sample.disk = .ok manifest)
    (hlock : requireLock sample.host root sample.disk = .ok lock) :
    workspaceVerify sample.host sample.services root sample.world = (do
      let output ← verifyLoaded sample.host sample.services root manifest lock
      if output.violations.isEmpty then pure output
      else Effect.fail (.exitWith .userError)) sample.world :=
  workspaceVerify_of_loaded _ hmanifest hlock

def webLock (version : String) : Lock := { version := "1", package := some [webEntry version] }

theorem loadManifest_web (version : String) :
    loadManifest (webWorkspace version).host SampleWorkspace.root (webWorkspace version).disk =
      .ok webManifest := by
  rw [SampleWorkspace.loadManifest_eq]
  rfl

theorem requireLock_web {version : String} (h : validateLock (webWorkspace version).host
    (lockDocument (webWorkspace version).lock) ["ws", "akua.lock"] = .ok (webLock version)) :
    requireLock (webWorkspace version).host SampleWorkspace.root (webWorkspace version).disk =
      .ok (webLock version) := by
  rw [SampleWorkspace.requireLock_eq, h]
  rfl

/-- `verify` finds nothing where `web` was locked at 1.0.0, and no entry pins the fetch of 2.0.0. -/
theorem verify_misses_edited_version :
    (workspaceVerify (webWorkspace "1.0.0").host (webWorkspace "1.0.0").services
      SampleWorkspace.root (webWorkspace "1.0.0").world).1.toOption.isSome ∧
    loadManifest (webWorkspace "1.0.0").host SampleWorkspace.root
      (webWorkspace "1.0.0").world.fs = .ok webManifest ∧
    requireLock (webWorkspace "1.0.0").host SampleWorkspace.root
      (webWorkspace "1.0.0").world.fs = .ok (webLock "1.0.0") ∧
    ("web", webDependency) ∈ webManifest.declared.entries ∧
    webDependency.path = none ∧ webDependency.replace = none ∧
    ¬ Pinned (webWorkspace "1.0.0").host (webLock "1.0.0") "web" webDependency := by
  refine ⟨?_, loadManifest_web _, requireLock_web (by decide +kernel), by decide, rfl, rfl, ?_⟩
  · rw [SampleWorkspace.workspaceVerify_eq (loadManifest_web _)
      (requireLock_web (by decide +kernel))]
    decide +kernel
  · rintro ⟨entry, hfind, -⟩
    have hnone : lockEntryFor (pinnedEntries (webLock "1.0.0")) "web" webDependency = none := by
      decide
    rw [hnone] at hfind
    cases hfind

/-- Locked at 2.0.0, the fetch of `web` is pinned. -/
theorem verify_pins_web :
    Pinned (webWorkspace "2.0.0").host (webLock "2.0.0") "web" webDependency := by
  have hrun : (workspaceVerify (webWorkspace "2.0.0").host (webWorkspace "2.0.0").services
      SampleWorkspace.root (webWorkspace "2.0.0").world).1.toOption.isSome := by
    rw [SampleWorkspace.workspaceVerify_eq (loadManifest_web _)
      (requireLock_web (by decide +kernel))]
    decide +kernel
  obtain ⟨output, w', h⟩ := Effect.exists_ok hrun
  refine (verify_pins_iff _ h (loadManifest_web _) (requireLock_web (by decide +kernel))).mpr ?_ "web"
    webDependency (by decide) rfl rfl
  rintro name dependency hmem - - ⟨entry, hentry, -, hstale⟩
  obtain ⟨rfl, rfl⟩ : name = "web" ∧ dependency = webDependency := by
    simpa [webManifest, Manifest.declared, Table.ofList, Table.set, Table.insert, Table.empty]
      using hmem
  obtain rfl : entry = webEntry "2.0.0" := by simpa [webLock, Lock.packages] using hentry
  exact absurd ⟨⟨rfl, rfl⟩, by decide⟩ hstale

end Akua
