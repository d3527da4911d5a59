import Akua.Workspace

/-! Cache slots. A fetch that `akua.lock` pins looks in the slot its digest names, and unpacks into
    no other. The lock parser asks of a digest only that it starts with a known scheme, so the slot
    is an entry of the source's cache exactly when the rest of the digest is a plain file name. -/

namespace Akua

open Run

variable (P : Platform)

/-- Where a source's slots are. -/
def slotRoot : DependencySpec → FilePath
  | .oci .. => ociSlots P
  | .git .. => gitCheckouts P
  | .helm .. => cacheRoot P .helm
  | .url _ => cacheRoot P .url
  | .path _ => []

/-- The name of the slot that an entry's digest pins for a source; a git dependency is pinned by a
    commit only. -/
def lockedName (spec : DependencySpec) (entry : LockedPackage) : Option String :=
  match spec with
  | .path _ => none
  | .git .. =>
    if Text.startsWith entry.digest "git:" then some (Text.after entry.digest "git:") else none
  | _ => some (Text.stripPrefix entry.digest "sha256:")

/-- A cache directory of the source's own cache, and under the name the lock gives. -/
def LockedSlot (request : DependencyRequest) (e : Event) : Prop :=
  ∀ root slot, e = .cacheSlot root slot → root = slotRoot P (dependencySpec request.dependency) ∧
    ∀ name ∈ request.pinned.bind (lockedName (dependencySpec request.dependency)),
      slot = FilePath.join root name

/-- What resolving a remote source logs: its slots, and no tree of the workspace. -/
def RemoteEvent (request : DependencyRequest) (e : Event) : Prop :=
  LockedSlot P request e ∧ ∀ directory, e ≠ .workspaceTree directory

variable {P} in
theorem RemoteEvent.of_fetch {request : DependencyRequest} {pin signature : Option String} :
    RemoteEvent P request (.fetch pin signature) :=
  ⟨by rintro _ _ ⟨⟩, by rintro _ ⟨⟩⟩

variable {P} in
theorem RemoteEvent.of_fetcher {request : DependencyRequest} {slots : FilePath} {slotOf : String → FilePath}
    {pin : Option String} (hroot : slots = slotRoot P (dependencySpec request.dependency))
    (hname : ∀ name ∈ request.pinned.bind (lockedName (dependencySpec request.dependency)),
      ∃ digest ∈ pin, slotOf digest = FilePath.join slots name) (e : Event)
    (h : FetcherEvent slots (PinSlot slotOf pin) e) : RemoteEvent P request e := by
  refine ⟨?_, by rintro _ rfl; exact h.elim⟩
  rintro root slot rfl
  obtain ⟨rfl, hslot⟩ := h
  refine ⟨hroot, fun name hmem => ?_⟩
  obtain ⟨digest, hpin, he⟩ := hname name hmem
  rw [hslot digest hpin, he]

/-- For every source but git, the slot is named by the digest that is passed as the pin. -/
theorem exists_pinned_digest {request : DependencyRequest} {spec : DependencySpec} {slots : FilePath}
    (hspec : ∀ entry : LockedPackage,
      lockedName spec entry = some (Text.stripPrefix entry.digest "sha256:")) :
    ∀ name ∈ request.pinned.bind (lockedName spec), ∃ digest ∈ request.pinned.map LockedPackage.digest,
      FilePath.join slots (Text.stripPrefix digest "sha256:") = FilePath.join slots name := by
  rintro name hname
  obtain ⟨entry, hentry, he⟩ := Option.bind_eq_some_iff.mp hname
  cases (hspec entry).symm.trans he
  exact ⟨entry.digest, by simp [hentry], rfl⟩

section Resolution

variable {φ : Type} [FileSystem φ] {credentials : CredentialStore} {request : DependencyRequest}
  {isScoped : Bool}

theorem logs_loadTree (name : String) (directory : FilePath) :
    Logs (LockedSlot P request) (loadTree P name directory isScoped : Run φ Failure _) :=
  logs_bind (logs_log fun _ _ h => by cases h) fun _ _ _ _ => logs_read _

theorem logs_loadWorkspacePath (workspace : FilePath) (name requested : String) :
    Logs (LockedSlot P request) (loadWorkspacePath P workspace name requested isScoped :
      Run φ Failure _) :=
  logs_bind (logs_read _) fun _ _ _ _ => logs_loadTree P _ _

theorem logs_fromVendored (spec : DependencySpec) :
    Logs (LockedSlot P request) (fromVendored P request spec isScoped : Run φ Failure _) :=
  logs_bind (logs_loadTree P _ _) fun _ _ _ _ => logs_ofExcept _

theorem logs_fromOci {oci version : String} (h : dependencySpec request.dependency = .oci oci version) :
    Logs (RemoteEvent P request)
      (fromOci P (.live P credentials) request oci version isScoped : Run φ Failure _) := by
  refine logs_bind (logs_log .of_fetch) fun _ _ _ _ =>
    logs_bind (logs_mapError ((logs_pull P _ _).mono (RemoteEvent.of_fetcher ?_ ?_)))
      fun _ _ _ _ => logs_bind (logs_read _) fun _ _ _ _ => logs_pure _
  · rw [h]; rfl
  · rw [h]
    exact exists_pinned_digest fun _ => rfl

theorem logs_fromHelm {repo chart version : String}
    (h : dependencySpec request.dependency = .helm repo chart version) :
    Logs (RemoteEvent P request)
      (fromHelm P (.live P credentials) request repo chart version isScoped : Run φ Failure _) := by
  refine logs_bind (logs_log .of_fetch) fun _ _ _ _ =>
    logs_bind (logs_mapError ((logs_helmFetch P _).mono (RemoteEvent.of_fetcher ?_ ?_)))
      fun _ _ _ _ => logs_bind (logs_read _) fun _ _ _ _ => logs_pure _
  · rw [h]; rfl
  · rw [h]
    exact exists_pinned_digest fun _ => rfl

theorem logs_fromUrl {url : String} (h : dependencySpec request.dependency = .url url) :
    Logs (RemoteEvent P request)
      (fromUrl P (.live P credentials) request url isScoped : Run φ Failure _) := by
  refine logs_bind (logs_log .of_fetch) fun _ _ _ _ =>
    logs_bind (logs_mapError ((logs_urlFetch P _).mono (RemoteEvent.of_fetcher ?_ ?_)))
      fun _ _ _ _ => logs_bind (logs_read _) fun _ _ _ _ => logs_pure _
  · rw [h]; rfl
  · rw [h]
    exact exists_pinned_digest fun _ => rfl

theorem logs_fromGit {git : String} {tag rev : Option String}
    (h : dependencySpec request.dependency = .git git tag rev) :
    Logs (RemoteEvent P request)
      (fromGit P (.live P credentials) request git tag rev isScoped : Run φ Failure _) := by
  refine logs_bind (logs_log .of_fetch) fun _ _ _ _ =>
    logs_bind (logs_mapError ((logs_gitFetch P _).mono (RemoteEvent.of_fetcher ?_ ?_)))
      fun _ _ _ _ => logs_bind (logs_read _) fun _ _ _ _ => logs_pure _
  · rw [h]; rfl
  · rw [h]
    rintro name hname
    obtain ⟨entry, hentry, he⟩ := Option.bind_eq_some_iff.mp hname
    obtain ⟨hscheme, he⟩ := Option.ite_none_right_eq_some.mp he
    cases he
    exact ⟨Text.after entry.digest "git:", by simp [hentry, hscheme], rfl⟩

theorem logs_resolveSourceTree :
    Logs (LockedSlot P request)
      (resolveSourceTree P (.live P credentials) request isScoped : Run φ Failure _) := by
  unfold resolveSourceTree
  split
  · exact logs_ite (fun _ => logs_fail _) fun _ =>
      logs_bind (logs_loadWorkspacePath P _ _ _) fun _ _ _ _ => logs_pure _
  refine logs_bind ?_ fun vendored _ _ _ => ?_
  · exact logs_ite (fun _ => logs_pure _) fun _ => logs_read _
  refine logs_ite (fun _ => logs_fromVendored P _) fun _ => ?_
  split
  · exact logs_bind (logs_loadWorkspacePath P _ _ _) fun _ _ _ _ => logs_pure _
  · exact (logs_fromOci P ‹_›).mono fun _ => And.left
  · exact (logs_fromHelm P ‹_›).mono fun _ => And.left
  · exact (logs_fromGit P ‹_›).mono fun _ => And.left
  · exact (logs_fromUrl P ‹_›).mono fun _ => And.left

theorem logs_resolveDependency :
    Logs (LockedSlot P request)
      (resolveDependency P (.live P credentials) request : Run φ Failure _) := by
  unfold resolveDependency
  split
  · exact logs_bind (logs_resolveSourceTree P) fun _ _ _ _ => logs_pure _
  refine logs_bind ?_ fun generated _ _ _ => ?_
  · refine logs_ite (fun _ => logs_pure _) fun _ => logs_bind (logs_read _) fun tree _ _ _ => ?_
    split
    · exact logs_pure _
    · exact logs_ite (fun _ => logs_fail _) fun _ => logs_ite (fun _ => logs_fail _) fun _ =>
        logs_pure _
  · split
    · exact logs_pure _
    · exact logs_bind (logs_resolveSourceTree P) fun _ _ _ _ => logs_pure _

/-! ### The slot of an accepted digest -/

theorem slotRoot_normal (spec : DependencySpec) : FilePath.Normal (slotRoot P spec) := by
  cases spec with
  | path _ => exact fun _ hc => absurd hc List.not_mem_nil
  | oci _ _ => exact FilePath.join_normal (cacheRoot_normal P .oci) _
  | git _ _ _ => exact FilePath.join_normal (cacheRoot_normal P .git) _
  | helm _ _ _ => exact cacheRoot_normal P .helm
  | url _ => exact cacheRoot_normal P .url

/-- Resolving a dependency of a workspace whose lock parses, with an entry that pins it: every cache
    directory that is read or written is the entry of its source's cache which the digest names,
    exactly when the digest is a plain file name after its scheme. -/
theorem locked_slot_iff {workspace : FilePath} {manifest : Manifest} {options : ResolveOptions}
    {context : ResolveContext} {declared : String × Dependency} {entry : LockedPackage}
    {name : String} {fs : φ} {w : World φ} {root slot : FilePath}
    (hcontext : resolveContext P workspace manifest options fs = .ok context)
    (hpinned : lockEntryFor context.pins declared.1 declared.2 = some entry)
    (hname : lockedName (dependencySpec declared.2) entry = some name) (hw : w.trace = [])
    (hslot : .cacheSlot root slot ∈
      (resolveDependency P (.live P credentials) (context.request P declared) w).2.trace) :
    (∃ lock, readLock P workspace fs = .ok (some lock) ∧ entry ∈ lock.packages) ∧
      root = slotRoot P (dependencySpec declared.2) ∧
      (FilePath.DirectChild root slot ∧ slot = root ++ [name] ↔ FilePath.Plain name) := by
  obtain ⟨lock, hlock, -, -, -, -, hpins, -⟩ := resolveContext_ok hcontext
  obtain ⟨lock, rfl, hentry⟩ := mem_of_pinsOf (hpins ▸ List.mem_of_find?_eq_some hpinned)
  obtain ⟨rfl, hjoin⟩ := (logs_resolveDependency P).all hw _ hslot root slot rfl
  have hmem : (context.request P declared).pinned.bind
      (lockedName (dependencySpec (context.request P declared).dependency)) = some name := by
    rw [ResolveContext.request, hpinned]
    exact hname
  obtain rfl := hjoin name hmem
  refine ⟨⟨lock, hlock, hentry⟩, rfl, ?_, fun hplain => ?_⟩
  · rintro ⟨⟨child, hchild, he⟩, hnamed⟩
    rw [hnamed, List.append_cancel_left_eq, List.cons.injEq] at he
    rw [he.1]
    exact hchild
  · have hnormal := slotRoot_normal P (dependencySpec declared.2)
    exact ⟨FilePath.directChild_join hnormal hplain, FilePath.join_plain hnormal hplain⟩

end Resolution

/-! ### A digest with separators -/

/-- `web`, locked with this digest. -/
def slotWorkspace (digest : String) : SampleWorkspace where
  dependencies := [("web", [("oci", "oci://registry.example/web"), ("version", "2.0.0")])]
  lock := [[("name", "web"), ("version", "2.0.0"), ("source", "oci://registry.example/web"),
    ("digest", digest)]]
  env := [("HOME", "/home/u")]

def slotDependency : Dependency where
  oci := some "oci://registry.example/web"
  version := some "2.0.0"

def slotEntry (digest : String) : LockedPackage where
  name := "web"
  version := "2.0.0"
  source := "oci://registry.example/web"
  digest := digest

def slotContext (digest : String) : ResolveContext where
  workspace := SampleWorkspace.root
  entries := [slotEntry digest]
  pins := [slotEntry digest]
  cosignPublicKey := none
  trustedSignature := none
  options := { offline := true }

theorem resolveContext_slot {digest : String} (h : validateLock (slotWorkspace digest).host
    (lockDocument (slotWorkspace digest).lock) ["ws", "akua.lock"] =
      .ok { version := "1", package := some [slotEntry digest] }) :
    resolveContext (slotWorkspace digest).host SampleWorkspace.root
      { package := { name := "app", version := "0.1.0", edition := "akua.dev/v1alpha1" } }
      { offline := true } (slotWorkspace digest).disk = .ok (slotContext digest) := by
  have hsource : Text.startsWith "oci://registry.example/web" "path+file://" = false := by decide
  rw [SampleWorkspace.resolveContext_eq _ rfl h]
  simp [pinsOf, pinnedEntries, Lock.packages, slotContext, slotEntry, hsource]

/-- The digest `sha256:../../../../../../ws/private` is accepted, and takes the unpacked artifact
    from `/ws/private`. -/
theorem accepted_digest_escapes :
    resolveContext (slotWorkspace "sha256:../../../../../../ws/private").host SampleWorkspace.root
      { package := { name := "app", version := "0.1.0", edition := "akua.dev/v1alpha1" } }
      { offline := true } (slotWorkspace "sha256:../../../../../../ws/private").disk =
      .ok (slotContext "sha256:../../../../../../ws/private") ∧
    .cacheSlot ["home", "u", ".cache", "akua", "oci", "sha256"] ["ws", "private"] ∈
      (resolveDependency (slotWorkspace "sha256:../../../../../../ws/private").host
        (slotWorkspace "sha256:../../../../../../ws/private").services
        ((slotContext "sha256:../../../../../../ws/private").request
          (slotWorkspace "sha256:../../../../../../ws/private").host ("web", slotDependency))
        (slotWorkspace "sha256:../../../../../../ws/private").world).2.trace ∧
    ¬ FilePath.DirectChild ["home", "u", ".cache", "akua", "oci", "sha256"] ["ws", "private"] := by
  refine ⟨resolveContext_slot (by decide +kernel), by decide +kernel, ?_⟩
  rintro ⟨name, -, he⟩
  simp at he

/-- A digest of hexadecimal digits names an entry of the cache. -/
theorem locked_slot_hex :
    FilePath.DirectChild ["home", "u", ".cache", "akua", "oci", "sha256"]
      ["home", "u", ".cache", "akua", "oci", "sha256", "0f3a"] := by
  have hslot : .cacheSlot ["home", "u", ".cache", "akua", "oci", "sha256"]
      ["home", "u", ".cache", "akua", "oci", "sha256", "0f3a"] ∈
      (resolveDependency (slotWorkspace "sha256:0f3a").host (slotWorkspace "sha256:0f3a").services
        ((slotContext "sha256:0f3a").request (slotWorkspace "sha256:0f3a").host
          ("web", slotDependency)) (slotWorkspace "sha256:0f3a").world).2.trace := by
    decide +kernel
  have hpinned : lockEntryFor (slotContext "sha256:0f3a").pins "web" slotDependency =
      some (slotEntry "sha256:0f3a") := by decide
  exact ((locked_slot_iff _ (resolveContext_slot (by decide +kernel)) hpinned rfl rfl
    hslot).2.2.mpr (by decide)).1

end Akua
