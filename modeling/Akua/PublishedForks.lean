import Akua.ImportNames
import Akua.LockVerb
import Akua.ManifestRoundTrip
import Akua.PackageTar

/-! What a `replace` directive leaves in a published Package. Resolution substitutes a directory of the
    workspace for the dependency, and the `lock` verb records the substitution; `akua.toml` loses every
    `replace` on its way into the archive, and `akua.lock` is packed as it stands. -/

namespace Akua

open Effect

/-! ### Resolution -/

/-- In a run over a list, each element is worked at in the state that those before it left. -/
theorem forEach_turn {σ ε α β : Type} {R : σ → α → β → Prop} {f : α → Effect σ ε β}
    (h : ∀ a s b s', f a s = (.ok b, s') → R s a b) {a : α} {rest : List α} (before : List α) :
    ∀ {s s' : σ} {bs : List β}, forEach f (before ++ a :: rest) s = (.ok bs, s') →
      ∃ b ∈ bs, R (forEach f before s).2 a b := by
  induction before with
  | nil =>
    intro s s' bs hrun
    obtain ⟨b, s₁, hb, hrun⟩ := Effect.bind_ok.mp hrun
    obtain ⟨bs', s₂, -, hrun⟩ := Effect.bind_ok.mp hrun
    cases hrun
    exact ⟨b, List.mem_cons_self, h _ _ _ _ hb⟩
  | cons c before ih =>
    intro s s' bs hrun
    obtain ⟨b, s₁, hb, hrun⟩ := Effect.bind_ok.mp hrun
    obtain ⟨bs', s₂, hbs, hrun⟩ := Effect.bind_ok.mp hrun
    cases hrun
    obtain ⟨found, hfound, hR⟩ := ih hbs
    refine ⟨found, List.mem_cons_of_mem _ hfound, ?_⟩
    have hstate : (forEach f (c :: before) s).2 = (forEach f before s₁).2 := by
      rw [forEach, Effect.bind_of_ok hb]
      rcases hall : forEach f before s₁ with ⟨e | out, s₃⟩
      · rw [Effect.bind_of_error hall]
      · rw [Effect.bind_of_ok hall]
        rfl
    rwa [hstate]

section Resolution

variable {P : Platform} {φ : Type} [FileSystem φ] {services : FetchServices φ}

/-- On this disk, the digest is that of the directory of the workspace that `path` leads to. -/
def ForkTree (P : Platform) {φ : Type} [FileSystem φ] (workspace : FilePath) (name digest path : String) (disk : φ) :
    Prop :=
  ∃ directory files, workspaceTarget workspace name path disk = .ok directory ∧
    loadSnapshot directory disk = .ok files ∧ digest = treeDigest P files

/-- The override is recorded, with the digest of what is substituted. -/
def ForkRecorded (P : Platform) {φ : Type} [FileSystem φ] (workspace : FilePath) (name : String)
    (replace : Option String) (digest : String) (locked : LockRecord) (disk : φ) : Prop :=
  locked.replaced = replace ∧ ∀ path ∈ replace, ForkTree P workspace name digest path disk

theorem recorded_none {workspace : FilePath} {name digest : String} {locked : LockRecord} {disk : φ}
    (h : locked.replaced = none) : ForkRecorded P workspace name none digest locked disk := ⟨h, nofun⟩

theorem lockRecord_replaced (spec : DependencySpec) (gitFallback : String) (replaced helmVersion : Option String) :
    (lockRecord spec gitFallback replaced helmVersion).replaced = replaced := by
  cases spec <;> rfl

/-- The digest is that of the tree in the world in which it is loaded. -/
theorem fork_of_load {workspace : FilePath} {name path : String} {isScoped : Bool} {tree : DependencyTree}
    {w w' : World φ} (h : loadWorkspacePath P workspace name path isScoped w = (.ok tree, w')) :
    ForkTree P workspace name tree.digest path w.fs := by
  obtain ⟨directory, hdirectory, h⟩ := Run.read_bind_ok.mp h
  obtain ⟨_, w₁, hlog, h⟩ := Effect.bind_ok.mp h
  have hfs : w₁.fs = w.fs := by cases hlog; rfl
  have hread : fromDirectory P name directory isScoped w₁.fs = .ok tree := congrArg Prod.fst h
  obtain ⟨files, hfiles, htree⟩ := Reading.bind_ok.mp hread
  cases htree
  exact ⟨directory, files, hdirectory, hfs ▸ Reading.mapError_ok.mp hfiles, rfl⟩

theorem vendoredSource_replaced {request : DependencyRequest} {spec : DependencySpec} {tree : DependencyTree}
    {source : SourceTree} (h : vendoredSource P request spec tree = .ok source) : source.locked.replaced = none := by
  have hnone : (declaredRecord spec).replaced = none := lockRecord_replaced spec _ _ _
  unfold vendoredSource at h
  dsimp only at h
  split at h
  · split at h
    · cases h
      exact hnone
    · cases h
  · cases h
    exact hnone

/-- Without an override none is recorded. -/
theorem returns_unforked {request : DependencyRequest} (hreplace : request.dependency.replace = none)
    (isScoped : Bool) : Returns (fun source : SourceTree => source.locked.replaced = none)
      (resolveSourceTree P services request isScoped) := by
  unfold resolveSourceTree
  rw [hreplace]
  refine returns_bind returns_any fun vendored _ => returns_ite ?_ ?_
  · refine returns_bind returns_any fun tree _ => ?_
    intro w source w' h
    exact vendoredSource_replaced (ofExcept_ok.mp h).1
  cases dependencySpec request.dependency with
  | path path => exact returns_bind returns_any fun _ _ => returns_pure rfl
  | oci oci version =>
    refine returns_bind returns_any fun _ _ => returns_bind returns_any fun _ _ => ?_
    exact returns_bind returns_any fun _ _ => returns_pure rfl
  | helm repo chart version =>
    refine returns_bind returns_any fun _ _ => returns_bind returns_any fun _ _ => ?_
    exact returns_bind returns_any fun _ _ => returns_pure rfl
  | git git tag rev =>
    refine returns_bind returns_any fun _ _ => returns_bind returns_any fun _ _ => ?_
    exact returns_bind returns_any fun _ _ => returns_pure rfl
  | url url =>
    refine returns_bind returns_any fun _ _ => returns_bind returns_any fun _ _ => ?_
    exact returns_bind returns_any fun _ _ => returns_pure rfl

/-- A source records its override, with the digest of the tree where the resolution of it starts. -/
theorem source_recorded {request : DependencyRequest} {isScoped : Bool} {source : SourceTree} {w w' : World φ}
    (h : resolveSourceTree P services request isScoped w = (.ok source, w')) :
    ForkRecorded P request.workspace request.name request.dependency.replace source.digest source.locked w.fs := by
  cases hreplace : request.dependency.replace with
  | none => exact recorded_none (returns_unforked hreplace isScoped _ _ _ h)
  | some path =>
    unfold resolveSourceTree at h
    rw [hreplace] at h
    dsimp only at h
    unfold fromReplace at h
    split at h
    · cases h
    · obtain ⟨tree, w₁, htree, h⟩ := Effect.bind_ok.mp h
      cases h
      refine ⟨lockRecord_replaced _ _ _ _, ?_⟩
      rintro _ ⟨⟩
      exact fork_of_load htree

/-- Generated schemas stand in for no override, and looking for them with one changes nothing. -/
theorem fromGenerated_run {request : DependencyRequest} {selector : String} {generated : Option ResolvedDependency}
    {w w' : World φ} (h : (fromGenerated P request selector : Run φ Failure _) w = (.ok generated, w')) :
    (∀ resolved, generated = some resolved →
      ForkRecorded P request.workspace request.name request.dependency.replace resolved.digest resolved.locked w.fs) ∧
    (request.dependency.replace.isSome → w' = w) := by
  unfold fromGenerated at h
  dsimp only at h
  by_cases hskip : (dependencySpec request.dependency).isPath ∨ request.dependency.replace.isSome ∨
      request.options.regenerateCrds
  · rw [if_pos hskip] at h
    cases h
    exact ⟨nofun, fun _ => rfl⟩
  · have hnone : request.dependency.replace = none :=
      Option.not_isSome_iff_eq_none.mp (not_or.mp (not_or.mp hskip).2).1
    rw [if_neg hskip] at h
    refine ⟨fun resolved hresolved => ?_, fun hsome => ?_⟩
    · rw [hnone]
      subst hresolved
      obtain ⟨found, w₁, -, h⟩ := Effect.bind_ok.mp h
      cases found with
      | none => cases h
      | some tree =>
        dsimp only at h
        split at h
        · cases h
        · split at h
          · cases h
          · cases h
            exact recorded_none (lockRecord_replaced _ _ _ _)
    · rw [hnone] at hsome
      cases hsome

/-- A resolved dependency records its override, or that it has none. -/
theorem resolved_recorded {request : DependencyRequest} {resolved : ResolvedDependency} {w w' : World φ}
    (h : resolveDependency P services request w = (.ok resolved, w')) :
    ForkRecorded P request.workspace request.name request.dependency.replace resolved.digest resolved.locked w.fs := by
  unfold resolveDependency at h
  cases hselector : crdSelector request.dependency with
  | none =>
    rw [hselector] at h
    obtain ⟨tree, w₁, htree, h⟩ := Effect.bind_ok.mp h
    cases h
    exact source_recorded htree
  | some selector =>
    rw [hselector] at h
    obtain ⟨generated, w₁, hgenerated, h⟩ := Effect.bind_ok.mp h
    obtain ⟨hrecorded, hsame⟩ := fromGenerated_run hgenerated
    cases generated with
    | some found =>
      cases h
      exact hrecorded _ rfl
    | none =>
      obtain ⟨tree, w₂, htree, h⟩ := Effect.bind_ok.mp h
      cases h
      have htree := source_recorded htree
      cases hreplace : request.dependency.replace with
      | none =>
        rw [hreplace] at htree
        exact recorded_none htree.1
      | some path =>
        rw [hsame (by rw [hreplace]; rfl), hreplace] at htree
        exact htree

/-- The disk once these dependencies are resolved. -/
def diskAfter (P : Platform) (services : FetchServices φ) (context : ResolveContext)
    (before : List (String × Dependency)) (w : World φ) : φ :=
  (forEach (fun declared => resolveDependency P services (context.request P declared)) before w).2.fs

/-- Each declared dependency is resolved under its name, with its override on record, and the digest of the
    tree that stands there when the dependencies before it are resolved. -/
theorem resolvePackage_recorded {workspace : FilePath} {options : ResolveOptions} {package : ResolvedPackage}
    {w w' : World φ} (h : resolvePackage P services workspace options w = (.ok package, w')) {manifest : Manifest}
    (hmanifest : package.manifest = some manifest) {before rest : List (String × Dependency)}
    {declared : String × Dependency} (hturn : dependencies manifest = before ++ declared :: rest) :
    ∃ context, resolveContext P workspace manifest options w.fs = .ok context ∧
      ∃ resolved ∈ package.dependencies, resolved.name = declared.1 ∧
        ForkRecorded P workspace declared.1 declared.2.replace resolved.digest resolved.locked
          (diskAfter P services context before w) := by
  obtain ⟨present, -, h⟩ := Run.read_bind_ok.mp h
  cases present with
  | false =>
    cases h
    cases hmanifest
  | true =>
    obtain ⟨text, -, h⟩ := Run.read_bind_ok.mp h
    obtain ⟨found, w₁, hparse, h⟩ := Effect.bind_ok.mp h
    obtain ⟨-, rfl⟩ := Effect.ofExcept_ok.mp hparse
    obtain ⟨context, hcontext, h⟩ := Run.read_bind_ok.mp h
    obtain ⟨resolved, w₂, hresolved, h⟩ := Effect.bind_ok.mp h
    cases h
    cases hmanifest
    obtain ⟨_, -, -, -, hworkspace, -⟩ := resolveContext_ok hcontext
    rw [hturn] at hresolved
    have hstep : ∀ (declared : String × Dependency) (s : World φ) d s',
        resolveDependency P services (context.request P declared) s = (.ok d, s') →
        d.name = declared.1 ∧ ForkRecorded P workspace declared.1 declared.2.replace d.digest d.locked s.fs := by
      intro declared s d s' hrun
      have hrecorded := resolved_recorded hrun
      rw [ResolveContext.request, hworkspace] at hrecorded
      exact ⟨returns_resolveDependency _ _ _ _ hrun, hrecorded⟩
    obtain ⟨d, hd, hname, hrecorded⟩ := forEach_turn hstep before hresolved
    exact ⟨context, hcontext, d, hd, hname, hrecorded⟩

end Resolution

/-! ### The merged lock -/

theorem mem_upsert_of_ne {packages : List LockedPackage} {entry : LockedPackage} {update : LockUpdate}
    (h : entry ∈ packages) (hne : entry.name ≠ update.name) : entry ∈ upsert packages update := by
  rw [upsert]
  split
  · exact List.mem_append_left _ h
  · rename_i slot hslot
    obtain ⟨i, hi, rfl⟩ := List.mem_iff_getElem.mp h
    have hother : slot ≠ i := by
      rintro rfl
      obtain ⟨_, hmatch, -⟩ := List.findIdx?_eq_some_iff_getElem.mp hslot
      exact hne (of_decide_eq_true hmatch).1
    rw [List.mem_iff_getElem]
    exact ⟨i, by simpa using hi, by rw [List.getElem_set_ne hother]⟩

/-- An update's entry is there after it. -/
theorem exists_upsert (packages : List LockedPackage) (update : LockUpdate) :
    ∃ previous, mergedEntry previous update ∈ upsert packages update := by
  rw [upsert]
  split
  · exact ⟨none, by simp⟩
  · rename_i slot hslot
    obtain ⟨hlt, -⟩ := List.findIdx?_eq_some_iff_getElem.mp hslot
    exact ⟨packages[slot]?, List.mem_set hlt _⟩

/-- Of updates with distinct names, each one's entry is in the merged lock. -/
theorem exists_merged {updates : List LockUpdate} (hnames : (updates.map LockUpdate.name).Nodup) :
    ∀ packages : List LockedPackage, ∀ update ∈ updates,
      ∃ previous, mergedEntry previous update ∈ updates.foldl upsert packages := by
  have hkept : ∀ (later : List LockUpdate) (packages : List LockedPackage) (entry : LockedPackage),
      entry ∈ packages → (∀ update ∈ later, entry.name ≠ update.name) → entry ∈ later.foldl upsert packages := by
    intro later
    induction later with
    | nil => exact fun _ _ h _ => h
    | cons update later ih =>
      intro packages entry h hne
      obtain ⟨hfirst, hrest⟩ := List.forall_mem_cons.mp hne
      exact ih _ _ (mem_upsert_of_ne h hfirst) hrest
  induction updates with
  | nil => exact fun _ _ h => absurd h List.not_mem_nil
  | cons first rest ih =>
    intro packages update hupdate
    obtain ⟨hfirst, hrest⟩ := List.nodup_cons.mp hnames
    rcases List.mem_cons.mp hupdate with rfl | hupdate
    · obtain ⟨previous, hprevious⟩ := exists_upsert packages update
      exact ⟨previous, hkept rest _ _ hprevious fun later hlater heq =>
        hfirst (List.mem_map.mpr ⟨later, hlater, heq.symm⟩)⟩
    · exact ih hrest (upsert packages first) update hupdate

/-- The lock that `lock` starts from is what stands in the file. -/
theorem priorLock_run {ε : Type} (P : Platform) {φ : Type} [FileSystem φ] (workspace : FilePath) (disk : φ) :
    (priorLock P workspace disk : Except ε Lock) =
      .ok (priorOf P (lockPath workspace) (readFileString P (lockPath workspace) disk).toOption) := by
  rw [priorLock, Reading.orElseSucceed_run, Reading.map_run, loadLock, priorOf]
  rcases hread : readFileString P (lockPath workspace) disk with e | text
  · by_cases hreason : e.reason = .notFound
    · have hnone : readOptional P (lockPath workspace) disk = .ok none := by simp [readOptional, hread, hreason]
      rw [Reading.bind_of_ok hnone]
      rfl
    · have hfails : ∃ failure, readOptional P (lockPath workspace) disk = .error failure := by
        simp [readOptional, hread, hreason]
      obtain ⟨failure, hfails⟩ := hfails
      rw [Reading.bind_of_error hfails]
      rfl
  · have hsome : readOptional P (lockPath workspace) disk = .ok (some text) := by simp [readOptional, hread]
    rw [Reading.bind_of_ok hsome]
    dsimp only
    rw [Reading.map_run]
    rcases hparse : parseLock P text (lockPath workspace) with e | lock <;>
      simp [Reading.ofExcept_run, hparse, Except.map, Except.mapError, Except.toOption]

theorem priorLock_version {P : Platform} {φ : Type} [FileSystem φ] {workspace : FilePath} {disk : φ} {lock : Lock}
    (h : priorLock P workspace disk = (.ok lock : Except Failure Lock)) : lock.version = LOCK_VERSION := by
  rw [priorLock_run, Except.ok.injEq] at h
  subst h
  rw [priorOf]
  rcases (readFileString P (lockPath workspace) disk).toOption with _ | text
  · rfl
  · rcases hparse : parseLock P text (lockPath workspace) with e | lock
    · simp only [Option.bind_some, hparse]
      rfl
    · simp only [Option.bind_some, hparse]
      exact (accepted hparse).1

section Plan

variable {P : Platform} {φ : Type} [FileSystem φ] {services : FetchServices φ} {convert : CrdConverter}
  {workspace : FilePath} {w w' : World φ} {plan : LockPlan}

/-- What `lock` resolves with. -/
abbrev lockOptions : ResolveOptions := { offline := false, pins := .oci, regenerateCrds := true }

/-- The lock that `lock` writes has an entry for each declared dependency, with its override and what it
    resolved to. -/
theorem planned_entry (h : planLock P services convert workspace w = (.ok plan, w')) {manifest : Manifest}
    (hmanifest : plan.resolved.manifest = some manifest) {before rest : List (String × Dependency)}
    {declared : String × Dependency} (hturn : dependencies manifest = before ++ declared :: rest) :
    ∃ context, resolveContext P workspace manifest lockOptions w.fs = .ok context ∧
      ∃ locked ∈ plan.next.packages, locked.name = declared.1 ∧ locked.replaced = declared.2.replace ∧
        ∀ path ∈ declared.2.replace,
          ForkTree P workspace declared.1 locked.digest path (diskAfter P services context before w) := by
  obtain ⟨-, hresolved, -⟩ := planLock_ok h
  have hrun := Effect.mapError_ok.mp hresolved
  obtain ⟨context, hcontext, resolved, hmem, hname, hreplaced, htree⟩ := resolvePackage_recorded hrun hmanifest hturn
  have hnames := returns_resolvePackage workspace _ _ _ _ hrun
  have hupdates : ((lockUpdates plan.resolved.dependencies plan.generation).map LockUpdate.name).Nodup := by
    rw [lockUpdates, List.map_map]
    exact hnames
  obtain ⟨previous, hentry⟩ := exists_merged hupdates
    (survivors plan.prior.packages (lockUpdates plan.resolved.dependencies plan.generation)) _
    (List.mem_map.mpr ⟨resolved, hmem, rfl⟩)
  exact ⟨context, hcontext, _, (List.mem_insertionSort _).mpr hentry, hname, hreplaced, htree⟩

/-- What is saved for a plan is what the verb writes, to the lock in the file. -/
theorem planned_write (h : planLock P services convert workspace w = (.ok plan, w')) :
    (LockVerb.merge (lockUpdates plan.resolved.dependencies plan.generation)).write P P.cliName (lockPath workspace)
      (readFileString P (lockPath workspace) w.fs).toOption = some (formatLock plan.next P.cliName) := by
  have hprior := (planLock_ok h).1
  rw [priorLock_run, Except.ok.injEq] at hprior
  rw [LockVerb.write, hprior]
  rfl

theorem planned_version (h : planLock P services convert workspace w = (.ok plan, w')) :
    plan.next.version = LOCK_VERSION := by
  have hprior := priorLock_version (planLock_ok h).1
  exact hprior

end Plan

/-! ### The archive -/

section Archive

variable {P : Platform} {φ : Type} [FileSystem φ] {workspace : FilePath} {disk : φ} {vendored : List VendorTree}
  {entries : List TarFile}

theorem get?_mapValues {κ α β : Type} [DecidableEq κ] (f : κ → α → β) (table : Table κ α) (key : κ) :
    (table.mapValues f).get? key = (table.get? key).map (f key) := by
  have hlookup : ∀ entries : List (κ × α),
      (entries.map fun p => (p.1, f p.1 p.2)).lookup key = (entries.lookup key).map (f key) := by
    intro entries
    induction entries with
    | nil => rfl
    | cons entry rest ih =>
      rw [List.map_cons, List.lookup_cons, List.lookup_cons, ih]
      by_cases h : key = entry.1
      · simp [h]
      · simp [beq_eq_false_iff_ne.mpr h]
  exact hlookup table.entries

/-- What is packed as `akua.toml` is read as the manifest without its overrides. -/
theorem publishedManifest_ok (hP : ReadsToml P) {file : FilePath} {data : Bytes}
    (h : publishedManifest P file disk = .ok data) :
    ∃ text manifest, readFileString P file disk = .ok text ∧ parseManifest P text file = .ok manifest ∧
      ∀ path, ∃ again, parseManifest P (decodeText P data) path = .ok again ∧ again.package = manifest.package ∧
        ∀ name, again.declared.get? name =
          (manifest.declared.get? name).map fun dependency => { dependency with replace := none } := by
  obtain ⟨text, htext, h⟩ := Reading.bind_ok.mp h
  obtain ⟨manifest, hparse, h⟩ := Reading.bind_ok.mp h
  cases h
  have hmanifest : parseManifest P text file = .ok manifest := except_mapError_ok.mp hparse
  refine ⟨text, manifest, Reading.mapError_ok.mp htext, hmanifest, fun path => ?_⟩
  obtain ⟨hedition, hname, hrules⟩ := manifest_accepted hmanifest
  have hget : ∀ name, (withoutReplace manifest).declared.get? name =
      (manifest.declared.get? name).map fun dependency => { dependency with replace := none } := by
    have hdropped := get?_mapValues (fun _ dependency => ({ dependency with replace := none } : Dependency))
      manifest.declared
    exact hdropped
  have hkept : ∀ name dependency, (withoutReplace manifest).declared.get? name = some dependency →
      validateDependency name dependency = .ok () := by
    intro name dependency hdependency
    rw [hget, Option.map_eq_some_iff] at hdependency
    obtain ⟨before, hbefore, rfl⟩ := hdependency
    exact hrules name before hbefore
  obtain ⟨again, hagain, hpackage, -, -, hsame⟩ :=
    @parseManifest_formatManifest _ hP (withoutReplace manifest) hedition hname hkept path
  refine ⟨again, ?_, hpackage, fun name => (hsame name).trans (hget name)⟩
  rw [decodeText_formatManifest]
  exact hagain

theorem workspaceTarFile_path {root : FilePath} {file : String} {entry : TarFile}
    (h : workspaceTarFile P root file disk = .ok entry) : entry.path = file := by
  unfold workspaceTarFile at h
  split at h
  · obtain ⟨_, -, h⟩ := Reading.bind_ok.mp h
    cases h
    rfl
  · exact (readTarFile_ok h).1

/-- What stands outside `.akua` in the archive is a file of the workspace. -/
theorem packed_of_path (h : packedFiles P workspace vendored disk = .ok entries) {entry : TarFile}
    (hentry : entry ∈ entries) (hout : Text.startsWith entry.path ".akua/" = false) :
    workspaceTarFile P workspace entry.path disk = .ok entry := by
  obtain ⟨names, files, trees, schemas, -, hfiles, htrees, hschemas, rfl⟩ := packedFiles_ok h
  have hbelow : ∀ {directory : FilePath} {name : String → String} {packed : List TarFile},
      (∀ file, Text.startsWith (name file) ".akua/" = true) → treeTarFiles directory name disk = .ok packed →
      entry ∉ packed := by
    intro directory name packed hname hpacked hmem
    obtain ⟨files, -, hpaths⟩ := treeTarFiles_ok hpacked
    obtain ⟨file, -, hpath, -⟩ := exists_of_forall₂ hpaths.flip hmem
    rw [hpath, hname] at hout
    cases hout
  have hprefix : ∀ {directory : String} (rest : String), Text.startsWith directory ".akua/" = true →
      Text.startsWith (directory ++ rest) ".akua/" = true := by
    intro directory rest hstart
    obtain ⟨more, rfl⟩ := Text.startsWith_iff.mp hstart
    exact Text.startsWith_iff.mpr ⟨more ++ rest, String.append_assoc⟩
  have hvendor : Text.startsWith VENDOR_DIR ".akua/" = true := by decide
  have hcrds : Text.startsWith CRDS_DIR ".akua/" = true := by decide
  rcases List.mem_append.mp hentry with hmem | hmem
  · obtain ⟨name, -, hname⟩ := exists_of_forall₂ hfiles.flip hmem
    rwa [workspaceTarFile_path hname]
  · rcases List.mem_append.mp ((List.mem_insertionSort _).mp hmem) with hmem | hmem
    · obtain ⟨packed, hpacked, hmem⟩ := List.mem_flatten.mp hmem
      obtain ⟨tree, -, htree⟩ := exists_of_forall₂ htrees.flip hpacked
      refine absurd hmem (hbelow (fun file => ?_) htree)
      have hpath := hprefix ("/" ++ (tree.name ++ ("/" ++ file))) hvendor
      rwa [← String.append_assoc, ← String.append_assoc, ← String.append_assoc] at hpath
    · refine absurd hmem (hbelow (fun file => ?_) hschemas)
      have hpath := hprefix ("/" ++ file) hcrds
      rwa [← String.append_assoc] at hpath

end Archive

/-- In the archive of a workspace whose lock has just been written, `akua.toml` declares what the workspace
    declares, without overrides; and `akua.lock` records each dependency's override, with the digest of the
    local tree in the place of the published one. -/
theorem replace_published {P : Platform} (hP : ReadsToml P) (hcli : OneLine P.cliName) {φ : Type} [FileSystem φ]
    {services : FetchServices φ} {convert : CrdConverter} {workspace : FilePath} {w w' : World φ} {plan : LockPlan}
    (hplan : planLock P services convert workspace w = (.ok plan, w')) {disk : φ}
    (hlock : FileSystem.readFile (FilePath.join workspace "akua.lock") disk =
      (.ok (encodeText (formatLock plan.next P.cliName)) : Except PlatformError Bytes))
    {vendored : List VendorTree} {entries : List TarFile}
    (hpacked : packedFiles P workspace vendored disk = .ok entries) :
    (∀ entry ∈ entries, entry.path = "akua.toml" → ∃ text manifest,
      readFileString P (FilePath.join workspace "akua.toml") disk = .ok text ∧
        parseManifest P text (FilePath.join workspace "akua.toml") = .ok manifest ∧
        ∀ path, ∃ again, parseManifest P (decodeText P entry.data) path = .ok again ∧ again.package = manifest.package ∧
          ∀ name, again.declared.get? name =
            (manifest.declared.get? name).map fun dependency => { dependency with replace := none }) ∧
    (∀ entry ∈ entries, entry.path = "akua.lock" → ∃ raw lock, P.parseToml (decodeText P entry.data) = .ok raw ∧
      decodeLock raw = some lock ∧ ∀ manifest ∈ plan.resolved.manifest, ∀ before declared rest,
        dependencies manifest = before ++ declared :: rest →
        ∃ context, resolveContext P workspace manifest lockOptions w.fs = .ok context ∧
          ∃ locked ∈ lock.packages, locked.name = declared.1 ∧ locked.replaced = declared.2.replace ∧
            ∀ path ∈ declared.2.replace,
              ForkTree P workspace declared.1 locked.digest path (diskAfter P services context before w)) := by
  constructor
  · intro entry hentry hpath
    have hfile := packed_of_path hpacked hentry (by rw [hpath]; decide)
    rw [hpath, workspaceTarFile, if_pos rfl] at hfile
    obtain ⟨data, hdata, hfile⟩ := Reading.bind_ok.mp hfile
    cases hfile
    exact publishedManifest_ok hP hdata
  · intro entry hentry hpath
    have hfile := packed_of_path hpacked hentry (by rw [hpath]; decide)
    rw [hpath, workspaceTarFile, if_neg (by decide)] at hfile
    have hdata := (readTarFile_ok hfile).2
    rw [hlock, Except.ok.injEq] at hdata
    obtain ⟨hkeys, hvalid⟩ := lockTree_valid (sortPackages plan.next.packages)
    obtain ⟨raw, hraw, halike⟩ := parseToml_toToml hP (lines_lockHeader hcli) hkeys hvalid
    have hdecode := (stable_decodeLock.alike halike).trans (decodeLock_document LOCK_VERSION _)
    refine ⟨raw, _, ?_, hdecode, fun manifest hmanifest before declared rest hturn => ?_⟩
    · rw [← hdata, decodeText_formatLock, formatLock, lockBody, planned_version hplan]
      exact hraw
    · obtain ⟨context, hcontext, locked, hlocked, hname, hreplaced, htree⟩ := planned_entry hplan hmanifest hturn
      refine ⟨context, hcontext, locked.pruned, ?_, hname, hreplaced, htree⟩
      exact List.mem_map.mpr ⟨locked, (List.mem_insertionSort _).mpr hlocked, rfl⟩

/-! ### A workspace with a fork -/

/-- A dependency of a registry with a local fork in its place. -/
def forkDependency : String × Dependency := ("d", { oci := some "oci://r/d", version := some "1", replace := some "f" })

def forkedManifest : Manifest where
  package := { name := "a", version := "1", edition := "akua.dev/v1" }
  dependencies := some (Table.ofList [forkDependency])

/-- A reader of TOML that knows this document beforehand. -/
def forkedHost : Platform :=
  { tomlHost with
    parseToml := fun text => if text = formatManifest forkedManifest then
      .ok (.object (documentEntries (fields forkedManifest.fields))) else tomlHost.parseToml text }

def forkedDisk : Disk := Disk.ofFiles [("ws/akua.toml", formatManifest forkedManifest), ("ws/f/k", "x")]

def noSchemas : CrdConverter := fun _ _ _ => .error "no CRDs"

def forkedPlan : Option LockPlan :=
  (planLock forkedHost (.live forkedHost (.ok Table.empty)) noSchemas ["ws"] { fs := forkedDisk }).1.toOption

/-- The workspace after `lock`. -/
def forkedLocked : Disk := forkedDisk.put ["ws", "akua.lock"]
  (.file (encodeText (formatLock ((forkedPlan.map LockPlan.next).getD emptyLock) "akuapkg")) Disk.FILE_MODE)

theorem readsToml_forkedHost : ReadsToml forkedHost := by
  intro text root hroot hexact
  by_cases h : text = formatManifest forkedManifest
  · refine ⟨_, if_pos h, ?_⟩
    obtain ⟨hkeys, hvalid⟩ := manifest_valid forkedManifest
    have hempty : Toml.Lines ("" : String).toList [] := Toml.Lines.nil
    obtain ⟨raw, hraw, halike⟩ := parseToml_toToml readsToml_tomlHost hempty hkeys hvalid
    rw [String.empty_append, ← formatManifest_eq, ← h] at hraw
    have hdocument : tomlHost.parseToml text = .ok (.object (ofEntries root)) := by simp [tomlHost, hroot]
    rw [hdocument, Except.ok.injEq] at hraw
    rw [hraw]
    exact halike.symm
  · obtain ⟨raw, hraw, halike⟩ := readsToml_tomlHost text root hroot hexact
    exact ⟨raw, (if_neg h).trans hraw, halike⟩

theorem eq_ok_of_toOption {ε α : Type} {a : α} : ∀ {x : Except ε α}, x.toOption = some a → x = .ok a
  | .ok _, h => congrArg Except.ok (Option.some.inj h)

/-- The archive of the workspace names the fork of `d`, with the digest of what stands in it. -/
theorem fork_named : ∃ entries, packedFiles forkedHost ["ws"] [] forkedLocked = .ok entries ∧
    ∃ entry ∈ entries, entry.path = "akua.lock" ∧ ∃ raw lock,
      forkedHost.parseToml (decodeText forkedHost entry.data) = .ok raw ∧ decodeLock raw = some lock ∧
        ∃ locked ∈ lock.packages, locked.name = "d" ∧ locked.replaced = some "f" ∧
          ForkTree forkedHost ["ws"] "d" locked.digest "f" forkedDisk := by
  have hplan : (forkedPlan.any fun plan => plan.resolved.manifest = some forkedManifest) = true := by decide +kernel
  have hfile : ((packedFiles forkedHost ["ws"] [] forkedLocked).toOption.any fun entries =>
      entries.any fun entry => entry.path = "akua.lock") = true := by decide +kernel
  obtain ⟨plan, hplan, hmanifest⟩ := (Option.any_eq_true _ _).mp hplan
  obtain ⟨entries, hpacked, hany⟩ := (Option.any_eq_true _ _).mp hfile
  obtain ⟨entry, hentry, hpath⟩ := List.any_eq_true.mp hany
  have hnode : forkedLocked.node? (FilePath.join ["ws"] "akua.lock") =
      some (.file (encodeText (formatLock plan.next "akuapkg")) Disk.FILE_MODE) := by
    rw [forkedLocked, hplan, Disk.node?, Disk.at?_put (by decide), if_pos (by decide)]
    rfl
  obtain ⟨result, hrun⟩ : ∃ result, planLock forkedHost (.live forkedHost (.ok Table.empty)) noSchemas ["ws"]
      { fs := forkedDisk } = result := ⟨_, rfl⟩
  rw [forkedPlan, hrun] at hplan
  obtain ⟨-, hrecorded⟩ := replace_published readsToml_forkedHost (oneLine_of_all (by decide +kernel))
    (hrun.trans (Prod.ext (eq_ok_of_toOption hplan) rfl)) (Disk.readFile_of_node hnode) (eq_ok_of_toOption hpacked)
  obtain ⟨raw, lock, hraw, hdecoded, hall⟩ := hrecorded entry hentry (of_decide_eq_true hpath)
  obtain ⟨context, -, locked, hlocked, hname, hreplaced, htree⟩ :=
    hall forkedManifest (of_decide_eq_true hmanifest) [] forkDependency [] (by decide)
  exact ⟨entries, eq_ok_of_toOption hpacked, entry, hentry, of_decide_eq_true hpath, raw, lock, hraw, hdecoded, locked,
    hlocked, hname, hreplaced, htree "f" rfl⟩

end Akua
