import Akua.RustResolver

/-! Whether the previous release's resolver always returns. It takes a valid dependency apart
    without a panic, and its walk stays under its root; but validation lets a path dependency carry
    a `replace`, and the replace branch calls that case unreachable. A resolution panics exactly
    when it gets as far as such a dependency with replaces allowed. -/

namespace Akua.Rust

open FileSystem

/-! ### Computations that do not panic -/

section NoPanic

variable {φ ε ε' α β : Type}

/-- However the computation ends, it is not with a panic. -/
def NoPanic (m : Reading φ (Stop ε) α) : Prop := ∀ fs message, m fs ≠ .error (.panic message)

theorem noPanic_pure (a : α) : NoPanic (pure a : Reading φ (Stop ε) α) := by
  intro fs message
  simp

theorem noPanic_ok (a : α) : NoPanic (Reading.ofExcept (.ok a) : Reading φ (Stop ε) α) :=
  noPanic_pure a

theorem noPanic_err (e : ε) : NoPanic (Reading.fail (.err e) : Reading φ (Stop ε) α) := by
  intro fs message
  simp

theorem noPanic_bind {m : Reading φ (Stop ε) α} {f : α → Reading φ (Stop ε) β} (hm : NoPanic m)
    (hf : ∀ a, NoPanic (f a)) : NoPanic (m >>= f) := by
  intro fs message h
  rcases Reading.bind_error.mp h with h | ⟨a, -, h⟩
  · exact hm fs message h
  · exact hf a fs message h

/-- An error of a computation that only returns errors. -/
theorem noPanic_mapError (m : Reading φ ε α) (g : ε → ε') : NoPanic (m.mapError fun e => .err (g e)) := by
  intro fs message
  unfold Reading.mapError
  cases m fs <;> simp [Except.mapError]

theorem noPanic_ite {c : Prop} [Decidable c] {m m' : Reading φ (Stop ε) α} (ht : NoPanic m)
    (he : NoPanic m') : NoPanic (if c then m else m') := by
  split
  · exact ht
  · exact he

end NoPanic

/-! ### The walk -/

section Walk

variable {φ : Type} [FileSystem φ] [EntryTypes φ]

/-- The walk stays under its root, so it lists what it would list without the check. -/
theorem Resolver.collectFiles_eq {root : FilePath} (depth : Nat) {dir : FilePath} (h : root <+: dir) :
    (Resolver.collectFiles root depth dir : Reading φ _ _) =
      (Rust.collectFiles root depth dir).mapError .err := by
  induction depth generalizing dir with
  | zero => rfl
  | succ depth ih =>
    rw [Resolver.collectFiles, Rust.collectFiles, Reading.mapError_bind]
    refine congrArg₂ (· >>= ·) rfl (funext fun names => ?_)
    rw [Reading.mapError_bind, Reading.mapError_forEach]
    refine congrArg₂ (· >>= ·) (congrArg (forEach · names) (funext fun name => ?_)) rfl
    have hpath : root <+: dir ++ [name] := h.trans (List.prefix_append _ _)
    rw [Reading.mapError_bind]
    refine congrArg₂ (· >>= ·) rfl (funext fun ft => ?_)
    cases ft with
    | directory => exact ih hpath
    | file =>
      simp only [Resolver.underRoot, if_pos hpath]
      rfl
    | symlink => rfl

theorem Resolver.hashDir_eq (P : Platform) (root : FilePath) :
    (Resolver.hashDir P root : Reading φ _ _) = (Rust.hashDir P root).mapError .err := by
  have hmap : Rust.hashDir P root = Rust.hashedStream (φ := φ) root >>= fun stream =>
    pure (Akua.sha256 P stream.1, stream.2) := rfl
  unfold Resolver.hashDir
  rw [Resolver.collectFiles_eq PATH_MAX (List.prefix_refl root), hmap, Reading.mapError_bind]
  simp only [Rust.hashedStream, Reading.mapError_bind, Reading.mapError_forEach, Reading.bind_assoc]
  rfl

theorem Resolver.hashDir_ok (P : Platform) {root : FilePath} {fs : φ} :
    (∃ digest, Resolver.hashDir P root fs = .ok digest) ↔
      ∃ stream, Rust.hashedStream root fs = .ok stream := by
  rw [Resolver.hashDir_eq]
  simp only [Reading.mapError_ok, Rust.hashDir, Reading.map_run]
  rcases Rust.hashedStream root fs with e | stream <;> simp [Except.map]

end Walk

/-! ### One tree -/

section Resolve

variable {φ : Type} [FileSystem φ] [EntryTypes φ] {P : Platform} {cwd : FilePath}
variable {name requested workspaceRoot : String} {source : ResolvedSource} {fs : φ}

theorem noPanic_hashDir (name : String) (canon : FilePath) :
    NoPanic ((Resolver.hashDir P canon : Reading φ _ _).mapError (Stop.atPath name canon)) := by
  intro fs message h
  rw [Resolver.hashDir_eq] at h
  rcases hdigest : Rust.hashDir P canon fs with e | digest <;>
    simp [Reading.mapError, hdigest, Except.mapError, Stop.atPath] at h

theorem noPanic_resolveTree (name : String) (source : ResolvedSource) (canon : FilePath) :
    NoPanic (resolveTree P name source canon : Reading φ _ _) := by
  refine noPanic_bind (noPanic_mapError _ _) fun info => noPanic_ite (noPanic_err _) ?_
  refine noPanic_bind (noPanic_hashDir name canon) fun digest => ?_
  exact noPanic_bind (fun fs message h => nomatch h) fun kind => noPanic_pure _

theorem noPanic_resolvePath (name requested workspaceRoot : String) (source : ResolvedSource)
    (origin : PathOrigin) :
    NoPanic (resolvePath P cwd name requested workspaceRoot source origin : Reading φ _ _) :=
  noPanic_bind (noPanic_mapError _ id) fun canon => noPanic_resolveTree name source canon

theorem noPanic_resolveFromVendor (name workspaceRoot : String) (kind : VendorKind) :
    NoPanic (resolveFromVendor P cwd name workspaceRoot kind : Reading φ _ _) := by
  refine noPanic_bind (fun fs message h => nomatch h) fun vendored => ?_
  refine noPanic_ite (noPanic_pure _) ?_
  exact noPanic_bind (noPanic_resolvePath _ _ _ _ _) fun chart => noPanic_pure _

/-- What a real path leads to is a directory that can be hashed. -/
structure TreeSettles (canon : FilePath) (fs : φ) : Prop where
  directory : ∃ info, stat canon fs = .ok info ∧ info.type = .directory
  hashed : ∃ stream, Rust.hashedStream canon fs = .ok stream

theorem resolveTree_ok {canon : FilePath} :
    (∃ chart, resolveTree P name source canon fs = .ok chart) ↔ TreeSettles canon fs := by
  unfold resolveTree
  constructor
  · rintro ⟨chart, h⟩
    obtain ⟨info, hinfo, h⟩ := Reading.bind_ok.mp h
    split at h
    · cases h
    · next hdir =>
      obtain ⟨digest, hdigest, -⟩ := Reading.bind_ok.mp h
      exact ⟨⟨info, Reading.mapError_ok.mp hinfo, not_not.mp hdir⟩,
        (Resolver.hashDir_ok P).mp ⟨digest, Reading.mapError_ok.mp hdigest⟩⟩
  · rintro ⟨⟨info, hinfo, hdir⟩, hhashed⟩
    obtain ⟨digest, hdigest⟩ := (Resolver.hashDir_ok P).mpr hhashed
    rw [Reading.bind_of_ok (Reading.mapError_ok.mpr hinfo), if_neg (not_not.mpr hdir),
      Reading.bind_of_ok (Reading.mapError_ok.mpr hdigest)]
    exact ⟨_, rfl⟩

/-- A path of the manifest leads, inside the workspace, to a directory that can be hashed. -/
def PathSettles (cwd : FilePath) (workspaceRoot requested : String) (fs : φ) : Prop :=
  FilePath.isAbsolute requested = false ∧ ∃ root canon,
    realPath (osPath cwd workspaceRoot) fs = .ok root ∧
    realPath (osPath cwd (joinPath workspaceRoot requested)) fs = .ok canon ∧
    root <+: canon ∧ TreeSettles canon fs

theorem resolvePath_user : (∃ chart, resolvePath P cwd name requested workspaceRoot source
    .userManifest fs = .ok chart) ↔ PathSettles cwd workspaceRoot requested fs := by
  constructor
  · rintro ⟨chart, h⟩
    obtain ⟨canon, hcanon, htree⟩ := Reading.bind_ok.mp h
    obtain ⟨root, hroot, hcanon⟩ := Reading.bind_ok.mp (Reading.mapError_ok.mp hcanon)
    split at hcanon
    · cases hcanon
    · next hrelative =>
      obtain ⟨found, hfound, hcanon⟩ := Reading.bind_ok.mp hcanon
      split at hcanon
      · next hinside =>
        cases hcanon
        exact ⟨by simpa using hrelative, root, canon, Reading.mapError_ok.mp hroot,
          Reading.mapError_ok.mp hfound, hinside, resolveTree_ok.mp ⟨chart, htree⟩⟩
      · cases hcanon
  · rintro ⟨hrelative, root, canon, hroot, hcanon, hinside, htree⟩
    have huser : userPath cwd name requested workspaceRoot fs = .ok canon := by
      unfold userPath
      rw [Reading.bind_of_ok (Reading.mapError_ok.mpr hroot), if_neg (by simp [hrelative]),
        Reading.bind_of_ok (Reading.mapError_ok.mpr hcanon), if_pos hinside]
      rfl
    unfold resolvePath
    rw [Reading.bind_of_ok (Reading.mapError_ok.mpr huser)]
    exact resolveTree_ok.mpr htree

/-- A path that the resolver made leads to a directory that can be hashed. -/
def InternalSettles (cwd : FilePath) (workspaceRoot requested : String) (fs : φ) : Prop :=
  ∃ canon, realPath (osPath cwd (joinPath workspaceRoot requested)) fs = .ok canon ∧
    TreeSettles canon fs

theorem joinPath_absolute {base path : String} (h : FilePath.isAbsolute path = true) :
    joinPath base path = path := by
  simp [joinPath, h]

omit [EntryTypes φ] in
theorem internalPath_ok {canon : FilePath} :
    internalPath cwd name requested workspaceRoot fs = .ok canon ↔
      realPath (osPath cwd (joinPath workspaceRoot requested)) fs = .ok canon := by
  unfold internalPath
  rw [Reading.mapError_ok]
  split
  · next h => rw [joinPath_absolute h]
  · rfl

theorem resolvePath_internal : (∃ chart, resolvePath P cwd name requested workspaceRoot source
    .internal fs = .ok chart) ↔ InternalSettles cwd workspaceRoot requested fs := by
  unfold resolvePath InternalSettles
  constructor
  · rintro ⟨chart, h⟩
    obtain ⟨canon, hcanon, htree⟩ := Reading.bind_ok.mp h
    exact ⟨canon, internalPath_ok.mp (Reading.mapError_ok.mp hcanon), resolveTree_ok.mp ⟨chart, htree⟩⟩
  · rintro ⟨canon, hcanon, htree⟩
    rw [Reading.bind_of_ok (Reading.mapError_ok.mpr (internalPath_ok.mpr hcanon))]
    exact resolveTree_ok.mpr htree

/-! ### One dependency -/

/-- The dependency has a vendored tree. -/
def Vendored (cwd : FilePath) (workspaceRoot name : String) (fs : φ) : Prop :=
  ∃ info, stat (osPath cwd (vendorPath workspaceRoot name)) fs = .ok info ∧ info.type = .directory

omit [EntryTypes φ] in
theorem isDir_true {ε : Type} {path : FilePath} : (isDir path fs : Except ε Bool) = .ok true ↔
    ∃ info, stat path fs = .ok info ∧ info.type = .directory := by
  unfold isDir
  rcases stat path fs with e | info <;> simp [Except.toOption]

omit [EntryTypes φ] in
theorem isDir_false {ε : Type} {path : FilePath} : (isDir path fs : Except ε Bool) = .ok false ↔
    ¬ ∃ info, stat path fs = .ok info ∧ info.type = .directory := by
  rw [← isDir_true (ε := ε)]
  unfold isDir
  simp

theorem resolveFromVendor_none {kind : VendorKind} (h : ¬ Vendored cwd workspaceRoot name fs) :
    resolveFromVendor P cwd name workspaceRoot kind fs = .ok none := by
  unfold resolveFromVendor
  rw [Reading.bind_of_ok (isDir_false.mpr h)]
  rfl

/-- A vendored tree is taken or is an error; it is not passed over. -/
theorem resolveFromVendor_isSome {kind : VendorKind} (h : Vendored cwd workspaceRoot name fs)
    {found : Option ResolvedChart}
    (hrun : resolveFromVendor P cwd name workspaceRoot kind fs = .ok found) : found.isSome := by
  unfold resolveFromVendor at hrun
  rw [Reading.bind_of_ok (isDir_true.mpr h), if_neg (by simp)] at hrun
  obtain ⟨chart, -, hfound⟩ := Reading.bind_ok.mp hrun
  cases hfound
  rfl

theorem resolveFromVendor_ok {kind : VendorKind} (h : Vendored cwd workspaceRoot name fs) :
    (∃ found, resolveFromVendor P cwd name workspaceRoot kind fs = .ok found) ↔
      InternalSettles cwd workspaceRoot (vendorPath workspaceRoot name) fs := by
  unfold resolveFromVendor
  rw [Reading.bind_of_ok (isDir_true.mpr h), if_neg (by simp),
    ← @resolvePath_internal _ _ _ P cwd name _ _ kind.placeholder]
  constructor
  · rintro ⟨found, hrun⟩
    obtain ⟨chart, hchart, -⟩ := Reading.bind_ok.mp hrun
    exact ⟨chart, hchart⟩
  · rintro ⟨chart, hchart⟩
    exact ⟨_, Reading.bind_ok.mpr ⟨chart, hchart, rfl⟩⟩

/-- The dependency can be resolved here: the path that a `replace` of a remote source names, or the
    vendored tree of a source that may be vendored, or else the path of a path dependency. -/
def Settles (cwd : FilePath) (workspaceRoot name : String) (dep : Dependency) (fs : φ) : Prop :=
  dep.repo = none ∧
    match dep.replace with
    | some replacePath => dep.path = none ∧ PathSettles cwd workspaceRoot replacePath fs
    | none => (Vendored cwd workspaceRoot name fs ∧
        InternalSettles cwd workspaceRoot (vendorPath workspaceRoot name) fs) ∨
      (¬ Vendored cwd workspaceRoot name fs ∧ ∃ declared, dep.path = some declared ∧
        PathSettles cwd workspaceRoot declared fs)

variable {dep : Dependency} {opts : ResolverOptions}

theorem noPanic_resolveVendored (name workspaceRoot : String) (spec : DependencySpec) :
    NoPanic (resolveVendored P cwd name workspaceRoot spec : Reading φ _ _) := by
  unfold resolveVendored
  cases spec with
  | helm => exact noPanic_pure none
  | path | oci | git => exact noPanic_bind (noPanic_ok _) fun kind => noPanic_resolveFromVendor _ _ kind

theorem noPanic_resolveDeclared (name workspaceRoot : String) (spec : DependencySpec) :
    NoPanic (resolveDeclared P cwd name workspaceRoot spec : Reading φ _ _) := by
  unfold resolveDeclared
  cases spec with
  | path declared => exact noPanic_resolvePath _ _ _ _ _
  | oci | git | helm => exact noPanic_err _

/-- A valid dependency without a `replace` is resolved, or is an error. -/
theorem noPanic_unreplaced (hvalid : dep.validate name = .ok ()) (hreplace : dep.replace = none) :
    NoPanic (resolveDependency P cwd workspaceRoot opts name dep : Reading φ _ _) := by
  obtain ⟨spec, hspec, -⟩ := Dependency.spec_of_valid hvalid
  unfold resolveDependency
  simp only [hreplace, hspec]
  refine noPanic_bind (noPanic_ok spec) fun spec => ?_
  refine noPanic_bind (@noPanic_resolveVendored φ _ _ P cwd name workspaceRoot spec) fun vendored => ?_
  cases vendored with
  | some chart => exact noPanic_pure chart
  | none => exact noPanic_resolveDeclared name workspaceRoot spec

/-- A valid dependency panics exactly when it is a path with a `replace` that is allowed. -/
theorem resolveDependency_panics (hvalid : dep.validate name = .ok ()) :
    (∃ message, resolveDependency P cwd workspaceRoot opts name dep fs = .error (.panic message)) ↔
      opts.rejectReplace = false ∧ dep.path.isSome ∧ dep.replace.isSome := by
  cases hreplace : dep.replace with
  | none =>
    have hno := @noPanic_unreplaced φ _ _ P cwd name workspaceRoot dep opts hvalid hreplace
    simpa using hno fs
  | some replacePath =>
    obtain ⟨spec, hspec, hreads⟩ := Dependency.spec_of_valid hvalid
    unfold resolveDependency
    simp only [hreplace, resolvedSourceForReplace, hspec, except_ok_bind]
    by_cases hreject : opts.rejectReplace = true
    · simp [hreject]
    · rw [if_neg hreject]
      have hpath : ∀ source, ∀ message, resolvePath P cwd name replacePath workspaceRoot source
          .userManifest fs ≠ .error (.panic message) := fun source message =>
        noPanic_resolvePath _ _ _ source _ fs message
      cases hreads with
      | path h => simp [h, hreject, Reading.bind_error]
      | oci h => simpa [h, Reading.bind_error] using hpath _
      | git h => simpa [h, Reading.bind_error] using hpath _
      | helm h => simp [h, Reading.bind_error]

theorem resolveVendored_eq {spec : DependencySpec} (h : spec.isHelm = false) : ∃ kind,
    (resolveVendored P cwd name workspaceRoot spec : Reading φ _ _) =
      resolveFromVendor P cwd name workspaceRoot kind := by
  cases spec with
  | helm => cases h
  | path | oci | git => exact ⟨_, rfl⟩

/-- Without a `replace`, a source that may be vendored is taken from its vendored tree if there is
    one, and as it is declared if there is none. -/
theorem resolveDependency_unreplaced {spec : DependencySpec} (hreplace : dep.replace = none)
    (hspec : ∀ ε, dep.spec (ε := ε) = .ok spec) (hhelm : spec.isHelm = false) :
    (∃ chart, resolveDependency P cwd workspaceRoot opts name dep fs = .ok chart) ↔
      (Vendored cwd workspaceRoot name fs ∧
        InternalSettles cwd workspaceRoot (vendorPath workspaceRoot name) fs) ∨
      (¬ Vendored cwd workspaceRoot name fs ∧
        ∃ chart, resolveDeclared P cwd name workspaceRoot spec fs = .ok chart) := by
  obtain ⟨kind, hkind⟩ := @resolveVendored_eq φ _ _ P cwd name workspaceRoot spec hhelm
  unfold resolveDependency
  simp only [hreplace, hspec]
  rw [Reading.bind_of_ok (Reading.ofExcept_run _), hkind]
  by_cases hvendored : Vendored cwd workspaceRoot name fs
  · simp only [hvendored, true_and, not_true_eq_false, false_and, or_false]
    have hfrom : (∃ found, resolveFromVendor P cwd name workspaceRoot kind fs = .ok found) ↔
        InternalSettles cwd workspaceRoot (vendorPath workspaceRoot name) fs :=
      resolveFromVendor_ok hvendored
    rw [← hfrom]
    constructor
    · rintro ⟨chart, hrun⟩
      obtain ⟨found, hfound, -⟩ := Reading.bind_ok.mp hrun
      exact ⟨found, hfound⟩
    · rintro ⟨found, hfound⟩
      obtain ⟨chart, rfl⟩ := Option.isSome_iff_exists.mp (resolveFromVendor_isSome hvendored hfound)
      exact ⟨chart, Reading.bind_of_ok hfound⟩
  · simp only [hvendored, false_and, not_false_eq_true, true_and, false_or]
    rw [Reading.bind_of_ok (resolveFromVendor_none hvendored)]

/-- With replaces allowed, a valid dependency is resolved exactly when it can be resolved here. -/
theorem resolveDependency_ok (hvalid : dep.validate name = .ok ()) (hreject : opts.rejectReplace = false) :
    (∃ chart, resolveDependency P cwd workspaceRoot opts name dep fs = .ok chart) ↔
      Settles cwd workspaceRoot name dep fs := by
  obtain ⟨spec, hspec, hreads⟩ := Dependency.spec_of_valid hvalid
  unfold Settles
  cases hreplace : dep.replace with
  | some replacePath =>
    unfold resolveDependency
    simp only [hreplace, hreject, resolvedSourceForReplace, hspec, except_ok_bind]
    cases hreads with
    | path h => simp [h, Reading.bind_ok]
    | oci hpath hrepo | git hpath hrepo => simp [hpath, hrepo, Reading.bind_ok, resolvePath_user]
    | helm hpath h => simp [h, Reading.bind_ok]
  | none =>
    cases hreads with
    | path h hrepo =>
      rw [resolveDependency_unreplaced hreplace hspec rfl, resolveDeclared, resolvePath_user]
      simp [h, hrepo]
    | oci hpath hrepo | git hpath hrepo =>
      rw [resolveDependency_unreplaced hreplace hspec rfl]
      simp [hpath, hrepo, resolveDeclared, resolveRemote]
    | helm hpath h =>
      unfold resolveDependency
      simp only [hreplace, hspec, h]
      simp [Reading.bind_ok, resolveVendored, DependencySpec.isHelm, resolveDeclared, resolveRemote]

/-! ### A whole manifest -/

/-- A resolution panics at the first dependency that is not resolved, if that one panics. -/
theorem resolveWithOptions_panics {manifest : AkuaManifest} {message : String} :
    resolveWithOptions P cwd manifest workspaceRoot opts fs = .error (.panic message) ↔
      ∃ done entry rest, manifest.ordered = done ++ entry :: rest ∧
        (∀ earlier ∈ done, ∃ chart,
          resolveDependency P cwd workspaceRoot opts earlier.1 earlier.2 fs = .ok chart) ∧
        resolveDependency P cwd workspaceRoot opts entry.1 entry.2 fs = .error (.panic message) := by
  unfold resolveWithOptions
  rw [Reading.bind_error, Reading.forEach_error]
  simp [Reading.bind_error, Reading.bind_ok]

end Resolve

/-- For an accepted manifest, resolution never panics exactly when replaces are refused, or every
    path dependency with a `replace` comes after one that cannot be resolved here. -/
theorem resolver_total_iff {φ : Type} [FileSystem φ] [EntryTypes φ]
    {toml : String → Except String AkuaManifest} {text : String} {manifest : AkuaManifest}
    (hparse : AkuaManifest.parse toml text = .ok manifest) (P : Platform) (cwd : FilePath)
    (workspaceRoot : String) (opts : ResolverOptions) (fs : φ) :
    (∀ message, resolveWithOptions P cwd manifest workspaceRoot opts fs ≠ .error (.panic message)) ↔
      opts.rejectReplace = true ∨
      ∀ done name dep rest, manifest.ordered = done ++ (name, dep) :: rest →
        dep.path.isSome → dep.replace.isSome →
        ∃ earlier ∈ done, ¬ Settles cwd workspaceRoot earlier.1 earlier.2 fs := by
  have hvalid := AkuaManifest.valid_of_parse hparse
  by_cases hreject : opts.rejectReplace = true
  · simp only [hreject, true_or, iff_true]
    intro message hrun
    obtain ⟨done, entry, rest, hsplit, -, hpanic⟩ := resolveWithOptions_panics.mp hrun
    have hentry := hvalid entry (by simp [hsplit])
    have := ((resolveDependency_panics hentry).mp ⟨message, hpanic⟩).1
    simp [hreject] at this
  · have hallowed : opts.rejectReplace = false := by simpa using hreject
    simp only [hallowed, Bool.false_eq_true, false_or]
    constructor
    · intro hnone done name dep rest hsplit hpath hreplace
      by_contra hearlier
      push Not at hearlier
      have hentry := hvalid (name, dep) (by simp [hsplit])
      have hpanics : ∃ message,
          resolveDependency P cwd workspaceRoot opts name dep fs = .error (.panic message) :=
        (resolveDependency_panics hentry).mpr ⟨hallowed, hpath, hreplace⟩
      obtain ⟨message, hpanic⟩ := hpanics
      refine hnone message (resolveWithOptions_panics.mpr ⟨done, _, rest, hsplit, ?_, hpanic⟩)
      intro earlier hmem
      exact (resolveDependency_ok (hvalid earlier (by simp [hsplit, hmem])) hallowed).mpr
        (hearlier earlier hmem)
    · intro hall message hrun
      obtain ⟨done, entry, rest, hsplit, hdone, hpanic⟩ := resolveWithOptions_panics.mp hrun
      have hentry := hvalid entry (by simp [hsplit])
      obtain ⟨-, hpath, hreplace⟩ := (resolveDependency_panics hentry).mp ⟨message, hpanic⟩
      obtain ⟨earlier, hmem, hunsettled⟩ := hall done entry.1 entry.2 rest hsplit hpath hreplace
      exact hunsettled ((resolveDependency_ok (hvalid earlier (by simp [hsplit, hmem])) hallowed).mp
        (hdone earlier hmem))

/-! ### A fork of a path dependency -/

def forkedToml : String :=
  "[package]\nname = \"web\"\nversion = \"0.1.0\"\nedition = \"akua.dev/v1alpha1\"\n\n" ++
  "[dependencies]\nlib = \x7b path = \"lib\", replace = \x7b path = \"fork\" \x7d \x7d\n"

def forkedManifest : AkuaManifest where
  package := { name := "web", edition := "akua.dev/v1alpha1" }
  dependencies := Table.ofList [("lib", { path := some "lib", replace := some "fork" })]

def remoteToml : String :=
  "[package]\nname = \"web\"\nversion = \"0.1.0\"\nedition = \"akua.dev/v1alpha1\"\n\n" ++
  "[dependencies]\nlib = \x7b oci = \"oci://r/lib\", version = \"1\", " ++
  "replace = \x7b path = \"fork\" \x7d \x7d\n"

def remoteManifest : AkuaManifest where
  package := { name := "web", edition := "akua.dev/v1alpha1" }
  dependencies := Table.ofList
    [("lib", { oci := some "oci://r/lib", version := some "1", replace := some "fork" })]

/-- A reader of these two documents. -/
def readSample (text : String) : Except String AkuaManifest :=
  if text = forkedToml then .ok forkedManifest
  else if text = remoteToml then .ok remoteManifest
  else .error "expected a table"

/-- The workspace with the fork's directory. -/
def forkedWorkspace : LinkedDisk false where
  nodes := Table.ofList [(["ws"], .directory), (["ws", "lib"], .directory), (["ws", "fork"], .directory)]
  rooted := by decide
  plain := by decide
  short := by decide

/-- A `replace` of a remote source is resolved or is an error. -/
theorem remote_fork_returns : AkuaManifest.parse readSample remoteToml = .ok remoteManifest ∧
    ∀ message, resolveWithOptions (.ofTables [] [] [] []) [] remoteManifest "/ws" {} forkedWorkspace ≠
      .error (.panic message) := by
  have hparse : AkuaManifest.parse readSample remoteToml = .ok remoteManifest := by decide +kernel
  refine ⟨hparse, (resolver_total_iff hparse _ _ _ _ _).mpr (.inr ?_)⟩
  intro done name dep rest hsplit hpath hreplace
  have hremote : remoteManifest.ordered.all (fun entry => entry.2.path.isNone) = true := by
    decide +kernel
  have hnone : dep.path = none :=
    Option.isNone_iff_eq_none.mp (List.all_eq_true.mp hremote (name, dep) (by simp [hsplit]))
  rw [hnone] at hpath
  cases hpath

/-- The manifest is accepted, and its resolution reaches the branch called unreachable. -/
theorem replaced_path_panics : AkuaManifest.parse readSample forkedToml = .ok forkedManifest ∧
    ¬ ∀ message, resolveWithOptions (.ofTables [] [] [] []) [] forkedManifest "/ws" {} forkedWorkspace ≠
      .error (.panic message) := by
  have hordered : forkedManifest.ordered =
      [] ++ ("lib", { path := some "lib", replace := some "fork" }) :: [] := by decide +kernel
  refine ⟨by decide +kernel, fun h => h _ (resolveWithOptions_panics.mpr
    ⟨[], _, [], hordered, by simp, rfl⟩)⟩

end Akua.Rust
