import Akua.RenderWorker
import Mathlib.Data.List.Nodup

/-! What the imports of a prepared Package can mean. The worker registers the packages `akua`,
    `charts` and `pkgs`, and every KCL module by its identifier. The identifiers of the modules are
    distinct, and none of them is `crds` beside generated schemas, but none is kept from being
    `akua`, `charts` or `pkgs`: the names are distinct exactly when no KCL module takes one of these
    that is in use. -/

namespace Akua

open FileSystem Effect Kcl

variable {P : Platform} {generators : Generators} {φ : Type} [FileSystem φ]
variable {services : FetchServices φ} {temporary : FilePath}

/-! ### Names of resolved dependencies -/

/-- A resolved tree has the name it was asked for under. -/
abbrev Named (name : String) (tree : SourceTree) : Prop := tree.name = name

theorem fromDirectory_name {name : String} {directory : FilePath} {isScoped : Bool} {fs : φ}
    {tree : DependencyTree} (h : fromDirectory P name directory isScoped fs = .ok tree) :
    tree.name = name := by
  obtain ⟨files, -, h⟩ := Reading.bind_ok.mp h
  cases h
  rfl

theorem returns_fromDirectory (name : String) (directory : FilePath) (isScoped : Bool) :
    Returns (fun tree => tree.name = name)
      (Run.read (fromDirectory P name directory isScoped) : Run φ Failure DependencyTree) := by
  intro w tree w' h
  exact fromDirectory_name (congrArg Prod.fst h)

theorem returns_loadTree (name : String) (directory : FilePath) (isScoped : Bool) :
    Returns (fun tree => tree.name = name)
      (loadTree P name directory isScoped : Run φ Failure DependencyTree) :=
  returns_bind returns_any fun _ _ => returns_fromDirectory name directory isScoped

theorem returns_loadWorkspacePath (workspace : FilePath) (name requested : String) (isScoped : Bool) :
    Returns (fun tree => tree.name = name)
      (loadWorkspacePath P workspace name requested isScoped : Run φ Failure DependencyTree) :=
  returns_bind returns_any fun _ _ => returns_loadTree name _ isScoped

theorem vendoredSource_name {request : DependencyRequest} {spec : DependencySpec}
    {tree : DependencyTree} {source : SourceTree}
    (h : vendoredSource P request spec tree = .ok source) : source.name = tree.name := by
  unfold vendoredSource at h
  dsimp only at h
  split at h
  · split at h
    · cases h
      rfl
    · cases h
  · cases h
    rfl

theorem returns_resolveSourceTree (request : DependencyRequest) (isScoped : Bool) :
    Returns (Named request.name) (resolveSourceTree P services request isScoped) := by
  unfold resolveSourceTree
  cases request.dependency.replace with
  | some path =>
    unfold fromReplace
    refine returns_ite (returns_fail _) ?_
    exact returns_bind (returns_loadWorkspacePath _ _ _ _) fun tree htree => returns_pure htree
  | none =>
    refine returns_bind returns_any fun vendored _ => returns_ite ?_ ?_
    · refine returns_bind (returns_loadTree _ _ _) fun tree htree => ?_
      intro w source w' h
      exact (vendoredSource_name (ofExcept_ok.mp h).1).trans htree
    cases dependencySpec request.dependency with
    | path path =>
      exact returns_bind (returns_loadWorkspacePath _ _ _ _) fun tree htree => returns_pure htree
    | oci oci version =>
      refine returns_bind returns_any fun _ _ => returns_bind returns_any fun pulled _ => ?_
      exact returns_bind (returns_fromDirectory _ _ _) fun tree htree => returns_pure htree
    | helm repo chart version =>
      refine returns_bind returns_any fun _ _ => returns_bind returns_any fun fetched _ => ?_
      exact returns_bind (returns_fromDirectory _ _ _) fun tree htree => returns_pure htree
    | git git tag rev =>
      refine returns_bind returns_any fun _ _ => returns_bind returns_any fun fetched _ => ?_
      exact returns_bind (returns_fromDirectory _ _ _) fun tree htree => returns_pure htree
    | url url =>
      refine returns_bind returns_any fun _ _ => returns_bind returns_any fun fetched _ => ?_
      exact returns_bind (returns_fromDirectory _ _ _) fun tree htree => returns_pure htree

theorem returns_fromGenerated (request : DependencyRequest) (selector : String) :
    Returns (fun generated => ∀ resolved, generated = some resolved → resolved.name = request.name)
      (fromGenerated P request selector : Run φ Failure (Option ResolvedDependency)) := by
  unfold fromGenerated
  dsimp only
  refine returns_ite (returns_pure nofun) (returns_bind returns_any fun generated _ => ?_)
  cases generated with
  | none => exact returns_pure nofun
  | some tree =>
    refine returns_ite (returns_fail _) (returns_ite (returns_fail _) (returns_pure ?_))
    rintro resolved ⟨⟩
    rfl

theorem returns_resolveDependency (request : DependencyRequest) :
    Returns (fun resolved => resolved.name = request.name)
      (resolveDependency P services request) := by
  unfold resolveDependency
  cases crdSelector request.dependency with
  | none =>
    exact returns_bind (returns_resolveSourceTree _ _) fun tree htree => returns_pure htree
  | some selector =>
    refine returns_bind (returns_fromGenerated _ _) fun generated hgenerated => ?_
    cases generated with
    | some resolved => exact returns_pure (hgenerated resolved rfl)
    | none =>
      exact returns_bind (returns_resolveSourceTree _ _) fun tree htree => returns_pure htree

/-- The dependencies of a Package have distinct names. -/
theorem returns_resolvePackage (workspace : FilePath) (options : ResolveOptions) :
    Returns (fun resolved => (resolved.dependencies.map fun d => d.name).Nodup)
      (resolvePackage P services workspace options) := by
  unfold resolvePackage
  refine returns_bind returns_any fun present _ => returns_ite (returns_pure List.nodup_nil) ?_
  refine returns_bind returns_any fun text _ => returns_bind returns_any fun manifest _ => ?_
  refine returns_bind returns_any fun context _ => ?_
  refine returns_bind (forEach_returns (fun declared =>
    returns_resolveDependency (context.request P declared)) _) fun resolved hresolved => ?_
  refine returns_pure ?_
  have hnames : (dependencies manifest).map Prod.fst = resolved.map fun d => d.name := by
    refine List.forall₂_eq_eq_eq ▸ ?_
    rw [List.forall₂_map_left_iff, List.forall₂_map_right_iff]
    exact hresolved.imp fun _ _ h => h.symm
  exact hnames ▸ dependencies_nodup manifest

/-! ### What is mounted -/

theorem returns_mountSome (files : Option Snapshot) :
    Returns (fun directory => directory.isSome = files.isSome)
      (Preparation.mountSome temporary files : Preparation φ (Option FilePath)) := by
  cases files with
  | none => exact returns_pure rfl
  | some files => exact returns_bind returns_any fun directory _ => returns_pure rfl

/-- Where a Package's generated packages are mounted. -/
structure MountedFor (packages : GeneratedPackages) (mounts : Mounts) : Prop where
  charts : mounts.charts.isSome = packages.charts.isSome
  pkgs : mounts.pkgs.isSome = packages.stubs.isSome
  idents : mounts.kclModules.map Prod.fst = packages.mounted.map KclModule.ident

theorem returns_mountAll (packages : GeneratedPackages) :
    Returns (MountedFor packages) (mountAll temporary packages : Preparation φ Mounts) := by
  unfold mountAll
  refine returns_bind (returns_mountSome _) fun charts hcharts => ?_
  refine returns_bind (returns_mountSome _) fun pkgs hpkgs => ?_
  have hmodule : ∀ module : KclModule, Returns (fun p : String × FilePath => p.1 = module.ident)
      (do
        let directory ← Preparation.mount temporary module.files
        pure (module.ident, directory) : Preparation φ (String × FilePath)) := by
    intro module
    exact returns_bind returns_any fun directory _ => returns_pure rfl
  refine returns_bind (forEach_returns hmodule _) fun modules hmodules => returns_pure ⟨hcharts, hpkgs, ?_⟩
  refine List.forall₂_eq_eq_eq ▸ ?_
  rw [List.forall₂_map_left_iff, List.forall₂_map_right_iff]
  exact hmodules.flip

/-- A prepared Package was resolved, and its packages were generated and mounted. -/
theorem prepareTree_ok {pkg : PackageToPrepare} {ancestors : List FilePath} {w w' : PrepareWorld φ}
    {tree : PackageTree} {resolved : ResolvedPackage} {w₁ : World φ}
    (hresolved : resolvePackage P services pkg.workspace pkg.options w.world = (.ok resolved, w₁))
    (h : prepareTree P generators services temporary pkg ancestors w = (.ok tree, w')) :
    ∃ generated, generatedPackages P generators resolved.dependencies = .ok generated ∧
      MountedFor generated tree.mounts := by
  rw [prepareTree] at h
  obtain ⟨directory, w₂, hdirectory, h⟩ := bind_ok.mp h
  obtain ⟨⟨⟩, w₃, henter, h⟩ := bind_ok.mp h
  obtain ⟨resolved', w₄, hresolved', h⟩ := bind_ok.mp h
  have hworld : w₃.world = w.world := by
    have hstay : (Except.ok directory, w₂).2 = w := hdirectory ▸ Preparation.realPath_state pkg.workspace w
    have hentered : { w₂ with entered := (ancestors ++ [directory]) :: w₂.entered } = w₃ :=
      congrArg Prod.snd henter
    rw [← hentered, ← hstay]
  obtain rfl : resolved = resolved' := by
    have hvalue := congrArg Prod.fst hresolved'
    rw [Preparation.host, hworld, hresolved] at hvalue
    exact Except.ok.inj hvalue
  obtain ⟨generated, hgenerated, h⟩ := ofExcept_bind_ok.mp h
  obtain ⟨packages, w₅, -, h⟩ := bind_ok.mp h
  obtain ⟨mounts, w₆, hmounts, h⟩ := bind_ok.mp h
  cases h
  exact ⟨generated, hgenerated, returns_mountAll generated _ _ _ hmounts⟩

/-! ### Names -/

/-- Every name that an import can go by has one meaning. -/
def Unambiguous (tree : PackageTree) : Prop :=
  (importNames tree).Nodup ∧ (tree.mounts.kclModules.map Prod.fst).Nodup

/-- The identifiers that the worker is told, sorted, are those of the mounted modules. -/
theorem mem_kcl_pkgs (mounts : Mounts) : ∃ idents : List String,
    ((((dependencyFields mounts).kcl_pkgs.map Table.entries).getD []).insertionSort fun a b =>
      a.1 ≤ b.1).map Prod.fst = idents ∧ idents.Nodup ∧
      ∀ ident, ident ∈ idents ↔ ident ∈ mounts.kclModules.map Prod.fst := by
  have hsorted : ∀ entries : List (String × String), ((entries.insertionSort fun a b =>
      a.1 ≤ b.1).map Prod.fst).Perm (entries.map Prod.fst) := fun entries =>
    (List.perm_insertionSort _ entries).map Prod.fst
  refine ⟨_, rfl, ?_, fun ident => ?_⟩
  · rw [(hsorted _).nodup_iff]
    cases (dependencyFields mounts).kcl_pkgs with
    | none => exact List.nodup_nil
    | some table => exact table.nodup
  · rw [(hsorted _).mem_iff, dependencyFields]
    by_cases hnone : mounts.kclModules = []
    · simp [hnone]
    · simp only [if_neg hnone, Option.map_some, Option.getD_some]
      refine Table.mem_keys_ofList.trans ?_
      rw [List.map_map]
      rfl

theorem importNames_nodup (tree : PackageTree) : (importNames tree).Nodup ↔
    ∀ ident ∈ tree.mounts.kclModules.map Prod.fst, ident ≠ "akua" ∧
      (tree.mounts.charts.isSome → ident ≠ "charts") ∧ (tree.mounts.pkgs.isSome → ident ≠ "pkgs") := by
  obtain ⟨idents, hidents, hnodup, hmem⟩ := mem_kcl_pkgs tree.mounts
  have hnames : importNames tree = ["akua"] ++ (tree.mounts.charts.map fun _ => "charts").toList ++
      (tree.mounts.pkgs.map fun _ => "pkgs").toList ++ idents := by
    rw [importNames, renderExternalPkgs, ← hidents]
    simp only [akuaExternalPkgs, dependencyFields, List.map_append, List.map_map]
    cases tree.mounts.charts <;> cases tree.mounts.pkgs <;> rfl
  rw [hnames]
  simp only [← hmem]
  cases tree.mounts.charts <;> cases tree.mounts.pkgs <;> simp [hnodup] <;> grind

/-! ### The condition -/

/-- The KCL modules among the dependencies take no name that the render uses itself: `akua`, `charts`
    beside a Helm dependency, and `pkgs` beside an Akua-Package dependency. -/
def NamesFree (dependencies : List ResolvedDependency) : Prop :=
  ∀ module ∈ ofKind .kcl dependencies, kclIdent module.name ≠ "akua" ∧
    (ofKind .helm dependencies ≠ [] → kclIdent module.name ≠ "charts") ∧
    (ofKind .package dependencies ≠ [] → kclIdent module.name ≠ "pkgs")

instance : DecidablePred NamesFree := fun _ => inferInstanceAs (Decidable (∀ _ ∈ _, _))

/-- The imports of a prepared Package are unambiguous exactly when its KCL modules take no name that
    the render uses itself. -/
theorem import_names_iff {pkg : PackageToPrepare} {ancestors : List FilePath} {w w' : PrepareWorld φ}
    {tree : PackageTree} {resolved : ResolvedPackage} {w₁ : World φ}
    (hresolved : resolvePackage P services pkg.workspace pkg.options w.world = (.ok resolved, w₁))
    (h : prepareTree P generators services temporary pkg ancestors w = (.ok tree, w')) :
    Unambiguous tree ↔ NamesFree resolved.dependencies := by
  obtain ⟨generated, hgenerated, hmounted⟩ := prepareTree_ok hresolved h
  obtain ⟨charts, hcharts, hgenerated⟩ := except_bind_ok.mp hgenerated
  obtain ⟨stubs, hstubs, hgenerated⟩ := except_bind_ok.mp hgenerated
  obtain ⟨modules, hmodules, hgenerated⟩ := except_bind_ok.mp hgenerated
  obtain ⟨crds, hcrds, hgenerated⟩ := except_bind_ok.mp hgenerated
  cases hgenerated
  have hnames := returns_resolvePackage _ _ _ _ _ hresolved
  obtain ⟨hclaimed, hidents⟩ := kclModules_ok hmodules
  have hdistinct := identifiers_ok hclaimed (hnames.sublist (List.filter_sublist.map _))
  have hmem : ∀ ident, ident ∈ tree.mounts.kclModules.map Prod.fst ↔
      (∃ module ∈ ofKind .kcl resolved.dependencies, kclIdent module.name = ident) ∨
        (crds.isSome ∧ ident = "crds") := by
    intro ident
    rw [hmounted.idents, GeneratedPackages.mounted]
    cases crds with
    | none => simp [hidents]
    | some files => simp [hidents, eq_comm]
  have hnodup : (tree.mounts.kclModules.map Prod.fst).Nodup := by
    rw [hmounted.idents, GeneratedPackages.mounted]
    cases crds with
    | none => exact hidents ▸ hdistinct
    | some files =>
      have hfree := crdsPackage_ok hcrds
      rw [List.map_append, List.nodup_append]
      refine ⟨hidents ▸ hdistinct, List.nodup_singleton _, ?_⟩
      intro ident hident other hother
      have hcrds' : other = "crds" := List.mem_singleton.mp hother
      rw [hidents, List.map_map] at hident
      obtain ⟨module, hmodule, hident⟩ := List.mem_map.mp hident
      rw [hcrds', ← hident, Function.comp_apply]
      exact hfree module hmodule
  rw [Unambiguous, importNames_nodup, hmounted.charts, hmounted.pkgs]
  simp only [chartsPackage_ok hcharts, packageStubs_ok hstubs, hmem]
  constructor
  · rintro ⟨hfree, -⟩ module hmodule
    exact hfree _ (Or.inl ⟨module, hmodule, rfl⟩)
  · refine fun hfree => ⟨?_, hnodup⟩
    rintro ident (⟨module, hmodule, rfl⟩ | ⟨-, rfl⟩)
    · exact hfree module hmodule
    · exact ⟨by decide, fun _ => by decide, fun _ => by decide⟩

/-! ### A module beside a chart -/

/-- A path dependency on a KCL module, under this name, and one on a Helm chart. -/
def moduleAndChart (name : String) : SampleWorkspace where
  dependencies := [(name, [("path", "lib")]), ("web", [("path", "web")])]
  files := [("ws/lib/kcl.mod", "module"), ("ws/web/Chart.yaml", "chart"), ("tmp/lock", "")]

/-- Generators that find no schemas. -/
def plainGenerators : Generators where
  valuesSchemaKcl _ := .ok none
  stubModule _ _ := ""
  crdSchemaTree _ _ _ := .error "no schemas"

def samplePackage : PackageToPrepare where
  workspace := SampleWorkspace.root
  filename := "package.k"
  files := Table.ofList [("package.k", encodeText "resources = []")]
  options := { offline := true }

/-- The preparation of a sample workspace. -/
def prepareSample (sample : SampleWorkspace) : Except RenderFailure PackageTree × PrepareWorld Disk :=
  prepareTree sample.host plainGenerators sample.services ["tmp"] samplePackage [] { world := sample.world }

theorem module_beside_chart : ∃ tree, (prepareSample (moduleAndChart "lib")).1 = .ok tree ∧
    Unambiguous tree := by
  have hprepares : (prepareSample (moduleAndChart "lib")).1.toOption.isSome := by
    rw [prepareSample, prepareTree]
    decide +kernel
  have hfree : (resolvePackage (moduleAndChart "lib").host (moduleAndChart "lib").services
      samplePackage.workspace samplePackage.options (moduleAndChart "lib").world).1.toOption.any
        (fun resolved => NamesFree resolved.dependencies) = true := by
    decide +kernel
  rcases hrun : prepareSample (moduleAndChart "lib") with ⟨_ | tree, w'⟩ <;> rw [hrun] at hprepares
  · cases hprepares
  rcases hresolved : resolvePackage (moduleAndChart "lib").host (moduleAndChart "lib").services
    samplePackage.workspace samplePackage.options (moduleAndChart "lib").world with
    ⟨_ | resolved, w₁⟩ <;> rw [hresolved] at hfree
  · cases hfree
  · have hfree : NamesFree resolved.dependencies := by simpa [Except.toOption] using hfree
    rw [prepareSample] at hrun
    exact ⟨tree, rfl, (@import_names_iff _ _ _ _ _ _ samplePackage []
      { world := (moduleAndChart "lib").world } _ _ _ _ hresolved hrun).mpr hfree⟩

/-- A KCL module named `charts` takes the name of the generated package. -/
theorem charts_named_twice : ∃ tree, (prepareSample (moduleAndChart "charts")).1 = .ok tree ∧
    importNames tree = ["akua", "charts", "charts"] ∧ ¬ Unambiguous tree := by
  have hnames : (prepareSample (moduleAndChart "charts")).1.toOption.map importNames =
      some ["akua", "charts", "charts"] := by
    rw [prepareSample, prepareTree]
    decide +kernel
  rcases hrun : (prepareSample (moduleAndChart "charts")).1 with _ | tree <;> rw [hrun] at hnames
  · cases hnames
  · have hnames : importNames tree = ["akua", "charts", "charts"] := Option.some.inj hnames
    refine ⟨tree, rfl, hnames, fun h => ?_⟩
    rw [Unambiguous, hnames] at h
    exact absurd h.1 (by decide)

end Akua
