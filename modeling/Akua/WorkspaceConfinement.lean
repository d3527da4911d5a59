import Akua.CacheConfinement

/-! Trees of the workspace. A path or `replace` dependency is followed to its real path and refused
    outside the workspace. A vendored copy is used where the dependency's name leads from
    `.akua/vendor`, through `..` and links alike, without that check. -/

namespace Akua

open Run FileSystem

variable (P : Platform) {φ : Type} [FileSystem φ]

/-- The real path of a directory is inside the real path of the workspace. -/
def InsideWorkspace (workspace directory : FilePath) (fs : φ) : Prop :=
  ∀ real, realPath directory fs = .ok real → ∃ root, realPath workspace fs = .ok root ∧
    FilePath.Within root real

/-- A source has a vendored copy, which is used before it. -/
def UsesVendored (request : DependencyRequest) (fs : φ) : Prop :=
  request.dependency.replace = none ∧ (dependencySpec request.dependency).isHelm = false ∧
    isDirectory (vendoredDirectory request.workspace request.name) fs =
      (.ok true : Except Failure Bool)

/-- The dependency's files come from its source tree: it has no generated schemas to use. -/
def NeedsSource (request : DependencyRequest) (w : World φ) : Prop :=
  ∀ selector ∈ crdSelector request.dependency, (fromGenerated P request selector w).1 = .ok none

/-! ### Checked paths -/

/-- A user-authored path that is accepted leads into the workspace. -/
theorem workspaceTarget_ok {workspace target : FilePath} {name requested : String} {fs : φ}
    (h : workspaceTarget workspace name requested fs = .ok target) :
    (∃ root, realPath workspace fs = .ok root ∧ FilePath.Within root target) ∧
      realPath (FilePath.join workspace requested) fs = .ok target := by
  unfold workspaceTarget at h
  split at h
  · cases h
  obtain ⟨root, hroot, h⟩ := Reading.bind_ok.mp h
  obtain ⟨real, hreal, h⟩ := Reading.bind_ok.mp h
  split at h
  · cases h
  rename_i hwithin
  obtain ⟨directory, -, h⟩ := Reading.bind_ok.mp h
  cases directory with
  | false => cases h
  | true =>
    cases h
    exact ⟨⟨root, Reading.mapError_ok.mp hroot, not_not.mp hwithin⟩, Reading.mapError_ok.mp hreal⟩

theorem inside_of_workspaceTarget {workspace target : FilePath} {name requested : String} {fs : φ}
    (hcanonical : ∀ path real, realPath path fs = .ok real → realPath real fs = .ok real)
    (h : workspaceTarget workspace name requested fs = .ok target) :
    InsideWorkspace workspace target fs := by
  obtain ⟨hroot, hreal⟩ := workspaceTarget_ok h
  intro real htarget
  rw [hcanonical _ _ hreal] at htarget
  cases htarget
  exact hroot

/-! ### The trees that are loaded -/

section Trees

variable {P} {credentials : CredentialStore} {request : DependencyRequest} {isScoped : Bool}
  {w : World φ} {directory : FilePath}

/-- Loading a tree is all it logs. -/
theorem trace_loadTree (name : String) (tree : FilePath) (w : World φ) :
    (loadTree P name tree isScoped w).2.trace = .workspaceTree tree :: w.trace := rfl

theorem trace_loadWorkspacePath {workspace : FilePath} {name requested : String}
    (h : .workspaceTree directory ∈ (loadWorkspacePath P workspace name requested isScoped
      w).2.trace) :
    .workspaceTree directory ∈ w.trace ∨
      workspaceTarget workspace name requested w.fs = .ok directory := by
  unfold loadWorkspacePath at h
  rcases htarget : workspaceTarget workspace name requested w.fs with error | target
  · rw [read_bind_of_error htarget] at h
    exact Or.inl h
  · rw [read_bind_of_ok htarget, trace_loadTree, List.mem_cons] at h
    rcases h with h | h
    · cases h
      exact Or.inr rfl
    · exact Or.inl h

/-- Looking for a vendored copy changes nothing. -/
theorem hasVendored_eq (request : DependencyRequest) (spec : DependencySpec) (w : World φ) :
    ∃ vendored, hasVendored request spec w = (.ok vendored, w) ∧
      (vendored = true ↔ spec.isHelm = false ∧
        isDirectory (vendoredDirectory request.workspace request.name) w.fs =
          (.ok true : Except Failure Bool)) := by
  unfold hasVendored
  split
  · rename_i hhelm
    exact ⟨false, rfl, by simp [hhelm]⟩
  · rename_i hhelm
    refine ⟨_, rfl, ?_⟩
    simp only [Bool.not_eq_true] at hhelm
    simp [hhelm, isDirectory]

theorem trace_fromVendored (spec : DependencySpec) (w : World φ) :
    (fromVendored P request spec isScoped w).2.trace =
      .workspaceTree (vendoredDirectory request.workspace request.name) :: w.trace := by
  unfold fromVendored
  rcases htree : loadTree P request.name (vendoredDirectory request.workspace request.name) isScoped
    w with ⟨error | tree, w'⟩
  · rw [Effect.bind_of_error htree]
    exact congrArg (fun r => r.2.trace) htree.symm
  · rw [Effect.bind_of_ok htree]
    exact congrArg (fun r => r.2.trace) htree.symm

/-- What a source's tree is loaded from: a checked path, or the vendored copy. -/
theorem trace_resolveSourceTree
    (h : .workspaceTree directory ∈
      (resolveSourceTree P (.live P credentials) request isScoped w).2.trace) :
    .workspaceTree directory ∈ w.trace ∨
      (∃ requested, workspaceTarget request.workspace request.name requested w.fs = .ok directory) ∨
      UsesVendored request w.fs ∧
        directory = vendoredDirectory request.workspace request.name := by
  unfold resolveSourceTree at h
  rcases hreplace : request.dependency.replace with _ | path
  · rw [hreplace] at h
    obtain ⟨vendored, hrun, hiff⟩ := hasVendored_eq request (dependencySpec request.dependency) w
    dsimp only at h
    rw [Effect.bind_of_ok hrun] at h
    cases vendored with
    | true =>
      rw [if_pos rfl, trace_fromVendored, List.mem_cons] at h
      rcases h with h | h
      · cases h
        exact Or.inr (Or.inr ⟨⟨hreplace, hiff.mp rfl⟩, rfl⟩)
      · exact Or.inl h
    | false =>
      rw [if_neg (by simp)] at h
      have hremote : ∀ {m : Run φ Failure SourceTree}, Logs (RemoteEvent P request) m →
          .workspaceTree directory ∈ (m w).2.trace → .workspaceTree directory ∈ w.trace :=
        fun hlogs hmem => (hlogs.mem_or hmem).resolve_left fun hevent => hevent.2 directory rfl
      cases hspec : dependencySpec request.dependency with
      | path path =>
        rw [hspec] at h
        dsimp only [fromPath] at h
        rw [Effect.bind_pure_state] at h
        exact (trace_loadWorkspacePath h).imp_right fun htarget => Or.inl ⟨path, htarget⟩
      | oci oci version =>
        rw [hspec] at h
        exact Or.inl (hremote (logs_fromOci P hspec) h)
      | git git tag rev =>
        rw [hspec] at h
        exact Or.inl (hremote (logs_fromGit P hspec) h)
      | helm repo chart version =>
        rw [hspec] at h
        exact Or.inl (hremote (logs_fromHelm P hspec) h)
      | url url =>
        rw [hspec] at h
        exact Or.inl (hremote (logs_fromUrl P hspec) h)
  · rw [hreplace] at h
    dsimp only [fromReplace] at h
    split at h
    · exact Or.inl h
    · rw [Effect.bind_pure_state] at h
      exact (trace_loadWorkspacePath h).imp_right fun htarget => Or.inl ⟨path, htarget⟩

/-- A vendored copy that is used is loaded. -/
theorem vendored_mem_trace (h : UsesVendored request w.fs) :
    .workspaceTree (vendoredDirectory request.workspace request.name) ∈
      (resolveSourceTree P (.live P credentials) request isScoped w).2.trace := by
  obtain ⟨hreplace, hvendored⟩ := h
  obtain ⟨vendored, hrun, hiff⟩ := hasVendored_eq request (dependencySpec request.dependency) w
  unfold resolveSourceTree
  rw [hreplace]
  dsimp only
  rw [Effect.bind_of_ok hrun, if_pos (hiff.mpr hvendored), trace_fromVendored]
  exact List.mem_cons_self

/-- Looking for generated schemas changes nothing. -/
theorem keeps_fromGenerated (selector : String) (I : World φ → Prop) :
    Effect.Keeps I (fromGenerated P request selector) := by
  have hread : ∀ {ε α : Type} (m : Reading φ ε α), Effect.Keeps I (Run.read m) := fun _ _ h => h
  refine Effect.keeps_ite (fun _ => Effect.keeps_pure _) fun _ =>
    Effect.keeps_bind (hread _) fun generated _ _ _ => ?_
  split
  · exact Effect.keeps_pure _
  · exact Effect.keeps_ite (fun _ => Effect.keeps_fail _) fun _ =>
      Effect.keeps_ite (fun _ => Effect.keeps_fail _) fun _ => Effect.keeps_pure _

/-- A dependency with schemas to use loads no tree of the workspace, another its source's. -/
theorem trace_resolveDependency :
    (NeedsSource P request w ∧ ∃ isScoped,
      (resolveDependency P (.live P credentials) request w).2.trace =
        (resolveSourceTree P (.live P credentials) request isScoped w).2.trace) ∨
    ¬ NeedsSource P request w ∧
      (resolveDependency P (.live P credentials) request w).2.trace = w.trace := by
  unfold resolveDependency NeedsSource
  cases hselector : crdSelector request.dependency with
  | none =>
    refine Or.inl ⟨fun _ h => by simp at h, true, ?_⟩
    dsimp only
    rw [Effect.bind_pure_state]
  | some selector =>
    have hstate : (fromGenerated P request selector w).2 = w :=
      keeps_fromGenerated selector (· = w) w rfl
    dsimp only
    rcases hrun : fromGenerated P request selector w with ⟨error | generated, w'⟩ <;>
      rw [hrun] at hstate <;> obtain rfl : w' = w := hstate
    · rw [Effect.bind_of_error hrun]
      refine Or.inr ⟨fun h => ?_, rfl⟩
      have := h selector rfl
      rw [hrun] at this
      cases this
    · rw [Effect.bind_of_ok hrun]
      cases generated with
      | none =>
        refine Or.inl ⟨fun s hs => ?_, (dependencySpec request.dependency).isOci ||
          (dependencySpec request.dependency).isHelm, ?_⟩
        · cases hs
          rw [hrun]
        · dsimp only
          rw [Effect.bind_pure_state]
      | some resolved =>
        refine Or.inr ⟨fun h => ?_, rfl⟩
        have := h selector rfl
        rw [hrun] at this
        cases this

end Trees

/-- Every tree of the workspace that resolving a dependency loads is inside the workspace, exactly
    when its vendored copy is, if it has one to use. -/
theorem workspace_trees_inside_iff {credentials : CredentialStore} {request : DependencyRequest}
    {w : World φ}
    (hcanonical : ∀ path real, realPath path w.fs = .ok real → realPath real w.fs = .ok real)
    (hw : w.trace = []) :
    (∀ directory, .workspaceTree directory ∈
        (resolveDependency P (.live P credentials) request w).2.trace →
      InsideWorkspace request.workspace directory w.fs) ↔
    (NeedsSource P request w → UsesVendored request w.fs →
      InsideWorkspace request.workspace (vendoredDirectory request.workspace request.name)
        w.fs) := by
  rcases trace_resolveDependency (P := P) (w := w) with ⟨hneeds, isScoped, htrace⟩ | ⟨hneeds, htrace⟩
  · rw [htrace]
    constructor
    · intro hinside _ hvendored
      exact hinside _ (vendored_mem_trace hvendored)
    · intro hvendored directory hdirectory
      rcases trace_resolveSourceTree hdirectory with h | ⟨requested, htarget⟩ | ⟨huses, rfl⟩
      · rw [hw] at h
        exact absurd h List.not_mem_nil
      · exact inside_of_workspaceTarget hcanonical htarget
      · exact hvendored hneeds huses
  · rw [htrace, hw]
    exact ⟨fun _ h => absurd h hneeds, fun _ _ h => absurd h List.not_mem_nil⟩

/-! ### A name that leaves the workspace -/

/-- A path dependency on `lib`, under this name, beside another directory's tree. -/
def outsideWorkspace (name : String) : SampleWorkspace where
  dependencies := [(name, [("path", "lib")])]
  files := [("ws/lib/k", "x"), ("outside/k", "y")]

def outsideDependency : Dependency where
  path := some "lib"

def outsideManifest (name : String) : Manifest where
  package := { name := "app", version := "0.1.0", edition := "akua.dev/v1alpha1" }
  signing := some {}
  dependencies := some (Table.ofList [(name, outsideDependency)])

def outsideContext : ResolveContext where
  workspace := SampleWorkspace.root
  entries := []
  pins := []
  cosignPublicKey := none
  trustedSignature := none
  options := { offline := true }

theorem resolveContext_outside (name : String) :
    resolveContext (outsideWorkspace name).host SampleWorkspace.root (outsideManifest name)
      { offline := true } (outsideWorkspace name).disk = .ok outsideContext := by
  have hlock : validateLock (outsideWorkspace name).host (lockDocument (outsideWorkspace name).lock)
      ["ws", "akua.lock"] = .ok { version := "1", package := some [] } := rfl
  rw [SampleWorkspace.resolveContext_eq _ rfl hlock]
  rfl

/-- Without a vendored copy, all that is loaded is inside. -/
theorem path_tree_inside :
    InsideWorkspace SampleWorkspace.root ["ws", "lib"] (outsideWorkspace "web").disk := by
  have hnone : ¬ UsesVendored (outsideContext.request (outsideWorkspace "web").host
      ("web", outsideDependency)) (outsideWorkspace "web").disk := by
    rintro ⟨-, -, hdirectory⟩
    revert hdirectory
    decide +kernel
  have hloaded : .workspaceTree ["ws", "lib"] ∈ (resolveDependency (outsideWorkspace "web").host
      (outsideWorkspace "web").services (outsideContext.request (outsideWorkspace "web").host
        ("web", outsideDependency)) (outsideWorkspace "web").world).2.trace := by
    decide +kernel
  exact (workspace_trees_inside_iff _ (fun _ _ => Disk.realPath_canonical) rfl).mpr
    (fun _ huses => absurd huses hnone) _ hloaded

/-- The dependency `../../../outside` is loaded from `/outside`. -/
theorem vendored_name_leaves :
    loadManifest (outsideWorkspace "../../../outside").host SampleWorkspace.root
      (outsideWorkspace "../../../outside").disk = .ok (outsideManifest "../../../outside") ∧
    resolveContext (outsideWorkspace "../../../outside").host SampleWorkspace.root
      (outsideManifest "../../../outside") { offline := true }
      (outsideWorkspace "../../../outside").disk = .ok outsideContext ∧
    .workspaceTree ["outside"] ∈ (resolveDependency (outsideWorkspace "../../../outside").host
      (outsideWorkspace "../../../outside").services
      (outsideContext.request (outsideWorkspace "../../../outside").host
        ("../../../outside", outsideDependency)) (outsideWorkspace "../../../outside").world).2.trace ∧
    ¬ InsideWorkspace SampleWorkspace.root ["outside"]
      (outsideWorkspace "../../../outside").disk := by
  refine ⟨SampleWorkspace.loadManifest_eq.trans rfl, resolveContext_outside _, by decide +kernel, ?_⟩
  intro h
  obtain ⟨root, hroot, hwithin⟩ := h ["outside"] (by decide +kernel)
  obtain rfl : ["ws"] = root := by
    have hws : realPath SampleWorkspace.root (outsideWorkspace "../../../outside").disk =
        (.ok ["ws"] : Except PlatformError FilePath) := by decide +kernel
    rw [hws] at hroot
    cases hroot
    rfl
  revert hwithin
  decide

end Akua
