import Akua.Lib.Effect
import Akua.Lib.Table
import Akua.Lib.Text
import Mathlib.Data.List.Sort
import Mathlib.Data.String.Basic

/-! The previous release's manifest, which the render core still reads: the entries of `akua.toml`
    and what its validation accepts. A function of the core ends early with an error it returns or
    with a panic; `spec` panics on what validation should have refused. -/

namespace Akua.Rust

/-- How a function ends early. -/
inductive Stop (ε : Type) where
  | err (error : ε)
  | panic (message : String)
deriving DecidableEq

/-- `value.expect(message)`. -/
def expect {ε α : Type} (value : Option α) (message : String) : Except (Stop ε) α :=
  match value with
  | some value => .ok value
  | none => .error (.panic message)

@[simp] theorem expect_some {ε α : Type} (value : α) (message : String) :
    (expect (some value) message : Except (Stop ε) α) = .ok value := rfl

/-- A single dependency, by the fields of its entry. -/
structure Dependency where
  oci : Option String := none
  git : Option String := none
  path : Option String := none
  repo : Option String := none
  chart : Option String := none
  version : Option String := none
  tag : Option String := none
  rev : Option String := none
  /-- The path of a local fork. -/
  replace : Option String := none
deriving DecidableEq

inductive DependencySource where
  | oci
  | git
  | path
  | helm
deriving DecidableEq

inductive DependencySpec where
  | path (declared : String)
  | oci (oci version : String)
  | git (git : String) (tag rev : Option String)
  | helm (repo chart version : String)
deriving DecidableEq

def DependencySpec.tagOrRev : DependencySpec → Option String
  | .git _ tag rev => tag.or rev
  | _ => none

structure PackageSection where
  name : String
  edition : String
deriving DecidableEq

/-- The dependencies are read in the order of their names. -/
structure AkuaManifest where
  package : PackageSection
  dependencies : Table String Dependency := Table.empty
deriving DecidableEq

def AkuaManifest.ordered (manifest : AkuaManifest) : List (String × Dependency) :=
  manifest.dependencies.entries.insertionSort fun a b => a.1 ≤ b.1

inductive ManifestError where
  | parse (cause : String)
  | ambiguousSource (name : String) (count : Nat)
  | ociMissingVersion (name : String)
  | gitMissingTagOrRev (name : String)
  | pathHasPin (name : String)
  | badEdition (edition : String)
  | badPackageName (name : String)
  | gitUrlHasUserInfo (name : String)
  | helmMissingChart (name : String)
  | helmMissingVersion (name : String)
  | helmUrlHasUserInfo (name : String)
  | helmChartInvalid (name chart : String)
  | ociUrlHasUserInfo (name : String)
deriving DecidableEq

/-! ### Validation -/

def stripScheme (url : String) : String :=
  match Text.cut url "://" with
  | some (_, rest) => rest
  | none => url

/-- The authority of the URL has an `@`; one in its path does not count. -/
def urlHasUserinfo (url : String) : Bool :=
  ((stripScheme url).toList.takeWhile (· ≠ '/')).contains '@'

/-- Digit-prefixed names are permitted. -/
def isValidPackageName (s : String) : Bool :=
  match s.toList with
  | [] => false
  | first :: chars =>
    first != '-' && (first.isAlphanum || first == '_') &&
      chars.all fun c => c.isAlphanum || c == '_' || c == '-'

/-- A chart name that could be joined to a path out of the chart cache. -/
def isPathTraversalChartName (chart : String) : Bool :=
  Text.includes chart '/' || Text.includes chart '\\' || (Text.cut chart "..").isSome

namespace Dependency

/-- The one source that is set. -/
def source (dep : Dependency) : Option DependencySource :=
  match dep.oci.isSome, dep.git.isSome, dep.path.isSome, dep.repo.isSome with
  | true, false, false, false => some .oci
  | false, true, false, false => some .git
  | false, false, true, false => some .path
  | false, false, false, true => some .helm
  | _, _, _, _ => none

def UNVALIDATED : String :=
  "Dependency::spec called on an unvalidated manifest — call validate() first"

/-- The source with its fields. It panics on a dependency that is not valid. -/
def spec {ε : Type} (dep : Dependency) : Except (Stop ε) DependencySpec :=
  match dep.path, dep.oci, dep.git, dep.repo with
  | some declared, none, none, none => .ok (.path declared)
  | none, some oci, none, none => do
    let version ← expect dep.version UNVALIDATED
    .ok (.oci oci version)
  | none, none, some git, none => .ok (.git git dep.tag dep.rev)
  | none, none, none, some repo => do
    let chart ← expect dep.chart UNVALIDATED
    let version ← expect dep.version UNVALIDATED
    .ok (.helm repo chart version)
  | _, _, _, _ => .error (.panic UNVALIDATED)

/-- How many sources are set. -/
def sourceCount (dep : Dependency) : Nat :=
  dep.oci.isSome.toNat + dep.git.isSome.toNat + dep.path.isSome.toNat + dep.repo.isSome.toNat

def validate (dep : Dependency) (name : String) : Except (Stop ManifestError) Unit :=
  match dep.source with
  | none => .error (.err (.ambiguousSource name dep.sourceCount))
  | some .oci =>
    if dep.version.isNone then .error (.err (.ociMissingVersion name))
    else do
      let oci ← expect dep.oci "oci source set"
      if urlHasUserinfo oci then .error (.err (.ociUrlHasUserInfo name)) else .ok ()
  | some .git =>
    if dep.tag.isNone && dep.rev.isNone then .error (.err (.gitMissingTagOrRev name))
    else do
      let git ← expect dep.git "git source set"
      if urlHasUserinfo git then .error (.err (.gitUrlHasUserInfo name)) else .ok ()
  | some .path =>
    -- `replace` is not looked at, though the resolver counts on its absence here
    if dep.version.isSome || dep.tag.isSome || dep.rev.isSome then .error (.err (.pathHasPin name))
    else .ok ()
  | some .helm =>
    if dep.chart.isNone then .error (.err (.helmMissingChart name))
    else if dep.version.isNone then .error (.err (.helmMissingVersion name))
    else do
      let repo ← expect dep.repo "repo source set"
      if urlHasUserinfo repo then .error (.err (.helmUrlHasUserInfo name))
      else do
        let chart ← expect dep.chart "chart validated present"
        if isPathTraversalChartName chart then .error (.err (.helmChartInvalid name chart))
        else .ok ()

end Dependency

namespace AkuaManifest

def validate (manifest : AkuaManifest) : Except (Stop ManifestError) Unit :=
  if !Text.startsWith manifest.package.edition "akua.dev/" then
    .error (.err (.badEdition manifest.package.edition))
  else if !isValidPackageName manifest.package.name then
    .error (.err (.badPackageName manifest.package.name))
  else do
    let _ ← forEach (fun entry => entry.2.validate entry.1) manifest.ordered
    .ok ()

/-- Parse an `akua.toml`; `toml` reads the document into the fields above. -/
def parse (toml : String → Except String AkuaManifest) (s : String) :
    Except (Stop ManifestError) AkuaManifest := do
  let manifest ← (toml s).mapError fun cause => .err (.parse cause)
  manifest.validate
  .ok manifest

end AkuaManifest

/-! ### What validation guarantees -/

namespace Dependency

variable {dep : Dependency}

/-- The source a dependency comes from is set, and no other. -/
inductive From (dep : Dependency) : DependencySource → Prop where
  | oci {oci : String} (h : dep.oci = some oci) (hgit : dep.git = none) (hpath : dep.path = none)
      (hrepo : dep.repo = none) : From dep .oci
  | git {git : String} (hoci : dep.oci = none) (h : dep.git = some git) (hpath : dep.path = none)
      (hrepo : dep.repo = none) : From dep .git
  | path {path : String} (hoci : dep.oci = none) (hgit : dep.git = none) (h : dep.path = some path)
      (hrepo : dep.repo = none) : From dep .path
  | helm {repo : String} (hoci : dep.oci = none) (hgit : dep.git = none) (hpath : dep.path = none)
      (h : dep.repo = some repo) : From dep .helm

theorem from_of_source {source : DependencySource} (h : dep.source = some source) : dep.From source := by
  rcases dep with ⟨oci, git, path, repo, chart, version, tag, rev, replace⟩
  cases oci <;> cases git <;> cases path <;> cases repo <;> simp [Dependency.source] at h <;> subst h
  · exact .helm rfl rfl rfl rfl
  · exact .path rfl rfl rfl rfl
  · exact .git rfl rfl rfl rfl
  · exact .oci rfl rfl rfl rfl

/-- Validation ends with an error it returns, if it ends early. -/
theorem validate_returns {name message : String} : dep.validate name ≠ .error (.panic message) := by
  unfold validate
  split
  · simp
  · next hsource =>
    cases from_of_source hsource with | oci h => ?_
    simp only [h, expect_some, except_ok_bind]
    split_ifs <;> simp
  · next hsource =>
    cases from_of_source hsource with | git _ h => ?_
    simp only [h, expect_some, except_ok_bind]
    split_ifs <;> simp
  · split_ifs <;> simp
  · next hsource =>
    cases from_of_source hsource with | helm _ _ _ h => ?_
    cases hchart : dep.chart with
    | none => simp
    | some chart =>
      simp only [h, expect_some, except_ok_bind]
      split_ifs <;> simp

/-- What `spec` gives for a dependency, beside the fields that decide it. -/
inductive Reads (dep : Dependency) : DependencySpec → Prop where
  | path {declared : String} (h : dep.path = some declared) (hrepo : dep.repo = none) :
      Reads dep (.path declared)
  | oci {ref version : String} (hpath : dep.path = none) (hrepo : dep.repo = none) :
      Reads dep (.oci ref version)
  | git {url : String} {tag rev : Option String} (hpath : dep.path = none) (hrepo : dep.repo = none) :
      Reads dep (.git url tag rev)
  | helm {repo chart version : String} (hpath : dep.path = none) (h : dep.repo = some repo) :
      Reads dep (.helm repo chart version)

/-- `spec` does not panic on a valid dependency. -/
theorem spec_of_valid {name : String} (h : dep.validate name = .ok ()) :
    ∃ spec, (∀ ε, dep.spec (ε := ε) = .ok spec) ∧ dep.Reads spec := by
  unfold validate at h
  split at h
  · cases h
  · next hsource =>
    cases from_of_source hsource with | @oci ref hoci hgit hpath hrepo => ?_
    cases hversion : dep.version with
    | none => simp [hversion] at h
    | some version =>
      exact ⟨.oci ref version, by simp [spec, *, except_ok_bind], .oci hpath hrepo⟩
  · next hsource =>
    cases from_of_source hsource with | @git url hoci hgit hpath hrepo => ?_
    exact ⟨.git url dep.tag dep.rev, by simp [spec, *], .git hpath hrepo⟩
  · next hsource =>
    cases from_of_source hsource with | @path declared hoci hgit hpath hrepo => ?_
    exact ⟨.path declared, by simp [spec, *], .path hpath hrepo⟩
  · next hsource =>
    cases from_of_source hsource with | @helm repo hoci hgit hpath hrepo => ?_
    cases hchart : dep.chart with
    | none => simp [hchart] at h
    | some chart =>
      cases hversion : dep.version with
      | none => simp [hchart, hversion] at h
      | some version =>
        exact ⟨.helm repo chart version, by simp [spec, *, except_ok_bind], .helm hpath hrepo⟩

end Dependency

/-- An accepted manifest has valid dependencies. -/
theorem AkuaManifest.valid_of_parse {toml : String → Except String AkuaManifest} {s : String}
    {manifest : AkuaManifest} (h : parse toml s = .ok manifest) :
    ∀ entry ∈ manifest.ordered, entry.2.validate entry.1 = .ok () := by
  obtain ⟨parsed, -, h⟩ := except_bind_ok.mp h
  obtain ⟨_, hvalid, h⟩ := except_bind_ok.mp h
  cases h
  unfold validate at hvalid
  split at hvalid
  · cases hvalid
  split at hvalid
  · cases hvalid
  obtain ⟨_, hentries, -⟩ := except_bind_ok.mp hvalid
  intro entry hentry
  obtain ⟨_, hvalid⟩ := except_forEach_ok hentries entry hentry
  exact hvalid

end Akua.Rust
