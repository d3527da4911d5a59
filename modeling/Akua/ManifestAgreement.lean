import Akua.Manifest
import Akua.RustManifest

/-! The manifest's rules in the two releases. A manifest without a `url` source or a `crds` field is
    one the previous release can be given, field by field; both then accept it or both refuse it,
    though they check in different orders and word the failures differently. -/

namespace Akua

/-- The fields the previous release reads of an entry. -/
def Dependency.previous (dependency : Dependency) : Rust.Dependency where
  oci := dependency.oci
  git := dependency.git
  path := dependency.path
  repo := dependency.repo
  chart := dependency.chart
  version := dependency.version
  tag := dependency.tag
  rev := dependency.rev
  replace := dependency.replace

/-- The tables the previous release reads of a manifest. -/
def Manifest.previous (manifest : Manifest) : Rust.AkuaManifest where
  package := { name := manifest.package.name, edition := manifest.package.edition }
  dependencies := manifest.declared.mapValues fun _ dependency => dependency.previous

theorem urlHasUserinfo_eq (url : String) : Rust.urlHasUserinfo url = hasUserInfo url := by
  have hscheme : Rust.stripScheme url = ((Text.cut url "://").map Prod.snd).getD url := by
    unfold Rust.stripScheme
    rcases Text.cut url "://" with _ | ⟨scheme, rest⟩ <;> rfl
  rw [Rust.urlHasUserinfo, hasUserInfo, ← hscheme, Text.head_split, Text.includes,
    String.toList_ofList]

theorem isValidPackageName_eq (name : String) :
    Rust.isValidPackageName name = isValidPackageName name := by
  unfold Rust.isValidPackageName isValidPackageName
  rcases name.toList with _ | ⟨first, rest⟩
  · rfl
  · have hfirst : (first != '-' && (first.isAlphanum || first == '_')) = isWordChar first := by
      by_cases hdash : first = '-'
      · subst hdash
        decide
      · simp [isWordChar, hdash]
    simp only [hfirst, isWordChar]

/-- A check that fails the rest, or is followed by it. -/
theorem check_ok {ε α β : Type} {c : Prop} [Decidable c] {e : ε} {f : α → Except ε β}
    {rest : Except ε β} {b : β} :
    (if c then .error e >>= f else rest) = .ok b ↔ ¬ c ∧ rest = .ok b := by
  by_cases h : c
  · rw [if_pos h]
    simp [h, except_bind_ok]
  · rw [if_neg h]
    simp [h]

theorem lastCheck_ok {ε : Type} {c : Prop} [Decidable c] {e : ε} :
    ((if c then .error e else pure ()) : Except ε Unit) = .ok () ↔ ¬ c := by
  by_cases h : c
  · simp [h]
  · rw [if_neg h]
    exact iff_of_true rfl h

section Entries

variable {name : String} {version tag rev chart replace : Option String}

/-- An accepted entry has one source. -/
theorem one_source {dependency : Dependency} (h : validateDependency name dependency = .ok ()) :
    ([dependency.oci, dependency.git, dependency.path, dependency.repo,
      dependency.url].filter Option.isSome).length = 1 := by
  unfold validateDependency at h
  by_contra hne
  rw [if_pos hne] at h
  cases h

theorem validate_oci {oci : String} :
    validateDependency name { oci := some oci, version, tag, rev, chart, replace } = .ok () ↔
      version.isSome ∧ hasUserInfo oci = false := by
  unfold validateDependency
  simp only [check_ok]
  cases version <;> cases hasUserInfo oci <;> simp [pure, Except.pure]

theorem validate_git {git : String} :
    validateDependency name { git := some git, version, tag, rev, chart, replace } = .ok () ↔
      (tag.isSome ∨ rev.isSome) ∧ hasUserInfo git = false := by
  unfold validateDependency
  simp only [check_ok]
  cases tag <;> cases rev <;> cases hasUserInfo git <;> simp [pure, Except.pure]

theorem validate_path {path : String} :
    validateDependency name { path := some path, version, tag, rev, chart, replace } = .ok () ↔
      version = none ∧ tag = none ∧ rev = none := by
  unfold validateDependency
  simp only [check_ok]
  cases version <;> cases tag <;> cases rev <;> simp [pure, Except.pure]

theorem validate_helm {repo : String} :
    validateDependency name { repo := some repo, version, tag, rev, chart, replace } = .ok () ↔
      ∃ plain, chart = some plain ∧ version.isSome ∧ hasUserInfo repo = false ∧
        Rust.isPathTraversalChartName plain = false := by
  unfold validateDependency
  simp only [check_ok, lastCheck_ok]
  cases chart <;> cases version <;> cases hasUserInfo repo <;>
    simp [Rust.isPathTraversalChartName]

end Entries

/-- `crds = false` is as good as none. -/
theorem validate_without_crds {dependency : Dependency} (hurl : dependency.url = none)
    (hcrds : crdSelector dependency = none) (name : String) :
    validateDependency name dependency = validateDependency name { dependency with crds := none } := by
  obtain ⟨oci, git, path, repo, chart, url, version, tag, rev, crds, replace⟩ := dependency
  obtain rfl : url = none := hurl
  cases crds with
  | none => rfl
  | some crds =>
    cases crds with
    | selector selector => cases hcrds
    | bool b =>
      cases b with
      | true => cases hcrds
      | false => rfl

/-- The releases accept the same entries. -/
theorem validateDependency_iff {dependency : Dependency} (hurl : dependency.url = none)
    (hcrds : crdSelector dependency = none) (name : String) :
    validateDependency name dependency = .ok () ↔ dependency.previous.validate name = .ok () := by
  rw [validate_without_crds hurl hcrds]
  obtain ⟨oci, git, path, repo, chart, url, version, tag, rev, crds, replace⟩ := dependency
  obtain rfl : url = none := hurl
  change validateDependency name ⟨oci, git, path, repo, chart, none, version, tag, rev, none, replace⟩ = _ ↔ _
  cases oci <;> cases git <;> cases path <;> cases repo
  case some.none.none.none oci =>
    rw [validate_oci, Rust.Dependency.validate]
    cases version <;> simp [Rust.Dependency.source, Dependency.previous, Rust.expect,
      urlHasUserinfo_eq, except_ok_bind]
  case none.some.none.none git =>
    rw [validate_git, Rust.Dependency.validate]
    cases tag <;> cases rev <;> simp [Rust.Dependency.source, Dependency.previous, Rust.expect,
      urlHasUserinfo_eq, except_ok_bind]
  case none.none.some.none path =>
    rw [validate_path, Rust.Dependency.validate]
    cases version <;> cases tag <;> cases rev <;> simp [Rust.Dependency.source, Dependency.previous]
  case none.none.none.some repo =>
    rw [validate_helm, Rust.Dependency.validate]
    cases chart <;> cases version <;> cases huser : hasUserInfo repo <;>
      simp [Rust.Dependency.source, Dependency.previous, Rust.expect, urlHasUserinfo_eq, huser,
        except_ok_bind]
  all_goals
    -- no source, or more than one: refused by both
    refine iff_of_false (fun h => ?_) ?_
    · simpa using one_source h
    · simp [Rust.Dependency.validate, Rust.Dependency.source, Dependency.previous]

/-! ### Whole manifests -/

theorem mem_dependencies {manifest : Manifest} {entry : String × Dependency} :
    entry ∈ dependencies manifest ↔ entry ∈ manifest.declared.entries := List.mem_insertionSort _

/-- A pass of checks in front of a result. -/
theorem checked_ok {ε α γ : Type} {check : α → Except ε Unit} {l : List α} {out accepted : γ} :
    (do let _ ← forEach check l; .ok out : Except ε γ) = .ok accepted ↔
      (∀ x ∈ l, check x = .ok ()) ∧ out = accepted := by
  have hunit : (∀ x ∈ l, check x = .ok ()) ↔ ∀ x ∈ l, ∃ y, check x = .ok y :=
    forall₂_congr fun x _ => ⟨fun h => ⟨(), h⟩, fun ⟨(), h⟩ => h⟩
  rw [except_bind_ok, hunit, ← except_forEach_iff]
  constructor
  · rintro ⟨ys, hys, h⟩
    exact ⟨⟨ys, hys⟩, Except.ok.inj h⟩
  · rintro ⟨⟨ys, hys⟩, rfl⟩
    exact ⟨ys, hys, rfl⟩

theorem validateManifest_iff {P : Platform} {raw : Value} {path : FilePath} {manifest : Manifest}
    (hraw : decodeManifest raw = some manifest) :
    (∃ accepted, validateManifest P raw path = .ok accepted) ↔
      Text.startsWith manifest.package.edition "akua.dev/" = true ∧
      isValidPackageName manifest.package.name = true ∧
      ∀ entry ∈ manifest.declared.entries, validateDependency entry.1 entry.2 = .ok () := by
  unfold validateManifest
  simp only [hraw]
  by_cases hedition : Text.startsWith manifest.package.edition "akua.dev/" = true
  · by_cases hname : isValidPackageName manifest.package.name = true
    · simp only [hedition, hname, Bool.not_true, Bool.false_eq_true, if_false, true_and, checked_ok,
        mem_dependencies, except_mapError_ok]
      simp
    · simp [hedition, hname]
  · simp [hedition]

theorem previous_validate_iff {manifest : Manifest} :
    manifest.previous.validate = .ok () ↔
      Text.startsWith manifest.package.edition "akua.dev/" = true ∧
      isValidPackageName manifest.package.name = true ∧
      ∀ entry ∈ manifest.declared.entries, entry.2.previous.validate entry.1 = .ok () := by
  have hordered : ∀ entry, entry ∈ manifest.previous.ordered ↔
      ∃ declared ∈ manifest.declared.entries, (declared.1, declared.2.previous) = entry := by
    intro entry
    rw [Rust.AkuaManifest.ordered, List.mem_insertionSort]
    exact List.mem_map
  have hedition : manifest.previous.package.edition = manifest.package.edition := rfl
  have hname : manifest.previous.package.name = manifest.package.name := rfl
  unfold Rust.AkuaManifest.validate
  rw [hedition, hname, isValidPackageName_eq]
  by_cases hedition : Text.startsWith manifest.package.edition "akua.dev/" = true
  · by_cases hname : isValidPackageName manifest.package.name = true
    · simp only [hedition, hname, Bool.not_true, Bool.false_eq_true, if_false, true_and, checked_ok,
        hordered, and_true]
      constructor
      · exact fun h entry hentry => h _ ⟨entry, hentry, rfl⟩
      · rintro h _ ⟨entry, hentry, rfl⟩
        exact h entry hentry
    · simp [hedition, hname]
  · simp [hedition]

/-- The releases accept the same manifests, of those the previous release can be given. -/
theorem manifests_accepted_alike {P : Platform} {text : String} {raw : Value} {manifest : Manifest}
    (path : FilePath) (htoml : P.parseToml text = .ok raw) (hraw : decodeManifest raw = some manifest)
    (hold : ∀ entry ∈ manifest.declared.entries, entry.2.url = none ∧ crdSelector entry.2 = none) :
    (∃ accepted, parseManifest P text path = .ok accepted) ↔ manifest.previous.validate = .ok () := by
  simp only [parseManifest, htoml]
  rw [validateManifest_iff hraw, previous_validate_iff]
  refine and_congr_right fun _ => and_congr_right fun _ => forall₂_congr fun entry hentry => ?_
  exact validateDependency_iff (hold entry hentry).1 (hold entry hentry).2 entry.1

/-- A fork of a registry artifact, and a plain path. -/
def forkedAndLocal : Value := .object
  [("package", .object [("name", .string "01-app"), ("version", .string "1"),
      ("edition", .string "akua.dev/v1alpha1")]),
   ("dependencies", .object
     [("web", .object [("oci", .string "oci://r/web"), ("version", .string "2"),
        ("replace", .object [("path", .string "fork")])]),
      ("lib", .object [("path", .string "lib")])])]

theorem forkedAndLocal_accepted : ∃ accepted,
    parseManifest (.ofTables [("text", forkedAndLocal)] [] [] []) "text" ["akua.toml"] = .ok accepted := by
  obtain ⟨manifest, hmanifest, hold, hvalid⟩ : ∃ manifest,
      decodeManifest forkedAndLocal = some manifest ∧
        (∀ entry ∈ manifest.declared.entries, entry.2.url = none ∧ crdSelector entry.2 = none) ∧
        manifest.previous.validate = .ok () := ⟨_, rfl, by decide, by decide⟩
  exact (manifests_accepted_alike _ rfl hmanifest hold).mpr hvalid

end Akua
