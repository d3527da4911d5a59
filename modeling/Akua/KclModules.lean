import Akua.Workspace

/-! The KCL packages a render generates from its dependencies: `charts` (one module for each Helm
    dependency), `pkgs` (one stub for each Akua-Package dependency) and `crds` (the generated CRD
    schemas). KCL-module dependencies are mounted as they are. -/

namespace Akua

/-- What preparing a Package, or rendering it, fails with. -/
inductive RenderFailure where
  | renderError (message : String)
  | failure (error : Failure)
deriving DecidableEq

namespace Kcl

/-- The generators of KCL source that a render calls. -/
structure Generators where
  /-- A chart's `values.schema.json` as KCL; none when its root is no object. -/
  valuesSchemaKcl : String → Except String (Option String)
  /-- The stub of an Akua-Package dependency, from its name and its `package.k`. -/
  stubModule : String → String → String
  crdSchemaTree : CrdConverter

/-- The `path` a generated chart module hands `helm.template`. -/
def chartReference (dependency : String) : String := "/akua/deps/" ++ dependency

def kclMod (name : String) : String :=
  "[package]\nname = \"" ++ name ++ "\"\nedition = \"0.0.1\"\nversion = \"0.0.1\"\n"

/-- A character of a KCL string literal. -/
def escaped : Char → List Char
  | '\\' => ['\\', '\\']
  | '"' => ['\\', '"']
  | '\n' => ['\\', 'n']
  | '\r' => ['\\', 'r']
  | '\t' => ['\\', 't']
  | c => [c]

/-- A KCL string literal: `\`, `"`, newline, carriage return and tab escaped. -/
def kclStringLiteral (value : String) : String :=
  "\"" ++ String.ofList (value.toList.flatMap escaped) ++ "\""

/-! ### Identifiers -/

/-- Note one name; two names of one identifier would make one module overwrite the other. -/
def claimIdentifier (what : String) (seen : Table String String) (name : String) :
    Except RenderFailure (Table String String) :=
  let ident := kclIdent name
  match seen.get? ident with
  | none => .ok (seen.set ident name)
  | some prior =>
    if prior = name then .ok (seen.set ident name)
    else .error (.renderError ("materializing " ++ what ++ ": dep keys `" ++ prior ++ "` and `" ++
      name ++ "` both sanitize to the KCL identifier `" ++ ident ++
      "` - rename one so `import` aliases are unambiguous"))

def identifiers (names : List String) (what : String) : Except RenderFailure Unit := do
  let _ ← names.foldlM (claimIdentifier what) Table.empty
  .ok ()

/-- The names noted so far, under their identifiers. -/
def Claimed (seen : Table String String) (names : List String) : Prop :=
  ∀ name ∈ names, seen.get? (kclIdent name) = some name

theorem claimIdentifier_ok {what name : String} {seen after : Table String String}
    {names : List String} (hseen : Claimed seen names)
    (h : claimIdentifier what seen name = .ok after) : Claimed after (name :: names) ∧
      (name ∉ names → kclIdent name ∉ names.map kclIdent) := by
  have hprior : (seen.get? (kclIdent name) = none ∨ seen.get? (kclIdent name) = some name) ∧
      after = seen.set (kclIdent name) name := by
    unfold claimIdentifier at h
    dsimp only at h
    rcases hget : seen.get? (kclIdent name) with _ | prior <;> rw [hget] at h
    · cases h
      exact ⟨Or.inl rfl, rfl⟩
    · dsimp only at h
      by_cases hsame : prior = name
      · rw [if_pos hsame] at h
        cases h
        exact ⟨Or.inr (congrArg some hsame), rfl⟩
      · rw [if_neg hsame] at h
        cases h
  obtain ⟨hprior, rfl⟩ := hprior
  have hother : ∀ other ∈ names, kclIdent other = kclIdent name → other = name := by
    intro other hmem hident
    have hget := hseen other hmem
    rw [hident] at hget
    rcases hprior with hnone | hsome
    · rw [hnone] at hget
      cases hget
    · rw [hsome] at hget
      exact (Option.some.inj hget).symm
  refine ⟨fun other hmem => ?_, fun hnew hmem => ?_⟩
  · rw [Table.get?_set]
    rcases List.mem_cons.mp hmem with rfl | hmem
    · exact if_pos rfl
    · by_cases hident : kclIdent other = kclIdent name
      · rw [if_pos hident, hother other hmem hident]
      · rw [if_neg hident]
        exact hseen other hmem
  · obtain ⟨other, hother', hident⟩ := List.mem_map.mp hmem
    exact hnew (hother other hother' hident ▸ hother')

theorem claimIdentifiers_ok {what : String} : ∀ {names seen : List String} {table after : Table String String},
    Claimed table seen → names.foldlM (claimIdentifier what) table = .ok after →
    (names ++ seen).Nodup → (seen.map kclIdent).Nodup → ((names ++ seen).map kclIdent).Nodup := by
  intro names
  induction names with
  | nil => intro seen table after _ _ _ h; exact h
  | cons name names ih =>
    intro seen table after hseen h hnodup hidents
    rw [List.foldlM_cons] at h
    obtain ⟨next, hnext, hrest⟩ := except_bind_ok.mp h
    obtain ⟨hclaimed, hfresh⟩ := claimIdentifier_ok hseen hnext
    have hperm : (name :: names ++ seen).Perm (names ++ name :: seen) := List.perm_middle.symm
    have hnodup' := hperm.nodup_iff.mp hnodup
    have hname : name ∉ seen := (List.nodup_cons.mp (List.nodup_append.mp hnodup').2.1).1
    have := ih hclaimed hrest hnodup' (List.nodup_cons.mpr ⟨hfresh hname, hidents⟩)
    exact ((hperm.map kclIdent).nodup_iff).mpr this

/-- Distinct names that pass have distinct identifiers. -/
theorem identifiers_ok {names : List String} {what : String} (h : identifiers names what = .ok ())
    (hnodup : names.Nodup) : (names.map kclIdent).Nodup := by
  obtain ⟨after, hafter, -⟩ := except_bind_ok.mp h
  have hnone : Claimed Table.empty [] := fun _ h => absurd h List.not_mem_nil
  have := claimIdentifiers_ok hnone hafter (by rwa [List.append_nil]) List.nodup_nil
  rwa [List.append_nil] at this

/-! ### Packages -/

variable (P : Platform) (generators : Generators)

/-- The dependencies of one kind. -/
def ofKind (kind : DependencyKind) (dependencies : List ResolvedDependency) :
    List ResolvedDependency :=
  dependencies.filter fun dependency => dependency.kind = kind

/-- The chart's `values.schema.json` as KCL, if it has a usable one; a malformed one is skipped. -/
def typedValues (chart : ResolvedDependency) : Option String :=
  (chart.files.get? "values.schema.json").bind fun schema =>
    match generators.valuesSchemaKcl (decodeText P schema) with
    | .ok values => values
    | .error _ => none

/-- A chart's module: its path and digest, and a `template` callable. -/
def chartModule (name digest : String) (values : Option String) : String :=
  let typed := values.filter (· ≠ "")
  "# Auto-generated per-render from akua.toml dep `" ++ name ++ "`.\n" ++
  "# slice C: exposes `path`, `sha256`, `Values`, and a\n" ++
  "# pre-filled `template` callable. Regenerated every render.\n" ++
  "\n" ++
  "import akua.helm as _helm\n" ++
  "\n" ++
  "path: str = " ++ kclStringLiteral (chartReference name) ++ "\n" ++
  "sha256: str = \"" ++ digest ++ "\"\n" ++
  "\n" ++
  (match typed with
    | some values => "# Typed Values schema, generated from values.schema.json.\n" ++ values ++ "\n"
    | none => "") ++
  "schema TemplateOpts:\n" ++
  (if typed.isSome then "    values: Values\n" else "    values: \x7bstr:\x7d = \x7b\x7d\n") ++
  "    release: str = \"release\"\n" ++
  "    namespace: str = \"default\"\n" ++
  "\n" ++
  (if typed.isSome then "template = lambda opts: TemplateOpts -> [\x7bstr:\x7d] \x7b\n"
    else "template = lambda opts: TemplateOpts = TemplateOpts \x7b\x7d -> [\x7bstr:\x7d] \x7b\n") ++
  (if typed.isSome then "    _flat = \x7b**opts.values\x7d\n" else "") ++
  "    _helm.template(_helm.Template \x7b\n" ++
  "        chart = path\n" ++
  (if typed.isSome then "        values = _flat\n" else "        values = opts.values\n") ++
  "        release = opts.release\n" ++
  "        namespace = opts.namespace\n" ++
  "    \x7d)\n" ++
  "\x7d\n"

/-- `charts/<ident>.k` for every Helm dependency. -/
def chartsPackage (dependencies : List ResolvedDependency) : Except RenderFailure (Option Snapshot) :=
  let charts := ofKind .helm dependencies
  if charts = [] then .ok none
  else do
    identifiers (charts.map fun chart => chart.name) "charts pkg"
    .ok (some (charts.foldl
      (fun files chart => files.set (kclIdent chart.name ++ ".k")
        (encodeText (chartModule chart.name chart.digest (typedValues P generators chart))))
      (Table.empty.set "kcl.mod" (encodeText (kclMod "charts")))))

/-- `pkgs/<ident>.k` for every Akua-Package dependency. -/
def packageStubs (dependencies : List ResolvedDependency) : Except RenderFailure (Option Snapshot) :=
  let packages := ofKind .package dependencies
  if packages = [] then .ok none
  else do
    identifiers (packages.map fun dependency => dependency.name) "akua-pkg stubs"
    .ok (some (packages.foldl
      (fun files dependency => files.set (kclIdent dependency.name ++ ".k")
        (encodeText (generators.stubModule dependency.name
          (decodeText P ((dependency.files.get? "package.k").getD [])))))
      (Table.empty.set "kcl.mod" (encodeText (kclMod "pkgs")))))

/-- The schema tree of one CRD dependency: as `.akua/crds/` holds it, or generated. -/
def schemaTree (dependency : ResolvedDependency) : Except RenderFailure CrdTree :=
  match dependency.crds with
  | none => .ok { files := Table.empty, modules := [] }
  | some { selector, generated } =>
    match generated with
    | some files => .ok { files, modules := [] }
    | none => (generators.crdSchemaTree dependency.name dependency.files selector).mapError
      fun message => .failure (.dependencyUnresolved
        { dependency := dependency.name, code := "E_CRDS_INVALID"
          message := "dependency `" ++ dependency.name ++ "`: " ++ message })

/-- A KCL-module dependency that imports as `crds`. -/
def shadowsCrds (dependency : ResolvedDependency) : Bool :=
  dependency.kind = .kcl && kclIdent dependency.name = "crds"

/-- One CRD dependency's directory in the `crds` package. -/
def addSchemas (files : Snapshot) (dependency : ResolvedDependency) : Except RenderFailure Snapshot := do
  let tree ← schemaTree generators dependency
  .ok (tree.files.entries.foldl
    (fun files (name, data) => files.set (kclIdent dependency.name ++ "/" ++ name) data) files)

/-- The `crds` package: one directory for each CRD dependency. -/
def crdsPackage (dependencies : List ResolvedDependency) : Except RenderFailure (Option Snapshot) :=
  let crds := ofKind .crds dependencies
  if crds = [] then .ok none
  else do
    identifiers (crds.map fun dependency => dependency.name) "crds pkg"
    match dependencies.find? shadowsCrds with
    | some shadowed => .error (.renderError ("dependency `" ++ shadowed.name ++
        "` imports as `crds`, which the CRD dependencies use - rename it"))
    | none => do
      let files ← crds.foldlM (addSchemas generators)
        (Table.empty.set "kcl.mod" (encodeText CRDS_KCL_MOD))
      .ok (some files)

/-- A KCL package under the identifier it imports as. -/
structure KclModule where
  ident : String
  files : Snapshot
deriving DecidableEq

/-- KCL-module dependencies by the identifier they import as. -/
def kclModules (dependencies : List ResolvedDependency) : Except RenderFailure (List KclModule) := do
  let modules := ofKind .kcl dependencies
  identifiers (modules.map fun dependency => dependency.name) "kcl-package deps"
  .ok (modules.map fun dependency => { ident := kclIdent dependency.name, files := dependency.files })

/-! ### What the packages are made for -/

variable {P generators} {dependencies : List ResolvedDependency}

theorem chartsPackage_ok {charts : Option Snapshot}
    (h : chartsPackage P generators dependencies = .ok charts) :
    charts.isSome ↔ ofKind .helm dependencies ≠ [] := by
  unfold chartsPackage at h
  dsimp only at h
  by_cases hnone : ofKind .helm dependencies = []
  · rw [if_pos hnone] at h
    cases h
    simp [hnone]
  · rw [if_neg hnone] at h
    obtain ⟨-, -, h⟩ := except_bind_ok.mp h
    cases h
    simp [hnone]

theorem packageStubs_ok {stubs : Option Snapshot}
    (h : packageStubs P generators dependencies = .ok stubs) :
    stubs.isSome ↔ ofKind .package dependencies ≠ [] := by
  unfold packageStubs at h
  dsimp only at h
  by_cases hnone : ofKind .package dependencies = []
  · rw [if_pos hnone] at h
    cases h
    simp [hnone]
  · rw [if_neg hnone] at h
    obtain ⟨-, -, h⟩ := except_bind_ok.mp h
    cases h
    simp [hnone]

/-- With a `crds` package, no KCL module imports as `crds`. -/
theorem crdsPackage_ok {crds : Snapshot} (h : crdsPackage generators dependencies = .ok (some crds)) :
    ∀ dependency ∈ ofKind .kcl dependencies, kclIdent dependency.name ≠ "crds" := by
  unfold crdsPackage at h
  dsimp only at h
  by_cases hnone : ofKind .crds dependencies = []
  · rw [if_pos hnone] at h
    cases h
  · rw [if_neg hnone] at h
    obtain ⟨-, -, h⟩ := except_bind_ok.mp h
    rcases hshadow : dependencies.find? shadowsCrds with _ | shadowed <;> rw [hshadow] at h
    · intro dependency hmem hident
      obtain ⟨hmem, hkind⟩ := List.mem_filter.mp hmem
      refine List.find?_eq_none.mp hshadow dependency hmem ?_
      simp [shadowsCrds, hkind, hident]
    · cases h

theorem kclModules_ok {modules : List KclModule} (h : kclModules dependencies = .ok modules) :
    identifiers ((ofKind .kcl dependencies).map fun dependency => dependency.name) "kcl-package deps" =
        .ok () ∧
      modules.map KclModule.ident =
        ((ofKind .kcl dependencies).map fun dependency => dependency.name).map kclIdent := by
  obtain ⟨⟨⟩, hidents, h⟩ := except_bind_ok.mp h
  cases h
  refine ⟨hidents, ?_⟩
  simp only [List.map_map, Function.comp_def]

end Kcl

end Akua
