import Akua.LockClosure

/-! What is written to `akua.toml` is read again as the manifest it was, and `akua.lock` as the lock. -/

namespace Akua

open Value

/-! ### Records -/

theorem mapM_forall₂ {α β : Type} {f : α → Option β} : ∀ {l : List α}, (∀ a ∈ l, ∃ b, f a = some b) →
    ∃ out, l.mapM f = some out ∧ List.Forall₂ (fun a b => f a = some b) l out
  | [], _ => ⟨[], rfl, .nil⟩
  | a :: l, h => by
    obtain ⟨b, hb⟩ := h a List.mem_cons_self
    obtain ⟨out, hout, hall⟩ := mapM_forall₂ (l := l) fun c hc => h c (List.mem_cons_of_mem _ hc)
    exact ⟨b :: out, by rw [List.mapM_cons, hb, hout]; rfl, .cons hb hall⟩

section Records

variable {α : Type} {schema : Value → Option α}

/-- The decoder of one entry. -/
def decodeEntry (schema : Value → Option α) (entry : String × Value) : Option (String × α) :=
  (entry.1, ·) <$> schema entry.2

theorem lookup_decoded {entries : List (String × Value)} {out : List (String × α)}
    (h : List.Forall₂ (fun entry decoded => decodeEntry schema entry = some decoded) entries out) :
    out.map Prod.fst = entries.map Prod.fst ∧ ∀ key, out.lookup key = (entries.lookup key).bind schema := by
  induction h with
  | nil => exact ⟨rfl, fun _ => rfl⟩
  | @cons entry decoded entries out hfirst _ ih =>
    obtain ⟨name, held⟩ := entry
    rw [decodeEntry] at hfirst
    cases hheld : schema held with
    | none => rw [hheld] at hfirst; cases hfirst
    | some a =>
      rw [hheld] at hfirst
      cases hfirst
      refine ⟨by rw [List.map_cons, List.map_cons, ih.1], fun key => ?_⟩
      rw [List.lookup_cons, List.lookup_cons, ih.2]
      cases key == name with
      | true => exact hheld.symm
      | false => rfl

/-- A record with distinct keys decodes when each of its values does. -/
theorem asRecord_of_forall {entries : List (String × Value)} (hkeys : (entries.map Prod.fst).Nodup)
    (h : ∀ entry ∈ entries, ∃ a, schema entry.2 = some a) :
    ∃ table, asRecord schema (.object entries) = some table ∧
      ∀ key, table.get? key = (entries.lookup key).bind schema := by
  obtain ⟨out, hout, hall⟩ := mapM_forall₂ (f := decodeEntry schema) (l := entries) fun entry hentry => by
    obtain ⟨a, ha⟩ := h entry hentry
    exact ⟨(entry.1, a), by rw [decodeEntry, ha]; rfl⟩
  obtain ⟨hfst, hlookup⟩ := lookup_decoded hall
  refine ⟨Table.ofList out, ?_, fun key => ?_⟩
  · rw [asRecord]
    exact congrArg (Table.ofList <$> ·) hout
  · rw [Table.get?, Table.entries_ofList (hfst ▸ hkeys), hlookup]

/-- A document alike one whose record decodes has one that decodes to the same. -/
theorem asRecord_alike (hstable : Stable schema) {entries : List (String × Value)}
    (hkeys : (entries.map Prod.fst).Nodup) (h : ∀ entry ∈ entries, ∃ a, schema entry.2 = some a) {raw : Value}
    (halike : Alike raw (.object entries)) :
    ∃ table, asRecord schema raw = some table ∧ ∀ key, table.get? key = (entries.lookup key).bind schema := by
  cases raw with
  | object entries' =>
    have hcanonical : canonicalEntries entries' = canonicalEntries entries := by
      rw [Alike, canonical, canonical] at halike
      injection halike
    have hperm : (entries'.map fun entry => (entry.1, entry.2.canonical)).Perm
        (entries.map fun entry => (entry.1, entry.2.canonical)) := by
      have hsort := (List.perm_insertionSort ByKey (entries'.map fun entry => (entry.1, entry.2.canonical))).symm
      rw [← canonicalEntries_eq, hcanonical, canonicalEntries_eq] at hsort
      exact hsort.trans (List.perm_insertionSort ByKey _)
    have hkeys' : (entries'.map Prod.fst).Nodup := by
      have hfst := (hperm.map Prod.fst).nodup_iff
      simp only [List.map_map, Function.comp_def] at hfst
      exact hfst.mpr hkeys
    have hdecodes : ∀ entry ∈ entries', ∃ a, schema entry.2 = some a := by
      intro entry hentry
      have hmem : (entry.1, entry.2.canonical) ∈ entries'.map fun entry => (entry.1, entry.2.canonical) :=
        List.mem_map.mpr ⟨entry, hentry, rfl⟩
      obtain ⟨origin, horigin, heq⟩ := List.mem_map.mp (hperm.mem_iff.mp hmem)
      obtain ⟨a, ha⟩ := h origin horigin
      exact ⟨a, by rw [← hstable, ← (Prod.mk.inj heq).2, hstable, ha]⟩
    obtain ⟨table, htable, hget⟩ := asRecord_of_forall hkeys' hdecodes
    refine ⟨table, htable, fun key => ?_⟩
    have hlookup : (entries'.lookup key).map canonical = (entries.lookup key).map canonical := by
      rw [← lookup_canonicalEntries, ← lookup_canonicalEntries, hcanonical]
    have hbind : ∀ held : Option Value, held.bind schema = (held.map canonical).bind schema := by
      intro held
      cases held with
      | none => rfl
      | some v => exact (hstable v).symm
    rw [hget, hbind, hlookup, ← hbind]
  | _ => rw [Alike, canonical, canonical] at halike; cases halike

/-- The record of a key, in a document alike one that has it. -/
theorem optionalKey_alike (hstable : Stable schema) {key : String} {entries inner : List (String × Value)}
    (hlookup : entries.lookup key = some (.object inner)) (hkeys : (inner.map Prod.fst).Nodup)
    (h : ∀ entry ∈ inner, ∃ a, schema entry.2 = some a) {raw : Value} (halike : Alike raw (.object entries)) :
    ∃ table, optionalKey (asRecord schema) key raw = some (some table) ∧
      ∀ name, table.get? name = (inner.lookup name).bind schema := by
  cases raw with
  | object entries' =>
    have hcanonical : (entries'.lookup key).map canonical = some (Value.object inner).canonical := by
      rw [Alike, canonical, canonical] at halike
      injection halike with halike
      rw [← lookup_canonicalEntries, halike, lookup_canonicalEntries, hlookup]
      rfl
    obtain ⟨held, hheld, hinner⟩ := Option.map_eq_some_iff.mp hcanonical
    obtain ⟨table, htable, hget⟩ := asRecord_alike hstable hkeys h hinner
    refine ⟨table, ?_, hget⟩
    rw [optionalKey, hheld]
    simp only [htable]
    rfl
  | _ => rw [Alike, canonical, canonical] at halike; cases halike

end Records

/-! ### The manifest -/

def Dependency.fields (dependency : Dependency) : List (String × Option TomlItem) :=
  [("oci", dependency.oci.map .string), ("git", dependency.git.map .string), ("path", dependency.path.map .string),
   ("repo", dependency.repo.map .string), ("chart", dependency.chart.map .string),
   ("url", dependency.url.map .string), ("version", dependency.version.map .string),
   ("tag", dependency.tag.map .string), ("rev", dependency.rev.map .string),
   ("crds", dependency.crds.map CrdsField.toml),
   ("replace", dependency.replace.map fun path => .table [("path", .string path)])]

def Signing.fields (signing : Signing) : List (String × Option TomlItem) :=
  [("cosign_public_key", signing.cosign_public_key.map .string),
   ("cosign_private_key", signing.cosign_private_key.map .string)]

def PackageTable.fields (package : PackageTable) : List (String × Option TomlItem) :=
  [("name", some (.string package.name)), ("version", some (.string package.version)),
   ("edition", some (.string package.edition)), ("strict_signing", package.strict_signing.map .bool)]

theorem Dependency.toml_eq (dependency : Dependency) : dependency.toml = Akua.fields dependency.fields := by
  simp [Dependency.toml, Akua.fields, Dependency.fields]

theorem Signing.toml_eq (signing : Signing) : signing.toml = Akua.fields signing.fields := by
  simp [Signing.toml, Akua.fields, Signing.fields]

theorem PackageTable.toml_eq (package : PackageTable) : package.toml = Akua.fields package.fields := by
  simp [PackageTable.toml, Akua.fields, PackageTable.fields, TomlItem.some?]

theorem Dependency.fields_nodup (dependency : Dependency) : (dependency.fields.map Prod.fst).Nodup := by
  have hkeys : dependency.fields.map Prod.fst =
      ["oci", "git", "path", "repo", "chart", "url", "version", "tag", "rev", "crds", "replace"] := rfl
  rw [hkeys]
  decide

theorem Signing.fields_nodup (signing : Signing) : (signing.fields.map Prod.fst).Nodup := by
  have hkeys : signing.fields.map Prod.fst = ["cosign_public_key", "cosign_private_key"] := rfl
  rw [hkeys]
  decide

theorem PackageTable.fields_nodup (package : PackageTable) : (package.fields.map Prod.fst).Nodup := by
  have hkeys : package.fields.map Prod.fst = ["name", "version", "edition", "strict_signing"] := rfl
  rw [hkeys]
  decide

theorem crds_document (crds : CrdsField) : CrdsField.decode crds.toml.document = some crds := by
  cases crds with
  | bool b => rw [CrdsField.toml, TomlItem.bool, TomlItem.document]; rfl
  | selector text => rw [CrdsField.toml, TomlItem.string, TomlItem.document]; rfl

theorem dependency_document (dependency : Dependency) :
    Dependency.decode (TomlItem.table dependency.toml).document = some dependency := by
  have hkeys := dependency.fields_nodup
  have hstring : ∀ {key : String} {a : Option String}, dependency.fields.lookup key = some (a.map .string) →
      optionalKey asString key (.object (documentEntries (Akua.fields dependency.fields))) = some a :=
    fun h => optionalKey_fields hkeys asString_document h
  rw [TomlItem.document, dependency.toml_eq, Dependency.decode, hstring (a := dependency.oci) rfl,
    hstring (a := dependency.git) rfl, hstring (a := dependency.path) rfl, hstring (a := dependency.repo) rfl,
    hstring (a := dependency.chart) rfl, hstring (a := dependency.url) rfl, hstring (a := dependency.version) rfl,
    hstring (a := dependency.tag) rfl, hstring (a := dependency.rev) rfl,
    optionalKey_fields (a := dependency.crds) hkeys crds_document rfl,
    optionalKey_fields (a := dependency.replace) hkeys path_document rfl]
  rfl

theorem signing_document (signing : Signing) :
    Signing.decode (TomlItem.table signing.toml).document = some signing := by
  have hkeys := signing.fields_nodup
  rw [TomlItem.document, signing.toml_eq, Signing.decode,
    optionalKey_fields (a := signing.cosign_public_key) hkeys asString_document rfl,
    optionalKey_fields (a := signing.cosign_private_key) hkeys asString_document rfl]
  rfl

theorem package_document (package : PackageTable) :
    PackageTable.decode (TomlItem.table package.toml).document = some package := by
  have hkeys := package.fields_nodup
  rw [TomlItem.document, package.toml_eq, PackageTable.decode,
    required_fields (a := package.name) hkeys asString_document rfl,
    required_fields (a := package.version) hkeys asString_document rfl,
    required_fields (a := package.edition) hkeys asString_document rfl,
    optionalKey_fields (a := package.strict_signing) hkeys asBool_document rfl]
  rfl

/-- `[workspace]` with its members. -/
def workspaceItem (members : List String) : TomlItem := .table [("members", .value (.strings members))]

theorem workspace_document (members : List String) :
    optionalKey (asArray asString) "members" (workspaceItem members).document = some (some members) := by
  have hkeys : (([("members", some (.value (.strings members)))] : List (String × Option TomlItem)).map Prod.fst).Nodup := by
    simp
  rw [workspaceItem, TomlItem.document]
  exact optionalKey_fields (a := some members) hkeys strings_document rfl

def dependencyTables (manifest : Manifest) : TomlEntries :=
  (Akua.dependencies manifest).map fun declared => (declared.1, .table declared.2.toml)

def Manifest.fields (manifest : Manifest) : List (String × Option TomlItem) :=
  [("package", some (.table manifest.package.toml)),
   ("workspace", manifest.workspace.map fun members => workspaceItem (members.getD [])),
   ("signing", manifest.signing.map fun signing => .table signing.toml),
   ("dependencies", some (.table (dependencyTables manifest)))]

theorem formatManifest_eq (manifest : Manifest) : formatManifest manifest = toToml (Akua.fields manifest.fields) := by
  rw [formatManifest]
  congr 1
  simp [Akua.fields, Manifest.fields, TomlItem.some?, workspaceItem, dependencyTables]

theorem Manifest.fields_nodup (manifest : Manifest) : (manifest.fields.map Prod.fst).Nodup := by
  have hkeys : manifest.fields.map Prod.fst = ["package", "workspace", "signing", "dependencies"] := rfl
  rw [hkeys]
  decide

theorem valid_table {list : List (String × Option TomlItem)} (hkeys : (list.map Prod.fst).Nodup)
    (h : ∀ field ∈ list, ∀ item ∈ field.2, item.Valid) : (TomlItem.table (Akua.fields list)).Valid := by
  rw [TomlItem.Valid]
  exact ⟨(fields_keys list).nodup hkeys, validEntries_fields h⟩

theorem valid_some {item : TomlItem} (h : item.Valid) : ∀ held ∈ some item, held.Valid := by
  rintro held ⟨⟩
  exact h

theorem valid_crds (crds : CrdsField) : crds.toml.Valid := by
  cases crds with
  | bool b => exact valid_bool b
  | selector text => exact valid_string text

theorem valid_dependency (dependency : Dependency) : (TomlItem.table dependency.toml).Valid := by
  rw [dependency.toml_eq]
  refine valid_table dependency.fields_nodup ?_
  simp only [Dependency.fields, List.forall_mem_cons]
  exact ⟨valid_of_map valid_string, valid_of_map valid_string, valid_of_map valid_string, valid_of_map valid_string,
    valid_of_map valid_string, valid_of_map valid_string, valid_of_map valid_string, valid_of_map valid_string,
    valid_of_map valid_string, valid_of_map valid_crds, valid_of_map valid_path, List.forall_mem_nil _⟩

theorem valid_signing (signing : Signing) : (TomlItem.table signing.toml).Valid := by
  rw [signing.toml_eq]
  refine valid_table signing.fields_nodup ?_
  simp only [Signing.fields, List.forall_mem_cons]
  exact ⟨valid_of_map valid_string, valid_of_map valid_string, List.forall_mem_nil _⟩

theorem valid_package (package : PackageTable) : (TomlItem.table package.toml).Valid := by
  rw [package.toml_eq]
  refine valid_table package.fields_nodup ?_
  simp only [PackageTable.fields, List.forall_mem_cons]
  exact ⟨valid_some (valid_string _), valid_some (valid_string _), valid_some (valid_string _),
    valid_of_map valid_bool, List.forall_mem_nil _⟩

theorem valid_workspace (members : List String) : (workspaceItem members).Valid := by
  rw [workspaceItem, TomlItem.Valid, ValidEntries, ValidEntries]
  exact ⟨by simp, valid_strings members, trivial⟩

theorem dependencies_perm (manifest : Manifest) : (Akua.dependencies manifest).Perm manifest.declared.entries :=
  List.perm_insertionSort _ _

theorem valid_dependencies (manifest : Manifest) : (TomlItem.table (dependencyTables manifest)).Valid := by
  rw [TomlItem.Valid, validEntries_iff, dependencyTables, List.map_map]
  refine ⟨dependencies_nodup manifest, ?_⟩
  simp only [List.forall_mem_map]
  exact fun declared _ => valid_dependency declared.2

theorem manifest_valid (manifest : Manifest) :
    ((Akua.fields manifest.fields).map Prod.fst).Nodup ∧ ValidEntries (Akua.fields manifest.fields) := by
  refine ⟨(fields_keys manifest.fields).nodup manifest.fields_nodup, validEntries_fields ?_⟩
  simp only [Manifest.fields, List.forall_mem_cons]
  exact ⟨valid_some (valid_package _), valid_of_map fun members : Option (List String) => valid_workspace (members.getD []),
    valid_of_map valid_signing, valid_some (valid_dependencies _), List.forall_mem_nil _⟩

theorem stable_crds : Stable CrdsField.decode := fun v => by cases v <;> rw [canonical] <;> rfl

theorem stable_dependency : Stable Dependency.decode := by
  intro v
  simp only [Dependency.decode, stable_optionalKey stable_asString _ v, stable_optionalKey stable_crds _ v,
    stable_optionalKey (stable_required stable_asString "path") _ v]

theorem stable_signing : Stable Signing.decode := by
  intro v
  simp only [Signing.decode, stable_optionalKey stable_asString _ v]

theorem stable_package : Stable PackageTable.decode := by
  intro v
  simp only [PackageTable.decode, stable_required stable_asString _ v, stable_optionalKey stable_asBool _ v]

theorem get?_dependencies (manifest : Manifest) (name : String) :
    ((documentEntries (dependencyTables manifest)).lookup name).bind Dependency.decode = manifest.declared.get? name := by
  have hlookup : ∀ declared : List (String × Dependency),
      ((declared.map fun entry => (entry.1, TomlItem.table entry.2.toml)).lookup name).map TomlItem.document =
        (declared.lookup name).map fun dependency => (TomlItem.table dependency.toml).document := by
    intro declared
    induction declared with
    | nil => rfl
    | cons entry rest ih =>
      rw [List.map_cons, List.lookup_cons, List.lookup_cons]
      cases name == entry.1 with
      | true => rfl
      | false => exact ih
  have hsorted : (Akua.dependencies manifest).lookup name = manifest.declared.get? name := by
    refine Option.ext fun dependency => ?_
    rw [Table.lookup_eq_some (dependencies_nodup manifest), (dependencies_perm manifest).mem_iff, Table.get?_eq_some]
  rw [lookup_documentEntries, dependencyTables, hlookup, hsorted]
  cases manifest.declared.get? name with
  | none => rfl
  | some dependency => exact dependency_document dependency

/-- A document alike the one that is written decodes to the manifest. -/
theorem decodeManifest_alike {manifest : Manifest} {raw : Value}
    (h : Alike raw (.object (documentEntries (Akua.fields manifest.fields)))) :
    ∃ declared : Table String Dependency, decodeManifest raw = some
      { package := manifest.package, workspace := manifest.workspace.map fun members => some (members.getD [])
        signing := manifest.signing, dependencies := some declared } ∧
      ∀ name, declared.get? name = manifest.declared.get? name := by
  have hkeys := manifest.fields_nodup
  have hpackage : required PackageTable.decode "package" raw = some manifest.package :=
    ((stable_required stable_package "package").alike h).trans (required_fields hkeys package_document rfl)
  have hsigning : optionalKey Signing.decode "signing" raw = some manifest.signing :=
    ((stable_optionalKey stable_signing "signing").alike h).trans (optionalKey_fields hkeys signing_document rfl)
  have hworkspace : optionalKey (optionalKey (asArray asString) "members") "workspace" raw =
      some (manifest.workspace.map fun members => some (members.getD [])) := by
    refine ((stable_optionalKey (stable_optionalKey (stable_asArray stable_asString) "members") "workspace").alike h).trans ?_
    rw [optionalKey, lookup_documentEntries, lookup_fields hkeys]
    have hlookup : manifest.fields.lookup "workspace" =
        some (manifest.workspace.map fun members => workspaceItem (members.getD [])) := rfl
    rw [hlookup]
    cases manifest.workspace with
    | none => rfl
    | some members =>
      simp only [Option.map_some, Option.join_some, workspace_document]
      rfl
  have hinner : (documentEntries (Akua.fields manifest.fields)).lookup "dependencies" =
      some (.object (documentEntries (dependencyTables manifest))) := by
    have hlookup : manifest.fields.lookup "dependencies" = some (some (.table (dependencyTables manifest))) := rfl
    rw [lookup_documentEntries, lookup_fields hkeys, hlookup, Option.join_some, Option.map_some, TomlItem.document]
  have hnodup : ((documentEntries (dependencyTables manifest)).map Prod.fst).Nodup := by
    rw [documentEntries_eq, dependencyTables, List.map_map, List.map_map]
    exact dependencies_nodup manifest
  obtain ⟨declared, hdeclared, hget⟩ := optionalKey_alike stable_dependency hinner hnodup (fun entry hentry => by
    rw [documentEntries_eq, dependencyTables, List.map_map] at hentry
    obtain ⟨origin, -, rfl⟩ := List.mem_map.mp hentry
    exact ⟨origin.2, dependency_document origin.2⟩) h
  refine ⟨declared, ?_, fun name => (hget name).trans (get?_dependencies manifest name)⟩
  rw [decodeManifest, hpackage, hworkspace, hsigning, hdeclared]
  rfl

variable {P : Platform}

/-- A manifest that the parser takes passes its rules, entry by entry. -/
theorem manifest_accepted {text : String} {path : FilePath} {manifest : Manifest}
    (h : parseManifest P text path = .ok manifest) :
    Text.startsWith manifest.package.edition "akua.dev/" = true ∧ isValidPackageName manifest.package.name = true ∧
      ∀ name dependency, manifest.declared.get? name = some dependency → validateDependency name dependency = .ok () := by
  rw [parseManifest] at h
  split at h
  · cases h
  · rw [validateManifest] at h
    dsimp only at h
    split at h
    · cases h
    · split at h
      · cases h
      · rename_i hedition
        split at h
        · cases h
        · rename_i hname
          obtain ⟨_, hall, h⟩ := except_bind_ok.mp h
          cases h
          refine ⟨by simpa using hedition, by simpa using hname, fun name dependency hget => ?_⟩
          have hmem : (name, dependency) ∈ Akua.dependencies manifest :=
            (dependencies_perm manifest).mem_iff.mpr (Table.get?_eq_some.mp hget)
          obtain ⟨_, hok⟩ := except_forEach_ok hall _ hmem
          exact except_mapError_ok.mp hok

/-- A manifest that keeps the rules is read again from what is written of it: only a workspace without
    `members` comes back with an empty list of them. -/
theorem parseManifest_formatManifest (hP : ReadsToml P) {manifest : Manifest}
    (hedition : Text.startsWith manifest.package.edition "akua.dev/" = true)
    (hname : isValidPackageName manifest.package.name = true)
    (hrules : ∀ name dependency, manifest.declared.get? name = some dependency →
      validateDependency name dependency = .ok ()) (path : FilePath) :
    ∃ again, parseManifest P (formatManifest manifest) path = .ok again ∧ again.package = manifest.package ∧
      again.workspace = manifest.workspace.map (fun members => some (members.getD [])) ∧
      again.signing = manifest.signing ∧ ∀ name, again.declared.get? name = manifest.declared.get? name := by
  obtain ⟨hkeys, hvalid⟩ := manifest_valid manifest
  have hheader : Toml.Lines "".toList [] := Toml.Lines.nil
  obtain ⟨raw, hraw, halike⟩ := parseToml_toToml hP hheader hkeys hvalid
  rw [String.empty_append, ← formatManifest_eq] at hraw
  obtain ⟨declared, hdecode, hget⟩ := decodeManifest_alike halike
  refine ⟨{ package := manifest.package, signing := manifest.signing, dependencies := some declared
            workspace := manifest.workspace.map fun members => some (members.getD []) }, ?_, rfl, rfl, rfl, hget⟩
  rw [parseManifest, hraw]
  simp only [validateManifest, hdecode, hedition, hname, Bool.not_true, Bool.false_eq_true, if_false]
  refine except_bind_ok.mpr ?_
  have hall : ∀ entry ∈ Akua.dependencies { package := manifest.package, signing := manifest.signing
                                            dependencies := some declared
                                            workspace := manifest.workspace.map fun members => some (members.getD []) },
      ∃ y, ((validateDependency entry.1 entry.2).mapError fun problem =>
        ({ path, code := problem.code, message := problem.message } : ManifestInvalid)) = .ok y := by
    refine fun entry hentry => ⟨(), except_mapError_ok.mpr ?_⟩
    have hmem : declared.get? entry.1 = some entry.2 :=
      Table.get?_eq_some.mpr ((dependencies_perm _).mem_iff.mp hentry)
    exact hrules entry.1 entry.2 (hget entry.1 ▸ hmem)
  obtain ⟨ys, hys⟩ := except_forEach_iff.mpr hall
  exact ⟨ys, hys, rfl⟩

/-! ### The bytes of a document -/

theorem formatLock_head (lock : Lock) (cli : String) : (encodeText (formatLock lock cli)).head? = some 0x23 := by
  have hopen : (encodeText "# akua.lock - machine-maintained. Never hand-edit.\n").head? = some 0x23 := by decide +kernel
  have hheader : (encodeText (lockHeader cli)).head? = some 0x23 := by
    unfold lockHeader
    generalize "# akua.lock - machine-maintained. Never hand-edit.\n" = opening at hopen ⊢
    iterate 8 apply SampleWorkspace.head_append
    exact SampleWorkspace.head_append hopen
  exact SampleWorkspace.head_append hheader

theorem decodeText_formatLock (lock : Lock) (cli : String) :
    decodeText P (encodeText (formatLock lock cli)) = formatLock lock cli := by
  refine decodeText_encodeText P ?_
  rw [formatLock_head]
  decide

theorem ownSection_tables {tables : TomlEntries} (h : ∀ entry ∈ tables, ∃ held, entry.2 = .table held) :
    (ownSection tables).1 = "" := by
  induction tables with
  | nil => rfl
  | cons entry rest ih =>
    obtain ⟨⟨held, hheld⟩, hrest⟩ := List.forall_mem_cons.mp h
    obtain ⟨name, item⟩ := entry
    subst hheld
    rw [ownSection]
    exact ih hrest

theorem exists_intercalate (separator first : String) (rest : List String) :
    ∃ more, separator.intercalate (first :: rest) = first ++ more := by
  have hlist : ∃ more, separator.toList.intercalate (first.toList :: rest.map String.toList) = first.toList ++ more := by
    cases rest with
    | nil => exact ⟨[], by rw [List.map_nil, List.intercalate_singleton, List.append_nil]⟩
    | cons second rest =>
      rw [List.map_cons, List.intercalate_cons_cons, List.append_assoc]
      exact ⟨_, rfl⟩
  obtain ⟨more, hmore⟩ := hlist
  refine ⟨String.ofList more, String.toList_inj.mp ?_⟩
  rw [String.toList_intercalate, List.map_cons, hmore, String.toList_append, String.toList_ofList]

/-- A document of tables starts with the header of its first one. -/
theorem exists_toToml {name : String} {held : TomlEntries} {rest : TomlEntries}
    (h : ∀ entry ∈ rest, ∃ held, entry.2 = .table held) (hheld : (ownSection held).1 ≠ "") :
    ∃ more, toToml ((name, .table held) :: rest) = "[" ++ more := by
  have hroot : (ownSection ((name, .table held) :: rest)).1 = "" :=
    ownSection_tables (List.forall_mem_cons.mpr ⟨⟨held, rfl⟩, h⟩)
  have hsections : toToml ((name, .table held) :: rest) = "\n".intercalate
      ((⟨some [name], false, (ownSection held).1, (ownSection held).2⟩ : Section).text ::
        (((childSections [name] held ++ childSections [] rest).filter Section.kept).map Section.text)) := by
    rw [toToml]
    simp only [hroot, childSections, itemSections, List.nil_append, List.cons_append]
    rw [List.filter_cons_of_neg (by simp [Section.kept]), List.filter_cons_of_pos (by simp [Section.kept, hheld]),
      List.map_cons]
  obtain ⟨more, hmore⟩ := exists_intercalate "\n"
    (⟨some [name], false, (ownSection held).1, (ownSection held).2⟩ : Section).text
    (((childSections [name] held ++ childSections [] rest).filter Section.kept).map Section.text)
  rw [hsections, hmore, Section.text]
  simp only [Bool.false_eq_true, if_false, String.append_assoc]
  exact ⟨_, rfl⟩

theorem decodeText_formatManifest (manifest : Manifest) :
    decodeText P (encodeText (formatManifest manifest)) = formatManifest manifest := by
  have hopen : (encodeText "[").head? = some 0x5B := by decide +kernel
  have hbody : (ownSection manifest.package.toml).1 ≠ "" := by
    rw [PackageTable.toml, List.cons_append, TomlItem.string, ownSection]
    intro hempty
    have hlength := congrArg String.length hempty
    simp at hlength
  obtain ⟨more, hmore⟩ : ∃ more, formatManifest manifest = "[" ++ more := by
    rw [formatManifest, List.singleton_append, List.cons_append, List.cons_append]
    refine exists_toToml ?_ hbody
    intro entry hentry
    rcases hworkspace : manifest.workspace with _ | members <;> rcases hsigning : manifest.signing with _ | signing <;>
      simp [hworkspace, hsigning, TomlItem.some?] at hentry
    · exact ⟨_, congrArg Prod.snd hentry⟩
    · rcases hentry with rfl | rfl <;> exact ⟨_, rfl⟩
    · rcases hentry with rfl | rfl <;> exact ⟨_, rfl⟩
    · rcases hentry with rfl | rfl | rfl <;> exact ⟨_, rfl⟩
  refine decodeText_encodeText P ?_
  rw [hmore, SampleWorkspace.head_append hopen]
  decide

/-! ### Round trips -/

/-- A TOML reader takes what the writer writes for the tree it was given; a manifest loses nothing on the
    way, but an absent list of workspace members; a lock comes back sorted, without empty lists, exactly
    when no name and version stand in it twice. -/
theorem written_toml_read_iff (P : Platform) (hP : ReadsToml P) :
    (∀ root : TomlEntries, (root.map Prod.fst).Nodup → ValidEntries root →
      ∃ raw, P.parseToml (toToml root) = .ok raw ∧ Alike raw (.object (documentEntries root))) ∧
    (∀ text path path' manifest, parseManifest P text path = .ok manifest →
      ∃ again, parseManifest P (formatManifest manifest) path' = .ok again ∧ again.package = manifest.package ∧
        again.workspace = manifest.workspace.map (fun members => some (members.getD [])) ∧
        again.signing = manifest.signing ∧ ∀ name, again.declared.get? name = manifest.declared.get? name) ∧
    (∀ text path path' lock cli, parseLock P text path = .ok lock → OneLine cli →
      (parseLock P (formatLock lock cli) path' = .ok
          { version := lock.version
            package := some ((sortPackages lock.packages).map fun entry =>
              { entry with dependencies := entry.dependencies.filter (· ≠ []) }) } ↔
        (lock.packages.map fun entry => (entry.name, entry.version)).Nodup)) := by
  refine ⟨fun root hkeys hvalid => ?_, fun text path path' manifest h => ?_, fun text path path' lock cli h hcli => ?_⟩
  · have hheader : Toml.Lines "".toList [] := Toml.Lines.nil
    obtain ⟨raw, hraw, halike⟩ := parseToml_toToml hP hheader hkeys hvalid
    rw [String.empty_append] at hraw
    exact ⟨raw, hraw, halike⟩
  · obtain ⟨hedition, hname, hrules⟩ := manifest_accepted h
    exact parseManifest_formatManifest hP hedition hname hrules path'
  · obtain ⟨hversion, hknown⟩ := accepted h
    obtain ⟨hsame, hparses⟩ := parses_formatLock_iff hP hcli hversion path'
    exact (hsame.trans hparses).trans (and_iff_left hknown)

/-- A manifest with a workspace, no members, and a dependency. -/
def sampleManifest : Manifest where
  package := { name := "web", version := "1", edition := "akua.dev/v1" }
  workspace := some none
  dependencies := some (Table.ofList [("db", { path := some "../db" })])

theorem sampleManifest_read (path : FilePath) :
    ∃ manifest, parseManifest tomlHost (formatManifest sampleManifest) path = .ok manifest ∧
      manifest.package = sampleManifest.package ∧
      ∀ name, manifest.declared.get? name = sampleManifest.declared.get? name := by
  have hrules : ∀ name dependency, sampleManifest.declared.get? name = some dependency →
      validateDependency name dependency = .ok () := by
    intro name dependency h
    have hmem := Table.get?_eq_some.mp h
    have hentries : sampleManifest.declared.entries = [("db", { path := some "../db" })] := rfl
    rw [hentries, List.mem_singleton] at hmem
    cases hmem
    rfl
  have hedition : Text.startsWith sampleManifest.package.edition "akua.dev/" = true := by decide
  obtain ⟨manifest, hparse, hpackage, -, -, hsame⟩ :=
    parseManifest_formatManifest readsToml_tomlHost hedition (by decide) hrules path
  exact ⟨manifest, hparse, hpackage, hsame⟩

/-- The tree of a lock with an entry twice is read; the manifest is read twice; the lock is not. -/
theorem sample_documents_read :
    (∃ raw, tomlHost.parseToml twiceText = .ok raw) ∧
    (∃ manifest again, parseManifest tomlHost (formatManifest sampleManifest) [] = .ok manifest ∧
      parseManifest tomlHost (formatManifest manifest) [] = .ok again ∧ again.package = sampleManifest.package) ∧
    parseLock tomlHost (formatLock twiceLock "akuapkg") [] ≠ .ok
      { version := LOCK_VERSION, package := some [oneEntry "1", oneEntry "1", oneEntry "2"] } := by
  obtain ⟨htree, hmanifest, hlock⟩ := written_toml_read_iff tomlHost readsToml_tomlHost
  have hcli : OneLine "akuapkg" := oneLine_of_all (by decide +kernel)
  refine ⟨?_, ?_, ?_⟩
  · obtain ⟨hkeys, hvalid⟩ := lockTree_valid [oneEntry "1", oneEntry "2", oneEntry "1"]
    obtain ⟨raw, hraw, -⟩ := htree _ hkeys hvalid
    exact ⟨raw, hraw⟩
  · obtain ⟨manifest, hparse, hpackage, -⟩ := sampleManifest_read []
    obtain ⟨again, hagain, hsame, -⟩ := hmanifest _ _ [] _ hparse
    exact ⟨manifest, again, hparse, hagain, hsame.trans hpackage⟩
  · have hiff := hlock _ _ [] twiceLock "akuapkg" parse_twiceText hcli
    intro h
    exact absurd (hiff.mp (h.trans rfl)) (by decide)

theorem twice_lost : ¬ ∀ text lock, parseLock tomlHost text [] = .ok lock →
    parseLock tomlHost (formatLock lock "akuapkg") [] = .ok lock.rewritten := by
  intro h
  have hcli : OneLine "akuapkg" := oneLine_of_all (by decide +kernel)
  have hversion : twiceLock.version = LOCK_VERSION := rfl
  obtain ⟨hsame, hparses⟩ := parses_formatLock_iff readsToml_tomlHost hcli hversion []
  exact absurd ((hsame.trans hparses).mp (h _ _ parse_twiceText)).1 (by decide)

end Akua
