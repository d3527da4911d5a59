import Akua.LockMerge
import Akua.RemoveVerb
import Akua.TomlDocuments

/-! What is written to `akua.lock` is read again. The parser compares each entry with the one before
    it, in the order of the file; the writer sorts the entries by name and version. A name and version
    that stand twice in a lock, apart, pass the parser until the writer brings them together. -/

namespace Akua

/-! ### The reader of TOML -/

/-- The TOML package reads what the reader of `Toml` does, with numbers as doubles. -/
def ReadsToml (P : Platform) : Prop := ∀ text root, Toml.parse text = some root → ExactEntries root →
  ∃ raw, P.parseToml text = .ok raw ∧ Value.Alike raw (.object (ofEntries root))

/-- A name that fits in a comment. -/
def OneLine (cli : String) : Prop := ∀ c ∈ cli.toList, Toml.isControl c = false

theorem alike_document {root : TomlEntries} (hkeys : (root.map Prod.fst).Nodup) (hvalid : ValidEntries root) :
    Value.Alike (.object (ofEntries (arranged root))) (.object (documentEntries root)) := by
  rw [Value.Alike, Value.canonical, Value.canonical, (alike_arranged hkeys hvalid).1]

variable {P : Platform}

/-- Comments before a document do not change what is read. -/
theorem parseToml_toToml (hP : ReadsToml P) {header : String} (hheader : Toml.Lines header.toList [])
    {root : TomlEntries} (hkeys : (root.map Prod.fst).Nodup) (hvalid : ValidEntries root) :
    ∃ raw, P.parseToml (header ++ toToml root) = .ok raw ∧ Value.Alike raw (.object (documentEntries root)) := by
  obtain ⟨last, hlast⟩ := builds_body hkeys hvalid Toml.Focus.root
  have hlines := hheader.append (lines_toToml hvalid)
  rw [List.nil_append, ← String.toList_append] at hlines
  obtain ⟨raw, hraw, halike⟩ := hP _ _ (Toml.parse_of_lines hlines hlast) (alike_arranged hkeys hvalid).2
  exact ⟨raw, hraw, halike.trans (alike_document hkeys hvalid)⟩

theorem oneLine_append {a b : String} (ha : OneLine a) (hb : OneLine b) : OneLine (a ++ b) := by
  rw [OneLine, String.toList_append]
  exact List.forall_mem_append.mpr ⟨ha, hb⟩

theorem oneLine_of_all {a : String} (h : (a.toList.all fun c => !Toml.isControl c) = true) : OneLine a := by
  intro c hc
  simpa using List.all_eq_true.mp h c hc

theorem lines_comment {text : String} (h : OneLine text) : Toml.Lines ("#" ++ text ++ "\n").toList [] := by
  have hlines := Toml.lines_comment h
  have htext : ("#" ++ text ++ "\n").toList = '#' :: text.toList ++ ['\n'] := by simp
  rwa [htext]

theorem lines_lockHeader {cli : String} (h : OneLine cli) : Toml.Lines (lockHeader cli).toList [] := by
  have hfirst : OneLine " akua.lock - machine-maintained. Never hand-edit." := oneLine_of_all (by decide +kernel)
  have hsecond : OneLine (" Regenerated by `" ++ cli ++ " add`, `" ++ cli ++ " pull`, `" ++ cli ++ " publish`, `" ++
      cli ++ " update`.") := by
    refine oneLine_append (oneLine_append (oneLine_append (oneLine_append (oneLine_append (oneLine_append
      (oneLine_append (oneLine_append ?_ h) ?_) h) ?_) h) ?_) h) ?_
    all_goals exact oneLine_of_all (by decide +kernel)
  have hlines := (lines_comment hfirst).append ((lines_comment hsecond).append Toml.lines_blank)
  have hblank : ['\n'] = "\n".toList := rfl
  have hopen : "# akua.lock - machine-maintained. Never hand-edit.\n" =
      "#" ++ " akua.lock - machine-maintained. Never hand-edit." ++ "\n" := by decide +kernel
  have hby : "# Regenerated by `" = "#" ++ " Regenerated by `" := by decide +kernel
  have hclose : " update`.\n\n" = " update`." ++ "\n" ++ "\n" := by decide +kernel
  rw [hblank, ← String.toList_append, ← String.toList_append] at hlines
  have hheader : lockHeader cli = "#" ++ " akua.lock - machine-maintained. Never hand-edit." ++ "\n" ++
      ("#" ++ " Regenerated by `") ++ cli ++ " add`, `" ++ cli ++ " pull`, `" ++ cli ++ " publish`, `" ++ cli ++
      (" update`." ++ "\n" ++ "\n") :=
    congrArg₂ (· ++ ·) (congrArg (fun text => text ++ cli ++ " add`, `" ++ cli ++ " pull`, `" ++ cli ++
      " publish`, `" ++ cli) (congrArg₂ (· ++ ·) hopen hby)) hclose
  rw [hheader]
  simpa only [String.append_assoc, List.nil_append] using hlines

/-! ### Fields -/

theorem lookup_documentEntries (key : String) (entries : TomlEntries) :
    (documentEntries entries).lookup key = (entries.lookup key).map TomlItem.document := by
  induction entries with
  | nil => rw [documentEntries]; rfl
  | cons entry rest ih =>
    rw [documentEntries, List.lookup_cons, List.lookup_cons, ih]
    split <;> rfl

/-- Fields in order, those that are there. -/
def fields (list : List (String × Option TomlItem)) : TomlEntries :=
  list.flatMap fun field => TomlItem.some? field.1 field.2

theorem lookup_fields {list : List (String × Option TomlItem)} (hkeys : (list.map Prod.fst).Nodup) (key : String) :
    (fields list).lookup key = (list.lookup key).join := by
  induction list with
  | nil => rfl
  | cons field rest ih =>
    obtain ⟨name, item⟩ := field
    obtain ⟨hname, hrest⟩ := List.nodup_cons.mp hkeys
    have hfields : fields ((name, item) :: rest) = TomlItem.some? name item ++ fields rest := rfl
    rw [hfields, List.lookup_append, ih hrest, List.lookup_cons]
    by_cases h : key = name
    · have habsent : rest.lookup key = none := by
        rw [List.lookup_eq_none_iff]
        intro p hp
        rw [bne_iff_ne]
        exact fun heq => hname (List.mem_map.mpr ⟨p, hp, heq.symm.trans h⟩)
      subst h
      rw [habsent, beq_self_eq_true]
      cases item <;> simp [TomlItem.some?]
    · rw [beq_eq_false_iff_ne.mpr h]
      cases item with
      | none => rfl
      | some item =>
        have hother : ([(name, item)] : TomlEntries).lookup key = none := by
          rw [List.lookup_cons, beq_eq_false_iff_ne.mpr h]
          rfl
        rw [TomlItem.some?, hother, Option.none_or]

theorem fields_keys (list : List (String × Option TomlItem)) :
    ((fields list).map Prod.fst).Sublist (list.map Prod.fst) := by
  induction list with
  | nil => exact .slnil
  | cons field rest ih =>
    obtain ⟨name, item⟩ := field
    cases item with
    | none => exact .cons name ih
    | some item => exact .cons_cons name ih

theorem validEntries_fields {list : List (String × Option TomlItem)}
    (h : ∀ field ∈ list, ∀ item ∈ field.2, item.Valid) : ValidEntries (fields list) := by
  rw [validEntries_iff]
  intro entry hentry
  obtain ⟨field, hfield, hmem⟩ := List.mem_flatMap.mp hentry
  cases hitem : field.2 with
  | none => rw [hitem, TomlItem.some?] at hmem; cases hmem
  | some item =>
    rw [hitem, TomlItem.some?, List.mem_singleton] at hmem
    rw [hmem]
    exact h field hfield item hitem

section Fields

variable {α : Type} {schema : Value → Option α} {item : α → TomlItem} {list : List (String × Option TomlItem)}
  {key : String}

theorem required_fields (hkeys : (list.map Prod.fst).Nodup) (hschema : ∀ a, schema (item a).document = some a) {a : α}
    (h : list.lookup key = some (some (item a))) :
    Value.required schema key (.object (documentEntries (fields list))) = some a := by
  rw [Value.required, lookup_documentEntries, lookup_fields hkeys, h]
  exact hschema a

theorem optionalKey_fields (hkeys : (list.map Prod.fst).Nodup) (hschema : ∀ a, schema (item a).document = some a)
    {a : Option α} (h : list.lookup key = some (a.map item)) :
    Value.optionalKey schema key (.object (documentEntries (fields list))) = some a := by
  rw [Value.optionalKey, lookup_documentEntries, lookup_fields hkeys, h]
  cases a with
  | none => rfl
  | some a => simp only [Option.map_some, Option.join_some, hschema]; rfl

end Fields

theorem asString_document (text : String) : Value.asString (TomlItem.string text).document = some text := by
  rw [TomlItem.string, TomlItem.document]; rfl

theorem asBool_document (b : Bool) : Value.asBool (TomlItem.bool b).document = some b := by
  rw [TomlItem.bool, TomlItem.document]; rfl

theorem mapM_string (names : List String) : (names.map Value.string).mapM Value.asString = some names := by
  induction names with
  | nil => rfl
  | cons name names ih =>
    rw [List.map_cons, List.mapM_cons, ih]
    rfl

theorem strings_document (names : List String) :
    Value.asArray Value.asString (TomlItem.value (.strings names)).document = some names := by
  rw [TomlItem.document, TomlValue.document, Value.asArray, mapM_string]

/-- `{ path }`. -/
theorem path_document (path : String) :
    Value.required Value.asString "path" (TomlItem.table [("path", .string path)]).document = some path := by
  have hkeys : (([("path", some (.string path))] : List (String × Option TomlItem)).map Prod.fst).Nodup := by simp
  rw [TomlItem.document]
  exact required_fields hkeys asString_document rfl

/-! ### Entries of the lock -/

/-- An entry as it is read again: without an empty list of dependencies. -/
def LockedPackage.pruned (entry : LockedPackage) : LockedPackage :=
  { entry with dependencies := entry.dependencies.filter (· ≠ []) }

def LockedPackage.fields (entry : LockedPackage) : List (String × Option TomlItem) :=
  [("name", some (.string entry.name)), ("version", some (.string entry.version)),
   ("source", some (.string entry.source)), ("digest", some (.string entry.digest)),
   ("vendor_digest", entry.vendor_digest.map .string), ("signature", entry.signature.map .string),
   ("dependencies", (entry.dependencies.filter (· ≠ [])).map fun names => .value (.strings names)),
   ("attestation", entry.attestation.map .string),
   ("replaced", entry.replaced.map fun path => .table [("path", .string path)]),
   ("yanked", entry.yanked.map .bool), ("kyverno_source_digest", entry.kyverno_source_digest.map .string),
   ("converter_version", entry.converter_version.map .string), ("crds_digest", entry.crds_digest.map .string)]

theorem LockedPackage.toml_eq (entry : LockedPackage) : entry.toml = Akua.fields entry.fields := by
  rw [LockedPackage.toml]
  rcases hdependencies : entry.dependencies with _ | _ | ⟨name, names⟩ <;>
    simp [Akua.fields, LockedPackage.fields, TomlItem.some?, hdependencies, Option.filter_some]

theorem LockedPackage.fields_nodup (entry : LockedPackage) : (entry.fields.map Prod.fst).Nodup := by
  have hkeys : entry.fields.map Prod.fst = ["name", "version", "source", "digest", "vendor_digest", "signature",
    "dependencies", "attestation", "replaced", "yanked", "kyverno_source_digest", "converter_version",
    "crds_digest"] := rfl
  rw [hkeys]
  decide

theorem decode_document (entry : LockedPackage) :
    LockedPackage.decode (.object (documentEntries entry.toml)) = some entry.pruned := by
  have hkeys := entry.fields_nodup
  rw [entry.toml_eq]
  have hstring : ∀ {key : String} {a : Option String}, entry.fields.lookup key = some (a.map .string) →
      Value.optionalKey Value.asString key (.object (documentEntries (Akua.fields entry.fields))) = some a :=
    fun h => optionalKey_fields hkeys asString_document h
  rw [LockedPackage.decode, required_fields (a := entry.name) hkeys asString_document rfl,
    required_fields (a := entry.version) hkeys asString_document rfl,
    required_fields (a := entry.source) hkeys asString_document rfl,
    required_fields (a := entry.digest) hkeys asString_document rfl]
  rw [hstring (a := entry.vendor_digest) rfl, hstring (a := entry.signature) rfl,
    optionalKey_fields (a := entry.dependencies.filter (· ≠ [])) hkeys strings_document rfl,
    hstring (a := entry.attestation) rfl, optionalKey_fields (a := entry.replaced) hkeys path_document rfl,
    optionalKey_fields (a := entry.yanked) hkeys asBool_document rfl,
    hstring (a := entry.kyverno_source_digest) rfl, hstring (a := entry.converter_version) rfl,
    hstring (a := entry.crds_digest) rfl]
  rfl

/-! ### The lock -/

/-- The tree of a lock with its entries in the order given. -/
def lockTree (version : Number) (packages : List LockedPackage) : TomlEntries :=
  [("version", .value (.number version)), ("package", .tables (packages.map LockedPackage.toml))]

/-- A lock as it is read again: its entries sorted. -/
def Lock.rewritten (lock : Lock) : Lock :=
  { version := lock.version, package := some ((sortPackages lock.packages).map LockedPackage.pruned) }

theorem validTables_iff {tables : List TomlEntries} : ValidTables tables ↔
    ∀ entries ∈ tables, (entries.map Prod.fst).Nodup ∧ ValidEntries entries := by
  induction tables with
  | nil => simp [ValidTables]
  | cons entries rest ih => simp [ValidTables, ih]

theorem valid_string (text : String) : (TomlItem.string text).Valid := by
  rw [TomlItem.string, TomlItem.Valid]
  exact trivial

theorem valid_bool (b : Bool) : (TomlItem.bool b).Valid := by
  rw [TomlItem.bool, TomlItem.Valid]
  exact trivial

theorem valid_strings (names : List String) : (TomlItem.value (.strings names)).Valid := by
  rw [TomlItem.Valid]
  exact trivial

theorem valid_path (path : String) : (TomlItem.table [("path", .string path)]).Valid := by
  rw [TomlItem.Valid, ValidEntries, ValidEntries]
  exact ⟨by simp, valid_string path, trivial⟩

theorem valid_of_map {α : Type} {item : α → TomlItem} (h : ∀ a, (item a).Valid) {a : Option α} :
    ∀ held ∈ a.map item, held.Valid := by
  intro held hheld
  obtain ⟨a, -, rfl⟩ := Option.mem_map.mp hheld
  exact h a

theorem LockedPackage.toml_valid (entry : LockedPackage) :
    (entry.toml.map Prod.fst).Nodup ∧ ValidEntries entry.toml := by
  rw [entry.toml_eq]
  refine ⟨(fields_keys entry.fields).nodup entry.fields_nodup, validEntries_fields ?_⟩
  have hstring : ∀ text : String, ∀ item ∈ some (TomlItem.string text), item.Valid := by
    rintro text item ⟨⟩
    exact valid_string text
  simp only [LockedPackage.fields, List.forall_mem_cons]
  exact ⟨hstring _, hstring _, hstring _, hstring _, valid_of_map valid_string, valid_of_map valid_string,
    valid_of_map valid_strings, valid_of_map valid_string, valid_of_map valid_path, valid_of_map valid_bool,
    valid_of_map valid_string, valid_of_map valid_string, valid_of_map valid_string, List.forall_mem_nil _⟩

theorem lockTree_valid (packages : List LockedPackage) :
    ((lockTree LOCK_VERSION packages).map Prod.fst).Nodup ∧ ValidEntries (lockTree LOCK_VERSION packages) := by
  refine ⟨by simp [lockTree], ?_⟩
  rw [lockTree, ValidEntries, ValidEntries, ValidEntries, TomlItem.Valid, TomlItem.Valid, validTables_iff]
  refine ⟨⟨1, rfl, by decide⟩, ?_, trivial⟩
  simp only [List.forall_mem_map]
  exact fun entry _ => entry.toml_valid

theorem documentTables_eq (tables : List TomlEntries) :
    documentTables tables = tables.map fun entries => .object (documentEntries entries) := by
  induction tables with
  | nil => rw [documentTables]; rfl
  | cons entries rest ih => rw [documentTables, ih]; rfl

theorem mapM_of_forall {α β : Type} {f : α → Option β} {g : α → β} : ∀ {l : List α}, (∀ a ∈ l, f a = some (g a)) →
    l.mapM f = some (l.map g)
  | [], _ => rfl
  | a :: l, h => by
    rw [List.mapM_cons, h a List.mem_cons_self, mapM_of_forall fun b hb => h b (List.mem_cons_of_mem _ hb)]
    rfl

theorem decodeLock_document (version : Number) (packages : List LockedPackage) :
    decodeLock (.object (documentEntries (lockTree version packages))) =
      some { version, package := some (packages.map LockedPackage.pruned) } := by
  have hversion : (documentEntries (lockTree version packages)).lookup "version" = some (.number version) := by
    rw [lookup_documentEntries, lockTree]
    simp only [List.lookup_cons, beq_self_eq_true, Option.map_some, TomlItem.document, TomlValue.document]
  have hpackage : (documentEntries (lockTree version packages)).lookup "package" =
      some (.array ((packages.map LockedPackage.toml).map fun entries => .object (documentEntries entries))) := by
    have hlookup : (lockTree version packages).lookup "package" = some (.tables (packages.map LockedPackage.toml)) := rfl
    rw [lookup_documentEntries, hlookup, Option.map_some, TomlItem.document, documentTables_eq]
  have hentries : packages.mapM (LockedPackage.decode ∘ (fun entries => Value.object (documentEntries entries)) ∘
      LockedPackage.toml) = some (packages.map LockedPackage.pruned) := mapM_of_forall fun entry _ => decode_document entry
  rw [decodeLock, Value.required, hversion, Value.optionalKey, hpackage]
  simp only [Option.bind_eq_bind, Option.bind_some, Value.asNumber, Value.asArray, List.map_map]
  rw [List.mapM_map, hentries]
  rfl

theorem stable_decode : Value.Stable LockedPackage.decode := by
  intro v
  simp only [LockedPackage.decode, Value.stable_required Value.stable_asString _ v,
    Value.stable_optionalKey Value.stable_asString _ v, Value.stable_optionalKey Value.stable_asBool _ v,
    Value.stable_optionalKey (Value.stable_asArray Value.stable_asString) _ v,
    Value.stable_optionalKey (Value.stable_required Value.stable_asString "path") _ v]

theorem stable_decodeLock : Value.Stable decodeLock := by
  intro v
  simp only [decodeLock, Value.stable_required Value.stable_asNumber _ v,
    Value.stable_optionalKey (Value.stable_asArray stable_decode) _ v]

/-- The parser on the text of a tree of entries, after comments. -/
theorem parseLock_lockTree (hP : ReadsToml P) {header : String} (hheader : Toml.Lines header.toList [])
    (packages : List LockedPackage) (path : FilePath) :
    parseLock P (header ++ toToml (lockTree LOCK_VERSION packages)) path =
      (entriesProblem none (packages.map LockedPackage.pruned)).elim
        (.ok { version := LOCK_VERSION, package := some (packages.map LockedPackage.pruned) })
        fun message => .error { path, message } := by
  obtain ⟨hkeys, hvalid⟩ := lockTree_valid packages
  obtain ⟨raw, hraw, halike⟩ := parseToml_toToml hP hheader hkeys hvalid
  have hdecode := (stable_decodeLock.alike halike).trans (decodeLock_document LOCK_VERSION packages)
  rw [parseLock, hraw]
  simp only [validateLock, hdecode, Lock.packages, Option.getD_some]
  rw [if_neg (not_not_intro rfl)]
  cases entriesProblem none (packages.map LockedPackage.pruned) <;> rfl

/-- The parser sees the lock that was written, sorted. -/
theorem parseLock_formatLock (hP : ReadsToml P) {cli : String} (hcli : OneLine cli) {lock : Lock}
    (hversion : lock.version = LOCK_VERSION) (path : FilePath) :
    parseLock P (formatLock lock cli) path = (entriesProblem none lock.rewritten.packages).elim
      (.ok lock.rewritten) fun message => .error { path, message } := by
  have h := parseLock_lockTree hP (lines_lockHeader hcli) (sortPackages lock.packages) path
  rw [← hversion] at h
  exact h

/-! ### Which locks the parser takes -/

theorem entryProblem_none {previous : Option LockedPackage} {entry : LockedPackage} :
    entryProblem previous entry = none ↔
      (∀ p ∈ previous, Text.less entry.name p.name = false ∧ entry.slot ≠ p.slot) ∧ knownScheme entry.digest = true := by
  rw [entryProblem]
  cases previous with
  | none => cases hscheme : knownScheme entry.digest <;> simp
  | some p =>
    have hslot : entry.slot ≠ p.slot ↔ ¬ (entry.name = p.name ∧ entry.version = p.version) := by
      rw [ne_eq, LockedPackage.slot, LockedPackage.slot, Prod.mk.injEq]
    by_cases hless : Text.less entry.name p.name = true
    · simp [hless]
    · by_cases hsame : entry.name = p.name ∧ entry.version = p.version
      · simp [hsame, LockedPackage.slot, Text.less_irrefl]
      · cases hscheme : knownScheme entry.digest <;> simp [hless, hsame, hslot]

theorem entriesProblem_none : ∀ {previous : Option LockedPackage} {entries : List LockedPackage},
    entriesProblem previous entries = none ↔
      (previous.toList ++ entries).IsChain (fun p entry => Text.less entry.name p.name = false ∧ entry.slot ≠ p.slot) ∧
      ∀ entry ∈ entries, knownScheme entry.digest = true
  | none, [] => by simp [entriesProblem]
  | some p, [] => by simp [entriesProblem]
  | previous, entry :: rest => by
    have horElse : entriesProblem previous (entry :: rest) = none ↔
        entryProblem previous entry = none ∧ entriesProblem (some entry) rest = none := by
      rw [entriesProblem]
      cases entryProblem previous entry <;> simp
    rw [horElse, entryProblem_none, entriesProblem_none, List.forall_mem_cons]
    cases previous with
    | none => simp; tauto
    | some p => simp [List.isChain_cons_cons]; tauto

theorem isChain_and {α : Type} {r s : α → α → Prop} : ∀ {l : List α}, l.IsChain r → l.IsChain s →
    l.IsChain fun a b => r a b ∧ s a b
  | [], _, _ => .nil
  | [a], _, _ => .singleton a
  | a :: b :: l, hr, hs => by
    rw [List.isChain_cons_cons] at hr hs ⊢
    exact ⟨⟨hr.1, hs.1⟩, isChain_and hr.2 hs.2⟩

/-- Between entries in order, the parser's look at neighbours finds every repetition. -/
theorem chain_iff_nodup {entries : List LockedPackage} (h : entries.Pairwise fun a b => byNameThenVersion a b = true) :
    entries.IsChain (fun p entry => Text.less entry.name p.name = false ∧ entry.slot ≠ p.slot) ↔
      (entries.map LockedPackage.slot).Nodup := by
  have hbefore : ∀ {a b : LockedPackage}, byNameThenVersion a b = true → Text.less b.name a.name = false := by
    intro a b hab
    by_contra hba
    rw [Bool.not_eq_false] at hba
    rcases byNameThenVersion_iff.mp hab with hless | ⟨hname, -⟩
    · exact absurd (Text.less_trans hless hba) (by simp [Text.less_irrefl])
    · exact absurd hba (by simp [hname, Text.less_irrefl])
  have hantisymm : ∀ {a b : LockedPackage}, byNameThenVersion a b = true → byNameThenVersion b a = true →
      a.slot = b.slot := by
    intro a b hab hba
    have hname : a.name = b.name := Text.eq_of_not_less (hbefore hba) (hbefore hab)
    refine Prod.ext hname (?_ : a.version = b.version)
    rcases byNameThenVersion_iff.mp hab with hless | ⟨-, hversion⟩
    · exact absurd hless (by simp [hname, Text.less_irrefl])
    · rcases byNameThenVersion_iff.mp hba with hless | ⟨-, hversion'⟩
      · exact absurd hless (by simp [hname, Text.less_irrefl])
      · exact Text.eq_of_not_less (by simpa [Text.atMost] using hversion') (by simpa [Text.atMost] using hversion)
  constructor
  · intro hchain
    let Before (a b : LockedPackage) : Prop := byNameThenVersion a b = true ∧ a.slot ≠ b.slot
    have htrans : ∀ {a b c : LockedPackage}, Before a b → Before b c → Before a c := by
      rintro a b c ⟨hab, hne⟩ ⟨hbc, -⟩
      refine ⟨IsTrans.trans (r := fun a b => byNameThenVersion a b = true) _ _ _ hab hbc, fun hac => hne ?_⟩
      have hcb : byNameThenVersion c b = true := by
        rw [byNameThenVersion_iff] at hab ⊢
        rw [← (Prod.mk.inj hac).1, ← (Prod.mk.inj hac).2]
        exact hab
      exact hac.trans (hantisymm hcb hbc)
    have : IsTrans LockedPackage Before := ⟨fun _ _ _ => htrans⟩
    have hstrict : entries.IsChain Before := by
      refine (isChain_and hchain h.isChain).imp fun a b hab => ⟨hab.2, fun heq => hab.1.2 heq.symm⟩
    exact List.pairwise_map.mpr (hstrict.pairwise.imp fun hab => hab.2)
  · intro hnodup
    refine (List.Pairwise.and h (List.pairwise_map.mp hnodup)).isChain.imp ?_
    exact fun a b hab => ⟨hbefore hab.1, fun heq => hab.2 heq.symm⟩

theorem rewritten_sorted (lock : Lock) :
    lock.rewritten.packages.Pairwise fun a b => byNameThenVersion a b = true :=
  List.pairwise_map.mpr (sortPackages_sorted lock.packages)

theorem rewritten_slots (lock : Lock) :
    (lock.rewritten.packages.map LockedPackage.slot).Perm (lock.packages.map LockedPackage.slot) := by
  have hslots : lock.rewritten.packages.map LockedPackage.slot =
      (sortPackages lock.packages).map LockedPackage.slot := by
    rw [Lock.rewritten, Lock.packages, Option.getD_some, List.map_map]
    rfl
  rw [hslots]
  exact (List.perm_insertionSort _ _).map _

theorem rewritten_digests {lock : Lock} : (∀ entry ∈ lock.rewritten.packages, knownScheme entry.digest = true) ↔
    ∀ entry ∈ lock.packages, knownScheme entry.digest = true := by
  simp only [Lock.rewritten, Lock.packages, Option.getD_some, List.forall_mem_map, sortPackages,
    List.mem_insertionSort, LockedPackage.pruned]

/-- What is written is read again exactly when no name and version stand twice and every digest names a
    scheme. -/
theorem parses_formatLock_iff (hP : ReadsToml P) {cli : String} (hcli : OneLine cli) {lock : Lock}
    (hversion : lock.version = LOCK_VERSION) (path : FilePath) :
    (parseLock P (formatLock lock cli) path = .ok lock.rewritten ↔ ∃ read, parseLock P (formatLock lock cli) path = .ok read) ∧
    ((∃ read, parseLock P (formatLock lock cli) path = .ok read) ↔
      (lock.packages.map LockedPackage.slot).Nodup ∧ ∀ entry ∈ lock.packages, knownScheme entry.digest = true) := by
  have hproblem : entriesProblem none lock.rewritten.packages = none ↔
      (lock.packages.map LockedPackage.slot).Nodup ∧ ∀ entry ∈ lock.packages, knownScheme entry.digest = true := by
    rw [entriesProblem_none, Option.toList_none, List.nil_append, chain_iff_nodup (rewritten_sorted lock),
      (rewritten_slots lock).nodup_iff, rewritten_digests]
  rw [parseLock_formatLock hP hcli hversion, ← hproblem]
  cases entriesProblem none lock.rewritten.packages <;> simp

/-! ### Merging -/

variable {updates : List LockUpdate}

theorem nodup_upserts_iff (updates : List LockUpdate) (packages : List LockedPackage) :
    ((updates.foldl upsert packages).map LockedPackage.slot).Nodup ↔ (packages.map LockedPackage.slot).Nodup := by
  induction updates generalizing packages with
  | nil => exact Iff.rfl
  | cons update updates ih =>
    rw [List.foldl_cons, ih, upsert_eq_update, Keyed.keys_update (mergedEntry_slot update)]
    split
    · exact Iff.rfl
    · rename_i hslot
      rw [List.nodup_append]
      refine ⟨fun h => h.1, fun h => ⟨h, List.nodup_singleton _, fun a ha b hb heq => hslot ?_⟩⟩
      rwa [← List.mem_singleton.mp hb, ← heq]

/-- A merge brings no repetition, and takes none away but with the entries it drops. -/
theorem nodup_merged_iff {lock : Lock} : ((mergeIntoLock lock updates).packages.map LockedPackage.slot).Nodup ↔
    ((survivors lock.packages updates).map LockedPackage.slot).Nodup := by
  have hperm : (mergeIntoLock lock updates).packages.Perm (updates.foldl upsert (survivors lock.packages updates)) :=
    List.perm_insertionSort _ _
  exact (hperm.map LockedPackage.slot).nodup_iff.trans (nodup_upserts_iff updates _)

theorem digest_of_upsert {packages : List LockedPackage} {update : LockUpdate} {entry : LockedPackage}
    (h : entry ∈ upsert packages update) : entry ∈ packages ∨ entry.digest = update.digest := by
  rw [upsert] at h
  split at h
  · rcases List.mem_append.mp h with h | h
    · exact Or.inl h
    · rw [List.mem_singleton.mp h]
      exact Or.inr rfl
  · rcases List.mem_or_eq_of_mem_set h with h | rfl
    · exact Or.inl h
    · exact Or.inr rfl

theorem knownScheme_upserts (updates : List LockUpdate) (hupdates : ∀ update ∈ updates, knownScheme update.digest = true) :
    ∀ packages : List LockedPackage, (∀ entry ∈ packages, knownScheme entry.digest = true) →
      ∀ entry ∈ updates.foldl upsert packages, knownScheme entry.digest = true := by
  induction updates with
  | nil => exact fun _ h => h
  | cons update updates ih =>
    intro packages h
    refine ih (fun u hu => hupdates u (List.mem_cons_of_mem _ hu)) (upsert packages update) fun entry hentry => ?_
    rcases digest_of_upsert hentry with hentry | hdigest
    · exact h entry hentry
    · rw [hdigest]
      exact hupdates update List.mem_cons_self

theorem knownScheme_merged {lock : Lock} (hupdates : ∀ update ∈ updates, knownScheme update.digest = true)
    (h : ∀ entry ∈ lock.packages, knownScheme entry.digest = true) :
    ∀ entry ∈ (mergeIntoLock lock updates).packages, knownScheme entry.digest = true := by
  intro entry hentry
  have hmem : entry ∈ updates.foldl upsert (survivors lock.packages updates) := (List.mem_insertionSort _).mp hentry
  exact knownScheme_upserts updates hupdates _ (fun e he => h e (mem_survivors.mp he).1) entry hmem

/-- What the parser promises of a lock it takes. -/
theorem accepted {text : String} {path : FilePath} {lock : Lock} (h : parseLock P text path = .ok lock) :
    lock.version = LOCK_VERSION ∧ ∀ entry ∈ lock.packages, knownScheme entry.digest = true := by
  rw [parseLock] at h
  split at h
  · cases h
  · rw [validateLock] at h
    split at h
    · cases h
    · split at h
      · cases h
      · rename_i hversion
        split at h
        · cases h
        · rename_i hproblem
          cases h
          exact ⟨not_not.mp hversion, (entriesProblem_none.mp hproblem).2⟩

/-! ### Verbs that write the lock -/

/-- What a verb does to the lock: `lock`, `add` and `update` merge what they resolved, `remove` drops a
    name. -/
inductive LockVerb where
  | merge (updates : List LockUpdate)
  | remove (name : String)

/-- Resolution gives each dependency once, with a digest of a known scheme. -/
def LockVerb.Resolved : LockVerb → Prop
  | .merge updates => (updates.map LockUpdate.name).Nodup ∧ ∀ update ∈ updates, knownScheme update.digest = true
  | .remove _ => True

variable (P) in
/-- The lock in a file; a missing or broken one counts as empty. -/
def priorOf (path : FilePath) (text : Option String) : Lock :=
  (text.bind fun text => (parseLock P text path).toOption).getD emptyLock

variable (P) in
/-- The file after a verb: `remove` writes it only when it lists the name, and not when it is broken. -/
def LockVerb.write (cli : String) (path : FilePath) (text : Option String) : LockVerb → Option String
  | .merge updates => some (formatLock (mergeIntoLock (priorOf P path text) updates) cli)
  | .remove name => text.map fun text =>
    ((parseLock P text path).toOption.filter fun lock => lock.lists name).elim text fun lock =>
      formatLock (lock.without name) cli

/-- The file is missing, or a lock that the parser takes and that has no name and version twice. -/
def Readable (P : Platform) (path : FilePath) (text : Option String) : Prop :=
  ∀ held ∈ text, ∃ lock, parseLock P held path = .ok lock ∧ (lock.packages.map LockedPackage.slot).Nodup

/-- A lock without repetitions is read again, and has none. -/
theorem readable_formatLock (hP : ReadsToml P) {cli : String} (hcli : OneLine cli) {lock : Lock} (path : FilePath)
    (hversion : lock.version = LOCK_VERSION) (hnodup : (lock.packages.map LockedPackage.slot).Nodup)
    (hknown : ∀ entry ∈ lock.packages, knownScheme entry.digest = true) :
    Readable P path (some (formatLock lock cli)) := by
  rintro held ⟨⟩
  obtain ⟨hsame, hparses⟩ := parses_formatLock_iff hP hcli hversion path
  exact ⟨_, hsame.mpr (hparses.mpr ⟨hnodup, hknown⟩), (rewritten_slots lock).nodup_iff.mpr hnodup⟩

theorem readable_write (hP : ReadsToml P) {cli : String} (hcli : OneLine cli) {path : FilePath} {text : Option String}
    (h : Readable P path text) {verb : LockVerb} (hverb : verb.Resolved) :
    Readable P path (verb.write P cli path text) := by
  cases verb with
  | merge updates =>
    have hprior : (priorOf P path text).version = LOCK_VERSION ∧
        (∀ entry ∈ (priorOf P path text).packages, knownScheme entry.digest = true) ∧
        ((priorOf P path text).packages.map LockedPackage.slot).Nodup := by
      cases text with
      | none => exact ⟨rfl, by simp [priorOf, emptyLock, Lock.packages], by simp [priorOf, emptyLock, Lock.packages]⟩
      | some held =>
        obtain ⟨lock, hlock, hnodup⟩ := h held rfl
        have hprior : priorOf P path (some held) = lock := by simp [priorOf, hlock, Except.toOption]
        rw [hprior]
        exact ⟨(accepted hlock).1, (accepted hlock).2, hnodup⟩
    obtain ⟨hversion, hknown, hnodup⟩ := hprior
    exact readable_formatLock hP hcli path hversion (nodup_mergeIntoLock hnodup updates)
      (knownScheme_merged hverb.2 hknown)
  | remove name =>
    cases text with
    | none => exact h
    | some held =>
      obtain ⟨lock, hlock, hnodup⟩ := h held rfl
      rw [LockVerb.write, Option.map_some, hlock]
      by_cases hlists : lock.lists name = true
      · have hfilter : (Except.toOption (.ok lock : Except LockInvalid Lock)).filter (fun lock => lock.lists name) =
            some lock := by simp [Except.toOption, hlists]
        rw [hfilter]
        refine readable_formatLock hP hcli path (accepted hlock).1 ?_ fun entry hentry => ?_
        · exact (List.Sublist.map _ List.filter_sublist).nodup hnodup
        · exact (accepted hlock).2 entry (List.mem_of_mem_filter hentry)
      · have hfilter : (Except.toOption (.ok lock : Except LockInvalid Lock)).filter (fun lock => lock.lists name) =
            none := by simp [Except.toOption, hlists]
        rw [hfilter]
        exact h

/-- Every run of verbs from such a file ends in one. -/
theorem readable_run (hP : ReadsToml P) {path : FilePath} (verbs : List (String × LockVerb)) :
    ∀ text : Option String, Readable P path text → (∀ step ∈ verbs, OneLine step.1 ∧ step.2.Resolved) →
      Readable P path (verbs.foldl (fun text step => step.2.write P step.1 path text) text) := by
  induction verbs with
  | nil => exact fun _ h _ => h
  | cons step verbs ih =>
    intro text h hverbs
    obtain ⟨hcli, hresolved⟩ := hverbs step List.mem_cons_self
    exact ih _ (readable_write hP hcli h hresolved) fun s hs => hverbs s (List.mem_cons_of_mem _ hs)

/-- The parser takes what a merge into a lock writes exactly when, of the entries the merge keeps, no two
    have one name and version; and from a lock without such entries, or none, every run of verbs leaves
    one that is read. -/
theorem merged_lock_read_iff (P : Platform) (hP : ReadsToml P) (path : FilePath) :
    (∀ text lock updates cli, parseLock P text path = .ok lock → OneLine cli → (updates.map LockUpdate.name).Nodup →
      (∀ update ∈ updates, knownScheme update.digest = true) →
      ((∃ read, parseLock P (formatLock (mergeIntoLock lock updates) cli) path = .ok read) ↔
        ((lock.packages.filter fun entry => entry.name ∉ updates.map LockUpdate.name ∨
          (entry.name, entry.version) ∈ updates.map fun update => (update.name, update.version)).map
            fun entry => (entry.name, entry.version)).Nodup)) ∧
    (∀ (text : Option String) (verbs : List (String × LockVerb)),
      (∀ held ∈ text, ∃ lock, parseLock P held path = .ok lock ∧
        (lock.packages.map fun entry => (entry.name, entry.version)).Nodup) →
      (∀ step ∈ verbs, OneLine step.1 ∧ step.2.Resolved) →
      ∀ held ∈ verbs.foldl (fun text step => step.2.write P step.1 path text) text,
        ∃ read, parseLock P held path = .ok read) := by
  constructor
  · intro text lock updates cli hlock hcli _ hknown
    obtain ⟨hversion, hdigests⟩ := accepted hlock
    have hsurvivors : (lock.packages.filter fun entry => entry.name ∉ updates.map LockUpdate.name ∨
        (entry.name, entry.version) ∈ updates.map fun update => (update.name, update.version)) =
        survivors lock.packages updates := by
      refine List.filter_congr fun entry _ => ?_
      simp
    have hmerged : (mergeIntoLock lock updates).version = LOCK_VERSION := hversion
    rw [(parses_formatLock_iff hP hcli hmerged path).2, nodup_merged_iff, hsurvivors]
    exact and_iff_left (knownScheme_merged hknown hdigests)
  · intro text verbs htext hverbs held hheld
    obtain ⟨lock, hlock, -⟩ := readable_run hP verbs text htext hverbs held hheld
    exact ⟨lock, hlock⟩

/-! ### A lock with an entry twice -/

/-- A platform whose TOML package is the reader of `Toml`. -/
def tomlHost : Platform :=
  { Platform.ofTables [] [] [] [] with
    parseToml := fun text => ((Toml.parse text).map fun root => .ok (.object (ofEntries root))).getD (.error "not TOML") }

theorem readsToml_tomlHost : ReadsToml tomlHost := by
  intro text root hroot _
  exact ⟨_, by simp [tomlHost, hroot], rfl⟩

def oneEntry (version : String) : LockedPackage :=
  { name := "a", version, source := "oci://r/a", digest := "sha256:0a" }

/-- `a@1`, `a@2` and `a@1` again. -/
def twiceText : String := toToml (lockTree LOCK_VERSION [oneEntry "1", oneEntry "2", oneEntry "1"])

def twiceLock : Lock := { version := LOCK_VERSION, package := some [oneEntry "1", oneEntry "2", oneEntry "1"] }

theorem parse_twiceText : parseLock tomlHost twiceText [] = .ok twiceLock := by
  have hheader : Toml.Lines "".toList [] := Toml.Lines.nil
  have h := parseLock_lockTree readsToml_tomlHost hheader [oneEntry "1", oneEntry "2", oneEntry "1"] []
  rw [String.empty_append] at h
  rw [twiceText, h]
  rfl

theorem twice_not_read : ¬ ∀ text lock updates, parseLock tomlHost text [] = .ok lock →
    (updates.map LockUpdate.name).Nodup → (∀ update ∈ updates, knownScheme update.digest = true) →
    ∃ read, parseLock tomlHost (formatLock (mergeIntoLock lock updates) "akuapkg") [] = .ok read := by
  intro h
  have hread := h _ _ [] parse_twiceText List.nodup_nil (List.forall_mem_nil _)
  have hcli : OneLine "akuapkg" := oneLine_of_all (by decide +kernel)
  have hversion : (mergeIntoLock twiceLock []).version = LOCK_VERSION := rfl
  rw [(parses_formatLock_iff readsToml_tomlHost hcli hversion []).2, nodup_merged_iff] at hread
  exact absurd hread.1 (by decide)

/-- The lock with an entry twice is refused after a merge of nothing; one that `add` starts is read. -/
theorem merge_of_none_refused :
    (¬ ∃ read, parseLock tomlHost (formatLock (mergeIntoLock twiceLock []) "akuapkg") [] = .ok read) ∧
    ∃ read, parseLock tomlHost (formatLock (mergeIntoLock emptyLock
      [{ name := "a", version := "1", source := "oci://r/a", digest := "sha256:0a" }]) "akuapkg") [] = .ok read := by
  have hcli : OneLine "akuapkg" := oneLine_of_all (by decide +kernel)
  obtain ⟨hmerge, hrun⟩ := merged_lock_read_iff tomlHost readsToml_tomlHost []
  constructor
  · rw [hmerge _ _ [] "akuapkg" parse_twiceText hcli List.nodup_nil (List.forall_mem_nil _)]
    decide
  · refine hrun none [("akuapkg", .merge [{ name := "a", version := "1", source := "oci://r/a", digest := "sha256:0a" }])]
      (by simp) ?_ _ rfl
    simp only [List.forall_mem_singleton]
    exact ⟨hcli, by simp, by simp only [List.forall_mem_singleton]; decide⟩

end Akua
