import Akua.Lib.Disk
import Akua.Snapshot

/-! `render`: a Package's resources as YAML files under an output directory, one file a resource,
    named by its position, kind and name. The name is sanitised, the kind only lower-cased, so the
    files stay direct children of the output directory exactly when no kind has a `/` in it. -/

namespace Akua

/-! ### File names -/

/-- `stringField(value, key)`. -/
def stringField (value : Value) (key : String) : Option String :=
  Value.required Value.asString key value

/-- `resource.kind`, when it is a string. -/
def resourceKind (resource : Value) : String := (stringField resource "kind").getD "resource"

/-- `resource.metadata.name`, when it is a string. -/
def resourceName (resource : Value) : String :=
  ((Value.required some "metadata" resource).bind (stringField · "name")).getD "unnamed"

/-- `<NNN>-<kind>-<name>.yaml`, with the kind and the name each treated in its own way. -/
def filenameWith (lower sanitize : String → String) (index : Nat) (resource : Value) : String :=
  Text.padded 3 index ++ "-" ++ lower (resourceKind resource) ++ "-" ++
    sanitize (resourceName resource) ++ ".yaml"

def allowedInName (c : Char) : Bool := c.isAlphanum || c == '_' || c == '.' || c == '-'

/-- `name.replace(/[^A-Za-z0-9_.-]/g, "-")`, code unit by code unit. -/
def sanitizeName (name : String) : String :=
  String.ofList (name.toList.flatMap fun c =>
    if allowedInName c then [c] else List.replicate (Text.utf16 c).length '-')

/-- `sanitize_for_filename`, character by character. -/
def sanitize_for_filename (s : String) : String :=
  String.ofList (s.toList.map fun c => if allowedInName c then c else '-')

variable (P : Platform)

/-- Unknown kinds become `resource`, unnamed resources `unnamed`. -/
def manifestFilename (index : Nat) (resource : Value) : String :=
  filenameWith (Text.toLowerCase P.casing) sanitizeName index resource

/-- The file names of the core crate: `to_ascii_lowercase` and one `-` a character. -/
def manifest_filename (index : Nat) (resource : Value) : String :=
  filenameWith (fun kind => String.ofList (kind.toList.map Char.toLower)) sanitize_for_filename index
    resource

/-! ### Documents -/

def AMBIGUOUS_WORDS : List String :=
  ["y", "yes", "n", "no", "on", "off", "true", "false", "null", "nil", "~", "nan"]

/-- Strings that some YAML parser reads as a number, bool or null. -/
def ambiguous (value : String) : Bool :=
  let lower := Text.toLowerCase P.casing value
  !Text.includes value '\n' &&
    (lower = "" || ((lower.toList.head?.any fun c => c.isDigit || c == '.' || c == '+' || c == '-') ||
      lower ∈ AMBIGUOUS_WORDS))

def toYaml (resource : Value) : String := P.printYaml (ambiguous P) resource

/-- `[filename, yaml]` in render order. -/
def renderDocuments (resources : List Value) : List (String × String) :=
  resources.mapIdx fun index resource => (manifestFilename P index resource, toYaml P resource)

/-- sha256 over each `filename \n yaml`, in order. -/
def summaryHash (documents : List (String × String)) : String :=
  sha256 P (documents.flatMap fun d => encodeText (d.1 ++ "\n" ++ d.2))

/-! ### The render -/

structure RenderRequest where
  /-- Path to the Package file. -/
  packagePath : String
  /-- Explicit inputs file; otherwise `inputs.yaml`, then `inputs.example.yaml`. -/
  inputsPath : Option String
  out : String
  dryRun : Bool
  strict : Bool
  offline : Bool

structure RenderSummary where
  format : String
  target : String
  manifests : Nat
  hash : String
  files : List String
deriving DecidableEq

structure Rendered where
  summary : RenderSummary
  resources : List Value
  documents : List (String × String)

inductive RenderFailed where
  | packageMissing (path : String)
  | inputsMissing (path message : String)
  | inputsParseError (path message : String)
  | host (failure : Failure)
  /-- The engine's own failures, in its words. -/
  | worker (message : String)
deriving DecidableEq

/-- What the render worker gets: the Package's files, its inputs and the render options. -/
structure RenderJob where
  workspace : FilePath
  filename : String
  files : Snapshot
  offline : Bool
  inputs : Value
  strict : Bool

/-- `path.basename(text)`. -/
def basename (text : String) : String :=
  let trimmed := Text.trimEnd text '/'
  ((Text.cutLast trimmed '/').map Prod.snd).getD trimmed

/-- A path as the operating system reads it. -/
def osPath (text : String) : FilePath :=
  FilePath.append (if FilePath.isAbsolute text then [] else P.cwd) text

section Render

variable {φ : Type} [FileSystem φ]

/-- The directory `out` names. -/
def RenderRequest.outDirectory (request : RenderRequest) : FilePath := FilePath.resolve P.cwd request.out

/-- The inputs file, as it is named in messages and where it is: the explicit one, or the first of
    the default ones the Package has. -/
def inputsFile (request : RenderRequest) (packageDir : FilePath) (files : Snapshot) :
    Option (String × FilePath) :=
  match request.inputsPath with
  | some path => some (path, osPath P path)
  | none => (["inputs.yaml", "inputs.example.yaml"].find? files.has).map fun name =>
    (FilePath.toString (FilePath.join packageDir name), FilePath.join packageDir name)

def readInputs (file : Option (String × FilePath)) : Reading φ RenderFailed String :=
  match file with
  | none => pure ""
  | some (shown, path) => Reading.mapError (fun error => .inputsMissing shown (osMessage error))
    (readFileString P path)

/-- The inputs document; no document is an empty one. -/
def renderInputs (request : RenderRequest) (packageDir : FilePath) (files : Snapshot) :
    Reading φ RenderFailed Value := do
  let file := inputsFile P request packageDir files
  let text ← readInputs P file
  match P.parseYaml text with
  | .error message => .fail (.inputsParseError ((file.map Prod.fst).getD "") message)
  | .ok .null => pure (.object [])
  | .ok inputs => pure inputs

/-- Write each document under the output directory, unless the run is dry. -/
def writeDocuments (request : RenderRequest) (documents : List (String × String)) :
    Run φ PlatformError Unit := do
  if request.dryRun then pure ()
  else
    Run.makeDirectory (osPath P request.out)
    let _ ← forEach (fun d => Run.writeFileString (FilePath.join (request.outDirectory P) d.1) d.2)
      documents
    pure ()

/-- The worker renders in its own sandbox: what it logs is not the renderer's. -/
def workerRender (worker : RenderJob → Run φ RenderFailed (List Value)) (job : RenderJob) :
    Run φ RenderFailed (List Value) := fun w =>
  ((worker job w).1, { (worker job w).2 with trace := w.trace })

def renderPackage (worker : RenderJob → Run φ RenderFailed (List Value)) (request : RenderRequest) :
    Run φ RenderFailed Rendered := do
  let packageDir := FilePath.dirname (FilePath.resolve P.cwd request.packagePath)
  let filename := basename request.packagePath
  let present ← Run.read ((FileSystem.fileExists (osPath P request.packagePath)).mapError
    fun error => .host (.platform error))
  if !present then Effect.fail (.packageMissing request.packagePath)
  else
    let files ← Run.read ((loadSnapshot packageDir).mapError .host)
    if !files.has filename then Effect.fail (.packageMissing request.packagePath)
    else
      let inputs ← Run.read (renderInputs P request packageDir files)
      let resources ← workerRender worker
        { workspace := packageDir, filename, files, offline := request.offline, inputs
          strict := request.strict }
      let documents := renderDocuments P resources
      (writeDocuments P request documents).mapError fun error => .host (.platform error)
      pure
        { summary :=
            { format := "raw-manifests", target := request.out, manifests := documents.length
              hash := summaryHash P documents, files := documents.map Prod.fst }
          resources, documents }

end Render

/-! ### What the names are made of -/

theorem slash_not_mem_padded {width n : Nat} : '/' ∉ (Text.padded width n).toList := fun h =>
  absurd (Text.isDigit_of_mem_padded h) (by decide)

theorem slash_not_mem_sanitizeName (name : String) : '/' ∉ (sanitizeName name).toList := by
  simp only [sanitizeName, String.toList_ofList, List.mem_flatMap, not_exists, not_and]
  intro c _ h
  split at h
  · rename_i hc
    rw [← List.mem_singleton.mp h] at hc
    revert hc; decide
  · exact absurd (List.eq_of_mem_replicate h) (by decide)

theorem slash_not_mem_sanitize_for_filename (s : String) :
    '/' ∉ (sanitize_for_filename s).toList := by
  simp only [sanitize_for_filename, String.toList_ofList, List.mem_map, not_exists, not_and]
  intro c _ h
  split at h
  · rename_i hc
    rw [h] at hc
    revert hc; decide
  · exact absurd h (by decide)

section Filename

variable {lower sanitize : String → String}

/-- Only the kind can bring a separator into a file name. -/
theorem slash_mem_filenameWith (hl : ∀ s, '/' ∈ (lower s).toList ↔ '/' ∈ s.toList)
    (hs : ∀ s, '/' ∉ (sanitize s).toList) (index : Nat) (resource : Value) :
    '/' ∈ (filenameWith lower sanitize index resource).toList ↔
      '/' ∈ (resourceKind resource).toList := by
  have hyaml : '/' ∉ ".yaml".toList := by decide
  have hdash : '/' ∉ "-".toList := by decide
  simp only [filenameWith, String.toList_append, List.mem_append, hl, hs, slash_not_mem_padded,
    hyaml, hdash, false_or, or_false]

/-- The position is read off a file name: the digits before its first `-`. -/
theorem filenameWith_index {i j : Nat} {r s : Value}
    (h : filenameWith lower sanitize i r = filenameWith lower sanitize j s) : i = j := by
  refine Text.padded_injective 3 (String.toList_inj.mp ?_)
  have hdigits : ∀ (k : Nat) (l : List Char),
      ((Text.padded 3 k).toList ++ '-' :: l).takeWhile Char.isDigit = (Text.padded 3 k).toList := by
    intro k l
    rw [List.takeWhile_append_of_pos fun c hc => Text.isDigit_of_mem_padded hc,
      List.takeWhile_cons_of_neg (by decide), List.append_nil]
  have htext := congrArg String.toList h
  simp only [filenameWith, String.toList_append, List.append_assoc] at htext
  rw [← hdigits i, ← hdigits j]
  exact congrArg (List.takeWhile Char.isDigit) htext

theorem filenameWith_plain {index : Nat} {resource : Value}
    (h : '/' ∉ (filenameWith lower sanitize index resource).toList) :
    FilePath.Plain (filenameWith lower sanitize index resource) := by
  have hmem : 'y' ∈ (filenameWith lower sanitize index resource).toList := by
    simp only [filenameWith, String.toList_append, List.mem_append]
    exact .inr (by decide)
  refine ⟨?_, ?_, ?_, h⟩ <;> intro he <;> rw [he] at hmem <;> revert hmem <;> decide

/-- The file names of one render are distinct. -/
theorem filenames_nodup (resources : List Value) :
    (resources.mapIdx fun i r => filenameWith lower sanitize i r).Nodup := by
  rw [List.nodup_iff_injective_get]
  intro i j h
  simp only [List.get_eq_getElem, List.getElem_mapIdx] at h
  exact Fin.ext (filenameWith_index h)

end Filename

/-! ### Confinement -/

/-- The file names of a render's resources, in render order. -/
def manifestFilenames (resources : List Value) : List String :=
  resources.mapIdx (manifestFilename P)

/-- Every file written is a resource's, directly under `out` and under a name without separators,
    and no two resources share a file name. -/
def RenderConfined (out : FilePath) (names : List String) (trace : List Event) : Prop :=
  (∀ path data, .writeFile path data ∈ trace → ∃ name ∈ names, path = FilePath.join out name) ∧
  (∀ name ∈ names, (∃ data, .writeFile (FilePath.join out name) data ∈ trace) →
    FilePath.Plain name ∧ FilePath.DirectChild out (FilePath.join out name)) ∧
  names.Nodup

/-- If the event writes a file, it is one of `names` under `out`. -/
def WritesOneOf (out : FilePath) (names : List String) (e : Event) : Prop :=
  ∀ path data, e = .writeFile path data → ∃ name ∈ names, path = FilePath.join out name

theorem slash_mem_manifestFilename (index : Nat) (resource : Value) :
    '/' ∈ (manifestFilename P index resource).toList ↔ '/' ∈ (resourceKind resource).toList :=
  slash_mem_filenameWith (fun _ => Text.slash_mem_toLowerCase) slash_not_mem_sanitizeName index
    resource

/-- The core crate's names have a separator for the same resources. -/
theorem slash_mem_manifest_filename (index : Nat) (resource : Value) :
    '/' ∈ (manifest_filename index resource).toList ↔ '/' ∈ (resourceKind resource).toList := by
  refine slash_mem_filenameWith (fun s => ?_) slash_not_mem_sanitize_for_filename index resource
  simp only [String.toList_ofList, List.mem_map, Text.toLower_eq_slash]
  exact ⟨fun ⟨_, hc, he⟩ => he ▸ hc, fun h => ⟨_, h, rfl⟩⟩

theorem renderDocuments_names (resources : List Value) :
    (renderDocuments P resources).map Prod.fst = manifestFilenames P resources :=
  List.ext_getElem (by simp [renderDocuments, manifestFilenames])
    fun i h _ => by simp [renderDocuments, manifestFilenames]

section Confinement

open Run

variable {φ : Type} [FileSystem φ] {worker : RenderJob → Run φ RenderFailed (List Value)}
  {request : RenderRequest} {w w' : World φ} {resources : List Value}

theorem logs_writeDocuments (documents : List (String × String)) :
    Logs (WritesOneOf (request.outDirectory P) (documents.map Prod.fst))
      (writeDocuments P request documents : Run φ PlatformError Unit) := by
  refine logs_ite (fun _ => logs_pure _) fun _ => logs_bind ?_ fun _ _ _ _ =>
    logs_bind (logs_forEach fun d hd => ?_) fun _ _ _ _ => logs_pure _
  · exact logs_bind (logs_log fun _ _ h => by cases h) fun _ _ _ _ => logs_onDisk _
  · refine logs_bind (logs_log fun path data h => ?_) fun _ _ _ _ => logs_onDisk _
    cases h
    exact ⟨d.1, List.mem_map_of_mem hd, rfl⟩

omit [FileSystem φ] in
theorem workerRender_ok {job : RenderJob} (h : workerRender worker job w = (.ok resources, w')) :
    ∃ w₁, worker job w = (.ok resources, w₁) := by
  rcases hjob : worker job w with ⟨outcome, after⟩
  rw [workerRender, hjob] at h
  cases h
  exact ⟨after, rfl⟩

/-- However it ends, a render writes its resources' files and no others. -/
theorem logs_renderPackage (hworker : ∀ job w rs w', worker job w = (.ok rs, w') → rs = resources) :
    Logs (WritesOneOf (request.outDirectory P) (manifestFilenames P resources))
      (renderPackage P worker request) := by
  refine logs_bind (logs_read _) fun present _ _ _ => logs_ite (fun _ => logs_fail _) fun _ =>
    logs_bind (logs_read _) fun files _ _ _ => logs_ite (fun _ => logs_fail _) fun _ =>
    logs_bind (logs_read _) fun inputs _ _ _ =>
    logs_bind (logs_of_trace fun _ => rfl) fun rs w w' hrs => ?_
  obtain ⟨_, hrs⟩ := workerRender_ok hrs
  obtain rfl := hworker _ _ _ _ hrs
  rw [← renderDocuments_names]
  exact logs_bind (logs_mapError (logs_writeDocuments P _)) fun _ _ _ _ => logs_pure _

theorem forEach_writes {out : FilePath} : ∀ {documents : List (String × String)} {w w' : World φ}
    {u : List Unit}, forEach (fun d => (writeFileString (FilePath.join out d.1) d.2)) documents w =
      (.ok u, w') → ∀ d ∈ documents, .writeFile (FilePath.join out d.1) (encodeText d.2) ∈ w'.trace
  | [], _, _, _, _ => by simp
  | first :: rest, w, w', _, h => by
    obtain ⟨_, w₁, hfirst, h⟩ := Effect.bind_ok.mp h
    obtain ⟨_, w₂, hrest, h⟩ := Effect.bind_ok.mp h
    cases h
    have hlog : .writeFile (FilePath.join out first.1) (encodeText first.2) ∈ w₁.trace := by
      have htrace : w₁.trace = _ :: w.trace := (congrArg (fun r => r.2.trace) hfirst).symm
      rw [htrace]
      exact List.mem_cons_self
    rintro d (_ | ⟨_, hd⟩)
    · have hlogs : Logs (fun _ => True) (forEach
          (fun d => (writeFileString (FilePath.join out d.1) d.2 : Run φ PlatformError Unit)) rest) :=
        logs_forEach fun _ _ => logs_writeFile (fun _ _ => trivial) _ _
      have hmem := hlogs.mem hlog
      rwa [hrest] at hmem
    · exact forEach_writes hrest d hd

/-- A render that succeeds has the worker's resources, and unless it is dry it has written every
    one of them. -/
theorem renderPackage_ok {rendered : Rendered}
    (h : renderPackage P worker request w = (.ok rendered, w')) :
    (∃ job w₁ w₂, worker job w₁ = (.ok rendered.resources, w₂)) ∧
    (request.dryRun = false → ∀ name ∈ manifestFilenames P rendered.resources,
      ∃ data, .writeFile (FilePath.join (request.outDirectory P) name) data ∈ w'.trace) := by
  obtain ⟨present, w₁, -, h⟩ := Effect.bind_ok.mp h
  by_cases hpresent : (!present) = true
  · rw [if_pos hpresent] at h; cases h
  rw [if_neg hpresent] at h
  obtain ⟨files, w₂, -, h⟩ := Effect.bind_ok.mp h
  by_cases hsource : (!files.has (basename request.packagePath)) = true
  · rw [if_pos hsource] at h; cases h
  rw [if_neg hsource] at h
  obtain ⟨inputs, w₃, -, h⟩ := Effect.bind_ok.mp h
  obtain ⟨resources, w₄, hworker, h⟩ := Effect.bind_ok.mp h
  obtain ⟨_, w₅, hwrite, h⟩ := Effect.bind_ok.mp h
  cases h
  obtain ⟨_, hworker⟩ := workerRender_ok hworker
  refine ⟨⟨_, _, _, hworker⟩, fun hdry name hname => ?_⟩
  have hwrite := Effect.mapError_ok.mp hwrite
  rw [writeDocuments, hdry] at hwrite
  obtain ⟨_, w₆, -, hwrite⟩ := Effect.bind_ok.mp hwrite
  obtain ⟨_, w₇, hwrite, hend⟩ := Effect.bind_ok.mp hwrite
  cases hend
  rw [← renderDocuments_names, List.mem_map] at hname
  obtain ⟨d, hd, rfl⟩ := hname
  exact ⟨_, forEach_writes hwrite d hd⟩

/-- Whatever the worker answers, and however the render ends, its files are confined when no kind
    has a `/` in it; once it has written them all, they are confined only then. -/
theorem renderPackage_confined_iff
    (hworker : ∀ job w rs w', worker job w = (.ok rs, w') → rs = resources) (hw : w.trace = []) :
    ((∀ resource ∈ resources, '/' ∉ (resourceKind resource).toList) →
      RenderConfined (request.outDirectory P) (manifestFilenames P resources)
        (renderPackage P worker request w).2.trace) ∧
    ∀ rendered w', request.dryRun = false → renderPackage P worker request w = (.ok rendered, w') →
      (RenderConfined (request.outDirectory P) (manifestFilenames P resources) w'.trace ↔
        ∀ resource ∈ resources, '/' ∉ (resourceKind resource).toList) := by
  have hnormal : FilePath.Normal (request.outDirectory P) := FilePath.resolve_normal P.cwd_normal _
  have hsafe : (∀ resource ∈ resources, '/' ∉ (resourceKind resource).toList) →
      RenderConfined (request.outDirectory P) (manifestFilenames P resources)
        (renderPackage P worker request w).2.trace := by
    intro hkinds
    refine ⟨fun path data he => (logs_renderPackage P hworker).all hw _ he path data rfl,
      fun name hname _ => ?_, filenames_nodup resources⟩
    obtain ⟨i, hi, rfl⟩ := List.mem_mapIdx.mp hname
    have hplain : FilePath.Plain (manifestFilename P i resources[i]) := filenameWith_plain
      (mt (slash_mem_manifestFilename P i _).mp (hkinds _ (List.getElem_mem hi)))
    exact ⟨hplain, FilePath.directChild_join hnormal hplain⟩
  refine ⟨hsafe, fun rendered w' hdry hrun => ⟨fun hconfined resource hmem hslash => ?_, fun h => ?_⟩⟩
  · obtain ⟨⟨_, _, _, hanswer⟩, hwritten⟩ := renderPackage_ok P hrun
    obtain rfl := hworker _ _ _ _ hanswer
    obtain ⟨i, hi, rfl⟩ := List.getElem_of_mem hmem
    have hname : manifestFilename P i rendered.resources[i] ∈
        manifestFilenames P rendered.resources := List.mem_mapIdx.mpr ⟨i, hi, rfl⟩
    exact (hconfined.2.1 _ hname (hwritten hdry _ hname)).1.2.2.2
      ((slash_mem_manifestFilename P i _).mpr hslash)
  · have hconfined := hsafe h
    rwa [hrun] at hconfined

end Confinement

/-! ### An escaping kind -/

section Escape

/-- A resource of the given kind and name, and its document. -/
def sampleResource (kind name : String) : Value :=
  .object [("kind", .string kind), ("metadata", .object [("name", .string name)])]

def sampleRender : Platform :=
  { Platform.ofTables [("", .null)] [] [] [] with
    printYaml := fun _ _ => "kind: /../../evil\nmetadata:\n  name: x\n" }

def sampleRequest : RenderRequest where
  packagePath := "/ws/package.k"
  inputsPath := none
  out := "/ws/deploy"
  dryRun := false
  strict := false
  offline := true

def sampleWorld : World Disk where fs := Disk.ofFiles [("/ws/package.k", "resources = []")]

/-- A worker that renders one resource of this kind. -/
def sampleWorker (kind : String) (_ : RenderJob) : Run Disk RenderFailed (List Value) :=
  pure [sampleResource kind "x"]

/-- The kind `/../../evil` writes next to the Package, not under `deploy`. -/
theorem render_escapes :
    ¬ RenderConfined (sampleRequest.outDirectory sampleRender)
      (manifestFilenames sampleRender [sampleResource "/../../evil" "x"])
      (renderPackage sampleRender (sampleWorker "/../../evil") sampleRequest sampleWorld).2.trace := by
  intro h
  have hwritten : .writeFile ["ws", "evil-x.yaml"]
      (encodeText "kind: /../../evil\nmetadata:\n  name: x\n") ∈
      (renderPackage sampleRender (sampleWorker "/../../evil") sampleRequest sampleWorld).2.trace := by
    decide +kernel
  have hname := (h.2.1 "000-/../../evil-x.yaml" (by decide) ⟨_, hwritten⟩).1
  revert hname
  decide

/-- A render of a plain kind, to a disk. -/
theorem render_confined_configMap :
    (renderPackage sampleRender (sampleWorker "ConfigMap") sampleRequest sampleWorld).1.toOption.isSome ∧
    RenderConfined (sampleRequest.outDirectory sampleRender)
      (manifestFilenames sampleRender [sampleResource "ConfigMap" "x"])
      (renderPackage sampleRender (sampleWorker "ConfigMap") sampleRequest sampleWorld).2.trace :=
  ⟨by decide +kernel, (renderPackage_confined_iff sampleRender
    (fun _ _ _ _ h => by cases h; rfl) rfl).1 fun resource hr => by
      rw [List.mem_singleton.mp hr]; decide⟩

end Escape

end Akua
