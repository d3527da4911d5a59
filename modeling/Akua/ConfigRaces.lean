import Akua.Lib.Transactions
import Akua.SecureConfig
import Mathlib.Data.List.Permutation

/-! Processes that read and update one config file at the same time. A rename hands over a whole
    document, so a read sees one that was there from the start or that an operation wrote. An
    operation is a transaction on the file: it reads once, and its rename (or its removal of an
    unreadable file) does not look at the file again. Operations that do not overlap leave what
    running them in sequence leaves; of two that overlap, one update is lost. -/

namespace Akua.SecureConfig

open Transactions

/-- The config file, as the callers name it. -/
def configFile (directory : FilePath) : FilePath := directory ++ ["config.json"]

/-! ### An operation is a read and what follows from it -/

section Plans

variable (P : Platform) (configPath : FilePath)

/-- What `readConfig` makes of the answer to its read. -/
def decodeConfig (answer : Except Failure String) : Except Failure Config :=
  match answer with
  | .ok raw => parseConfig P raw
  | .error cause => if isNotFound cause then parseConfig P "\x7b\x7d" else .error cause

/-- A new document, on whose behalf it is written, and what is returned once it is there. -/
structure Edit where
  access : Access
  config : Config
  outcome : Outcome

/-- What an operation does once it has read. -/
inductive Plan where
  | finish (outcome : Except Failure Outcome)
  | replace (edit : Edit)
  | discard

def Edit.finish (edit : Edit) (written : Except Failure Unit) : Except Failure Outcome :=
  (written.mapError (failure edit.access configPath)).map fun _ => edit.outcome

def Plan.perform : Plan → Command Outcome
  | .finish outcome => .done outcome
  | .replace edit => (writeConfig configPath edit.config).andThen fun written =>
      .done (edit.finish configPath written)
  | .discard => (remove configPath).andThen fun removed =>
      .done ((removed.mapError (failure .remove configPath)).map fun _ => .removed true)

/-- The stored token, if it is a string. -/
def tokenOf (config : Config) : Option String :=
  match config.lookup "token" with
  | some (.string token) => if token ≠ "" then some token else none
  | _ => none

def Operation.plan : Operation → Except Failure Config → Plan
  | .readToken, .ok config => .finish (.ok (.token (tokenOf config)))
  | .readToken, .error cause => .finish (.error (failure .read configPath cause))
  | .saveToken token, .ok config => .replace ⟨.write, withKey config "token" (.string token), .saved⟩
  | .saveToken _, .error cause => .finish (.error (failure .write configPath cause))
  | .removeToken, .ok config =>
    if hasOwn config "token"
    then .replace ⟨.remove, withoutKey config "token", .removed (tokenOf config).isSome⟩
    else .finish (.ok (.removed false))
  | .removeToken, .error cause =>
    if isNotFound cause then .finish (.ok (.removed false)) else .discard
  | .readWorkspace, .ok config =>
    .finish (.ok (.workspace ((config.lookup "workspace").bind StoredWorkspace.decode)))
  | .readWorkspace, .error cause => .finish (.error (failure .read configPath cause))
  | .saveWorkspace workspace, .ok config =>
    .replace ⟨.write, withKey config "workspace" workspace.toValue, .saved⟩
  | .saveWorkspace _, .error cause => .finish (.error (failure .write configPath cause))
  | .removeWorkspace, .ok config =>
    if hasOwn config "workspace"
    then .replace ⟨.remove, withoutKey config "workspace", .removed true⟩
    else .finish (.ok (.removed false))
  | .removeWorkspace, .error cause => .finish (.error (failure .remove configPath cause))

/-- What an operation leaves of the file. -/
def Plan.leaves : Plan → Option String → Option String
  | .finish _, before => before
  | .replace edit, _ => some (document edit.config)
  | .discard, _ => none

/-- A plan that fails right away. -/
def Plan.Refuses : Plan → Prop
  | .finish (.error _) => True
  | _ => False

variable {P configPath}

theorem readConfig_eq :
    readConfig P configPath =
      .call (.readFileString configPath) fun answer => .done (decodeConfig P answer) := by
  refine (Fiber.result_perform_bind (Call.readFileString configPath) _).trans ?_
  congr 1
  funext answer
  cases answer with
  | ok raw => rfl
  | error cause =>
    rw [decodeConfig]
    cases hfound : isNotFound cause <;> simp only [hfound] <;> rfl

theorem decode_missing {cause : Failure} (h : isNotFound cause = true) :
    decodeConfig P (.error cause) = parseConfig P "\x7b\x7d" := by
  simp [decodeConfig, h]

theorem decode_unreadable {cause : Failure} (h : isNotFound cause = false) :
    decodeConfig P (.error cause) = .error cause := by
  simp [decodeConfig, h]

/-- A read, and what is done with its outcome in turn. -/
theorem read_then {α β γ : Type} (r : Except Failure Config → Command γ)
    {f : Except Failure Config → Command α} {g : Except Failure α → Command β}
    {h : Except Failure β → Command γ} (hr : ∀ read, ((f read).andThen g).andThen h = r read) :
    (((readConfig P configPath).andThen f).andThen g).andThen h =
      .call (.readFileString configPath) fun answer => r (decodeConfig P answer) := by
  rw [readConfig_eq]
  change Fiber.call _ _ = _
  congr 1
  funext answer
  exact hr (decodeConfig P answer)

/-- Every operation reads the file once, and goes on as planned. -/
theorem run_eq (operation : Operation) :
    operation.run P configPath = .call (.readFileString configPath) fun answer =>
      (operation.plan configPath (decodeConfig P answer)).perform configPath := by
  have hread : ∀ {α β : Type} {f : Except Failure Config → Command α} {g : Except Failure α → Command β}
      {h : Except Failure β → Command Outcome},
      (∀ read, ((f read).andThen g).andThen h = (operation.plan configPath read).perform configPath) →
      (((readConfig P configPath).andThen f).andThen g).andThen h = _ :=
    read_then fun read => (operation.plan configPath read).perform configPath
  have hwrite : ∀ {β : Type} {g : Except Failure Unit → Command β} {h : Except Failure β → Command Outcome}
      (edit : Edit), (∀ written, (g written).andThen h = .done (edit.finish configPath written)) →
      ((writeConfig configPath edit.config).andThen g).andThen h =
        (Plan.replace edit).perform configPath := by
    intro β g h edit hg
    rw [Fiber.andThen_assoc, Plan.perform]
    exact congrArg _ (funext hg)
  cases operation with
  | readToken =>
    refine hread fun read => ?_
    cases read with
    | error cause => rfl
    | ok config =>
      simp only [Fiber.onOk, Operation.plan, tokenOf]
      cases config.lookup "token" with
      | none => rfl
      | some value => cases value <;> rfl
  | saveToken token =>
    refine hread fun read => ?_
    cases read with
    | error cause => rfl
    | ok config =>
      refine hwrite ⟨.write, withKey config "token" (.string token), .saved⟩ fun written => ?_
      cases written <;> rfl
  | removeToken =>
    rw [Operation.run, SecureConfig.removeToken, Fiber.result]
    refine (congrArg (fun m => (Fiber.andThen m _).andThen _) (Fiber.andThen_assoc _ _ _)).trans ?_
    refine hread fun read => ?_
    cases read with
    | error cause =>
      simp only [Fiber.andThen, Fiber.onOk, Operation.plan]
      cases isNotFound cause with
      | true => rfl
      | false =>
        change ((Fiber.andThen (remove configPath) _).andThen _).andThen _ = (remove configPath).andThen _
        rw [Fiber.andThen_assoc, Fiber.andThen_assoc]
        refine congrArg _ (funext fun removed => ?_)
        cases removed <;> rfl
    | ok config =>
      simp only [Fiber.andThen, Fiber.onOk, Operation.plan]
      cases hasOwn config "token" with
      | false => rfl
      | true =>
        change ((Fiber.andThen (writeConfig _ _) _).andThen _).andThen _ = _
        rw [Fiber.andThen_assoc]
        refine hwrite ⟨.remove, withoutKey config "token", .removed (tokenOf config).isSome⟩
          fun written => ?_
        cases written with
        | error cause => rfl
        | ok _ =>
          simp only [Fiber.onOk, tokenOf]
          cases config.lookup "token" with
          | none => rfl
          | some value =>
            cases value with
            | string token =>
              have hpresent : decide (token ≠ "") = (if token ≠ "" then some token else none).isSome := by
                by_cases htoken : token = "" <;> simp [htoken]
              change Fiber.done (.ok (Outcome.removed (decide (token ≠ "")))) = _
              rw [hpresent]
              rfl
            | _ => rfl
  | readWorkspace =>
    refine hread fun read => ?_
    cases read <;> rfl
  | saveWorkspace workspace =>
    refine hread fun read => ?_
    cases read with
    | error cause => rfl
    | ok config =>
      refine hwrite ⟨.write, withKey config "workspace" workspace.toValue, .saved⟩ fun written => ?_
      cases written <;> rfl
  | removeWorkspace =>
    refine hread fun read => ?_
    cases read with
    | error cause => rfl
    | ok config =>
      simp only [Fiber.onOk, Operation.plan]
      cases hasOwn config "workspace" with
      | false => rfl
      | true =>
        change ((Fiber.andThen (writeConfig _ _) _).andThen _).andThen _ = _
        rw [Fiber.andThen_assoc]
        refine hwrite ⟨.remove, withoutKey config "workspace", .removed true⟩ fun written => ?_
        cases written <;> rfl

/-- What a read of the file may be answered with. -/
def Reads (text : Option String) : Except Failure String → Prop
  | .ok raw => text = some raw
  | .error cause => ∃ error, cause = .platform error ∧ (error.reason = .notFound → text = none)

variable (P configPath)

/-- An operation that reads `before` leaves `after`. -/
def Leaves (operation : Operation) (before after : Option String) : Prop :=
  ∃ answer, Reads before answer ∧ ¬ (operation.plan configPath (decodeConfig P answer)).Refuses ∧
    after = (operation.plan configPath (decodeConfig P answer)).leaves before

end Plans

/-! ### Where an operation stands -/

/-- The calls of a write, once its temporary file has a name. -/
inductive Stage where
  | directory
  | restrict
  | create
  | fill
  | protect
  | swap
  | settle
deriving DecidableEq

/-- What is left of a write. -/
def Stage.body (configPath temporary : FilePath) (text : String) : Stage → Command Unit
  | .settle => chmod configPath CONFIG_FILE_MODE
  | .swap => do
    rename temporary configPath
    chmod configPath CONFIG_FILE_MODE
  | .protect => do
    chmod temporary CONFIG_FILE_MODE
    rename temporary configPath
    chmod configPath CONFIG_FILE_MODE
  | .fill => do
    Fiber.perform (Call.writeText temporary text)
    chmod temporary CONFIG_FILE_MODE
    rename temporary configPath
    chmod configPath CONFIG_FILE_MODE
  | .create => do
    Fiber.perform (Call.openExclusive temporary CONFIG_FILE_MODE)
    Fiber.perform (Call.writeText temporary text)
    chmod temporary CONFIG_FILE_MODE
    rename temporary configPath
    chmod configPath CONFIG_FILE_MODE
  | .restrict => do
    chmod (FilePath.dirname configPath) CONFIG_DIR_MODE
    Fiber.perform (Call.openExclusive temporary CONFIG_FILE_MODE)
    Fiber.perform (Call.writeText temporary text)
    chmod temporary CONFIG_FILE_MODE
    rename temporary configPath
    chmod configPath CONFIG_FILE_MODE
  | .directory => do
    makeDirectory (FilePath.dirname configPath) CONFIG_DIR_MODE
    chmod (FilePath.dirname configPath) CONFIG_DIR_MODE
    Fiber.perform (Call.openExclusive temporary CONFIG_FILE_MODE)
    Fiber.perform (Call.writeText temporary text)
    chmod temporary CONFIG_FILE_MODE
    rename temporary configPath
    chmod configPath CONFIG_FILE_MODE

/-- The points of an operation between its calls. It has read `seen`. -/
inductive Point where
  | start (operation : Operation)
  | naming (seen : Option String) (edit : Edit)
  | writing (stage : Stage) (seen : Option String) (edit : Edit) (temporary : FilePath)
  | clearing (edit : Edit) (temporary : FilePath) (written : Except Failure Unit)
  | discarding (seen : Option String)
  | done (outcome : Except Failure Outcome)

def Edit.text (edit : Edit) : String := document edit.config

section Points

variable (P : Platform) (configPath : FilePath)

/-- What is left to do at a point. -/
def Point.program : Point → Command Outcome
  | .start operation => operation.run P configPath
  | .naming _ edit => (Plan.replace edit).perform configPath
  | .writing stage _ edit temporary =>
    (ensuring (stage.body configPath temporary edit.text) (remove temporary)).andThen
      fun written => .done (edit.finish configPath written)
  | .clearing edit temporary written =>
    (remove temporary).andThen fun _ => .done (edit.finish configPath written)
  | .discarding _ => Plan.discard.perform configPath
  | .done outcome => .done outcome

/-- A write succeeds or fails with the rest of its clean-up. -/
def ended {α : Type} : Except Failure α → Status (Option String)
  | .ok _ => .committed
  | .error _ => .failed

/-- The operation as a transaction on the file. -/
def Point.status : Point → Status (Option String)
  | .start _ => .idle
  | .naming seen edit => .pending seen (some edit.text)
  | .writing .settle _ _ _ => .committed
  | .writing _ seen edit _ => .pending seen (some edit.text)
  | .clearing _ _ written => ended written
  | .discarding seen => .pending seen none
  | .done outcome => ended outcome

/-- The temporary file of an operation. -/
def Point.temporary? : Point → Option FilePath
  | .writing _ _ _ temporary => some temporary
  | .clearing _ temporary _ => some temporary
  | _ => none

abbrev Event := Kernel.Event Call Call.Reply Failure

/-- What a step does with the config file. -/
def act : Event → Act
  | .answered (.readFileString path) _ => if path = configPath then .read else .quiet
  | .answered (.rename _ target) (.ok _) => if target = configPath then .write else .quiet
  | .answered (.remove path) (.ok _) => if path = configPath then .write else .quiet
  | _ => .quiet

theorem act_read (answer : Except Failure String) :
    act configPath (.answered (.readFileString configPath) answer) = .read := if_pos rfl

theorem act_rename (temporary : FilePath) :
    act configPath (.answered (.rename temporary configPath) (.ok ())) = .write := if_pos rfl

theorem act_remove : act configPath (.answered (.remove configPath) (.ok ())) = .write := if_pos rfl

end Points

theorem writeConfig_eq (configPath : FilePath) (config : Config) :
    writeConfig configPath config = (do
      let uuid ← randomUUID
      ensuring (Stage.directory.body configPath (temporaryPath configPath uuid) (document config))
        (remove (temporaryPath configPath uuid))) := by
  rw [writeConfig]
  refine congrArg (randomUUID >>= ·) (funext fun uuid => ?_)
  refine congrArg (fun body => ensuring body (remove (temporaryPath configPath uuid))) ?_
  refine congrArg (makeDirectory (FilePath.dirname configPath) CONFIG_DIR_MODE >>= ·) (funext fun _ => ?_)
  refine congrArg (chmod (FilePath.dirname configPath) CONFIG_DIR_MODE >>= ·) (funext fun _ => ?_)
  exact Fiber.bind_assoc' _ _ _

/-! ### Names of temporary files -/

section Names

variable (directory : FilePath)

theorem temporaryPath_eq (uuid : String) :
    temporaryPath (configFile directory) uuid = directory ++ [".config.json." ++ uuid ++ ".tmp"] := by
  simp [temporaryPath, configFile, FilePath.dirname]

theorem temporaryPath_ne (uuid : String) :
    temporaryPath (configFile directory) uuid ≠ configFile directory := by
  rw [temporaryPath_eq, configFile]
  intro h
  have hname : ".config.json." ++ uuid ++ ".tmp" = "config.json" := by simpa using h
  have hchars := congrArg String.toList hname
  rw [String.toList_append, String.toList_append] at hchars
  exact absurd (List.cons.inj hchars).1 (by decide)

theorem temporaryPath_inj {a b : String}
    (h : temporaryPath (configFile directory) a = temporaryPath (configFile directory) b) : a = b := by
  rw [temporaryPath_eq, temporaryPath_eq] at h
  have hname : ".config.json." ++ a ++ ".tmp" = ".config.json." ++ b ++ ".tmp" := by simpa using h
  have hchars := congrArg String.toList hname
  simp only [String.toList_append] at hchars
  rw [List.append_left_inj, List.append_right_inj] at hchars
  exact String.toList_inj.mp hchars

end Names

/-! ### Steps -/

section Steps

variable {ι : Type} [DecidableEq ι] (P : Platform) (directory : FilePath) (operations : ι → Operation)

/-- `i` has written the whole of `text` into `temporary`. -/
def Filled (trace : List (ι × Event)) (i : ι) (temporary : FilePath)
    (text : String) : Prop :=
  (i, .answered (.writeText temporary text) (.ok ())) ∈ trace

/-- An operation wrote the whole of `text` and renamed it over the config file. -/
def Wrote (trace : List (ι × Event)) (text : String) : Prop :=
  ∃ i config temporary, text = document config ∧ Filled trace i temporary text ∧
    (i, .answered (.rename temporary (configFile directory)) (.ok ())) ∈ trace

/-- What holds where an operation stands. -/
def At (trace : List (ι × Event)) (i : ι) (s : Files) : Point → Prop
  | .start operation => operation = operations i
  | .writing .protect _ edit temporary =>
    s.text temporary = some edit.text ∧ Filled trace i temporary edit.text
  | .writing .swap _ edit temporary =>
    s.text temporary = some edit.text ∧ Filled trace i temporary edit.text
  | _ => True

/-- What an operation may do as a transaction. -/
def makes (i : ι) : Option String → Option String → Prop :=
  Leaves P (configFile directory) (operations i)

/-- What a step from one point to another does. -/
structure Moves (trace : List (ι × Event)) (i : ι)
    (e : Event) (s s' : Files) (p p' : Point) : Prop where
  simulates : ∀ {start steps status}, Runs (makes P directory operations) start steps
    (s.text (configFile directory)) status → status i = p.status →
    Runs (makes P directory operations) start (steps ++ [(i, act (configFile directory) e)])
      (s'.text (configFile directory)) (Function.update status i p'.status)
  seen : ∀ text, e = .answered (.readFileString (configFile directory)) (.ok text) →
    s.text (configFile directory) = some text
  written : s'.text (configFile directory) = s.text (configFile directory) ∨
    s'.text (configFile directory) = none ∨
    ∃ text, s'.text (configFile directory) = some text ∧ Wrote directory (trace ++ [(i, e)]) text
  issued : s.issued ⊆ s'.issued
  others : ∀ q, q ≠ configFile directory → p.temporary? ≠ some q → s'.text q = s.text q
  own : ∀ t, p'.temporary? = some t → p.temporary? = some t ∨
    ∃ uuid, uuid ∉ s.issued ∧ uuid ∈ s'.issued ∧ t = temporaryPath (configFile directory) uuid
  at_point : At operations (trace ++ [(i, e)]) i s' p'

variable {P directory operations} {trace : List (ι × Event)} {i : ι}
  {e : Event} {s s' : Files} {p p' : Point}

/-- A step that does not touch the config file. -/
theorem Moves.of_quiet (hact : act (configFile directory) e = .quiet)
    (hpath : s'.text (configFile directory) = s.text (configFile directory))
    (hstatus : p'.status = p.status ∨ p'.status = .failed) (hissued : s.issued ⊆ s'.issued)
    (hothers : ∀ q, q ≠ configFile directory → p.temporary? ≠ some q → s'.text q = s.text q)
    (hown : ∀ t, p'.temporary? = some t → p.temporary? = some t ∨
      ∃ uuid, uuid ∉ s.issued ∧ uuid ∈ s'.issued ∧ t = temporaryPath (configFile directory) uuid)
    (hat : At operations (trace ++ [(i, e)]) i s' p') :
    Moves P directory operations trace i e s s' p p' := by
  refine ⟨fun hruns hp => ?_, ?_, Or.inl hpath, hissued, hothers, hown, hat⟩
  · rw [hact, hpath]
    exact .quiet hruns (hstatus.imp_left fun h => h.trans hp.symm)
  · rintro text rfl
    cases (act_read (configFile directory) (.ok text)).symm.trans hact

/-- A step that changes nothing. -/
theorem Moves.still (hact : act (configFile directory) e = .quiet)
    (hstatus : p'.status = p.status ∨ p'.status = .failed)
    (hown : ∀ t, p'.temporary? = some t → p.temporary? = some t)
    (hat : At operations (trace ++ [(i, e)]) i s p') :
    Moves P directory operations trace i e s s p p' :=
  .of_quiet hact rfl hstatus (List.Subset.refl _) (fun _ _ _ => rfl) (fun t ht => Or.inl (hown t ht)) hat

/-- A step that puts something into the temporary file. -/
theorem Moves.inside {temporary : FilePath} {text : Option String}
    (hact : act (configFile directory) e = .quiet) (hp : p.temporary? = some temporary)
    (hne : temporary ≠ configFile directory) (hstatus : p'.status = p.status ∨ p'.status = .failed)
    (hown : ∀ t, p'.temporary? = some t → t = temporary)
    (hat : At operations (trace ++ [(i, e)]) i (s.put temporary text) p') :
    Moves P directory operations trace i e s (s.put temporary text) p p' := by
  refine .of_quiet hact ?_ hstatus (List.Subset.refl _) (fun q _ hq => ?_) (fun t ht => ?_) hat
  · exact Function.update_of_ne hne.symm _ _
  · refine Function.update_of_ne (fun he => hq ?_) _ _
    rw [hp, he]
  · exact Or.inl (hown t ht ▸ hp)

/-- An answer leads to the point where the rest of the program starts. -/
def Leads (P : Platform) (directory : FilePath) (operations : ι → Operation)
    (trace : List (ι × Event)) (i : ι)
    (e : Event) (s s' : Files) (p : Point) (next : Command Outcome) :
    Prop :=
  ∃ p' : Point, p'.program P (configFile directory) = next ∧
    Moves P directory operations trace i e s s' p p'

/-- The point a plan starts at. -/
def Plan.point (seen : Option String) : Plan → Point
  | .finish outcome => .done outcome
  | .replace edit => .naming seen edit
  | .discard => .discarding seen

theorem Plan.point_program (plan : Plan) (seen : Option String) (configPath : FilePath) :
    (plan.point seen).program P configPath = plan.perform configPath := by
  cases plan <;> rfl

theorem Plan.point_temporary (plan : Plan) (seen : Option String) : (plan.point seen).temporary? = none := by
  cases plan <;> rfl

/-- A read is answered with the file's text. -/
theorem reads_of_answer {path : FilePath} {answer : Except Failure String}
    (h : kernel.answers (.readFileString path) s answer s') : Reads (s.text path) answer ∧ s' = s := by
  cases answer with
  | ok raw => exact h
  | error cause => exact h

/-- The read of an operation. -/
theorem start_leads {answer : Except Failure String}
    (h : kernel.answers (.readFileString (configFile directory)) s answer s') :
    Leads P directory operations trace i (.answered (.readFileString (configFile directory)) answer) s s'
      (.start (operations i))
      (((operations i).plan (configFile directory) (decodeConfig P answer)).perform (configFile directory)) := by
  obtain ⟨hreads, rfl⟩ := reads_of_answer h
  refine ⟨_, Plan.point_program _ (s'.text (configFile directory)) _, ?_⟩
  have hleaves : ¬ ((operations i).plan (configFile directory) (decodeConfig P answer)).Refuses →
      makes P directory operations i (s'.text (configFile directory))
        (((operations i).plan (configFile directory) (decodeConfig P answer)).leaves
          (s'.text (configFile directory))) := fun hplan => ⟨answer, hreads, hplan, rfl⟩
  refine ⟨fun hruns hidle => ?_, ?_, Or.inl rfl, List.Subset.refl _, fun _ _ _ => rfl, ?_, ?_⟩
  · rw [act_read]
    cases hplan : (operations i).plan (configFile directory) (decodeConfig P answer) with
    | finish outcome =>
      rw [hplan] at hleaves
      cases outcome with
      | ok outcome => exact .look hruns hidle (hleaves id)
      | error cause => exact .refuse hruns hidle
    | replace edit =>
      rw [hplan] at hleaves
      exact .plan hruns hidle (hleaves id)
    | discard =>
      rw [hplan] at hleaves
      exact .plan hruns hidle (hleaves id)
  · intro text he
    cases he
    exact hreads
  · intro t ht
    rw [Plan.point_temporary] at ht
    cases ht
  · cases (operations i).plan (configFile directory) (decodeConfig P answer) <;> trivial

/-- A failure before anything was written. -/
theorem naming_leads {seen : Option String} {edit : Edit} {answer : Except Failure String}
    (h : kernel.answers .randomUUID s answer s') :
    Leads P directory operations trace i (.answered .randomUUID answer) s s' (.naming seen edit)
      ((Fiber.onOk (fun uuid => ensuring
        (Stage.directory.body (configFile directory) (temporaryPath (configFile directory) uuid) edit.text)
        (remove (temporaryPath (configFile directory) uuid))) answer).andThen
          fun written => .done (edit.finish (configFile directory) written)) := by
  cases answer with
  | ok uuid =>
    obtain ⟨hnew, rfl⟩ := h
    refine ⟨.writing .directory seen edit (temporaryPath (configFile directory) uuid), rfl,
      .of_quiet rfl rfl (Or.inl rfl) (List.subset_cons_self ..) (fun _ _ _ => rfl) (fun t ht => ?_) trivial⟩
    exact Or.inr ⟨uuid, hnew, List.mem_cons_self, (Option.some.inj ht).symm⟩
  | error cause =>
    obtain rfl := h
    exact ⟨.done (.error (failure edit.access (configFile directory) cause)), rfl,
      .still rfl (Or.inr rfl) (fun _ ht => by cases ht) trivial⟩

/-- The clean-up of a write. -/
theorem clearing_leads {edit : Edit} {temporary : FilePath} {written : Except Failure Unit}
    (hne : temporary ≠ configFile directory) {answer : Except Failure Unit}
    (h : kernel.answers (.remove temporary) s answer s') :
    Leads P directory operations trace i (.answered (.remove temporary) answer) s s'
      (.clearing edit temporary written) (.done (edit.finish (configFile directory) written)) := by
  have hstatus : (Point.done (edit.finish (configFile directory) written)).status =
      (Point.clearing edit temporary written).status := by
    cases written <;> rfl
  cases answer with
  | ok _ =>
    obtain rfl := h
    refine ⟨.done _, rfl, .inside ?_ rfl hne (Or.inl hstatus) (fun _ ht => by cases ht) trivial⟩
    exact if_neg hne
  | error cause =>
    obtain rfl := h
    exact ⟨.done _, rfl, .still rfl (Or.inl hstatus) (fun _ ht => by cases ht) trivial⟩

/-- The removal of an unreadable file. -/
theorem discarding_leads {seen : Option String} {answer : Except Failure Unit}
    (h : kernel.answers (.remove (configFile directory)) s answer s') :
    Leads P directory operations trace i (.answered (.remove (configFile directory)) answer) s s'
      (.discarding seen)
      (.done ((answer.mapError (failure .remove (configFile directory))).map fun _ => .removed true)) := by
  cases answer with
  | ok _ =>
    obtain rfl := h
    have hnone : (s.put (configFile directory) none).text (configFile directory) = none :=
      Function.update_self ..
    refine ⟨.done (.ok (.removed true)), rfl, ?_⟩
    refine ⟨fun hruns hp => ?_, ?_, Or.inr (Or.inl hnone), List.Subset.refl _, fun q hq _ => ?_, ?_, trivial⟩
    · rw [hnone]
      exact act_remove (configFile directory) ▸ .write hruns hp
    · intro text he
      cases he
    · exact Function.update_of_ne hq _ _
    · intro t ht
      cases ht
  | error cause =>
    obtain rfl := h
    exact ⟨.done _, rfl, .still rfl (Or.inr rfl) (fun _ ht => by cases ht) trivial⟩

section Writes

variable {seen : Option String} {edit : Edit} {temporary : FilePath}

/-- A call of a write fails, and the temporary file is removed. -/
theorem writing_fails (stage : Stage) (cause : Failure) (hact : act (configFile directory) e = .quiet) :
    Leads P directory operations trace i e s s (.writing stage seen edit temporary)
      ((remove temporary).andThen fun _ => .done (edit.finish (configFile directory) (.error cause))) :=
  ⟨.clearing edit temporary (.error cause), rfl, .still hact (Or.inr rfl) (fun _ ht => ht) trivial⟩

/-- The rename hands the document over. -/
theorem swap_moves (hat : At operations trace i s (.writing .swap seen edit temporary))
    (h : kernel.answers (.rename temporary (configFile directory)) s (.ok ()) s') :
    Moves P directory operations trace i (.answered (.rename temporary (configFile directory)) (.ok ())) s s'
      (.writing .swap seen edit temporary) (.writing .settle seen edit temporary) := by
  obtain ⟨htext, hfilled⟩ := hat
  obtain ⟨text, hsource, rfl⟩ := h
  obtain rfl : text = edit.text := Option.some.inj (hsource.symm.trans htext)
  have hnow : ((s.put temporary none).put (configFile directory) (some edit.text)).text
      (configFile directory) = some edit.text := Function.update_self ..
  refine ⟨fun hruns hp => ?_, ?_, Or.inr (Or.inr ⟨edit.text, hnow, ?_⟩), List.Subset.refl _,
    fun q hq hown => ?_, fun t ht => Or.inl ht, trivial⟩
  · rw [hnow]
    exact act_rename (configFile directory) temporary ▸ .write hruns hp
  · intro text he
    cases he
  · exact ⟨i, edit.config, temporary, rfl, List.mem_append_left _ hfilled, by simp⟩
  · refine (Function.update_of_ne hq _ _).trans (Function.update_of_ne (fun he => hown ?_) _ _)
    rw [he]
    rfl

/-- Each call of a write. -/
theorem writing_leads {stage : Stage} (hne : temporary ≠ configFile directory)
    (hat : At operations trace i s (.writing stage seen edit temporary)) {c : Call}
    {k : Except Failure c.Reply → Command Outcome}
    (hcall : (Point.writing stage seen edit temporary).program P (configFile directory) = .call c k)
    {answer : Except Failure c.Reply} (h : kernel.answers c s answer s') :
    Leads P directory operations trace i (.answered c answer) s s' (.writing stage seen edit temporary)
      (k answer) := by
  cases stage with
  | directory =>
    cases hcall
    cases answer with
    | ok _ =>
      obtain rfl := h
      exact ⟨.writing .restrict seen edit temporary, rfl, .still rfl (Or.inl rfl) (fun _ ht => ht) trivial⟩
    | error cause =>
      obtain rfl := h
      exact writing_fails .directory cause rfl
  | restrict =>
    cases hcall
    cases answer with
    | ok _ =>
      obtain rfl := h
      exact ⟨.writing .create seen edit temporary, rfl, .still rfl (Or.inl rfl) (fun _ ht => ht) trivial⟩
    | error cause =>
      obtain rfl := h
      exact writing_fails .restrict cause rfl
  | create =>
    cases hcall
    cases answer with
    | ok _ =>
      obtain ⟨-, rfl⟩ := h
      exact ⟨.writing .fill seen edit temporary, rfl,
        .inside rfl rfl hne (Or.inl rfl) (fun _ ht => (Option.some.inj ht).symm) trivial⟩
    | error cause =>
      obtain rfl := h
      exact writing_fails .create cause rfl
  | fill =>
    cases hcall
    cases answer with
    | ok _ =>
      obtain ⟨-, rfl⟩ := h
      refine ⟨.writing .protect seen edit temporary, rfl,
        .inside rfl rfl hne (Or.inl rfl) (fun _ ht => (Option.some.inj ht).symm) ⟨?_, ?_⟩⟩
      · exact Function.update_self ..
      · exact List.mem_append_right _ (List.mem_singleton_self _)
    | error cause =>
      obtain rfl := h
      exact writing_fails .fill cause rfl
  | protect =>
    cases hcall
    cases answer with
    | ok _ =>
      obtain rfl := h
      exact ⟨.writing .swap seen edit temporary, rfl,
        .still rfl (Or.inl rfl) (fun _ ht => ht) ⟨hat.1, List.mem_append_left _ hat.2⟩⟩
    | error cause =>
      obtain rfl := h
      exact writing_fails .protect cause rfl
  | swap =>
    cases hcall
    cases answer with
    | ok _ => exact ⟨.writing .settle seen edit temporary, rfl, swap_moves hat h⟩
    | error cause =>
      obtain rfl := h
      exact writing_fails .swap cause rfl
  | settle =>
    cases hcall
    cases answer with
    | ok _ =>
      obtain rfl := h
      exact ⟨.clearing edit temporary (.ok ()), rfl, .still rfl (Or.inl rfl) (fun _ ht => ht) trivial⟩
    | error cause =>
      obtain rfl := h
      exact writing_fails .settle cause rfl

end Writes

/-! ### Runs -/

/-- What holds throughout a race. -/
structure Race (P : Platform) (directory : FilePath) (operations : ι → Operation) (start : Files)
    (trace : List (ι × Event)) (s : Files) (points : ι → Point) : Prop where
  runs : Runs (makes P directory operations) (start.text (configFile directory))
    (trace.map fun x => (x.1, act (configFile directory) x.2)) (s.text (configFile directory))
    fun i => (points i).status
  at_point : ∀ i, At operations trace i s (points i)
  issued : ∀ i t, (points i).temporary? = some t →
    ∃ uuid ∈ s.issued, t = temporaryPath (configFile directory) uuid
  apart : ∀ i j, i ≠ j → ∀ t, (points i).temporary? = some t → (points j).temporary? ≠ some t
  written : s.text (configFile directory) = start.text (configFile directory) ∨
    s.text (configFile directory) = none ∨
    ∃ text, s.text (configFile directory) = some text ∧ Wrote directory trace text
  seen : ∀ before i text after,
    trace = before ++ (i, .answered (.readFileString (configFile directory)) (.ok text)) :: after →
    start.text (configFile directory) = some text ∨ Wrote directory before text

omit [DecidableEq ι] in
theorem Wrote.append {text : String} (h : Wrote directory trace text) (more : List (ι × Event)) :
    Wrote directory (trace ++ more) text := by
  obtain ⟨j, config, temporary, htext, hfilled, hrename⟩ := h
  exact ⟨j, config, temporary, htext, List.mem_append_left _ hfilled, List.mem_append_left _ hrename⟩

omit [DecidableEq ι] in
/-- What holds at a point depends on its temporary file. -/
theorem At.frame {point : Point} (h : At operations trace i s point) (more : List (ι × Event))
    (htemporary : ∀ t, point.temporary? = some t → s'.text t = s.text t) :
    At operations (trace ++ more) i s' point := by
  cases point with
  | start operation => exact h
  | writing stage seen edit temporary =>
    have htext := htemporary temporary rfl
    cases stage with
    | protect => exact ⟨htext.trans h.1, List.mem_append_left _ h.2⟩
    | swap => exact ⟨htext.trans h.1, List.mem_append_left _ h.2⟩
    | _ => trivial
  | _ => trivial

variable {start : Files} {points : ι → Point}

/-- The temporary files are no config file. -/
theorem Race.temporary_ne (h : Race P directory operations start trace s points) {t : FilePath}
    (ht : (points i).temporary? = some t) : t ≠ configFile directory := by
  obtain ⟨uuid, -, rfl⟩ := h.issued i t ht
  exact temporaryPath_ne directory uuid

theorem Race.step (h : Race P directory operations start trace s points)
    (hmoves : Moves P directory operations trace i e s s' (points i) p) :
    Race P directory operations start (trace ++ [(i, e)]) s' (Function.update points i p) := by
  refine ⟨?_, fun j => ?_, fun j t ht => ?_, fun j k hjk t hj hk => ?_, ?_, ?_⟩
  · have hruns := hmoves.simulates h.runs rfl
    have hstatus : Function.update (fun j => (points j).status) i p.status =
        fun j => (Function.update points i p j).status := by
      funext j
      by_cases hj : j = i
      · subst hj
        simp
      · rw [Function.update_of_ne hj, Function.update_of_ne hj]
    rw [List.map_append, ← hstatus]
    exact hruns
  · by_cases hj : j = i
    · subst hj
      rw [Function.update_self]
      exact hmoves.at_point
    · rw [Function.update_of_ne hj]
      refine (h.at_point j).frame _ fun t ht => ?_
      exact hmoves.others t (h.temporary_ne ht) (fun hi => h.apart j i hj t ht hi)
  · by_cases hj : j = i
    · subst hj
      rw [Function.update_self] at ht
      rcases hmoves.own t ht with hown | ⟨uuid, -, hnew, rfl⟩
      · obtain ⟨uuid, hissued, rfl⟩ := h.issued j t hown
        exact ⟨uuid, hmoves.issued hissued, rfl⟩
      · exact ⟨uuid, hnew, rfl⟩
    · rw [Function.update_of_ne hj] at ht
      obtain ⟨uuid, hissued, rfl⟩ := h.issued j t ht
      exact ⟨uuid, hmoves.issued hissued, rfl⟩
  · -- a name that the step takes was not issued before
    have hnew : ∀ j, j ≠ i → (points j).temporary? = some t → p.temporary? ≠ some t := by
      intro j hji hj hp
      rcases hmoves.own t hp with hown | ⟨uuid, hfresh, -, rfl⟩
      · exact h.apart j i hji t hj hown
      · obtain ⟨other, hissued, hsame⟩ := h.issued j _ hj
        exact hfresh (temporaryPath_inj directory hsame ▸ hissued)
    by_cases hji : j = i
    · subst hji
      rw [Function.update_self] at hj
      rw [Function.update_of_ne hjk.symm] at hk
      exact hnew k hjk.symm hk hj
    · rw [Function.update_of_ne hji] at hj
      by_cases hki : k = i
      · subst hki
        rw [Function.update_self] at hk
        exact hnew j hji hj hk
      · rw [Function.update_of_ne hki] at hk
        exact h.apart j k hjk t hj hk
  · rcases hmoves.written with hsame | hnone | hnow
    · rw [hsame]
      exact h.written.imp_right fun hw => hw.imp_right fun ⟨text, htext, hwrote⟩ =>
        ⟨text, htext, hwrote.append _⟩
    · exact Or.inr (Or.inl hnone)
    · exact Or.inr (Or.inr hnow)
  · intro before j text after hsplit
    rcases List.eq_nil_or_concat after with rfl | ⟨after, last, rfl⟩
    · obtain ⟨rfl, hlast⟩ := List.append_inj' hsplit rfl
      obtain ⟨-, rfl⟩ := Prod.mk.inj (List.cons.inj hlast).1
      have hseen := hmoves.seen text rfl
      rcases h.written with hsame | hnone | ⟨other, htext, hwrote⟩
      · exact Or.inl (hsame.symm.trans hseen)
      · rw [hnone] at hseen
        cases hseen
      · obtain rfl := Option.some.inj (htext.symm.trans hseen)
        exact Or.inr hwrote
    · rw [List.concat_eq_append, ← List.cons_append, ← List.append_assoc] at hsplit
      obtain ⟨rfl, -⟩ := List.append_inj' hsplit rfl
      exact h.seen before j text after rfl

/-- A temporary file that is written bit by bit. -/
theorem progress_moves (h : Race P directory operations start trace s points) {c : Call}
    {k : Except Failure c.Reply → Command Outcome}
    (hcall : (points i).program P (configFile directory) = .call c k) (hp : kernel.progress c s s') :
    Moves P directory operations trace i (.progress c) s s' (points i) (points i) := by
  cases hpoint : points i with
  | start operation =>
    rw [hpoint, Point.program, run_eq] at hcall
    cases hcall
    cases hp
  | naming seen edit =>
    rw [hpoint, Point.program, Plan.perform, writeConfig_eq] at hcall
    cases hcall
    cases hp
  | writing stage seen edit temporary =>
    rw [hpoint] at hcall
    cases stage with
    | fill =>
      cases hcall
      obtain ⟨-, written, rfl⟩ := hp
      exact .inside rfl rfl (h.temporary_ne (congrArg Point.temporary? hpoint)) (Or.inl rfl)
        (fun _ ht => (Option.some.inj ht).symm) trivial
    | _ =>
      cases hcall
      cases hp
  | clearing edit temporary written =>
    rw [hpoint] at hcall
    cases hcall
    cases hp
  | discarding seen =>
    rw [hpoint] at hcall
    cases hcall
    cases hp
  | done outcome =>
    rw [hpoint] at hcall
    cases hcall

theorem answer_leads (h : Race P directory operations start trace s points) {c : Call}
    {k : Except Failure c.Reply → Command Outcome}
    (hcall : (points i).program P (configFile directory) = .call c k) {answer : Except Failure c.Reply}
    (ha : kernel.answers c s answer s') :
    Leads P directory operations trace i (.answered c answer) s s' (points i) (k answer) := by
  have hat := h.at_point i
  cases hpoint : points i with
  | start operation =>
    rw [hpoint] at hat
    obtain rfl : operation = operations i := hat
    rw [hpoint, Point.program, run_eq] at hcall
    cases hcall
    exact start_leads ha
  | naming seen edit =>
    rw [hpoint, Point.program, Plan.perform, writeConfig_eq] at hcall
    cases hcall
    exact naming_leads ha
  | writing stage seen edit temporary =>
    rw [hpoint] at hat hcall
    exact writing_leads (h.temporary_ne (congrArg Point.temporary? hpoint)) hat hcall ha
  | clearing edit temporary written =>
    rw [hpoint] at hcall
    cases hcall
    exact clearing_leads (h.temporary_ne (congrArg Point.temporary? hpoint)) ha
  | discarding seen =>
    rw [hpoint] at hcall
    cases hcall
    exact discarding_leads ha
  | done outcome =>
    rw [hpoint] at hcall
    cases hcall

/-- Every state of a race satisfies the invariant. -/
theorem race {now : Kernel.Config Files Call Call.Reply Failure Outcome ι}
    (h : kernel.Runs ⟨start, fun i => (operations i).run P (configFile directory)⟩ trace now) :
    ∃ points : ι → Point, (∀ i, now.fibers i = (points i).program P (configFile directory)) ∧
      Race P directory operations start trace now.shared points := by
  have hinit : Race P directory operations start [] start fun i => .start (operations i) := by
    refine ⟨.start, fun _ => rfl, fun _ _ ht => ?_, fun _ _ _ _ ht => ?_, Or.inl rfl, ?_⟩
    · cases ht
    · cases ht
    · intro before i text after hsplit
      exact absurd hsplit.symm (by simp)
  refine Kernel.invariant_of_points (Point.program P (configFile directory))
    (Race P directory operations start) ?_ ?_ (fun _ => rfl) hinit h
  · intro trace s s' points i c k hI hcall hp
    have hstep := hI.step (progress_moves hI hcall hp)
    rwa [Function.update_eq_self] at hstep
  · intro trace s s' points i c k r hI hcall ha
    obtain ⟨point, hpoint, hmoves⟩ := answer_leads hI hcall ha
    exact ⟨point, hpoint, hI.step hmoves⟩

theorem status_of_done {outcome : Outcome}
    (h : p.program P (configFile directory) = .done (.ok outcome)) : p.status = .committed := by
  cases p with
  | start operation =>
    rw [Point.program, run_eq] at h
    cases h
  | naming seen edit =>
    rw [Point.program, Plan.perform, writeConfig_eq] at h
    cases h
  | writing stage seen edit temporary => cases stage <;> cases h
  | clearing edit temporary written => cases h
  | discarding seen => cases h
  | done outcome' =>
    cases h
    rfl

end Steps

/-! ### One operation by itself -/

section Alone

variable {P : Platform} {directory : FilePath}

/-- A write whose calls all succeed. -/
theorem replace_completes {ι : Type} [DecidableEq ι] (i : ι) {s : Files} (edit : Edit) (uuid : String)
    (hfresh : uuid ∉ s.issued) (hnone : s.text (temporaryPath (configFile directory) uuid) = none) :
    ∃ s', kernel.Goes i s ((Plan.replace edit).perform (configFile directory)) s'
        (.done (.ok edit.outcome)) ∧
      s'.text (configFile directory) = some edit.text ∧ s'.issued = uuid :: s.issued ∧
      ∀ q, q ≠ configFile directory → s'.text q = s.text q := by
  have hne := temporaryPath_ne directory uuid
  rw [Plan.perform, writeConfig_eq]
  refine ⟨_, .answered (r := .ok uuid) ⟨hfresh, rfl⟩ (.answered (r := .ok ()) rfl
    (.answered (r := .ok ()) rfl (.answered (r := .ok ()) ⟨hnone, rfl⟩
    (.answered (r := .ok ()) ⟨?_, rfl⟩ (.answered (r := .ok ()) rfl
    (.answered (r := .ok ()) ⟨edit.text, ?_, rfl⟩ (.answered (r := .ok ()) rfl
    (.answered (r := .ok ()) rfl .refl)))))))), ?_, rfl, fun q hq => ?_⟩
  · simp [Files.put]
  · exact Function.update_self ..
  · simp [Files.put, Function.update_of_ne hne.symm]
  · by_cases hq' : q = temporaryPath (configFile directory) uuid
    · subst hq'
      simp [Files.put, hnone]
    · simp [Files.put, Function.update_of_ne hq, Function.update_of_ne hq']

/-- An operation that runs by itself to a success, on a file that holds `before`. -/
def Alone (P : Platform) (directory : FilePath) (operation : Operation) (before after : Option String) :
    Prop :=
  ∃ (s s' : Files) (trace : List (Unit × Event)) (outcome : Outcome),
    s.text (configFile directory) = before ∧ s'.text (configFile directory) = after ∧
    kernel.Runs ⟨s, fun _ => operation.run P (configFile directory)⟩ trace
      ⟨s', fun _ => .done (.ok outcome)⟩

theorem answer_of_reads {path : FilePath} {s : Files} {answer : Except Failure String}
    (h : Reads (s.text path) answer) : kernel.answers (.readFileString path) s answer s := by
  cases answer with
  | ok raw => exact ⟨h, rfl⟩
  | error cause => exact ⟨h, rfl⟩

/-- What an operation may leave is what it leaves when it runs by itself. -/
theorem Leaves.alone {operation : Operation} {before after : Option String}
    (h : Leaves P (configFile directory) operation before after) :
    Alone P directory operation before after := by
  obtain ⟨answer, hreads, hplan, rfl⟩ := h
  let s : Files := ⟨fun q => if q = configFile directory then before else none, []⟩
  have hbefore : s.text (configFile directory) = before := if_pos rfl
  have hread := answer_of_reads (s := s) (hbefore.symm ▸ hreads)
  have hrun : ∀ {s' outcome}, kernel.Goes (() : Unit) s
      ((operation.plan (configFile directory) (decodeConfig P answer)).perform (configFile directory)) s'
      (.done (.ok outcome)) →
      ∃ trace : List (Unit × Event), kernel.Runs ⟨s, fun _ => operation.run P (configFile directory)⟩ trace
        ⟨s', fun _ => .done (.ok outcome)⟩ := by
    intro s' outcome hrest
    rw [run_eq]
    exact (Kernel.Goes.answered hread hrest).alone
  cases hstep : operation.plan (configFile directory) (decodeConfig P answer) with
  | finish outcome =>
    rw [hstep] at hplan hrun
    cases outcome with
    | error cause => exact absurd trivial hplan
    | ok outcome =>
      obtain ⟨trace, hrun⟩ := hrun .refl
      exact ⟨s, s, trace, outcome, hbefore, hbefore, hrun⟩
  | replace edit =>
    rw [hstep] at hrun
    have hnone : s.text (temporaryPath (configFile directory) "0") = none :=
      if_neg (temporaryPath_ne directory "0")
    obtain ⟨s', hgoes, hafter, -, -⟩ := replace_completes () edit "0" List.not_mem_nil hnone
    obtain ⟨trace, hrun⟩ := hrun hgoes
    exact ⟨s, s', trace, edit.outcome, hbefore, hafter, hrun⟩
  | discard =>
    rw [hstep] at hrun
    obtain ⟨trace, hrun⟩ := hrun (.answered (r := .ok ()) rfl .refl)
    exact ⟨s, s.put (configFile directory) none, trace, .removed true, hbefore, Function.update_self .., hrun⟩

end Alone

/-! ### Any number of operations -/

/-- However operations on one config file interleave, fail or stop, a read sees the text that was
    there from the start or a whole document that an operation had written. Once all have succeeded,
    and none replaced or removed the file between another's read and that one's own write, the file
    holds what running them one after the other in some order leaves. -/
theorem updates_serial (P : Platform) (directory : FilePath) {ι : Type} [DecidableEq ι]
    (operations : ι → Operation) {start : Files}
    {now : Kernel.Config Files Call Call.Reply Failure Outcome ι} {trace : List (ι × Event)}
    (h : kernel.Runs ⟨start, fun i => (operations i).run P (configFile directory)⟩ trace now) :
    (∀ before i text after,
      trace = before ++ (i, .answered (.readFileString (configFile directory)) (.ok text)) :: after →
      start.text (configFile directory) = some text ∨ Wrote directory before text) ∧
    ((∀ i, ∃ outcome, now.fibers i = .done (.ok outcome)) →
      ¬ Overlapped (trace.map fun x => (x.1, act (configFile directory) x.2)) →
      ∃ order : List ι, order.Nodup ∧ (∀ i, i ∈ order) ∧
        Sequence (fun i => Alone P directory (operations i)) order (start.text (configFile directory))
          (now.shared.text (configFile directory))) := by
  obtain ⟨points, hpoints, hrace⟩ := race h
  refine ⟨hrace.seen, fun hdone hoverlap => ?_⟩
  have hcommitted : ∀ i, (points i).status = .committed := by
    intro i
    obtain ⟨outcome, hi⟩ := hdone i
    exact status_of_done ((hpoints i).symm.trans hi)
  obtain ⟨order, hnodup, hall, hsequence⟩ := serial_all hrace.runs hoverlap hcommitted
  exact ⟨order, hnodup, hall, hsequence.mono fun _ _ _ hleaves => hleaves.alone⟩

/-- An operation that runs by itself leaves what it may leave. -/
theorem Alone.leaves {P : Platform} {directory : FilePath} {operation : Operation}
    {before after : Option String} (h : Alone P directory operation before after) :
    Leaves P (configFile directory) operation before after := by
  obtain ⟨s, s', trace, outcome, rfl, rfl, hrun⟩ := h
  obtain ⟨points, hpoints, hrace⟩ := @race Unit _ P directory (fun _ => operation) _ _ _ hrun
  obtain ⟨order, hnodup, hall, hsequence⟩ := serial_all hrace.runs (not_overlapped _)
    fun i => status_of_done (hpoints i).symm
  rcases List.eq_nil_or_concat order with rfl | ⟨first, last, rfl⟩
  · exact absurd (hall ()) List.not_mem_nil
  · rw [List.concat_eq_append] at hnodup hsequence
    obtain ⟨v, hfirst, hlast⟩ := sequence_concat hsequence
    cases first with
    | nil =>
      obtain rfl := sequence_nil hfirst
      exact hlast
    | cons i first => exact absurd hnodup (by simp)

/-! ### Two operations -/

/-- What the reader makes of the documents of two saves. -/
def savedDocuments : Platform :=
  .ofTables [("\x7b\x7d", .object []), (document [("token", .string "t")], .object [("token", .string "t")]),
    (document [("workspace", StoredWorkspace.toValue ⟨"w", none⟩)],
      .object [("workspace", StoredWorkspace.toValue ⟨"w", none⟩)])] [] [] []

def noFiles : Files := ⟨fun _ => none, []⟩

/-- The answer to a read of a missing file. -/
def missing : Except Failure String := .error (.platform ⟨.notFound, "no such file"⟩)

theorem answers_missing (path : FilePath) : kernel.answers (.readFileString path) noFiles missing noFiles :=
  ⟨⟨_, rfl, fun _ => rfl⟩, rfl⟩

def bothSaves : Bool → Operation
  | true => .saveToken "t"
  | false => .saveWorkspace ⟨"w", none⟩

/-- The document a save leaves of a missing file. -/
def savedAlone : Bool → String
  | true => document [("token", .string "t")]
  | false => document [("workspace", StoredWorkspace.toValue ⟨"w", none⟩)]

/-- The document the second of two saves leaves. -/
def savedAfter : Bool → String
  | true => document [("workspace", StoredWorkspace.toValue ⟨"w", none⟩), ("token", .string "t")]
  | false => document [("token", .string "t"), ("workspace", StoredWorkspace.toValue ⟨"w", none⟩)]

/-- The token is saved, and then the workspace: neither is lost. -/
theorem saves_in_turn : ∃ (now : Kernel.Config Files Call Call.Reply Failure Outcome Bool)
    (trace : List (Bool × Event)),
    kernel.Runs ⟨noFiles, fun i => (bothSaves i).run savedDocuments (configFile ["home"])⟩ trace now ∧
    (∀ i, now.fibers i = .done (.ok .saved)) ∧
    ¬ Overlapped (trace.map fun x => (x.1, act (configFile ["home"]) x.2)) ∧
    now.shared.text (configFile ["home"]) = some (savedAfter false) ∧
    ∃ order : List Bool, order.Nodup ∧ (∀ i, i ∈ order) ∧
      Sequence (fun i => Alone savedDocuments ["home"] (bothSaves i)) order none
        (now.shared.text (configFile ["home"])) := by
  have hfree : noFiles.text (temporaryPath (configFile ["home"]) "0") = none := rfl
  obtain ⟨s, hreplace, hsaved, hissued, hothers⟩ := replace_completes true
    ⟨.write, [("token", .string "t")], .saved⟩ _ List.not_mem_nil hfree
  have hfirst : kernel.Goes true noFiles ((bothSaves true).run savedDocuments (configFile ["home"])) s
      (.done (.ok .saved)) := by
    rw [run_eq]
    exact .answered (answers_missing (configFile ["home"])) hreplace
  have hfresh : "1" ∉ s.issued := by
    rw [hissued]
    decide
  have hfree' : s.text (temporaryPath (configFile ["home"]) "1") = none :=
    hothers _ (temporaryPath_ne ["home"] "1")
  obtain ⟨s', hreplace', hlast, -, -⟩ := replace_completes false
    ⟨.write, [("token", .string "t"), ("workspace", StoredWorkspace.toValue ⟨"w", none⟩)], .saved⟩ _ hfresh hfree'
  have hsecond : kernel.Goes false s ((bothSaves false).run savedDocuments (configFile ["home"])) s'
      (.done (.ok .saved)) := by
    have hplan : (bothSaves false).plan (configFile ["home"]) (decodeConfig savedDocuments (.ok (savedAlone true))) =
        .replace ⟨.write, [("token", .string "t"), ("workspace", StoredWorkspace.toValue ⟨"w", none⟩)], .saved⟩ := rfl
    rw [← hplan] at hreplace'
    rw [run_eq]
    exact .answered (r := .ok (savedAlone true)) ⟨hsaved, rfl⟩ hreplace'
  obtain ⟨first, hfirstOwn, hrun⟩ :=
    hfirst (fun i => (bothSaves i).run savedDocuments (configFile ["home"])) rfl
  obtain ⟨second, hsecondOwn, hrun⟩ := hrun.goes hsecond (Function.update_of_ne Bool.false_ne_true _ _)
  have hdone : ∀ i, (Function.update (Function.update (fun i => (bothSaves i).run savedDocuments (configFile ["home"]))
      true (.done (.ok .saved))) false (.done (.ok .saved)) : Bool → Command Outcome) i = .done (.ok .saved) := by
    intro i
    cases i <;> rfl
  have hturn : ¬ Overlapped ((first ++ second).map fun x => (x.1, act (configFile ["home"]) x.2)) := by
    rw [List.map_append]
    exact not_overlapped_append (i := true) (j := false) (by simpa using hfirstOwn) (by simpa using hsecondOwn)
  exact ⟨_, _, hrun, hdone, hturn, hlast,
    (updates_serial savedDocuments ["home"] bothSaves hrun).2 (fun i => ⟨.saved, hdone i⟩) hturn⟩

/-! ### Two that overlap -/

theorem leaves_missing {i : Bool} {after : Option String}
    (h : Leaves savedDocuments (configFile ["home"]) (bothSaves i) none after) :
    after = some (savedAlone i) := by
  obtain ⟨answer, hreads, hplan, rfl⟩ := h
  cases answer with
  | ok raw => cases hreads
  | error cause =>
    cases hfound : isNotFound cause with
    | true =>
      rw [decode_missing hfound]
      cases i <;> rfl
    | false =>
      rw [decode_unreadable hfound] at hplan
      cases i <;> exact absurd trivial hplan

theorem leaves_saved {i j : Bool} (hj : j ≠ i) {after : Option String}
    (h : Leaves savedDocuments (configFile ["home"]) (bothSaves i) (some (savedAlone j)) after) :
    after = some (savedAfter i) := by
  obtain ⟨answer, hreads, hplan, rfl⟩ := h
  cases answer with
  | ok raw =>
    obtain rfl := Option.some.inj hreads
    cases i with
    | true =>
      obtain rfl : j = false := by simpa using hj
      rfl
    | false =>
      obtain rfl : j = true := by simpa using hj
      rfl
  | error cause =>
    obtain ⟨error, rfl, hfound⟩ := hreads
    have hother : isNotFound (.platform error) = false := by
      rw [isNotFound]
      exact decide_eq_false fun he => by cases hfound he
    rw [decode_unreadable hother] at hplan
    cases i <;> exact absurd trivial hplan

theorem saved_in_order {i j : Bool} (hj : j ≠ i) {after : Option String}
    (h : Sequence (fun i => Alone savedDocuments ["home"] (bothSaves i)) [j, i] none after) :
    after = some (savedAfter i) := by
  obtain ⟨v, hfirst, hlast⟩ := (sequence_concat h : ∃ v, Sequence _ [j] none v ∧ _)
  obtain ⟨u, hnil, hfirst⟩ := (sequence_concat hfirst : ∃ u, Sequence _ [] none u ∧ _)
  obtain rfl := sequence_nil hnil
  obtain rfl := leaves_missing hfirst.leaves
  exact leaves_saved hj hlast.leaves

/-- Both saves read the missing file before either writes: the token is lost, which no order of the
    two loses. -/
theorem overlapping_save_lost : ∃ (now : Kernel.Config Files Call Call.Reply Failure Outcome Bool)
    (trace : List (Bool × Event)),
    kernel.Runs ⟨noFiles, fun i => (bothSaves i).run savedDocuments (configFile ["home"])⟩ trace now ∧
    (∀ i, ∃ outcome, now.fibers i = .done (.ok outcome)) ∧
    ¬ ∃ order : List Bool, order.Nodup ∧ (∀ i, i ∈ order) ∧
      Sequence (fun i => Alone savedDocuments ["home"] (bothSaves i)) order none
        (now.shared.text (configFile ["home"])) := by
  have hread : ∀ i, kernel.Goes i noFiles ((bothSaves i).run savedDocuments (configFile ["home"])) noFiles
      (((bothSaves i).plan (configFile ["home"]) (decodeConfig savedDocuments missing)).perform
        (configFile ["home"])) := by
    intro i
    rw [run_eq]
    exact .answered (answers_missing (configFile ["home"])) .refl
  have hfree : noFiles.text (temporaryPath (configFile ["home"]) "0") = none := rfl
  obtain ⟨s, hfirst, -, hissued, hothers⟩ := replace_completes true
    ⟨.write, [("token", .string "t")], .saved⟩ _ List.not_mem_nil hfree
  have hfresh : "1" ∉ s.issued := by
    rw [hissued]
    decide
  have hfree' : s.text (temporaryPath (configFile ["home"]) "1") = none :=
    hothers _ (temporaryPath_ne ["home"] "1")
  obtain ⟨s', hsecond, hlast, -, -⟩ := replace_completes false
    ⟨.write, [("workspace", StoredWorkspace.toValue ⟨"w", none⟩)], .saved⟩ _ hfresh hfree'
  -- both read, then one writes and then the other
  obtain ⟨_, -, hrun⟩ :=
    hread true (fun i => (bothSaves i).run savedDocuments (configFile ["home"])) rfl
  obtain ⟨_, -, hrun⟩ := hrun.goes (hread false) (Function.update_of_ne Bool.false_ne_true _ _)
  obtain ⟨_, -, hrun⟩ := hrun.goes hfirst
    ((Function.update_of_ne Bool.false_ne_true.symm _ _).trans (Function.update_self ..))
  obtain ⟨_, -, hrun⟩ := hrun.goes hsecond
    ((Function.update_of_ne Bool.false_ne_true _ _).trans (Function.update_self ..))
  refine ⟨_, _, hrun, fun i => ?_, ?_⟩
  · cases i with
    | true => exact ⟨.saved, rfl⟩
    | false => exact ⟨.saved, rfl⟩
  · rintro ⟨order, hnodup, hall, hsequence⟩
    have hboth : [true, false].Nodup := by decide
    have horder : order ∈ [true, false].permutations' := by
      refine List.mem_permutations'.mpr ((List.perm_ext_iff_of_nodup hnodup hboth).mpr fun i => ?_)
      cases i <;> simp [hall]
    have horders : [true, false].permutations' = [[true, false], [false, true]] := by decide
    rw [horders] at horder
    rw [hlast] at hsequence
    rcases List.mem_cons.mp horder with rfl | hother
    · exact absurd (saved_in_order (by decide : true ≠ false) hsequence) (by decide)
    · obtain rfl := List.mem_singleton.mp hother
      exact absurd (saved_in_order (by decide : false ≠ true) hsequence) (by decide)

end Akua.SecureConfig
