import Akua.Lib.History
import Akua.Lib.FileSystem

/-! The Wasm engines behind `helm.template` and `kustomize.build`. An engine is loaded and
    instantiated on first use and reused from call to call; what its guest burns is charged to the
    budget of the render. The addon that runs the guests is a parameter: it answers with a value or
    throws, and may answer by everything it was asked before. Its fuel counter is part of the
    state: reading and setting it throws only on an instance that is disposed or busy, and an
    engine's is neither. -/

namespace Akua

structure SandboxLimits where
  /-- Linear-memory cap for each engine store. -/
  engineMemoryBytes : Nat
  /-- Fuel for all engine calls of one render together. -/
  engineFuel : Nat
  /-- Cap on stdout and stderr each, and on an engine call's result. -/
  maxOutputBytes : Nat
deriving DecidableEq

/-- The reactor ABI of an engine. -/
structure ReactorSpec where
  name : String
  /-- What the names of the memory exports start with. -/
  abi : String
  entry : String
deriving DecidableEq

/-! ### Failures -/

inductive GuestReason where
  | outOfFuel
  | memoryLimit
  | trap
deriving DecidableEq

/-- A guest stopped by the sandbox or by a trap. -/
structure GuestFailure where
  module : String
  reason : GuestReason
  detail : String
deriving DecidableEq

structure EngineError where
  engine : String
  message : String
  /-- CLI contract code when the failure has a specific one. -/
  code : Option String := none
deriving DecidableEq

/-- The typed failures of an engine call. -/
inductive EngineFailure where
  | engine (error : EngineError)
  | guest (failure : GuestFailure)
deriving DecidableEq

/-- How a computation ends without a value: with a typed failure, or by an exception that nothing
    on the way expects. -/
inductive Stop where
  | fail (failure : EngineFailure)
  | die (message : String)
deriving DecidableEq

/-! ### The addon -/

/-- A number of the guest's, none for a result that is no integer. -/
abbrev GuestNumber := Option Int

/-- How a guest call ended. -/
inductive Outcome where
  | ok (values : List GuestNumber)
  | exited (code : Int)
  | outOfFuel
  | memoryLimit
  | trap (message : String)
deriving DecidableEq

structure InstanceOptions where
  args : List String
  maxOutputBytes : Nat
  memoryBytes : Nat
  /-- Fuel for instantiation, which can run guest code, and the calls that follow. -/
  fuel : Nat
deriving DecidableEq

/-- What the host asks the addon to do. -/
inductive AddonCall where
  | instantiate (module : String) (options : InstanceOptions)
  | call (guest : Nat) (name : String) (args : List GuestNumber)
  | write (guest : Nat) (pointer : GuestNumber) (data : Bytes)
  | read (guest : Nat) (pointer length : GuestNumber)
deriving DecidableEq

/-- The part of the host that asked. -/
inductive Phase where
  | start
  | request
deriving DecidableEq

/-- One thing the addon was asked: what the budget had spent by then, what the guest burnt, and
    whether the addon threw. -/
structure AddonEvent where
  phase : Phase
  call : AddonCall
  spent : Int
  burnt : Nat
  threw : Bool
deriving DecidableEq

/-- The addon. Guests burn at most the fuel they have. -/
structure Addon where
  /-- Decompress and load an engine. -/
  load : String → Except String Unit
  /-- What the code that runs at instantiation burns, and the exception. -/
  instantiate : List AddonEvent → String → InstanceOptions → Nat × Except String Unit
  /-- Call an export of an instance with so much fuel left: an exception from before the guest ran,
      or what the guest burnt and how it ended. -/
  call : List AddonEvent → (left guest : Nat) → String → List GuestNumber →
    Except String (Nat × Outcome)
  write : List AddonEvent → (guest : Nat) → GuestNumber → Bytes → Except String Unit
  read : List AddonEvent → (guest : Nat) → GuestNumber → GuestNumber → Except String Bytes

/-- The engines of a process during one render. -/
structure EngineWorld where
  history : List AddonEvent := []
  /-- How many instances were started: they are numbered. -/
  started : Nat := 0
  /-- The fuel left in an guests store. -/
  left : Nat → Nat := fun _ => 0
  /-- The instance an engine's next call is to use. -/
  live : String → Option Nat := fun _ => none
  /-- `budget.fuelSpent`. -/
  fuelSpent : Int := 0

abbrev Host (α : Type) : Type := Effect EngineWorld Stop α

namespace Reactor

variable (limits : SandboxLimits) (addon : Addon)

/-- `Effect.ensuring`, with a finalizer that cannot fail. -/
def ensuring {α : Type} (m : Host α) (finalizer : EngineWorld → EngineWorld) : Host α := fun w =>
  ((m w).1, finalizer (m w).2)

/-- `Effect.tapError`: on a typed failure only. -/
def tapError {α : Type} (m : Host α) (f : EngineWorld → EngineWorld) : Host α := fun w =>
  match m w with
  | (.error (.fail failure), w') => (.error (.fail failure), f w')
  | result => result

/-- `Effect.mapError`: typed failures only. -/
def mapFailure {α : Type} (f : EngineFailure → EngineFailure) (m : Host α) : Host α :=
  m.mapError fun
    | .fail failure => .fail (f failure)
    | .die message => .die message

def fail {α : Type} (failure : EngineFailure) : Host α := Effect.fail (.fail failure)

/-- `module.instantiate`. -/
def instantiate (module : String) (options : InstanceOptions) : Host Nat := fun w =>
  let (burn, answer) := addon.instantiate w.history module options
  let burnt := min burn options.fuel
  let event (threw : Bool) : AddonEvent :=
    { phase := .start, call := .instantiate module options, spent := w.fuelSpent, burnt, threw }
  match answer with
  | .error cause =>
    (.error (.fail (.engine { engine := module, message := "instantiate: " ++ cause })),
      { w with history := w.history ++ [event true] })
  | .ok () =>
    (.ok w.started,
      { w with history := w.history ++ [event false], started := w.started + 1
               left := Function.update w.left w.started (options.fuel - burnt) })

/-- `instance.call`. -/
def callExport (phase : Phase) (guest : Nat) (name : String) (args : List GuestNumber) :
    Host Outcome := fun w =>
  let event (burnt : Nat) (threw : Bool) : AddonEvent :=
    { phase, call := .call guest name args, spent := w.fuelSpent, burnt, threw }
  match addon.call w.history (w.left guest) guest name args with
  | .error cause => (.error (.die cause), { w with history := w.history ++ [event 0 true] })
  | .ok (burn, outcome) =>
    let burnt := min burn (w.left guest)
    (.ok outcome,
      { w with history := w.history ++ [event burnt false]
               left := Function.update w.left guest (w.left guest - burnt) })

/-- `instance.write`. -/
def writeMemory (guest : Nat) (pointer : GuestNumber) (data : Bytes) : Host Unit := fun w =>
  let event (threw : Bool) : AddonEvent :=
    { phase := .request, call := .write guest pointer data, spent := w.fuelSpent, burnt := 0
      threw }
  match addon.write w.history guest pointer data with
  | .error cause => (.error (.die cause), { w with history := w.history ++ [event true] })
  | .ok () => (.ok (), { w with history := w.history ++ [event false] })

/-- `instance.read`, its exception caught. -/
def readMemory (spec : ReactorSpec) (guest : Nat) (pointer length : GuestNumber) :
    Host Bytes := fun w =>
  let event (threw : Bool) : AddonEvent :=
    { phase := .request, call := .read guest pointer length, spent := w.fuelSpent, burnt := 0
      threw }
  match addon.read w.history guest pointer length with
  | .error cause =>
    (.error (.fail (.engine { engine := spec.name, message := "reading the result: " ++ cause })),
      { w with history := w.history ++ [event true] })
  | .ok data => (.ok data, { w with history := w.history ++ [event false] })

/-- `instance.setFuel`. -/
def setFuel (guest : Nat) (fuel : Int) : Host Unit :=
  Effect.modify fun w => { w with left := Function.update w.left guest fuel.toNat }

/-- `budget.fuelSpent += allowance - instance.fuel()`. -/
def charge (allowance : Int) (guest : Nat) (w : EngineWorld) : EngineWorld :=
  { w with fuelSpent := w.fuelSpent + (allowance - w.left guest) }

/-! ### Calls -/

/-- The results of a call that must return normally. -/
def returned (module : String) : Outcome → Host (List GuestNumber)
  | .ok values => pure values
  | .exited code => fail (.engine { engine := module, message := "exited " ++ toString code })
  | .outOfFuel => fail (.guest { module, reason := .outOfFuel, detail := "" })
  | .memoryLimit => fail (.guest { module, reason := .memoryLimit, detail := "" })
  | .trap message => fail (.guest { module, reason := .trap, detail := message })

/-- The single number a call returns. -/
def returnedI32 (module : String) (outcome : Outcome) : Host GuestNumber := do
  let values ← returned module outcome
  match values with
  | [] => fail (.engine { engine := module, message := "call returned no value" })
  | value :: _ => pure value

def outOfFuel (module : String) : EngineFailure :=
  .guest { module, reason := .outOfFuel
           detail := "the engine calls of one render share one CPU budget" }

/-- What an engine is instantiated with. -/
def startOptions (spec : ReactorSpec) (allowance : Int) : InstanceOptions where
  args := [spec.name]
  maxOutputBytes := limits.maxOutputBytes
  memoryBytes := limits.engineMemoryBytes
  fuel := allowance.toNat

/-- Instantiate an engine and run its package inits. -/
def startReactor (spec : ReactorSpec) : Host Nat := do
  let budget ← Effect.get
  let allowance : Int := limits.engineFuel - budget.fuelSpent
  if allowance ≤ 0 then fail (outOfFuel spec.name)
  else do
    let guest ← instantiate addon spec.name (startOptions limits spec allowance)
    -- The call comes before the effect that the finalizer is attached to.
    let outcome ← callExport addon .start guest "_initialize" []
    let _ ← ensuring (returned spec.name outcome) (charge allowance guest)
    pure guest

/-- The length of a result is the guest's word. -/
def exceeds (limit : Nat) : GuestNumber → Bool
  | none => false
  | some length => length < 0 || length > limit

def lengthText : GuestNumber → String
  | none => "NaN"
  | some length => toString length

/-- Hand over the input, call the entry point and read the result. -/
def exchange (spec : ReactorSpec) (guest : Nat) (input : Bytes) : Host Bytes := do
  let allocated ← callExport addon .request guest (spec.abi ++ "_malloc") [some input.length]
  let inPtr ← returnedI32 spec.name allocated
  writeMemory addon guest inPtr input
  let answered ← callExport addon .request guest spec.entry [inPtr, some input.length]
  let outPtr ← returnedI32 spec.name answered
  let measured ← callExport addon .request guest (spec.abi ++ "_result_len") [outPtr]
  let outLen ← returnedI32 spec.name measured
  if exceeds limits.maxOutputBytes outLen then
    fail (.engine
      { engine := spec.name, code := some "E_RENDER_BUDGET_MEMORY"
        message := "result of " ++ lengthText outLen ++ " bytes exceeds the " ++
          toString limits.maxOutputBytes ++ "-byte output cap" })
  else do
    let output ← readMemory addon spec guest outPtr outLen
    let freed ← callExport addon .request guest (spec.abi ++ "_free") [inPtr]
    let _ ← returned spec.name freed
    let freed ← callExport addon .request guest (spec.abi ++ "_free") [outPtr]
    let _ ← returned spec.name freed
    pure output

/-- Running out of fuel, whichever call it was in. -/
def sharedBudget (spec : ReactorSpec) : EngineFailure → EngineFailure
  | .guest failure => if failure.reason = .outOfFuel then outOfFuel spec.name else .guest failure
  | failure => failure

/-- One request, with the fuel the render has left; it is charged whether or not it succeeds. -/
def request (spec : ReactorSpec) (guest : Nat) (input : Bytes) : Host Bytes := do
  let budget ← Effect.get
  let allowance : Int := limits.engineFuel - budget.fuelSpent
  if allowance ≤ 0 then fail (outOfFuel spec.name)
  else do
    setFuel guest allowance
    ensuring (mapFailure (sharedBudget spec) (exchange limits addon spec guest input))
      (charge allowance guest)

/-- Start an instance and keep it. -/
def startSession (spec : ReactorSpec) : Host Nat := do
  let guest ← startReactor limits addon spec
  Effect.modify fun w => { w with live := Function.update w.live spec.name (some guest) }
  pure guest

/-- The instance to use: the live one, or a new one. -/
def session (spec : ReactorSpec) : Host Nat := do
  let world ← Effect.get
  match world.live spec.name with
  | some guest => pure guest
  | none => do
    let _ ← Effect.ofExcept ((addon.load spec.name).mapError fun cause =>
      Stop.fail (.engine { engine := spec.name, message := "loading engine: " ++ cause }))
    startSession limits addon spec

/-- A request on the session's instance. -/
def attempt (spec : ReactorSpec) (input : Bytes) : Host Bytes := do
  let guest ← session limits addon spec
  request limits addon spec guest input

/-- A call of an engine: a typed failure drops its instance. -/
def call (spec : ReactorSpec) (input : Bytes) : Host Bytes :=
  tapError (attempt limits addon spec input)
    fun w => { w with live := Function.update w.live spec.name none }

/-- The engines after a sequence of calls, whatever each of them ended in. -/
def afterCalls (w : EngineWorld) (calls : List (ReactorSpec × Bytes)) : EngineWorld :=
  calls.foldl (fun w c => (call limits addon c.1 c.2 w).2) w

/-! ### What the addon's answers leave -/

/-- What an instantiation leaves. -/
theorem instantiate_world (module : String) (options : InstanceOptions) (w : EngineWorld) :
    ∃ event : AddonEvent, (event.phase = .start ∧ event.call = .instantiate module options) ∧
      event.spent = w.fuelSpent ∧ event.burnt ≤ options.fuel ∧
      ((∃ stop, instantiate addon module options w =
          (.error stop, { w with history := w.history ++ [event] })) ∨
        instantiate addon module options w = (.ok w.started,
          { w with history := w.history ++ [event], started := w.started + 1
                   left := Function.update w.left w.started (options.fuel - event.burnt) })) := by
  unfold instantiate
  rcases addon.instantiate w.history module options with ⟨burn, cause | ⟨⟩⟩
  · exact ⟨_, ⟨rfl, rfl⟩, rfl, Nat.min_le_right _ _, Or.inl ⟨_, rfl⟩⟩
  · exact ⟨_, ⟨rfl, rfl⟩, rfl, Nat.min_le_right _ _, Or.inr rfl⟩

/-- A call of an export keeps the live instances, and is asked once. -/
theorem callExport_world (phase : Phase) (guest : Nat) (name : String) (args : List GuestNumber)
    (w : EngineWorld) : (callExport addon phase guest name args w).2.live = w.live ∧
      ∃ event : AddonEvent, (event.phase = phase ∧ event.call = .call guest name args) ∧
        (callExport addon phase guest name args w).2.history = w.history ++ [event] := by
  unfold callExport
  rcases addon.call w.history (w.left guest) guest name args with cause | ⟨burn, outcome⟩
  · exact ⟨rfl, _, ⟨rfl, rfl⟩, rfl⟩
  · exact ⟨rfl, _, ⟨rfl, rfl⟩, rfl⟩

theorem returned_world (module : String) (outcome : Outcome) (w : EngineWorld) :
    (returned module outcome w).2 = w := by
  cases outcome <;> rfl

end Reactor

end Akua
