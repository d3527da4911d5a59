import Mathlib.Data.List.Induction
import Akua.EngineHost

/-! The fuel budget of a render's engine calls. A request charges what its guest burnt through every
    exit. A start does not: code that runs at instantiation has burnt fuel when `instantiate`
    throws, or when the call of `_initialize` throws before the finalizer that charges is attached.
    What such starts burn is lost to the budget; the rest of the accounting is exact. -/

namespace Akua

namespace Reactor

/-- What the guests have burnt. -/
def burnt (history : List AddonEvent) : Nat := (history.map AddonEvent.burnt).sum

@[simp] theorem burnt_append (a b : List AddonEvent) : burnt (a ++ b) = burnt a + burnt b := by
  simp [burnt]

@[simp] theorem burnt_singleton (event : AddonEvent) : burnt [event] = event.burnt := by
  simp [burnt]

/-- Since the history was `start`, the addon was asked nothing once the budget was spent. -/
def AskedInBudget (limits : SandboxLimits) (start : List AddonEvent) (w : EngineWorld) : Prop :=
  ∃ new, w.history = start ++ new ∧ ∀ event ∈ new, event.spent < limits.engineFuel

/-- While a guest runs on its allowance: nothing is charged yet, and what it has left and what was
    burnt make up a constant. -/
structure Metered (limits : SandboxLimits) (start : List AddonEvent) (guest : Nat) (spent : Int)
    (balance : Nat) (w : EngineWorld) : Prop where
  asked : AskedInBudget limits start w
  spent_eq : w.fuelSpent = spent
  balance_eq : w.left guest + burnt w.history = balance

variable {limits : SandboxLimits} {addon : Addon} {start : List AddonEvent} {guest balance : Nat}
variable {spent : Int}

theorem AskedInBudget.ask {w : EngineWorld} (h : AskedInBudget limits start w) {event : AddonEvent}
    (hspent : event.spent < limits.engineFuel) {w' : EngineWorld}
    (hw' : w'.history = w.history ++ [event]) : AskedInBudget limits start w' := by
  obtain ⟨new, hnew, hall⟩ := h
  refine ⟨new ++ [event], by rw [hw', hnew, List.append_assoc], fun e he => ?_⟩
  rcases List.mem_append.mp he with he | he
  · exact hall e he
  · rw [List.mem_singleton.mp he]
    exact hspent

/-! ### What one request charges -/

section Request

variable (hspent : spent < limits.engineFuel)

include hspent

theorem metered_callExport (phase : Phase) (name : String) (args : List GuestNumber) :
    Effect.Keeps (Metered limits start guest spent balance) (callExport addon phase guest name args) := by
  rintro w ⟨hasked, hs, hb⟩
  have hevent : w.fuelSpent < limits.engineFuel := by rw [hs]; exact hspent
  unfold callExport
  rcases addon.call w.history (w.left guest) guest name args with cause | ⟨burn, outcome⟩
  · exact ⟨hasked.ask hevent rfl, hs, by simpa using hb⟩
  · refine ⟨hasked.ask hevent rfl, hs, ?_⟩
    simp only [Function.update_self, burnt_append, burnt_singleton]
    omega

theorem metered_writeMemory (pointer : GuestNumber) (data : Bytes) :
    Effect.Keeps (Metered limits start guest spent balance) (writeMemory addon guest pointer data) := by
  rintro w ⟨hasked, hs, hb⟩
  have hevent : w.fuelSpent < limits.engineFuel := by rw [hs]; exact hspent
  unfold writeMemory
  rcases addon.write w.history guest pointer data with cause | ⟨⟩
  · exact ⟨hasked.ask hevent rfl, hs, by simpa using hb⟩
  · exact ⟨hasked.ask hevent rfl, hs, by simpa using hb⟩

theorem metered_readMemory (spec : ReactorSpec) (pointer length : GuestNumber) :
    Effect.Keeps (Metered limits start guest spent balance)
      (readMemory addon spec guest pointer length) := by
  rintro w ⟨hasked, hs, hb⟩
  have hevent : w.fuelSpent < limits.engineFuel := by rw [hs]; exact hspent
  unfold readMemory
  rcases addon.read w.history guest pointer length with cause | data
  · exact ⟨hasked.ask hevent rfl, hs, by simpa using hb⟩
  · exact ⟨hasked.ask hevent rfl, hs, by simpa using hb⟩

omit hspent in
theorem metered_returned (module : String) (outcome : Outcome) :
    Effect.Keeps (Metered limits start guest spent balance) (returned module outcome) := by
  cases outcome <;> exact fun _ h => h

omit hspent in
theorem metered_returnedI32 (module : String) (outcome : Outcome) :
    Effect.Keeps (Metered limits start guest spent balance) (returnedI32 module outcome) := by
  refine Effect.keeps_bind (metered_returned module outcome) fun values _ _ _ => ?_
  cases values <;> exact fun _ h => h

theorem metered_exchange (spec : ReactorSpec) (input : Bytes) :
    Effect.Keeps (Metered limits start guest spent balance) (exchange limits addon spec guest input) := by
  refine Effect.keeps_bind (metered_callExport hspent _ _ _) fun _ _ _ _ => ?_
  refine Effect.keeps_bind (metered_returnedI32 _ _) fun _ _ _ _ => ?_
  refine Effect.keeps_bind (metered_writeMemory hspent _ _) fun _ _ _ _ => ?_
  refine Effect.keeps_bind (metered_callExport hspent _ _ _) fun _ _ _ _ => ?_
  refine Effect.keeps_bind (metered_returnedI32 _ _) fun _ _ _ _ => ?_
  refine Effect.keeps_bind (metered_callExport hspent _ _ _) fun _ _ _ _ => ?_
  refine Effect.keeps_bind (metered_returnedI32 _ _) fun _ _ _ _ => ?_
  refine Effect.keeps_ite (fun _ => Effect.keeps_fail _) fun _ => ?_
  refine Effect.keeps_bind (metered_readMemory hspent _ _ _) fun _ _ _ _ => ?_
  refine Effect.keeps_bind (metered_callExport hspent _ _ _) fun _ _ _ _ => ?_
  refine Effect.keeps_bind (metered_returned _ _) fun _ _ _ _ => ?_
  refine Effect.keeps_bind (metered_callExport hspent _ _ _) fun _ _ _ _ => ?_
  exact Effect.keeps_bind (metered_returned _ _) fun _ _ _ _ => Effect.keeps_pure _

end Request

/-- How a step leaves the budget: `lost` more was burnt than charged. -/
structure Charges (limits : SandboxLimits) (start : List AddonEvent) (w w' : EngineWorld)
    (lost : Nat) : Prop where
  asked : AskedInBudget limits start w'
  within : w'.fuelSpent ≤ limits.engineFuel
  account : (burnt w'.history : Int) - w'.fuelSpent = burnt w.history - w.fuelSpent + lost

/-- What was metered is charged by the finalizer. -/
theorem charges_of_metered {w w' : EngineWorld}
    (h : Metered limits start guest w.fuelSpent
      ((limits.engineFuel - w.fuelSpent).toNat + burnt w.history) w')
    (hspent : w.fuelSpent < limits.engineFuel) :
    Charges limits start w (charge (limits.engineFuel - w.fuelSpent) guest w') 0 := by
  obtain ⟨hasked, hs, hb⟩ := h
  refine ⟨hasked, ?_, ?_⟩
  · simp only [charge]
    omega
  · simp only [charge]
    omega

theorem charges_request {w : EngineWorld} (hasked : AskedInBudget limits start w)
    (hwithin : w.fuelSpent ≤ limits.engineFuel) (spec : ReactorSpec) (guest : Nat) (input : Bytes) :
    Charges limits start w (request limits addon spec guest input w).2 0 := by
  have hget : (Effect.get : Host EngineWorld) w = (.ok w, w) := rfl
  unfold request
  rw [Effect.bind_of_ok hget]
  by_cases hspent : w.fuelSpent < limits.engineFuel
  · rw [if_neg (by omega)]
    rw [Effect.bind_of_ok (show setFuel guest (limits.engineFuel - w.fuelSpent) w = (.ok (), _) from rfl)]
    refine charges_of_metered (metered_exchange hspent spec input _ ⟨hasked, rfl, ?_⟩) hspent
    simp
  · rw [if_pos (by omega)]
    exact ⟨hasked, hwithin, by simp [fail]⟩

/-! ### What a start loses -/

/-- What the code run at an instantiation burns when the instantiation throws, or the call of
    `_initialize` after it. -/
def startLoss (limits : SandboxLimits) (addon : Addon) (spec : ReactorSpec) (w : EngineWorld) : Nat :=
  match instantiate addon spec.name
    (startOptions limits spec (limits.engineFuel - w.fuelSpent)) w with
  | (.error _, w₁) => burnt w₁.history - burnt w.history
  | (.ok guest, w₁) =>
    match callExport addon .start guest "_initialize" [] w₁ with
    | (.error _, _) => burnt w₁.history - burnt w.history
    | (.ok _, _) => 0

/-- A call starts an engine when it has no instance, it loads, and the budget is not spent. -/
def callLoss (limits : SandboxLimits) (addon : Addon) (spec : ReactorSpec) (w : EngineWorld) : Nat :=
  match w.live spec.name, addon.load spec.name with
  | none, .ok () => if w.fuelSpent < limits.engineFuel then startLoss limits addon spec w else 0
  | _, _ => 0

/-- A call of an export that throws burns nothing. -/
theorem callExport_error {addon : Addon} {phase : Phase} {name : String} {args : List GuestNumber}
    {w w' : EngineWorld} {stop : Stop}
    (h : callExport addon phase guest name args w = (.error stop, w')) :
    burnt w'.history = burnt w.history := by
  unfold callExport at h
  rcases hcall : addon.call w.history (w.left guest) guest name args with cause | ⟨burn, outcome⟩
  · rw [hcall] at h
    cases h
    simp
  · rw [hcall] at h
    cases h

theorem charges_startReactor {w : EngineWorld} (hasked : AskedInBudget limits start w)
    (hspent : w.fuelSpent < limits.engineFuel) (spec : ReactorSpec) :
    Charges limits start w (startReactor limits addon spec w).2 (startLoss limits addon spec w) := by
  have hget : (Effect.get : Host EngineWorld) w = (.ok w, w) := rfl
  unfold startReactor
  rw [Effect.bind_of_ok hget, if_neg (by omega)]
  obtain ⟨event, -, hevent, hfuel, ⟨stop, hrun⟩ | hrun⟩ :=
    instantiate_world addon spec.name (startOptions limits spec (limits.engineFuel - w.fuelSpent)) w
  · -- the instantiation threw
    have hloss : startLoss limits addon spec w = event.burnt := by
      rw [startLoss, hrun]
      simp
    rw [hloss, Effect.bind_of_error (show instantiate addon spec.name _ w = _ from hrun)]
    refine ⟨hasked.ask (by rw [hevent]; exact hspent) rfl, ?_, ?_⟩
    · show w.fuelSpent ≤ limits.engineFuel
      omega
    · simp only [burnt_append, burnt_singleton]
      omega
  · rw [Effect.bind_of_ok (show instantiate addon spec.name _ w = _ from hrun)]
    have hmetered : Metered limits start w.started w.fuelSpent
        ((limits.engineFuel - w.fuelSpent).toNat + burnt w.history)
        { w with history := w.history ++ [event], started := w.started + 1
                 left := Function.update w.left w.started
                  ((startOptions limits spec (limits.engineFuel - w.fuelSpent)).fuel - event.burnt) } := by
      refine ⟨hasked.ask (by rw [hevent]; exact hspent) rfl, rfl, ?_⟩
      simp only [Function.update_self, burnt_append, burnt_singleton]
      show (limits.engineFuel - w.fuelSpent).toNat - event.burnt + _ = _
      have : event.burnt ≤ (limits.engineFuel - w.fuelSpent).toNat := hfuel
      omega
    have hcalled := @metered_callExport limits addon start w.started _ _ hspent .start "_initialize" []
      _ hmetered
    rcases hcall : callExport addon .start w.started "_initialize" []
        { w with history := w.history ++ [event], started := w.started + 1
                 left := Function.update w.left w.started
                  ((startOptions limits spec (limits.engineFuel - w.fuelSpent)).fuel - event.burnt) } with ⟨stop | outcome, w₂⟩
    · -- the call of `_initialize` threw
      have hloss : startLoss limits addon spec w = event.burnt := by
        rw [startLoss, hrun]
        dsimp only
        rw [hcall]
        simp
      have hburnt := callExport_error hcall
      rw [hcall] at hcalled
      rw [hloss, Effect.bind_of_error hcall]
      refine ⟨hcalled.asked, ?_, ?_⟩
      · rw [hcalled.spent_eq]
        omega
      · rw [hcalled.spent_eq, hburnt]
        simp only [burnt_append, burnt_singleton]
        omega
    · have hloss : startLoss limits addon spec w = 0 := by
        rw [startLoss, hrun]
        dsimp only
        rw [hcall]
      rw [hcall] at hcalled
      rw [hloss, Effect.bind_of_ok hcall]
      have hreturned := metered_returned spec.name outcome w₂ hcalled
      rw [show (ensuring (returned spec.name outcome) (charge _ w.started) >>=
        fun _ => pure w.started : Host Nat) w₂ = _ from rfl]
      rw [Effect.bind_pure_state (g := fun _ => w.started)]
      exact charges_of_metered hreturned hspent

/-! ### Calls -/

theorem Charges.refl {w : EngineWorld} (hasked : AskedInBudget limits start w)
    (hwithin : w.fuelSpent ≤ limits.engineFuel) : Charges limits start w w 0 :=
  ⟨hasked, hwithin, by omega⟩

theorem Charges.trans {w w₁ w₂ : EngineWorld} {a b : Nat} (h : Charges limits start w w₁ a)
    (h' : Charges limits start w₁ w₂ b) : Charges limits start w w₂ (a + b) := by
  refine ⟨h'.asked, h'.within, ?_⟩
  rw [h'.account, h.account]
  omega

/-- Which instances are kept has no part in the accounting. -/
theorem Charges.keep {w w' : EngineWorld} {lost : Nat} (h : Charges limits start w w' lost)
    (live : String → Option Nat) : Charges limits start w { w' with live } lost :=
  ⟨h.asked, h.within, h.account⟩

theorem charges_session {w : EngineWorld} (hasked : AskedInBudget limits start w)
    (hwithin : w.fuelSpent ≤ limits.engineFuel) (spec : ReactorSpec) :
    Charges limits start w (session limits addon spec w).2 (callLoss limits addon spec w) := by
  have hget : (Effect.get : Host EngineWorld) w = (.ok w, w) := rfl
  unfold session callLoss
  rw [Effect.bind_of_ok hget]
  rcases hlive : w.live spec.name with _ | guest
  · rcases hload : addon.load spec.name with cause | ⟨⟩
    · exact Charges.refl hasked hwithin
    · show Charges limits start w (startSession limits addon spec w).2
        (if w.fuelSpent < limits.engineFuel then startLoss limits addon spec w else 0)
      unfold startSession
      by_cases hspent : w.fuelSpent < limits.engineFuel
      · have hstart := @charges_startReactor limits addon start w hasked hspent spec
        rw [if_pos hspent]
        rcases hrun : startReactor limits addon spec w with ⟨stop | guest, w₁⟩
        · rw [hrun] at hstart
          rw [Effect.bind_of_error hrun]
          exact hstart
        · rw [hrun] at hstart
          rw [Effect.bind_of_ok hrun]
          exact hstart.keep _
      · have hrun : startReactor limits addon spec w = (.error (.fail (outOfFuel spec.name)), w) := by
          unfold startReactor
          rw [Effect.bind_of_ok hget, if_pos (by omega)]
          rfl
        rw [Effect.bind_of_error hrun, if_neg hspent]
        exact Charges.refl hasked hwithin
  · exact Charges.refl hasked hwithin

theorem charges_call {w : EngineWorld} (hasked : AskedInBudget limits start w)
    (hwithin : w.fuelSpent ≤ limits.engineFuel) (spec : ReactorSpec) (input : Bytes) :
    Charges limits start w (call limits addon spec input w).2 (callLoss limits addon spec w) := by
  have hsession := @charges_session limits addon start w hasked hwithin spec
  have hbody : Charges limits start w (attempt limits addon spec input w).2
      (callLoss limits addon spec w) := by
    unfold attempt
    rcases hrun : session limits addon spec w with ⟨stop | guest, w₁⟩ <;> rw [hrun] at hsession
    · rw [Effect.bind_of_error hrun]
      exact hsession
    · rw [Effect.bind_of_ok hrun]
      exact hsession.trans (charges_request hsession.asked hsession.within spec guest input)
  unfold call tapError
  rcases hrun : attempt limits addon spec input w with ⟨(failure | message) | output, w₁⟩ <;>
    rw [hrun] at hbody
  · exact hbody.keep _
  · exact hbody
  · exact hbody

/-! ### Renders -/

/-- What the calls of a render have lost to the budget so far. -/
def runLoss (limits : SandboxLimits) (addon : Addon) (w : EngineWorld) :
    List (ReactorSpec × Bytes) → Nat
  | [] => 0
  | c :: calls => callLoss limits addon c.1 w + runLoss limits addon (call limits addon c.1 c.2 w).2 calls

/-- The budget's account of a render that started in `w₀`: it has what the guests burnt since then,
    that is at most the limit, and no guest code ran once the limit was reached. -/
structure Accounted (limits : SandboxLimits) (w₀ w : EngineWorld) : Prop where
  exact : w.fuelSpent = (burnt w.history : Int) - burnt w₀.history
  within : burnt w.history - burnt w₀.history ≤ limits.engineFuel
  asked : AskedInBudget limits w₀.history w

/-- Over any calls, the guests burn what is charged and what is lost. -/
theorem charges_afterCalls (calls : List (ReactorSpec × Bytes)) : ∀ {w : EngineWorld},
    AskedInBudget limits start w → w.fuelSpent ≤ limits.engineFuel →
    Charges limits start w (afterCalls limits addon w calls) (runLoss limits addon w calls) := by
  induction calls with
  | nil => intro w hasked hwithin; exact Charges.refl hasked hwithin
  | cons c calls ih =>
    intro w hasked hwithin
    have hcall := @charges_call limits addon start w hasked hwithin c.1 c.2
    exact hcall.trans (ih hcall.asked hcall.within)

theorem runLoss_append (w : EngineWorld) (done rest : List (ReactorSpec × Bytes)) :
    runLoss limits addon w (done ++ rest) =
      runLoss limits addon w done + runLoss limits addon (afterCalls limits addon w done) rest := by
  induction done generalizing w with
  | nil => simp [runLoss, afterCalls]
  | cons c done ih =>
    rw [List.cons_append, runLoss, runLoss, ih, Nat.add_assoc]
    rfl

/-- A render's budget accounts for every sequence of engine calls, at every point of it, exactly when
    no call starts an engine whose code burns fuel at instantiation and then throws, or throws out
    of the call of `_initialize`. -/
theorem engine_fuel_accounted_iff (limits : SandboxLimits) (addon : Addon) {w₀ : EngineWorld}
    (hstart : w₀.fuelSpent = 0) (calls : List (ReactorSpec × Bytes)) :
    (∀ done rest, calls = done ++ rest → Accounted limits w₀ (afterCalls limits addon w₀ done)) ↔
      ∀ done c rest, calls = done ++ c :: rest →
        callLoss limits addon c.1 (afterCalls limits addon w₀ done) = 0 := by
  have hcharges : ∀ done : List (ReactorSpec × Bytes), Charges limits w₀.history w₀
      (afterCalls limits addon w₀ done) (runLoss limits addon w₀ done) := fun done =>
    charges_afterCalls done ⟨[], by simp, by simp⟩ (by omega)
  have haccount : ∀ done : List (ReactorSpec × Bytes),
      Accounted limits w₀ (afterCalls limits addon w₀ done) ↔ runLoss limits addon w₀ done = 0 := by
    intro done
    obtain ⟨hasked, hwithin, hsum⟩ := hcharges done
    constructor
    · rintro ⟨hexact, -, -⟩
      omega
    · intro hzero
      exact ⟨by omega, by omega, hasked⟩
  constructor
  · intro h done c rest hsplit
    have hnext := (haccount (done ++ [c])).mp (h (done ++ [c]) rest (by rw [hsplit]; simp))
    rw [runLoss_append] at hnext
    simp only [runLoss] at hnext
    omega
  · intro h done rest hsplit
    rw [haccount]
    induction done using List.reverseRecOn generalizing rest with
    | nil => rfl
    | append_singleton done c ih =>
      have hlast := h done c rest (by rw [hsplit]; simp)
      have hdone := ih (c :: rest) (by rw [hsplit]; simp)
      rw [runLoss_append, hdone]
      simp only [runLoss]
      omega

/-! ### Engines that account, and one that does not -/

def smallLimits : SandboxLimits := { engineMemoryBytes := 64, engineFuel := 10, maxOutputBytes := 8 }

def helmSpec : ReactorSpec := { name := "helm-engine", abi := "helm", entry := "helm_render" }

/-- An engine that burns one unit in every call, and answers with the byte it is given. -/
def echoing : Addon where
  load _ := .ok ()
  instantiate _ _ _ := (1, .ok ())
  call _ _ _ _ _ := .ok (1, .ok [some 1])
  write _ _ _ _ := .ok ()
  read _ _ _ _ := .ok [7]

/-- An engine whose start code burns four units and traps. -/
def crashing : Addon where
  load _ := .ok ()
  instantiate _ _ _ := (4, .error "Error: instantiate: wasm trap")
  call _ _ _ _ _ := .ok (0, .ok [])
  write _ _ _ _ := .ok ()
  read _ _ _ _ := .ok []

/-- Three requests to an engine that starts and answers. -/
theorem echo_accounted :
    Accounted smallLimits {} (afterCalls smallLimits echoing {} [(helmSpec, [7]), (helmSpec, [8]), (helmSpec, [9])]) := by
  refine (engine_fuel_accounted_iff smallLimits echoing (by rfl)
    [(helmSpec, [7]), (helmSpec, [8]), (helmSpec, [9])]).mpr (fun done c rest h => ?_) _ [] rfl
  rcases done with _ | ⟨first, _ | ⟨second, _ | ⟨third, done⟩⟩⟩
  · obtain ⟨rfl, -⟩ := List.cons.inj h
    rfl
  · obtain ⟨rfl, hsecond⟩ := List.cons.inj h
    obtain ⟨rfl, -⟩ := List.cons.inj hsecond
    rfl
  · obtain ⟨rfl, hsecond⟩ := List.cons.inj h
    obtain ⟨rfl, hthird⟩ := List.cons.inj hsecond
    obtain ⟨rfl, -⟩ := List.cons.inj hthird
    rfl
  · have hlength := congrArg List.length h
    simp at hlength

/-- A failing start is charged nothing, so three of them burn more than the limit. -/
theorem failing_starts_uncharged :
    let w := afterCalls smallLimits crashing {} [(helmSpec, [7]), (helmSpec, [7]), (helmSpec, [7])]
    w.fuelSpent = 0 ∧ burnt w.history = 12 ∧ ¬ Accounted smallLimits {} w := by
  refine ⟨by rfl, by rfl, ?_⟩
  rintro ⟨-, hwithin, -⟩
  revert hwithin
  decide

end Reactor

end Akua
