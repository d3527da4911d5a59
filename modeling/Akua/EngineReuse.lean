import Mathlib.Data.List.Basic
import Akua.EngineHost

/-! When an engine's instance is used again. A typed failure drops the instance. An exception of the
    addon out of a call of an export or a write to memory is no typed failure: it passes the hook
    that drops the instance, and the next request runs on the instance that failed. -/

namespace Akua

/-- The instance a call to the addon is about. -/
def AddonCall.on : AddonCall → Option Nat
  | .instantiate _ _ => none
  | .call guest _ _ | .write guest _ _ | .read guest _ _ => some guest

/-- The addon threw out of a call of an export, or a write, of a request. Exceptions of a read are
    caught. -/
def AddonEvent.Escapes (event : AddonEvent) : Prop :=
  event.phase = .request ∧ event.threw = true ∧ ∀ guest pointer length,
    event.call ≠ .read guest pointer length

namespace Reactor

variable {limits : SandboxLimits} {addon : Addon} {α β : Type} {guest : Nat}

/-- The run ended in an exception. -/
def Dies (r : Except Stop α × EngineWorld) : Prop := ∃ message, r.1 = .error (.die message)

/-- A run on one instance: it is asked of that instance only, keeps the live instances, and dies
    exactly when an exception of the addon escapes. -/
def OnGuest (guest : Nat) (m : Host α) : Prop := ∀ w,
  (m w).2.live = w.live ∧ ∃ new, (m w).2.history = w.history ++ new ∧
    (∀ event ∈ new, event.call.on = some guest) ∧
    ((∃ event ∈ new, event.Escapes) ↔ Dies (m w))

theorem onGuest_of_quiet {m : Host α} (h : ∀ w, (m w).2 = w ∧ ¬ Dies (m w)) : OnGuest guest m := by
  intro w
  obtain ⟨hw, hdies⟩ := h w
  exact ⟨by rw [hw], [], by simp [hw], by simp, by simpa using hdies⟩

theorem onGuest_pure (a : α) : OnGuest guest (pure a : Host α) :=
  onGuest_of_quiet fun _ => ⟨rfl, by rintro ⟨_, ⟨⟩⟩⟩

theorem onGuest_fail (failure : EngineFailure) : OnGuest guest (fail failure : Host α) :=
  onGuest_of_quiet fun _ => ⟨rfl, by rintro ⟨_, ⟨⟩⟩⟩

theorem onGuest_bind {m : Host α} {f : α → Host β} (hm : OnGuest guest m)
    (hf : ∀ a, OnGuest guest (f a)) : OnGuest guest (m >>= f) := by
  intro w
  obtain ⟨hlive, new, hnew, hon, hdies⟩ := hm w
  rcases hrun : m w with ⟨stop | a, w₁⟩ <;> rw [hrun] at hlive hnew hdies
  · rw [Effect.bind_of_error hrun]
    exact ⟨hlive, new, hnew, hon, hdies.trans (by simp [Dies])⟩
  · rw [Effect.bind_of_ok hrun]
    obtain ⟨hlive', new', hnew', hon', hdies'⟩ := hf a w₁
    have hquiet : ¬ ∃ event ∈ new, event.Escapes := by
      rw [hdies]
      rintro ⟨_, ⟨⟩⟩
    refine ⟨hlive'.trans hlive, new ++ new', by rw [hnew', hnew, List.append_assoc], ?_, ?_⟩
    · intro event hevent
      exact (List.mem_append.mp hevent).elim (hon event) (hon' event)
    · rw [← hdies']
      constructor
      · rintro ⟨event, hevent, hescapes⟩
        rcases List.mem_append.mp hevent with hevent | hevent
        · exact absurd ⟨event, hevent, hescapes⟩ hquiet
        · exact ⟨event, hevent, hescapes⟩
      · rintro ⟨event, hevent, hescapes⟩
        exact ⟨event, List.mem_append_right _ hevent, hescapes⟩

/-- One question to the addon. -/
theorem onGuest_ask {m : Host α} {call : AddonCall} (hon : call.on = some guest)
    (h : ∀ w, ∃ event : AddonEvent, event.call = call ∧ (m w).2.live = w.live ∧
      (m w).2.history = w.history ++ [event] ∧ (event.Escapes ↔ Dies (m w))) : OnGuest guest m := by
  intro w
  obtain ⟨event, hcall, hlive, hhistory, hdies⟩ := h w
  refine ⟨hlive, [event], hhistory, ?_, ?_⟩
  · intro e he
    rw [List.mem_singleton.mp he, hcall, hon]
  · simpa using hdies

theorem onGuest_callExport (name : String) (args : List GuestNumber) :
    OnGuest guest (callExport addon .request guest name args) := by
  refine onGuest_ask (show (AddonCall.call guest name args).on = some guest from rfl) fun w => ?_
  unfold callExport
  rcases addon.call w.history (w.left guest) guest name args with cause | ⟨burn, outcome⟩
  · refine ⟨_, rfl, rfl, rfl, ?_⟩
    exact iff_of_true ⟨rfl, rfl, fun _ _ _ => nofun⟩ ⟨cause, rfl⟩
  · refine ⟨_, rfl, rfl, rfl, ?_⟩
    exact iff_of_false (fun h => absurd h.2.1 Bool.false_ne_true) (by rintro ⟨_, ⟨⟩⟩)

theorem onGuest_writeMemory (pointer : GuestNumber) (data : Bytes) :
    OnGuest guest (writeMemory addon guest pointer data) := by
  refine onGuest_ask (show (AddonCall.write guest pointer data).on = some guest from rfl) fun w => ?_
  unfold writeMemory
  rcases addon.write w.history guest pointer data with cause | ⟨⟩
  · refine ⟨_, rfl, rfl, rfl, ?_⟩
    exact iff_of_true ⟨rfl, rfl, fun _ _ _ => nofun⟩ ⟨cause, rfl⟩
  · refine ⟨_, rfl, rfl, rfl, ?_⟩
    exact iff_of_false (fun h => absurd h.2.1 Bool.false_ne_true) (by rintro ⟨_, ⟨⟩⟩)

theorem onGuest_readMemory (spec : ReactorSpec) (pointer length : GuestNumber) :
    OnGuest guest (readMemory addon spec guest pointer length) := by
  refine onGuest_ask (show (AddonCall.read guest pointer length).on = some guest from rfl) fun w => ?_
  unfold readMemory
  rcases addon.read w.history guest pointer length with cause | data
  · refine ⟨_, rfl, rfl, rfl, ?_⟩
    exact iff_of_false (fun h => h.2.2 _ _ _ rfl) (by rintro ⟨_, ⟨⟩⟩)
  · refine ⟨_, rfl, rfl, rfl, ?_⟩
    exact iff_of_false (fun h => h.2.2 _ _ _ rfl) (by rintro ⟨_, ⟨⟩⟩)

theorem onGuest_returned (module : String) (outcome : Outcome) :
    OnGuest guest (returned module outcome) := by
  cases outcome with
  | ok values => exact onGuest_pure values
  | exited code => exact onGuest_fail _
  | outOfFuel => exact onGuest_fail _
  | memoryLimit => exact onGuest_fail _
  | trap message => exact onGuest_fail _

theorem onGuest_returnedI32 (module : String) (outcome : Outcome) :
    OnGuest guest (returnedI32 module outcome) := by
  refine onGuest_bind (onGuest_returned module outcome) fun values => ?_
  cases values with
  | nil => exact onGuest_fail _
  | cons value _ => exact onGuest_pure value

theorem onGuest_exchange (spec : ReactorSpec) (input : Bytes) :
    OnGuest guest (exchange limits addon spec guest input) := by
  refine onGuest_bind (onGuest_callExport _ _) fun _ => ?_
  refine onGuest_bind (onGuest_returnedI32 _ _) fun _ => ?_
  refine onGuest_bind (onGuest_writeMemory _ _) fun _ => ?_
  refine onGuest_bind (onGuest_callExport _ _) fun _ => ?_
  refine onGuest_bind (onGuest_returnedI32 _ _) fun _ => ?_
  refine onGuest_bind (onGuest_callExport _ _) fun _ => ?_
  refine onGuest_bind (onGuest_returnedI32 _ _) fun outLen => ?_
  by_cases hlarge : exceeds limits.maxOutputBytes outLen = true
  · rw [if_pos hlarge]
    exact onGuest_fail _
  rw [if_neg hlarge]
  refine onGuest_bind (onGuest_readMemory _ _ _) fun _ => ?_
  refine onGuest_bind (onGuest_callExport _ _) fun _ => ?_
  refine onGuest_bind (onGuest_returned _ _) fun _ => ?_
  refine onGuest_bind (onGuest_callExport _ _) fun _ => ?_
  exact onGuest_bind (onGuest_returned _ _) fun _ => onGuest_pure _

/-- Translating typed failures and a finalizer on the budget change nothing of this. -/
theorem onGuest_metered {m : Host α} (hm : OnGuest guest m) (f : EngineFailure → EngineFailure)
    (allowance : Int) : OnGuest guest (ensuring (mapFailure f m) (charge allowance guest)) := by
  intro w
  obtain ⟨hlive, new, hnew, hon, hdies⟩ := hm w
  refine ⟨hlive, new, hnew, hon, hdies.trans ?_⟩
  unfold Dies ensuring mapFailure Effect.mapError
  rcases m w with ⟨(failure | message) | a, w₁⟩ <;> simp [Except.mapError]

theorem onGuest_request (spec : ReactorSpec) (input : Bytes) :
    OnGuest guest (request limits addon spec guest input) := by
  intro w
  have hget : (Effect.get : Host EngineWorld) w = (.ok w, w) := rfl
  unfold request
  rw [Effect.bind_of_ok hget]
  by_cases hspent : (limits.engineFuel : Int) - w.fuelSpent ≤ 0
  · rw [if_pos hspent]
    exact onGuest_fail _ w
  · rw [if_neg hspent]
    exact onGuest_metered (onGuest_exchange spec input) _ _
      { w with left := Function.update w.left guest (limits.engineFuel - w.fuelSpent).toNat }

/-! ### Sessions -/

/-- The questions of a start: of the phase of starting, and about the new instance. -/
def StartEvents (guest : Nat) (events : List AddonEvent) : Prop :=
  ∀ event ∈ events, event.phase = .start ∧ ∀ on, event.call.on = some on → on = guest

/-- A start asks about the instance it starts, and keeps the live ones. -/
theorem startReactor_spec (spec : ReactorSpec) (w : EngineWorld) : ∃ new,
    (startReactor limits addon spec w).2.history = w.history ++ new ∧ StartEvents w.started new ∧
      (startReactor limits addon spec w).2.live = w.live ∧
      ∀ guest, (startReactor limits addon spec w).1 = .ok guest → guest = w.started := by
  have hget : (Effect.get : Host EngineWorld) w = (.ok w, w) := rfl
  unfold startReactor
  rw [Effect.bind_of_ok hget]
  by_cases hspent : (limits.engineFuel : Int) - w.fuelSpent ≤ 0
  · rw [if_pos hspent]
    exact ⟨[], by simp [fail], by simp [StartEvents], rfl, nofun⟩
  rw [if_neg hspent]
  obtain ⟨event, ⟨hphase, hcall⟩, -, -, ⟨stop, hrun⟩ | hrun⟩ := instantiate_world addon spec.name
    (startOptions limits spec (limits.engineFuel - w.fuelSpent)) w
  · rw [Effect.bind_of_error hrun]
    refine ⟨[event], rfl, fun e he => ?_, rfl, nofun⟩
    rw [List.mem_singleton.mp he, hcall]
    exact ⟨hphase, nofun⟩
  rw [Effect.bind_of_ok hrun]
  obtain ⟨hlive, event', ⟨hphase', hcall'⟩, hhistory⟩ := callExport_world addon .start w.started
    "_initialize" [] _
  have hevents : StartEvents w.started ([event] ++ [event']) := by
    intro e he
    rcases List.mem_append.mp he with he | he
    · rw [List.mem_singleton.mp he, hcall]
      exact ⟨hphase, nofun⟩
    · rw [List.mem_singleton.mp he, hcall']
      exact ⟨hphase', fun on hon => (Option.some.inj hon).symm⟩
  rcases hinit : callExport addon .start w.started "_initialize" [] _ with ⟨stop | outcome, w₂⟩ <;>
    rw [hinit] at hlive hhistory
  · rw [Effect.bind_of_error hinit]
    refine ⟨[event] ++ [event'], by rw [hhistory, List.append_assoc], hevents, hlive, nofun⟩
  rw [Effect.bind_of_ok hinit]
  have hreturned := returned_world spec.name outcome w₂
  rcases hret : returned spec.name outcome w₂ with ⟨stop | values, w₃⟩ <;> rw [hret] at hreturned <;>
    obtain rfl : w₃ = w₂ := hreturned
  · have hensure : ensuring (returned spec.name outcome)
        (charge (limits.engineFuel - w.fuelSpent) w.started) w₃ =
        (.error stop, charge (limits.engineFuel - w.fuelSpent) w.started w₃) := by
      rw [ensuring, hret]
    rw [Effect.bind_of_error hensure]
    exact ⟨[event] ++ [event'], by rw [← List.append_assoc]; exact hhistory, hevents, hlive, nofun⟩
  · have hensure : ensuring (returned spec.name outcome)
        (charge (limits.engineFuel - w.fuelSpent) w.started) w₃ =
        (.ok values, charge (limits.engineFuel - w.fuelSpent) w.started w₃) := by
      rw [ensuring, hret]
    rw [Effect.bind_of_ok hensure]
    refine ⟨[event] ++ [event'], by rw [← List.append_assoc]; exact hhistory, hevents, hlive, ?_⟩
    intro guest hguest
    exact (Except.ok.inj hguest).symm

/-- Without a live instance a session starts one, or leaves none. -/
theorem session_start {spec : ReactorSpec} {w : EngineWorld} (hnone : w.live spec.name = none) :
    ∃ new, (session limits addon spec w).2.history = w.history ++ new ∧ StartEvents w.started new ∧
      ((session limits addon spec w).1 = .ok w.started ∧
          (session limits addon spec w).2.live =
            Function.update w.live spec.name (some w.started) ∨
        (∃ stop, (session limits addon spec w).1 = .error stop) ∧
          (session limits addon spec w).2.live = w.live) := by
  have hget : (Effect.get : Host EngineWorld) w = (.ok w, w) := rfl
  unfold session
  rw [Effect.bind_of_ok hget, hnone]
  rcases hload : addon.load spec.name with cause | ⟨⟩
  · exact ⟨[], (List.append_nil _).symm, fun _ he => absurd he List.not_mem_nil, Or.inr ⟨⟨_, rfl⟩, rfl⟩⟩
  show ∃ new, (startSession limits addon spec w).2.history = w.history ++ new ∧
    StartEvents w.started new ∧ ((startSession limits addon spec w).1 = .ok w.started ∧
      (startSession limits addon spec w).2.live = Function.update w.live spec.name (some w.started) ∨
        (∃ stop, (startSession limits addon spec w).1 = .error stop) ∧
          (startSession limits addon spec w).2.live = w.live)
  obtain ⟨new, hnew, hevents, hlive, hguest⟩ := @startReactor_spec limits addon spec w
  unfold startSession
  rcases hrun : startReactor limits addon spec w with ⟨stop | guest, w₁⟩ <;>
    rw [hrun] at hnew hlive hguest
  · rw [Effect.bind_of_error hrun]
    exact ⟨new, hnew, hevents, Or.inr ⟨⟨stop, rfl⟩, hlive⟩⟩
  · obtain rfl := hguest guest rfl
    rw [Effect.bind_of_ok hrun]
    have hlive' : w₁.live = w.live := hlive
    exact ⟨new, hnew, hevents, Or.inl ⟨rfl, by rw [← hlive']; rfl⟩⟩

/-! ### Calls -/

/-- The call ended other than by returning its result. -/
def Fails (limits : SandboxLimits) (addon : Addon) (c : ReactorSpec × Bytes) (w : EngineWorld) : Prop :=
  ∃ stop, (call limits addon c.1 c.2 w).1 = .error stop

/-- What a call asks of the addon. -/
def asks (limits : SandboxLimits) (addon : Addon) (c : ReactorSpec × Bytes) (w : EngineWorld) :
    List AddonEvent := (call limits addon c.1 c.2 w).2.history.drop w.history.length

/-- The call has no instance left to use, and all it asks is about the instance it starts. -/
def RunsFresh (limits : SandboxLimits) (addon : Addon) (c : ReactorSpec × Bytes) (w : EngineWorld) :
    Prop :=
  w.live c.1.name = none ∧
    ∀ event ∈ asks limits addon c w, ∀ on, event.call.on = some on → on = w.started

/-- A call before its hook: it starts no instance and fails, or it runs on one that is live then, and
    dies exactly when an exception escapes. -/
theorem attempt_spec (c : ReactorSpec × Bytes) (w : EngineWorld) :
    ∃ new, (attempt limits addon c.1 c.2 w).2.history = w.history ++ new ∧
      (w.live c.1.name = none → ∀ event ∈ new, ∀ on, event.call.on = some on → on = w.started) ∧
      ((∃ stop, (attempt limits addon c.1 c.2 w).1 = .error stop) ∧
          (attempt limits addon c.1 c.2 w).2.live = w.live ∧ w.live c.1.name = none ∧
          (¬ ∃ event ∈ new, event.Escapes) ∨
        ∃ guest, (attempt limits addon c.1 c.2 w).2.live =
            Function.update w.live c.1.name (some guest) ∧
          ((∃ event ∈ new, event.Escapes) ↔ Dies (attempt limits addon c.1 c.2 w))) := by
  rcases hlive : w.live c.1.name with _ | guest
  · obtain ⟨new, hnew, hevents, ⟨hok, hkept⟩ | ⟨⟨stop, herror⟩, hkept⟩⟩ :=
      @session_start limits addon c.1 w hlive
    · have hrun : session limits addon c.1 w = (.ok w.started, (session limits addon c.1 w).2) :=
        Prod.ext hok rfl
      have hbody : attempt limits addon c.1 c.2 w =
          request limits addon c.1 w.started c.2 (session limits addon c.1 w).2 :=
        Effect.bind_of_ok hrun
      obtain ⟨hlive', new', hnew', hon, hdies⟩ := @onGuest_request limits addon w.started c.1 c.2
        (session limits addon c.1 w).2
      rw [hbody]
      refine ⟨new ++ new', by rw [hnew', hnew, List.append_assoc], fun _ event hevent on h => ?_,
        Or.inr ⟨w.started, hlive'.trans hkept, hdies.symm.trans ?_ |>.symm⟩⟩
      · rcases List.mem_append.mp hevent with hevent | hevent
        · exact (hevents event hevent).2 on h
        · rw [hon event hevent] at h
          exact (Option.some.inj h).symm
      · constructor
        · rintro ⟨event, hevent, hescapes⟩
          exact ⟨event, List.mem_append_right _ hevent, hescapes⟩
        · rintro ⟨event, hevent, hescapes⟩
          rcases List.mem_append.mp hevent with hevent | hevent
          · have hstart := (hevents event hevent).1
            rw [hescapes.1] at hstart
            cases hstart
          · exact ⟨event, hevent, hescapes⟩
    · have hrun : session limits addon c.1 w = (.error stop, (session limits addon c.1 w).2) :=
        Prod.ext herror rfl
      have hbody : attempt limits addon c.1 c.2 w = (.error stop, (session limits addon c.1 w).2) :=
        Effect.bind_of_error hrun
      rw [hbody]
      refine ⟨new, hnew, fun _ event hevent => (hevents event hevent).2,
        Or.inl ⟨⟨stop, rfl⟩, hkept, rfl, ?_⟩⟩
      rintro ⟨event, hevent, hescapes⟩
      have hstart := (hevents event hevent).1
      rw [hescapes.1] at hstart
      cases hstart
  · have hrun : session limits addon c.1 w = (.ok guest, w) := by
      have hget : (Effect.get : Host EngineWorld) w = (.ok w, w) := rfl
      unfold session
      rw [Effect.bind_of_ok hget, hlive]
      rfl
    have hbody : attempt limits addon c.1 c.2 w = request limits addon c.1 guest c.2 w := Effect.bind_of_ok hrun
    obtain ⟨hlive', new, hnew, -, hdies⟩ := @onGuest_request limits addon guest c.1 c.2 w
    rw [hbody]
    refine ⟨new, hnew, nofun, Or.inr ⟨guest, ?_, hdies⟩⟩
    rw [hlive', ← hlive, Function.update_eq_self]

/-- The hook of a call drops the engine's instance after a typed failure, and changes nothing else. -/
theorem call_world (c : ReactorSpec × Bytes) (w : EngineWorld) :
    (call limits addon c.1 c.2 w).1 = (attempt limits addon c.1 c.2 w).1 ∧
      (call limits addon c.1 c.2 w).2.history = (attempt limits addon c.1 c.2 w).2.history ∧
      ((∃ failure, (attempt limits addon c.1 c.2 w).1 = .error (.fail failure)) ∧
          (call limits addon c.1 c.2 w).2.live =
            Function.update (attempt limits addon c.1 c.2 w).2.live c.1.name none ∨
        (¬ ∃ failure, (attempt limits addon c.1 c.2 w).1 = .error (.fail failure)) ∧
          (call limits addon c.1 c.2 w).2.live = (attempt limits addon c.1 c.2 w).2.live) := by
  unfold call tapError
  rcases attempt limits addon c.1 c.2 w with ⟨(failure | message) | output, w₁⟩
  · exact ⟨rfl, rfl, Or.inl ⟨⟨failure, rfl⟩, rfl⟩⟩
  · exact ⟨rfl, rfl, Or.inr ⟨by rintro ⟨_, ⟨⟩⟩, rfl⟩⟩
  · exact ⟨rfl, rfl, Or.inr ⟨by rintro ⟨_, ⟨⟩⟩, rfl⟩⟩

/-- A call leaves the other engines' instances. -/
theorem call_other (c : ReactorSpec × Bytes) (w : EngineWorld) {name : String} (h : name ≠ c.1.name) :
    (call limits addon c.1 c.2 w).2.live name = w.live name := by
  have hattempt : (attempt limits addon c.1 c.2 w).2.live name = w.live name := by
    obtain ⟨new, -, -, ⟨-, hlive, -, -⟩ | ⟨guest, hlive, -⟩⟩ := @attempt_spec limits
      addon c w
    · rw [hlive]
    · rw [hlive, Function.update_of_ne h]
  obtain ⟨-, -, ⟨-, hlive⟩ | ⟨-, hlive⟩⟩ := @call_world limits addon c w
  · rw [hlive, Function.update_of_ne h, hattempt]
  · rw [hlive, hattempt]

/-- A call that fails leaves no instance exactly when no exception escaped; a call that returns its
    result let none escape. -/
theorem call_kept (c : ReactorSpec × Bytes) (w : EngineWorld) :
    (Fails limits addon c w → ((call limits addon c.1 c.2 w).2.live c.1.name = none ↔
      ¬ ∃ event ∈ asks limits addon c w, event.Escapes)) ∧
    (¬ Fails limits addon c w → ¬ ∃ event ∈ asks limits addon c w, event.Escapes) := by
  obtain ⟨new, hnew, -, hcases⟩ := @attempt_spec limits addon c w
  obtain ⟨hresult, hhistory, hhook⟩ := @call_world limits addon c w
  have hasks : asks limits addon c w = new := by
    rw [asks, hhistory, hnew, List.drop_left]
  rw [hasks]
  unfold Fails
  rw [hresult]
  rcases hcases with ⟨⟨stop, hstop⟩, hlive, hnone, hquiet⟩ | ⟨guest, hlive, hdies⟩
  · -- no instance was live, and none was started
    refine ⟨fun _ => iff_of_true ?_ hquiet, fun h => absurd ⟨stop, hstop⟩ h⟩
    rcases hhook with ⟨-, hlive'⟩ | ⟨-, hlive'⟩
    · rw [hlive', Function.update_self]
    · rw [hlive', hlive, hnone]
  · rw [hdies]
    rcases hhook with ⟨⟨failure, hfailure⟩, hlive'⟩ | ⟨hother, hlive'⟩
    · have hnot : ¬ Dies (attempt limits addon c.1 c.2 w) := by
        rintro ⟨message, hmessage⟩
        rw [hfailure] at hmessage
        cases hmessage
      refine ⟨fun _ => iff_of_true ?_ hnot, fun _ => hnot⟩
      rw [hlive', Function.update_self]
    · constructor
      · rintro ⟨failure | message, hstop⟩
        · exact absurd ⟨failure, hstop⟩ hother
        · refine iff_of_false ?_ (not_not.mpr ⟨message, hstop⟩)
          rw [hlive', hlive, Function.update_self]
          exact Option.some_ne_none guest
      · rintro hok ⟨message, hmessage⟩
        exact hok ⟨_, hmessage⟩

/-- A call without a live instance runs on the one it starts. -/
theorem runsFresh_of_none {c : ReactorSpec × Bytes} {w : EngineWorld} (h : w.live c.1.name = none) :
    RunsFresh limits addon c w := by
  obtain ⟨new, hnew, hon, -⟩ := @attempt_spec limits addon c w
  have hasks : asks limits addon c w = new := by
    rw [asks, (call_world c w).2.1, hnew, List.drop_left]
  rw [RunsFresh, hasks]
  exact ⟨h, hon h⟩

/-- Calls of other engines leave an engine's instance. -/
theorem afterCalls_other {name : String} {calls : List (ReactorSpec × Bytes)}
    (h : ∀ c ∈ calls, c.1.name ≠ name) (w : EngineWorld) :
    (afterCalls limits addon w calls).live name = w.live name := by
  induction calls generalizing w with
  | nil => rfl
  | cons c calls ih =>
    obtain ⟨hc, hcalls⟩ := List.forall_mem_cons.mp h
    show (afterCalls limits addon (call limits addon c.1 c.2 w).2 calls).live name = _
    rw [ih hcalls, call_other c w hc.symm]

/-- In a sequence of calls, the next request to an engine after one that failed always runs on an
    instance that it starts, exactly when the addon throws out of no call of an export and no write
    of a request. -/
theorem fresh_after_failure_iff (limits : SandboxLimits) (addon : Addon) (w : EngineWorld)
    (calls : List (ReactorSpec × Bytes)) :
    (∀ done c rest, calls = done ++ c :: rest → Fails limits addon c (afterCalls limits addon w done) →
      ∀ others next, (∀ other ∈ others, other.1.name ≠ c.1.name) → next.1.name = c.1.name →
        RunsFresh limits addon next (afterCalls limits addon w (done ++ c :: others))) ↔
    ∀ done c rest, calls = done ++ c :: rest →
      ∀ event ∈ asks limits addon c (afterCalls limits addon w done), ¬ event.Escapes := by
  have hafter : ∀ done (c : ReactorSpec × Bytes) others,
      afterCalls limits addon w (done ++ c :: others) = afterCalls limits addon
        (call limits addon c.1 c.2 (afterCalls limits addon w done)).2 others := by
    intro done c others
    rw [afterCalls, List.foldl_append]
    rfl
  constructor
  · intro h done c rest hsplit event hevent hescapes
    obtain ⟨hfails, hreturns⟩ := @call_kept limits addon c
      (afterCalls limits addon w done)
    by_cases hfail : Fails limits addon c (afterCalls limits addon w done)
    · have hfresh := (h done c rest hsplit hfail [] c (by simp) rfl).1
      rw [hafter] at hfresh
      exact (hfails hfail).mp hfresh ⟨event, hevent, hescapes⟩
    · exact hreturns hfail ⟨event, hevent, hescapes⟩
  · intro h done c rest hsplit hfail others next hothers hnext
    have hquiet : ¬ ∃ event ∈ asks limits addon c (afterCalls limits addon w done), event.Escapes := by
      rintro ⟨event, hevent, hescapes⟩
      exact h done c rest hsplit event hevent hescapes
    have hnone := ((call_kept c (afterCalls limits addon w done)).1 hfail).mpr hquiet
    apply runsFresh_of_none
    rw [hafter, hnext, afterCalls_other hothers, hnone]

/-! ### An engine that fails and is used again -/

/-- An engine whose allocator answers with an address outside its memory. -/
def wildPointer : Addon where
  load _ := .ok ()
  instantiate _ _ _ := (0, .ok ())
  call _ _ _ _ _ := .ok (0, .ok [some 1024])
  write _ _ _ _ := .error "write: out of bounds memory access"
  read _ _ _ _ := .ok []

def kustomizeSpec : ReactorSpec :=
  { name := "kustomize-engine", abi := "kustomize", entry := "kustomize_build" }

def wideLimits : SandboxLimits :=
  { engineMemoryBytes := 64, engineFuel := 100, maxOutputBytes := 8 }

/-- The write to that address throws, and the next request runs on the same instance. -/
theorem failed_instance_reused :
    Fails wideLimits wildPointer (kustomizeSpec, [7]) {} ∧
      ¬ RunsFresh wideLimits wildPointer (kustomizeSpec, [7])
        (afterCalls wideLimits wildPointer {} [(kustomizeSpec, [7])]) ∧
      ∀ event ∈ asks wideLimits wildPointer (kustomizeSpec, [7])
        (afterCalls wideLimits wildPointer {} [(kustomizeSpec, [7])]), event.call.on = some 0 := by
  refine ⟨⟨_, rfl⟩, ?_, by decide⟩
  rintro ⟨hnone, -⟩
  exact absurd hnone (by decide)

end Reactor

end Akua
