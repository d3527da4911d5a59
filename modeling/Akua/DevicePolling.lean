import Akua.WorkspaceLookup
import Akua.Lib.Doubles
import Mathlib.Algebra.Order.Archimedean.Basic
import Mathlib.Tactic.Ring

/-! Asking for the token of a device login until there is one, or until the code has expired. Time is a
    rational number of milliseconds; what the program reads off its clock, and what it computes, are
    doubles. -/

namespace Akua.DeviceLogin

open Workspaces (struct key optionalKey string)

/-! ### Responses -/

/-- `Schema.Finite.check(Schema.isGreaterThan(0))` -/
structure PositiveFinite where
  value : ℚ
  positive : 0 < value
  rounded : Double.ofRat value = (value : WithTop ℚ)

/-- A number of the document, read as the double next to it. -/
def positiveFinite : Json → Option PositiveFinite
  | .number value =>
    if hvalue : 0 ≤ value then
      match h : Double.ofRat value with
      | ⊤ => none
      | (double : ℚ) => if hpositive : 0 < double then some ⟨double, hpositive, Double.ofRat_double hvalue h⟩ else none
    else none
  | _ => none

/-- `Schema.NonEmptyString` -/
def nonEmptyString (value : Json) : Option String := (string value).filter (· ≠ "")

structure DeviceCodeResponse where
  device_code : String
  user_code : String
  verification_uri : String
  verification_uri_complete : Option String
  expires_in : PositiveFinite
  interval : Option PositiveFinite

def decodeDeviceCode (value : Json) : Option DeviceCodeResponse := do
  let entries ← struct value
  let device_code ← key "device_code" nonEmptyString entries
  let user_code ← key "user_code" nonEmptyString entries
  let verification_uri ← key "verification_uri" nonEmptyString entries
  let verification_uri_complete ← optionalKey "verification_uri_complete" nonEmptyString entries
  let expires_in ← key "expires_in" positiveFinite entries
  let interval ← optionalKey "interval" positiveFinite entries
  some { device_code, user_code, verification_uri, verification_uri_complete, expires_in, interval }

def decodeDeviceToken (value : Json) : Option String := do
  let entries ← struct value
  key "access_token" nonEmptyString entries

def decodeDeviceError (value : Json) : Option String := do
  let entries ← struct value
  key "error" string entries

structure DeviceResponse where
  status : Nat
  body : Json

inductive Reason where
  | access_denied
  | expired_token

inductive Failure where
  | authorization (reason : Reason)
  | request

def parseDeviceCode (response : DeviceResponse) : Except Failure DeviceCodeResponse :=
  if response.status < 200 ∨ 300 ≤ response.status then .error .request
  else match decodeDeviceCode response.body with
    | none => .error .request
    | some device => .ok device

theorem nonEmptyString_string {text : String} (h : text ≠ "") : nonEmptyString (.string text) = some text := by
  simp [nonEmptyString, string, Option.filter, h]

theorem positiveFinite_number (number : PositiveFinite) : positiveFinite (.number number.value) = some number := by
  obtain ⟨value, hpositive, hrounded⟩ := number
  simp only [positiveFinite, dif_pos hpositive.le]
  split
  · rename_i h
    rw [hrounded] at h
    cases h
  · rename_i double h
    obtain rfl : value = double := WithTop.coe_injective (hrounded.symm.trans h)
    rw [dif_pos hpositive]

/-- A body that tells of a device code. -/
def DeviceCodeResponse.body (device : DeviceCodeResponse) : Json := .object
  ([("device_code", .string device.device_code), ("user_code", .string device.user_code),
      ("verification_uri", .string device.verification_uri), ("expires_in", .number device.expires_in.value)] ++
    (device.verification_uri_complete.map fun uri => ("verification_uri_complete", Json.string uri)).toList ++
    (device.interval.map fun interval => ("interval", Json.number interval.value)).toList)

/-- Every device code whose texts are not empty is one that a response brings. -/
theorem parseDeviceCode_body {device : DeviceCodeResponse} (hdevice : device.device_code ≠ "")
    (huser : device.user_code ≠ "") (huri : device.verification_uri ≠ "")
    (hcomplete : ∀ uri ∈ device.verification_uri_complete, uri ≠ "") :
    parseDeviceCode ⟨200, device.body⟩ = .ok device := by
  obtain ⟨device_code, user_code, verification_uri, complete, expires_in, interval⟩ := device
  have hdecode : decodeDeviceCode (DeviceCodeResponse.body
      ⟨device_code, user_code, verification_uri, complete, expires_in, interval⟩) =
        some ⟨device_code, user_code, verification_uri, complete, expires_in, interval⟩ := by
    have huri' : ∀ uri ∈ complete, nonEmptyString (.string uri) = some uri := fun uri hmem =>
      nonEmptyString_string (hcomplete uri hmem)
    cases complete <;> cases interval <;>
      simp_all [decodeDeviceCode, DeviceCodeResponse.body, struct, key, optionalKey, nonEmptyString_string,
        positiveFinite_number, List.lookup_cons]
  rw [parseDeviceCode, if_neg (show ¬ (200 < 200 ∨ 300 ≤ 200) by decide), hdecode]

/-- The token; none, when the status tells of an error. -/
def parseDeviceToken (response : DeviceResponse) : Except Failure (Option String) :=
  if response.status < 200 ∨ 300 ≤ response.status then .ok none
  else match decodeDeviceToken response.body with
    | none => .error .request
    | some token => .ok (some token)

def deviceError (response : DeviceResponse) : Option String := decodeDeviceError response.body

/-! ### Polling -/

/-- How a request goes. -/
structure Turn where
  /-- Nothing, when the request fails. -/
  reply : Option DeviceResponse
  /-- Until the reply arrives. -/
  delay : ℚ
  /-- What the sleep lasts beyond its duration. -/
  late : ℚ
  delay_nonneg : 0 ≤ delay
  late_nonneg : 0 ≤ late

def Turn.slowsDown (turn : Turn) : Bool := turn.reply.bind deviceError = some "slow_down"

/-- `Clock.currentTimeMillis` -/
def clock (time : ℚ) : Double := Double.ofRat ⌊time⌋

/-- A call of `pollForDeviceToken`. -/
structure Call where
  time : ℚ
  interval : Double

inductive Polled where
  | ended (result : Except Failure String)
  | again (call : Call)

/-- From the request of a call to its end, or to the next call. -/
def afterRequest (deadline : Double) (turn : Turn) (call : Call) : Polled :=
  match turn.reply with
  | none => .ended (.error .request)
  | some response =>
    match parseDeviceToken response with
    | .error failure => .ended (.error failure)
    | .ok (some token) => .ended (.ok token)
    | .ok none =>
      let error := deviceError response
      if error = some "access_denied" then .ended (.error (.authorization .access_denied))
      else if error = some "expired_token" then .ended (.error (.authorization .expired_token))
      else if error ≠ some "authorization_pending" ∧ error ≠ some "slow_down" then .ended (.error .request)
      else
        let nextInterval := if error = some "slow_down" then Double.add call.interval (5000 : ℚ) else call.interval
        if deadline ≤ Double.add (clock call.time) nextInterval then .ended (.error (.authorization .expired_token))
        else
          -- The sleep is finite: with the time it is less than the deadline.
          .again ⟨call.time + turn.delay + nextInterval.untopD 0 + turn.late, nextInterval⟩

/-- The calls that send a request, and the result. No result, when the fuel runs out. -/
def pollForDeviceToken (deadline : Double) : Nat → (Nat → Turn) → Call → List Call × Option (Except Failure String)
  | 0, _, _ => ([], none)
  | fuel + 1, turns, call =>
    if deadline ≤ clock call.time then ([], some (.error (.authorization .expired_token)))
    else match afterRequest deadline (turns 0) call with
      | .ended result => ([call], some result)
      | .again next =>
        let rest := pollForDeviceToken deadline fuel (fun n => turns (n + 1)) next
        (call :: rest.1, rest.2)

/-- The course of a login: when the code arrives, when the polling starts, and how each request goes. -/
structure Course where
  startedAt : ℚ
  polledAt : ℚ
  turns : Nat → Turn
  startedAt_nonneg : 0 ≤ startedAt
  startedAt_le : startedAt ≤ polledAt

def DeviceCodeResponse.deadline (device : DeviceCodeResponse) (course : Course) : Double :=
  Double.add (clock course.startedAt) (Double.mul device.expires_in.value 1000)

def DeviceCodeResponse.firstInterval (device : DeviceCodeResponse) : Double :=
  Double.mul ((device.interval.map PositiveFinite.value).getD 5) 1000

/-- The polling of `completeDeviceLogin`. -/
def completeDeviceLogin (device : DeviceCodeResponse) (course : Course) (fuel : Nat) :
    List Call × Option (Except Failure String) :=
  pollForDeviceToken (device.deadline course) fuel course.turns ⟨course.polledAt, device.firstInterval⟩

/-! ### The limits -/

/-- What a call has to do with the one before, `plus` being what a `slow_down` does to the interval. -/
structure Follows (plus : Double → Double) (turn : Turn) (call next : Call) : Prop where
  apart : ∃ interval : ℚ, next.interval = (interval : WithTop ℚ) ∧ call.time + interval ≤ next.time
  grows : next.interval = if turn.slowsDown then plus call.interval else call.interval
  never_shrinks : call.interval ≤ next.interval

structure Limits (plus : Double → Double) (device : DeviceCodeResponse) (course : Course) : Prop where
  in_time : ∀ fuel, ∀ call ∈ (completeDeviceLogin device course fuel).1, clock call.time < device.deadline course
  consecutive : ∀ fuel n call next, (completeDeviceLogin device course fuel).1[n]? = some call →
    (completeDeviceLogin device course fuel).1[n + 1]? = some next → Follows plus (course.turns n) call next
  /-- A finite deadline is over once the sleeps, the least double long at least, add up to it. -/
  ends_by : ∀ last : ℚ, device.deadline course = (last : WithTop ℚ) → ∀ fuel : ℕ,
    last + 1 ≤ fuel * Double.least → (completeDeviceLogin device course (fuel + 1)).2.isSome
  ends : ∃ fuel, (completeDeviceLogin device course fuel).2.isSome

/-! ### One call -/

/-- What the calls keep. -/
structure Call.Sound (call : Call) : Prop where
  time_nonneg : 0 ≤ call.time
  rounded : Double.Rounded call.interval
  least_le : (Double.least : WithTop ℚ) ≤ call.interval

/-- The interval after a reply. -/
def Turn.nextInterval (turn : Turn) (interval : Double) : Double :=
  if turn.slowsDown then Double.add interval (5000 : ℚ) else interval

theorem afterRequest_again {deadline : Double} {turn : Turn} {call next : Call}
    (h : afterRequest deadline turn call = .again next) :
    next.interval = turn.nextInterval call.interval ∧
      next.time = call.time + turn.delay + next.interval.untopD 0 + turn.late ∧
      Double.add (clock call.time) next.interval < deadline := by
  cases hreply : turn.reply with
  | none => simp [afterRequest, hreply] at h
  | some response =>
    have hslow : turn.slowsDown = decide (deviceError response = some "slow_down") := by
      rw [Turn.slowsDown, hreply]
      rfl
    rw [afterRequest, hreply] at h
    dsimp only at h
    cases htoken : parseDeviceToken response with
    | error failure => simp [htoken] at h
    | ok token =>
      cases token with
      | some token => simp [htoken] at h
      | none =>
        rw [htoken] at h
        dsimp only at h
        split_ifs at h with hdenied hexpired hother hslowed hlate hlate
        · injection h with h
          subst h
          exact ⟨by simp [Turn.nextInterval, hslow, hslowed], rfl, lt_of_not_ge hlate⟩
        · injection h with h
          subst h
          exact ⟨by simp [Turn.nextInterval, hslow, hslowed], rfl, lt_of_not_ge hlate⟩

theorem le_nextInterval (turn : Turn) {interval : Double} (h : Double.Rounded interval) :
    interval ≤ turn.nextInterval interval := by
  rw [Turn.nextInterval]
  split_ifs
  · exact Double.le_add h (by norm_num)
  · exact le_rfl

theorem rounded_nextInterval (turn : Turn) {interval : Double} (h : Double.Rounded interval) :
    Double.Rounded (turn.nextInterval interval) := by
  rw [Turn.nextInterval]
  split_ifs
  · exact Double.rounded_add h (by norm_num)
  · exact h

/-- One call keeps what the calls keep, and the next one is late enough. -/
theorem again_step {deadline : Double} {turn : Turn} {call next : Call} (hsound : call.Sound)
    (h : afterRequest deadline turn call = .again next) :
    next.Sound ∧ Follows (Double.add · (5000 : ℚ)) turn call next := by
  obtain ⟨hinterval, htime, hbefore⟩ := afterRequest_again h
  have hle : call.interval ≤ next.interval := hinterval ▸ le_nextInterval turn hsound.rounded
  have hleast := hsound.least_le.trans hle
  have hfinite : next.interval ≠ ⊤ := by
    intro htop
    rw [htop, Double.add_top] at hbefore
    exact absurd hbefore not_top_lt
  obtain ⟨interval, heq⟩ := WithTop.ne_top_iff_exists.mp hfinite
  have hpositive : 0 ≤ interval := by
    rw [← heq] at hleast
    exact Double.least_pos.le.trans (WithTop.coe_le_coe.mp hleast)
  rw [← heq, WithTop.untopD_coe] at htime
  have hlate := turn.late_nonneg
  have hdelay := turn.delay_nonneg
  have htimes := hsound.time_nonneg
  refine ⟨⟨by linarith, hinterval ▸ rounded_nextInterval turn hsound.rounded, hleast⟩, ?_, hinterval, hle⟩
  exact ⟨interval, heq.symm, by linarith⟩

/-! ### The calls of a login -/

section Polling

variable {deadline : Double}

theorem poll_head (fuel : Nat) (turns : Nat → Turn) (call next : Call)
    (h : (pollForDeviceToken deadline fuel turns call).1[0]? = some next) : next = call := by
  cases fuel with
  | zero => simp [pollForDeviceToken] at h
  | succ fuel =>
    rw [pollForDeviceToken] at h
    split_ifs at h with hlate
    · simp at h
    · split at h
      · simpa using h.symm
      · simpa using h.symm

theorem poll_in_time (fuel : Nat) (turns : Nat → Turn) (first : Call) :
    ∀ call ∈ (pollForDeviceToken deadline fuel turns first).1, clock call.time < deadline := by
  induction fuel generalizing turns first with
  | zero => simp [pollForDeviceToken]
  | succ fuel ih =>
    rw [pollForDeviceToken]
    split_ifs with hlate
    · simp
    · have hfirst := lt_of_not_ge hlate
      split
      · simpa using hfirst
      · simpa using ⟨hfirst, ih _ _⟩

theorem poll_consecutive (fuel : Nat) (turns : Nat → Turn) (first : Call) (hsound : first.Sound) (n : Nat)
    (call next : Call) (hcall : (pollForDeviceToken deadline fuel turns first).1[n]? = some call)
    (hnext : (pollForDeviceToken deadline fuel turns first).1[n + 1]? = some next) :
    Follows (Double.add · (5000 : ℚ)) (turns n) call next := by
  induction fuel generalizing turns first n with
  | zero => simp [pollForDeviceToken] at hcall
  | succ fuel ih =>
    rw [pollForDeviceToken] at hcall hnext
    split_ifs at hcall hnext with hlate
    · simp at hcall
    · cases hagain : afterRequest deadline (turns 0) first with
      | ended result => simp [hagain] at hnext
      | again second =>
        obtain ⟨hsecond, hfollows⟩ := again_step hsound hagain
        simp only [hagain, List.getElem?_cons_succ] at hcall hnext
        cases n with
        | zero =>
          obtain rfl : first = call := by simpa using hcall
          rw [poll_head _ _ _ _ hnext]
          exact hfollows
        | succ n => exact ih _ second hsecond n (by simpa using hcall) hnext

theorem power_le_floor {n : ℕ} {time : ℚ} (h : 2 ^ n ≤ time) : (2 : ℚ) ^ n ≤ ⌊time⌋ := by
  have hfloor : (2 ^ n : ℤ) ≤ ⌊time⌋ := Int.le_floor.mpr (by exact_mod_cast h)
  exact_mod_cast hfloor

/-- The clock does not fall behind a double. -/
theorem clock_reaches {last time : ℚ} (hlast : 0 ≤ last) (hrounded : Double.ofRat last = (last : WithTop ℚ))
    (htime : last + 1 ≤ time) : (last : WithTop ℚ) ≤ clock time := by
  have hfloor : last ≤ ⌊time⌋ := by
    have := Int.lt_floor_add_one time
    linarith
  rw [← hrounded]
  exact Double.ofRat_mono hlast hfloor

/-- At the end of the clock every deadline is over. -/
theorem clock_top {time : ℚ} (htime : 2 ^ 1024 ≤ time) : clock time = ⊤ :=
  Double.ofRat_eq_top (power_le_floor htime)

/-- Every sleep brings the time nearer from which on the deadline is over. -/
theorem poll_ends {limit : ℚ} (hover : ∀ time, limit ≤ time → deadline ≤ clock time) (k : Nat) (turns : Nat → Turn)
    (call : Call) (hsound : call.Sound) (htime : limit ≤ call.time + k * Double.least) :
    (pollForDeviceToken deadline (k + 1) turns call).2.isSome := by
  induction k generalizing turns call with
  | zero =>
    rw [Nat.cast_zero, zero_mul, add_zero] at htime
    rw [pollForDeviceToken, if_pos (hover _ htime)]
    rfl
  | succ k ih =>
    rw [pollForDeviceToken]
    split_ifs with hlate
    · rfl
    · cases hagain : afterRequest deadline (turns 0) call with
      | ended result => rfl
      | again next =>
        obtain ⟨hnext, hfollows⟩ := again_step hsound hagain
        obtain ⟨interval, heq, hapart⟩ := hfollows.apart
        have hleast : Double.least ≤ interval := WithTop.coe_le_coe.mp (heq ▸ hnext.least_le)
        refine ih _ next hnext (htime.trans ?_)
        rw [Nat.cast_succ]
        linarith only [hapart, hleast]

end Polling

/-- The first call, whose interval is a thousand times a double. -/
theorem first_sound (device : DeviceCodeResponse) (course : Course) :
    Call.Sound ⟨course.polledAt, device.firstInterval⟩ := by
  have hleast : Double.least ≤ (device.interval.map PositiveFinite.value).getD 5 := by
    cases device.interval with
    | none =>
      exact Double.least_le (by norm_num)
        (Double.ofRat_exact (n := 5) (j := 0) (by norm_num) (by norm_num) (by norm_num) (by norm_num))
    | some interval => exact Double.least_le interval.positive interval.rounded
  have hpositive := Double.least_pos
  refine ⟨course.startedAt_nonneg.trans course.startedAt_le, Double.rounded_ofRat (by linarith), ?_⟩
  calc
    (Double.least : WithTop ℚ) = Double.ofRat Double.least := Double.ofRat_least.symm
    _ ≤ device.firstInterval := Double.ofRat_mono hpositive.le (by linarith)

/-- The deadline is a double, not before the start of time. -/
theorem deadline_rounded (device : DeviceCodeResponse) (course : Course) {last : ℚ}
    (h : device.deadline course = (last : WithTop ℚ)) :
    0 ≤ last ∧ Double.ofRat last = (last : WithTop ℚ) := by
  have hclock : Double.Rounded (clock course.startedAt) :=
    Double.rounded_ofRat (by exact_mod_cast Int.floor_nonneg.mpr course.startedAt_nonneg)
  have hproduct : Double.Rounded (Double.mul device.expires_in.value 1000) :=
    Double.rounded_ofRat (mul_nonneg device.expires_in.positive.le (by norm_num))
  have hdeadline : Double.Rounded (device.deadline course) := by
    rw [DeviceCodeResponse.deadline]
    match Double.mul device.expires_in.value 1000, hproduct with
    | ⊤, _ =>
      rw [Double.add_top]
      trivial
    | (product : ℚ), ⟨hnonneg, _⟩ => exact Double.rounded_add hclock hnonneg
  rw [h] at hdeadline
  exact hdeadline

/-- Whatever is answered when, polling respects its limits; a `slow_down` makes the interval the double
    next to five seconds more, and five seconds more exactly where it is a whole number that is not huge. -/
theorem polling_limits (device : DeviceCodeResponse) (course : Course) :
    Limits (Double.add · (5000 : ℚ)) device course ∧
      ∀ interval : ℕ, interval + 5000 ≤ 2 ^ 53 →
        Double.add (interval : ℚ) (5000 : ℚ) = ((interval + 5000 : ℚ) : WithTop ℚ) := by
  have hfirst := first_sound device course
  refine ⟨⟨fun fuel => poll_in_time fuel _ _, fun fuel n call next => poll_consecutive fuel _ _ hfirst n call next,
    fun last hlast fuel hfuel => ?_, ?_⟩, ?_⟩
  · obtain ⟨hnonneg, hrounded⟩ := deadline_rounded device course hlast
    refine poll_ends (fun time htime => ?_) fuel _ _ hfirst (hfuel.trans (le_add_of_nonneg_left hfirst.time_nonneg))
    rw [hlast]
    exact clock_reaches hnonneg hrounded htime
  · obtain ⟨k, hk⟩ := Archimedean.arch (2 ^ 1024 : ℚ) Double.least_pos
    rw [nsmul_eq_mul] at hk
    have hover : ∀ time : ℚ, 2 ^ 1024 ≤ time → device.deadline course ≤ clock time := fun time htime =>
      clock_top htime ▸ le_top
    exact ⟨k + 1, poll_ends hover k _ _ hfirst (hk.trans (le_add_of_nonneg_left hfirst.time_nonneg))⟩
  · intro interval hinterval
    exact Double.add_natCast (n := 5000) hinterval

/-! ### An interval that does not grow -/

/-- A power of two, as a number of seconds. -/
def power (n : ℕ) (h : n < 971) : PositiveFinite where
  value := 2 ^ n
  positive := by positivity
  rounded := Double.ofRat_exact (n := 1) (j := n) (by simp) (by norm_num) (by omega) (by omega)

/-- A code that may be asked for only every 36 thousand million years. -/
def patient : DeviceCodeResponse where
  device_code := "device"
  user_code := "user"
  verification_uri := "https://auth.example"
  verification_uri_complete := none
  expires_in := power 70 (by norm_num)
  interval := some (power 60 (by norm_num))

def slowDown : DeviceResponse := ⟨400, .object [("error", .string "slow_down")]⟩

/-- Every reply is a `slow_down`. -/
def slowed : Course where
  startedAt := 2 ^ 40
  polledAt := 2 ^ 40
  turns _ := ⟨some slowDown, 0, 0, le_rfl, le_rfl⟩
  startedAt_nonneg := by positivity
  startedAt_le := le_rfl

theorem clock_exact {time : ℚ} {n j : ℕ} (htime : time = n * 2 ^ j) (hn : n ≤ 2 ^ 53) (hj : j < 971) :
    clock time = (time : WithTop ℚ) := by
  have hfloor : (⌊time⌋ : ℚ) = time := by
    have : time = (n * 2 ^ j : ℤ) := by exact_mod_cast htime
    rw [this, Int.floor_intCast]
  rw [clock, hfloor]
  exact Double.ofRat_exact (j := j) (by exact_mod_cast htime) hn (by omega) (by omega)

theorem clock_slowed : clock (2 ^ 40) = ((2 ^ 40 : ℚ) : WithTop ℚ) :=
  clock_exact (n := 1) (j := 40) (by norm_num) (by norm_num) (by norm_num)

theorem deadline_patient : patient.deadline slowed = ((2 ^ 40 + 2 ^ 70 * 1000 : ℚ) : WithTop ℚ) := by
  have hproduct : Double.mul (2 ^ 70) 1000 = ((2 ^ 70 * 1000 : ℚ) : WithTop ℚ) :=
    Double.ofRat_exact (n := 1000) (j := 70) (by norm_num) (by norm_num) (by norm_num) (by norm_num)
  calc
    patient.deadline slowed = Double.add (clock (2 ^ 40)) (Double.mul (2 ^ 70) 1000) := rfl
    _ = Double.ofRat (2 ^ 40 + 2 ^ 70 * 1000) := by rw [clock_slowed, hproduct]; rfl
    _ = ((2 ^ 40 + 2 ^ 70 * 1000 : ℚ) : WithTop ℚ) := Double.ofRat_exact (n := 2 ^ 13 + 125 * 2 ^ 46) (j := 27)
      (by norm_num) (by norm_num) (by norm_num) (by norm_num)

theorem firstInterval_patient : patient.firstInterval = ((2 ^ 60 * 1000 : ℚ) : WithTop ℚ) := by
  have hproduct : patient.firstInterval = Double.ofRat (2 ^ 60 * 1000) := rfl
  rw [hproduct]
  exact Double.ofRat_exact (n := 1000) (j := 60) (by norm_num) (by norm_num) (by norm_num) (by norm_num)

/-- Five seconds are less than half the distance to the next double. -/
theorem slowed_patient : Double.add patient.firstInterval (5000 : ℚ) = patient.firstInterval := by
  have hnearest : Double.nearest (2 ^ 60 * 1000 + 5000) = 2 ^ 60 * 1000 := by
    have := Double.nearest_below (x := 2 ^ 60 * 1000 + 5000) (e := 17) (n := 125 * 2 ^ 46) (by norm_num) (by norm_num)
      (by norm_num) (by norm_num) (by norm_num)
    rw [this]
    norm_num
  rw [firstInterval_patient]
  exact Double.ofRat_of_nearest hnearest firstInterval_patient

/-- The second request, long before the deadline. -/
def second : Call := ⟨2 ^ 40 + 2 ^ 60 * 1000, patient.firstInterval⟩

theorem clock_second : clock second.time = ((2 ^ 40 + 2 ^ 60 * 1000 : ℚ) : WithTop ℚ) :=
  clock_exact (n := 2 ^ 23 + 125 * 2 ^ 46) (j := 17) (by norm_num [second]) (by norm_num) (by norm_num)

theorem patient_again :
    afterRequest (patient.deadline slowed) (slowed.turns 0) ⟨2 ^ 40, patient.firstInterval⟩ = .again second := by
  have hsum : Double.add (clock (2 ^ 40)) patient.firstInterval = ((2 ^ 40 + 2 ^ 60 * 1000 : ℚ) : WithTop ℚ) := by
    rw [clock_slowed, firstInterval_patient]
    exact Double.ofRat_exact (n := 2 ^ 23 + 125 * 2 ^ 46) (j := 17) (by norm_num) (by norm_num) (by norm_num) (by norm_num)
  have hbefore : ¬ patient.deadline slowed ≤ Double.add (clock (2 ^ 40)) patient.firstInterval := by
    rw [hsum, deadline_patient, WithTop.coe_le_coe]
    norm_num
  have hslept : (2 ^ 40 + 0 + patient.firstInterval.untopD 0 + 0 : ℚ) = second.time := by
    rw [firstInterval_patient, WithTop.untopD_coe, add_zero, add_zero]
    rfl
  have htoken : parseDeviceToken slowDown = .ok none := rfl
  have herror : deviceError slowDown = some "slow_down" := rfl
  have hreply : (slowed.turns 0).reply = some slowDown := rfl
  rw [afterRequest, hreply]
  dsimp only
  rw [htoken]
  dsimp only
  rw [herror, if_neg (by decide), if_neg (by decide), if_neg (by decide), if_pos rfl, slowed_patient, if_neg hbefore]
  exact congrArg (fun time => Polled.again ⟨time, patient.firstInterval⟩) hslept

/-- The interval of the second request is not five seconds more. -/
theorem five_seconds_lost : ¬ Limits (· + (5000 : ℚ)) patient slowed := by
  intro h
  have hfirst : ¬ patient.deadline slowed ≤ clock (2 ^ 40) := by
    rw [clock_slowed, deadline_patient, WithTop.coe_le_coe]
    norm_num
  have hsecond : ¬ patient.deadline slowed ≤ clock second.time := by
    rw [clock_second, deadline_patient, WithTop.coe_le_coe]
    norm_num
  obtain ⟨rest, hcalls⟩ : ∃ rest, (completeDeviceLogin patient slowed 2).1 =
      ⟨2 ^ 40, patient.firstInterval⟩ :: second :: rest := by
    have hrest : ∃ rest, (pollForDeviceToken (patient.deadline slowed) 1 (fun n => slowed.turns (n + 1)) second).1 =
        second :: rest := by
      rw [pollForDeviceToken, if_neg hsecond]
      split <;> exact ⟨_, rfl⟩
    obtain ⟨rest, hrest⟩ := hrest
    refine ⟨rest, ?_⟩
    have hpolled : slowed.polledAt = 2 ^ 40 := rfl
    rw [completeDeviceLogin, pollForDeviceToken, hpolled, if_neg hfirst, patient_again, ← hrest]
  have hgrows := (h.consecutive 2 0 _ _ (by rw [hcalls]; rfl) (by rw [hcalls]; rfl)).grows
  have hmore : patient.firstInterval = patient.firstInterval + (5000 : ℚ) := hgrows
  rw [firstInterval_patient, ← WithTop.coe_add, WithTop.coe_inj] at hmore
  norm_num at hmore

end Akua.DeviceLogin
