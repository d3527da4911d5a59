import Akua.Docstrings

/-! The durations of `--timeout`, written the way Go writes them: a number and a unit. The text is cut at
    its first ASCII letter, and the number is read and multiplied in 64 bits. -/

namespace Akua.Rust

/-- `std::time::Duration`. -/
structure Duration where
  secs : UInt64
  nanos : Fin 1000000000
deriving DecidableEq

namespace Duration

/-- A duration in nanoseconds. -/
def total (d : Duration) : Nat := d.secs.toNat * 1000000000 + d.nanos

/-- `n` parts of a second, `each` of so many nanoseconds. -/
def ofParts (perSecond each : Nat) (h : perSecond * each = 1000000000) (n : UInt64) : Duration where
  secs := UInt64.ofNat (n.toNat / perSecond)
  nanos := ⟨n.toNat % perSecond * each, by
    have hsecond : 0 < perSecond * each := by omega
    calc n.toNat % perSecond * each
      _ < perSecond * each :=
          Nat.mul_lt_mul_of_pos_right (Nat.mod_lt _ (Nat.pos_of_mul_pos_right hsecond)) (Nat.pos_of_mul_pos_left hsecond)
      _ = 1000000000 := h⟩

def fromNanos : UInt64 → Duration := ofParts 1000000000 1 rfl
def fromMicros : UInt64 → Duration := ofParts 1000000 1000 rfl
def fromMillis : UInt64 → Duration := ofParts 1000 1000000 rfl
def fromSecs (n : UInt64) : Duration := ⟨n, 0⟩

end Duration

/-! ### Reading -/

/-- The units that are matched on; microseconds are written `us` or `µs`. -/
inductive TimeUnit where
  | ns
  | us
  | micro
  | ms
  | s
  | m
  | h
deriving DecidableEq

namespace TimeUnit

def all : List TimeUnit := [ns, us, micro, ms, s, m, h]

def text : TimeUnit → List Char
  | ns => "ns".toList
  | us => "us".toList
  | micro => "µs".toList
  | ms => "ms".toList
  | s => "s".toList
  | m => "m".toList
  | h => "h".toList

end TimeUnit

/-- A multiplication in 64 bits; it panics on overflow where the build checks for it, and wraps
    elsewhere. -/
def times (checks : Bool) (a b : UInt64) : Option UInt64 :=
  if checks ∧ 2 ^ 64 ≤ a.toNat * b.toNat then none else some (a * b)

/-- The arm of each unit. -/
def TimeUnit.duration (checks : Bool) (n : UInt64) : TimeUnit → Option Duration
  | ns => some (.fromNanos n)
  | us | micro => some (.fromMicros n)
  | ms => some (.fromMillis n)
  | s => some (.fromSecs n)
  | m => (times checks n 60).map .fromSecs
  | h => ((times checks n 60).bind fun minutes => times checks minutes 60).map .fromSecs

/-- The digits of a `u64`, behind what is read already. -/
def digitsFrom : Nat → List Char → Except String UInt64
  | n, [] => .ok (UInt64.ofNat n)
  | n, c :: cs =>
    if c.isDigit then
      let n := 10 * n + (c.toNat - '0'.toNat)
      if n < 2 ^ 64 then digitsFrom n cs else .error "number too large to fit in target type"
    else .error "invalid digit found in string"

/-- `str::parse::<u64>`. -/
def parseU64 (text : List Char) : Except String UInt64 :=
  if text = [] then .error "cannot parse integer from empty string"
  else if text = ['+'] then .error "invalid digit found in string"
  else digitsFrom 0 (if text.head? = some '+' then text.tail else text)

inductive DurationOutcome where
  | ok (d : Duration)
  | err (message : String)
  | panicked
deriving DecidableEq

/-- Parse a Go-style duration. -/
def parseGoDuration (checks : Bool) (s : List Char) : DurationOutcome :=
  let s := trim s
  if s = [] then .err "empty duration"
  else
    let num := s.takeWhile fun c => !c.isAlpha
    let unit := s.dropWhile fun c => !c.isAlpha
    if unit = [] then .err s!"missing unit in `{String.ofList s}` (expected one of ns/us/ms/s/m/h)"
    else
      match parseU64 num with
      | .error e => .err s!"invalid number `{String.ofList num}` in `{String.ofList s}`: {e}"
      | .ok n =>
        match TimeUnit.all.find? fun known => known.text = unit with
        | none => .err s!"unknown unit `{String.ofList unit}` in `{String.ofList s}` (expected ns/us/ms/s/m/h)"
        | some known =>
          match known.duration checks n with
          | some d => .ok d
          | none => .panicked

/-! ### What the texts mean -/

namespace Duration

/-- What a duration can hold. -/
def Fits (total : Nat) : Prop := total < 2 ^ 64 * 1000000000

theorem total_injective {d e : Duration} (h : d.total = e.total) : d = e := by
  obtain ⟨secs, nanos⟩ := d
  obtain ⟨secs', nanos'⟩ := e
  have hd := nanos.isLt
  have he := nanos'.isLt
  simp only [total] at h
  have hsecs : secs = secs' := UInt64.toNat_inj.mp (by omega)
  have hnanos : nanos = nanos' := Fin.ext (by omega)
  rw [hsecs, hnanos]

theorem fits_total (d : Duration) : Fits d.total := by
  have hsecs := d.secs.toNat_lt
  have hnanos := d.nanos.isLt
  simp only [Fits, total]
  omega

theorem exists_total_iff {total : Nat} : (∃ d : Duration, d.total = total) ↔ Fits total := by
  constructor
  · rintro ⟨d, rfl⟩
    exact d.fits_total
  · intro h
    have hsecs : total / 1000000000 < 2 ^ 64 := Nat.div_lt_of_lt_mul (by rwa [Nat.mul_comm])
    refine ⟨⟨UInt64.ofNat (total / 1000000000), ⟨total % 1000000000, Nat.mod_lt _ (by omega)⟩⟩, ?_⟩
    simp only [Duration.total, UInt64.toNat_ofNat_of_lt' hsecs]
    omega

theorem total_ofParts {perSecond each : Nat} (h : perSecond * each = 1000000000) (n : UInt64) :
    (ofParts perSecond each h n).total = n.toNat * each := by
  have hn : n.toNat / perSecond < 2 ^ 64 := (Nat.div_le_self _ _).trans_lt n.toNat_lt
  calc (ofParts perSecond each h n).total
    _ = n.toNat / perSecond * 1000000000 + n.toNat % perSecond * each := by
        simp only [total, ofParts, UInt64.toNat_ofNat_of_lt' hn]
    _ = (perSecond * (n.toNat / perSecond) + n.toNat % perSecond) * each := by
        rw [← h, Nat.add_mul, ← Nat.mul_assoc, Nat.mul_comm perSecond]
    _ = n.toNat * each := by rw [Nat.div_add_mod]

theorem total_fromSecs (n : UInt64) : (fromSecs n).total = n.toNat * 1000000000 := by
  simp [total, fromSecs]

end Duration

/-- The nanoseconds of a unit. -/
def TimeUnit.nanos : TimeUnit → Nat
  | ns => 1
  | us | micro => 1000
  | ms => 1000000
  | s => 1000000000
  | m => 60 * 1000000000
  | h => 60 * 60 * 1000000000

/-- Decimal digits and a unit. -/
structure Form (text digits : List Char) (unit : TimeUnit) : Prop where
  text_eq : text = digits ++ unit.text
  ne_nil : digits ≠ []
  isDigit : ∀ c ∈ digits, c.isDigit = true

def decimal (digits : List Char) : Nat := Nat.ofDigitChars 10 digits 0

/-- The trimmed text is digits and a unit, and comes to so many nanoseconds. -/
def Denotes (s : List Char) (total : Nat) : Prop :=
  ∃ digits unit, Form (trim s) digits unit ∧ total = decimal digits * unit.nanos

/-! ### Multiplications -/

theorem times_of_lt {checks : Bool} {a b : UInt64} (h : a.toNat * b.toNat < 2 ^ 64) :
    times checks a b = some (a * b) := by
  rw [times, if_neg fun hover => absurd hover.2 (by omega)]

theorem times_true {a b c : UInt64} (h : times true a b = some c) :
    a.toNat * b.toNat < 2 ^ 64 ∧ c.toNat = a.toNat * b.toNat := by
  rw [times] at h
  split at h
  · cases h
  · rename_i hover
    have hlt : a.toNat * b.toNat < 2 ^ 64 := by simpa using hover
    obtain rfl := Option.some.inj h
    exact ⟨hlt, by rw [UInt64.toNat_mul, Nat.mod_eq_of_lt hlt]⟩

theorem toNat_mul_sixty {n : UInt64} (h : n.toNat * 60 < 2 ^ 64) : (n * 60).toNat = n.toNat * 60 := by
  rw [UInt64.toNat_mul]
  exact Nat.mod_eq_of_lt h

theorem times_sixty {checks : Bool} {n : UInt64} (h : n.toNat * 60 < 2 ^ 64) : times checks n 60 = some (n * 60) :=
  times_of_lt h

/-- A number of units that a duration holds is made without an overflow. -/
theorem duration_of_fits {c : Bool} {n : UInt64} {unit : TimeUnit}
    (h : Duration.Fits (n.toNat * unit.nanos)) :
    ∃ d, unit.duration c n = some d ∧ d.total = n.toNat * unit.nanos := by
  cases unit with
  | ns => exact ⟨_, rfl, Duration.total_ofParts _ n⟩
  | us => exact ⟨_, rfl, Duration.total_ofParts _ n⟩
  | micro => exact ⟨_, rfl, Duration.total_ofParts _ n⟩
  | ms => exact ⟨_, rfl, Duration.total_ofParts _ n⟩
  | s => exact ⟨_, rfl, Duration.total_fromSecs n⟩
  | m =>
    have hlt : n.toNat * 60 < 2 ^ 64 := by
      simp only [Duration.Fits, TimeUnit.nanos] at h
      omega
    refine ⟨.fromSecs (n * 60), by rw [TimeUnit.duration, times_sixty hlt, Option.map_some], ?_⟩
    rw [Duration.total_fromSecs, toNat_mul_sixty hlt, TimeUnit.nanos, Nat.mul_assoc]
  | h =>
    have hlt : n.toNat * 60 < 2 ^ 64 ∧ n.toNat * 60 * 60 < 2 ^ 64 := by
      simp only [Duration.Fits, TimeUnit.nanos] at h
      omega
    have hminutes := toNat_mul_sixty hlt.1
    have hhours : (n * 60).toNat * 60 < 2 ^ 64 := by rw [hminutes]; exact hlt.2
    refine ⟨.fromSecs (n * 60 * 60), ?_, ?_⟩
    · rw [TimeUnit.duration, times_sixty hlt.1, Option.bind_some, times_sixty hhours, Option.map_some]
    · rw [Duration.total_fromSecs, toNat_mul_sixty hhours, hminutes, TimeUnit.nanos, Nat.mul_assoc, Nat.mul_assoc,
        Nat.mul_assoc]

/-- Where no overflow is found, the duration holds the number of units. -/
theorem fits_of_duration {n : UInt64} {unit : TimeUnit} {d : Duration} (h : unit.duration true n = some d) :
    Duration.Fits (n.toNat * unit.nanos) := by
  have hn := n.toNat_lt
  cases unit with
  | m =>
    obtain ⟨secs, hsecs, -⟩ := Option.map_eq_some_iff.mp h
    have hlt : n.toNat * 60 < 2 ^ 64 := (times_true hsecs).1
    simp only [Duration.Fits, TimeUnit.nanos]
    omega
  | h =>
    obtain ⟨secs, hsecs, -⟩ := Option.map_eq_some_iff.mp h
    obtain ⟨minutes, hminutes, hhours⟩ := Option.bind_eq_some_iff.mp hsecs
    have hfirst : minutes.toNat = n.toNat * 60 := (times_true hminutes).2
    have hlt : minutes.toNat * 60 < 2 ^ 64 := (times_true hhours).1
    simp only [Duration.Fits, TimeUnit.nanos]
    omega
  | ns | us | micro | ms | s =>
    simp only [Duration.Fits, TimeUnit.nanos]
    omega

/-! ### How the text is cut -/

theorem isAlpha_of_isDigit {c : Char} (h : c.isDigit = true) : c.isAlpha = false := by
  have hdigit := Text.isDigit_iff.mp h
  have hupper : ¬ c.isUpper = true := fun hc => by
    have := Text.isUpper_iff.mp hc
    omega
  have hlower : ¬ c.isLower = true := fun hc => by
    have := Text.isLower_iff.mp hc
    omega
  exact Bool.or_eq_false_iff.mpr ⟨Bool.eq_false_iff.mpr hupper, Bool.eq_false_iff.mpr hlower⟩

theorem TimeUnit.text_injective {a b : TimeUnit} (h : a.text = b.text) : a = b := by
  cases a <;> cases b <;> first | rfl | cases h

/-- Every unit but `µs` begins with a letter. -/
theorem TimeUnit.text_head {unit : TimeUnit} (h : unit ≠ .micro) : ∃ c cs, unit.text = c :: cs ∧ c.isAlpha = true := by
  cases unit with
  | micro => exact absurd rfl h
  | ns | us | ms | s | m | h => exact ⟨_, _, rfl, rfl⟩

theorem TimeUnit.find?_text (unit : TimeUnit) :
    (TimeUnit.all.find? fun known => known.text = unit.text) = some unit := by
  cases unit <;> rfl

/-- No unit begins with a digit. -/
theorem TimeUnit.text_not_digit (unit : TimeUnit) : ∃ c cs, unit.text = c :: cs ∧ c.isDigit = false := by
  cases unit <;> exact ⟨_, _, rfl, rfl⟩

theorem span_of_head {p : Char → Bool} {l r : List Char} (hl : ∀ c ∈ l, p c = true)
    (hr : ∃ c cs, r = c :: cs ∧ p c = false) : (l ++ r).takeWhile p = l ∧ (l ++ r).dropWhile p = r := by
  obtain ⟨c, cs, rfl, hc⟩ := hr
  constructor
  · rw [List.takeWhile_append_of_pos hl, List.takeWhile_cons_of_neg (by simp [hc]), List.append_nil]
  · rw [List.dropWhile_append_of_pos hl, List.dropWhile_cons_of_neg (by simp [hc])]

/-- A text is of at most one form. -/
theorem Form.unique {text digits digits' : List Char} {unit unit' : TimeUnit} (h : Form text digits unit)
    (h' : Form text digits' unit') : digits = digits' ∧ unit = unit' := by
  have hspan := span_of_head h.isDigit unit.text_not_digit
  have hspan' := span_of_head h'.isDigit unit'.text_not_digit
  rw [← h.text_eq] at hspan
  rw [← h'.text_eq] at hspan'
  exact ⟨hspan.1.symm.trans hspan'.1, TimeUnit.text_injective (hspan.2.symm.trans hspan'.2)⟩

theorem Form.head {text digits : List Char} {unit : TimeUnit} (h : Form text digits unit) :
    ∃ c cs, text = c :: cs ∧ c.isDigit = true := by
  obtain ⟨c, cs, rfl⟩ := List.exists_cons_of_ne_nil h.ne_nil
  exact ⟨c, cs ++ unit.text, by rw [h.text_eq, List.cons_append], h.isDigit c List.mem_cons_self⟩

/-! ### Numbers -/

theorem digitsFrom_ok {cs : List Char} {start : Nat} {n : UInt64} (h : digitsFrom start cs = .ok n)
    (hstart : start < 2 ^ 64) : (∀ c ∈ cs, c.isDigit = true) ∧ n.toNat = Nat.ofDigitChars 10 cs start := by
  induction cs generalizing start with
  | nil =>
    obtain rfl := Except.ok.inj h
    exact ⟨by simp, by rw [UInt64.toNat_ofNat_of_lt' hstart, Nat.ofDigitChars_nil]⟩
  | cons c cs ih =>
    rw [digitsFrom] at h
    split at h
    · rename_i hc
      dsimp only at h
      split at h
      · rename_i hlt
        obtain ⟨hdigits, hn⟩ := ih h hlt
        exact ⟨List.forall_mem_cons.mpr ⟨hc, hdigits⟩, by rw [hn, Nat.ofDigitChars_cons]⟩
      · cases h
    · cases h

theorem start_le_ofDigitChars (cs : List Char) (start : Nat) : start ≤ Nat.ofDigitChars 10 cs start := by
  induction cs generalizing start with
  | nil => rw [Nat.ofDigitChars_nil]
  | cons c cs ih =>
    rw [Nat.ofDigitChars_cons]
    exact le_trans (by omega) (ih _)

theorem digitsFrom_of_lt {cs : List Char} {start : Nat} (hdigits : ∀ c ∈ cs, c.isDigit = true)
    (hlt : Nat.ofDigitChars 10 cs start < 2 ^ 64) :
    digitsFrom start cs = .ok (UInt64.ofNat (Nat.ofDigitChars 10 cs start)) := by
  induction cs generalizing start with
  | nil => rw [digitsFrom, Nat.ofDigitChars_nil]
  | cons c cs ih =>
    rw [Nat.ofDigitChars_cons] at hlt ⊢
    have hnext := (start_le_ofDigitChars cs _).trans_lt hlt
    rw [digitsFrom, if_pos (hdigits c List.mem_cons_self), if_pos hnext]
    exact ih (fun d hd => hdigits d (List.mem_cons_of_mem _ hd)) hlt

/-- A number may stand behind a `+`. -/
theorem parseU64_ok {text : List Char} {n : UInt64} (h : parseU64 text = .ok n) :
    ∃ digits, (text = digits ∨ text = '+' :: digits) ∧ digits ≠ [] ∧ (∀ c ∈ digits, c.isDigit = true) ∧
      n.toNat = decimal digits := by
  rw [parseU64] at h
  split at h
  · cases h
  rename_i hne
  split at h
  · cases h
  rename_i hsign
  obtain ⟨hdigits, hn⟩ := digitsFrom_ok h (by decide)
  obtain ⟨c, cs, rfl⟩ := List.exists_cons_of_ne_nil hne
  by_cases hc : c = '+'
  · subst hc
    rw [List.head?_cons, if_pos rfl] at hdigits hn
    exact ⟨cs, .inr rfl, fun hcs => hsign (by rw [hcs]), hdigits, hn⟩
  · rw [if_neg (by simpa using hc)] at hdigits hn
    exact ⟨c :: cs, .inl rfl, by simp, hdigits, hn⟩

theorem parseU64_digits {digits : List Char} (hne : digits ≠ []) (hdigits : ∀ c ∈ digits, c.isDigit = true)
    (hlt : decimal digits < 2 ^ 64) {text : List Char} (htext : text = digits ∨ text = '+' :: digits) :
    parseU64 text = .ok (UInt64.ofNat (decimal digits)) := by
  obtain ⟨c, cs, rfl⟩ := List.exists_cons_of_ne_nil hne
  have hc : c ≠ '+' := by
    rintro rfl
    exact absurd (hdigits '+' List.mem_cons_self) (by decide)
  rcases htext with rfl | rfl
  · rw [parseU64, if_neg hne, if_neg (by simp [hc]), if_neg (by simpa using hc)]
    exact digitsFrom_of_lt hdigits hlt
  · rw [parseU64, if_neg (by simp), if_neg (by simp), List.head?_cons, if_pos rfl]
    exact digitsFrom_of_lt hdigits hlt

/-! ### What is read -/

/-- Digits that fit 64 bits, perhaps behind a `+`, and a unit that begins with a letter. -/
structure Readable (s digits : List Char) (unit : TimeUnit) : Prop where
  form : ∃ text, (trim s = text ∨ trim s = '+' :: text) ∧ Form text digits unit
  letter : unit ≠ .micro
  number : decimal digits < 2 ^ 64

/-- Such a text is read; the number of units may be too much. -/
theorem Readable.parse {s digits : List Char} {unit : TimeUnit} (h : Readable s digits unit) (checks : Bool) :
    parseGoDuration checks s =
      (unit.duration checks (UInt64.ofNat (decimal digits))).elim .panicked .ok := by
  obtain ⟨text, htext, form⟩ := h.form
  obtain ⟨sign, hsign, htrim⟩ : ∃ sign, (sign = digits ∨ sign = '+' :: digits) ∧ trim s = sign ++ unit.text := by
    rcases htext with htext | htext
    · exact ⟨digits, .inl rfl, htext.trans form.text_eq⟩
    · exact ⟨'+' :: digits, .inr rfl, by rw [htext, form.text_eq, List.cons_append]⟩
  have hnumber : ∀ c ∈ sign, (!c.isAlpha) = true := by
    intro c hc
    have hor : c = '+' ∨ c ∈ digits := by
      rcases hsign with rfl | rfl
      · exact .inr hc
      · exact List.mem_cons.mp hc
    rcases hor with rfl | hc
    · decide
    · rw [isAlpha_of_isDigit (form.isDigit c hc)]
      rfl
  obtain ⟨c, cs, hunit, halpha⟩ := TimeUnit.text_head h.letter
  have hspan := span_of_head hnumber ⟨c, cs, hunit, by rw [halpha]; rfl⟩
  have hne : sign ++ unit.text ≠ [] := by simp [hunit]
  simp only [parseGoDuration, htrim, if_neg hne, hspan.1, hspan.2, if_neg (show unit.text ≠ [] by simp [hunit]),
    parseU64_digits form.ne_nil form.isDigit h.number hsign, TimeUnit.find?_text]
  cases unit.duration checks (UInt64.ofNat (decimal digits)) <;> rfl

/-- Nothing else is read. -/
theorem readable_of_parse {c : Bool} {s : List Char} (h : ∀ message, parseGoDuration c s ≠ .err message) :
    ∃ digits unit, Readable s digits unit := by
  simp only [parseGoDuration] at h
  split at h
  · exact absurd rfl (h _)
  split at h
  · exact absurd rfl (h _)
  rename_i hunit
  rcases hnumber : parseU64 ((trim s).takeWhile fun c => !c.isAlpha) with message | n
  · simp only [hnumber] at h
    exact absurd rfl (h _)
  rcases hfound : TimeUnit.all.find? fun known => known.text = (trim s).dropWhile fun c => !c.isAlpha with _ | unit
  · simp only [hnumber, hfound] at h
    exact absurd rfl (h _)
  have htext : unit.text = (trim s).dropWhile fun c => !c.isAlpha := by
    simpa using List.find?_some hfound
  obtain ⟨digits, hsign, hne, hdigits, hn⟩ := parseU64_ok hnumber
  have hcut := List.takeWhile_append_dropWhile (p := fun c : Char => !c.isAlpha) (l := trim s)
  refine ⟨digits, unit, ⟨digits ++ unit.text, ?_, rfl, hne, hdigits⟩, ?_, ?_⟩
  · rw [← hcut, ← htext]
    rcases hsign with hsign | hsign
    · exact .inl (by rw [hsign])
    · exact .inr (by rw [hsign, List.cons_append])
  · rintro rfl
    -- what is cut off begins with a letter
    have hhead := List.head?_dropWhile_not (fun c : Char => !c.isAlpha) (trim s)
    rw [← htext] at hhead
    cases hhead
  · rw [← hn]
    exact n.toNat_lt

/-! ### Exactness -/

/-- The parser returns the durations that the text denotes, and its multiplications fit. -/
def ParsesExactly (checks : Bool) (s : List Char) : Prop :=
  (∀ d, parseGoDuration checks s = .ok d ↔ Denotes s d.total) ∧ parseGoDuration true s ≠ .panicked

/-- A form is not written with `µs` where a duration holds it, and a duration holds it just when its
    number fits 64 bits; no form that would be read stands behind a `+`. -/
structure Representable (s : List Char) : Prop where
  micro : ∀ digits, Form (trim s) digits .micro → ¬ Duration.Fits (decimal digits * TimeUnit.micro.nanos)
  number : ∀ digits unit, unit ≠ .micro → Form (trim s) digits unit →
    (Duration.Fits (decimal digits * unit.nanos) ↔ decimal digits < 2 ^ 64)
  sign : ∀ text digits unit, unit ≠ .micro → trim s = '+' :: text → Form text digits unit → 2 ^ 64 ≤ decimal digits

theorem Form.not_signed {text digits : List Char} {unit : TimeUnit} (h : Form text digits unit) (behind : List Char) :
    text ≠ '+' :: behind := by
  rintro rfl
  obtain ⟨c, cs, heq, hc⟩ := h.head
  obtain rfl := (List.cons.inj heq).1
  exact absurd hc (by decide)

/-- A form that is read gives the duration it denotes. -/
theorem Readable.parse_of_fits {s digits : List Char} {unit : TimeUnit} (h : Readable s digits unit) (checks : Bool)
    (hfits : Duration.Fits (decimal digits * unit.nanos)) :
    ∃ d, parseGoDuration checks s = .ok d ∧ d.total = decimal digits * unit.nanos := by
  have hn : (UInt64.ofNat (decimal digits)).toNat = decimal digits := UInt64.toNat_ofNat_of_lt' h.number
  rw [← hn] at hfits
  obtain ⟨d, hd, htotal⟩ := duration_of_fits (c := checks) hfits
  exact ⟨d, by rw [h.parse checks, hd]; rfl, by rw [htotal, hn]⟩

/-- Where no multiplication overflows, a duration holds what is read. -/
theorem Readable.fits {s digits : List Char} {unit : TimeUnit} (h : Readable s digits unit)
    (hover : parseGoDuration true s ≠ .panicked) : Duration.Fits (decimal digits * unit.nanos) := by
  have hn : (UInt64.ofNat (decimal digits)).toNat = decimal digits := UInt64.toNat_ofNat_of_lt' h.number
  rcases hd : unit.duration true (UInt64.ofNat (decimal digits)) with _ | d
  · rw [h.parse, hd] at hover
    exact absurd rfl hover
  · rw [← hn]
    exact fits_of_duration hd

theorem readable_of_ok {checks : Bool} {s : List Char} {d : Duration} (h : parseGoDuration checks s = .ok d) :
    ∃ digits unit, Readable s digits unit :=
  readable_of_parse fun message hm => by
    rw [h] at hm
    cases hm

/-- The number of a form that is read as a duration fits, and its unit begins with a letter. -/
theorem Form.readable {checks : Bool} {s digits : List Char} {unit : TimeUnit} {d : Duration}
    (form : Form (trim s) digits unit) (h : parseGoDuration checks s = .ok d) : Readable s digits unit := by
  obtain ⟨digits', unit', hread⟩ := readable_of_ok h
  obtain ⟨text, htext, form'⟩ := hread.form
  rcases htext with htext | htext
  · rw [← htext] at form'
    obtain ⟨rfl, rfl⟩ := form.unique form'
    exact hread
  · exact absurd htext (form.not_signed text)

/-- The parser is exact on a text just when the text is representable. -/
theorem parse_duration_exact_iff (checks : Bool) (s : List Char) : ParsesExactly checks s ↔ Representable s := by
  constructor
  · rintro ⟨hok, hover⟩
    -- what fits is parsed
    have hparsed : ∀ digits unit, Form (trim s) digits unit → Duration.Fits (decimal digits * unit.nanos) →
        Readable s digits unit := by
      intro digits unit form hfits
      obtain ⟨d, hd⟩ := Duration.exists_total_iff.mpr hfits
      exact form.readable ((hok d).mpr ⟨digits, unit, form, hd⟩)
    refine ⟨fun digits form hfits => (hparsed digits _ form hfits).letter rfl, fun digits unit hletter form => ?_,
      fun text digits unit hletter htrim form => ?_⟩
    · constructor
      · exact fun hfits => (hparsed digits unit form hfits).number
      · exact fun hnumber => Readable.fits ⟨⟨_, .inl rfl, form⟩, hletter, hnumber⟩ hover
    · by_contra hnumber
      have hread : Readable s digits unit := ⟨⟨text, .inr htrim, form⟩, hletter, by omega⟩
      obtain ⟨d, hd, -⟩ := hread.parse_of_fits checks (hread.fits hover)
      obtain ⟨digits', unit', form', -⟩ := (hok d).mp hd
      exact form'.not_signed text htrim
  · intro h
    -- what is read is a form that fits
    have hread : ∀ {digits unit}, Readable s digits unit →
        Form (trim s) digits unit ∧ Duration.Fits (decimal digits * unit.nanos) := by
      intro digits unit hread
      obtain ⟨text, htext, form⟩ := hread.form
      rcases htext with htext | htext
      · rw [← htext] at form
        exact ⟨form, (h.number digits unit hread.letter form).mpr hread.number⟩
      · exact absurd (h.sign text digits unit hread.letter htext form) (by have := hread.number; omega)
    refine ⟨fun d => ⟨fun hd => ?_, ?_⟩, fun hpanic => ?_⟩
    · obtain ⟨digits, unit, hreadable⟩ := readable_of_ok hd
      obtain ⟨form, hfits⟩ := hread hreadable
      obtain ⟨d', hd', htotal⟩ := hreadable.parse_of_fits checks hfits
      rw [hd] at hd'
      obtain rfl := DurationOutcome.ok.inj hd'
      exact ⟨digits, unit, form, htotal⟩
    · rintro ⟨digits, unit, form, htotal⟩
      have hfits : Duration.Fits (decimal digits * unit.nanos) := htotal ▸ d.fits_total
      have hletter : unit ≠ .micro := by
        rintro rfl
        exact h.micro digits form hfits
      have hreadable : Readable s digits unit :=
        ⟨⟨_, .inl rfl, form⟩, hletter, (h.number digits unit hletter form).mp hfits⟩
      obtain ⟨d', hd', htotal'⟩ := hreadable.parse_of_fits checks hfits
      rw [hd', Duration.total_injective (htotal.trans htotal'.symm)]
    · obtain ⟨digits, unit, hreadable⟩ := readable_of_parse (c := true) (s := s) fun message hm => by
        rw [hpanic] at hm
        cases hm
      obtain ⟨d, hd, -⟩ := hreadable.parse_of_fits true (hread hreadable).2
      rw [hd] at hpanic
      cases hpanic

/-- Five microseconds, written with the sign, are refused. -/
theorem micro_sign_refused :
    parseGoDuration true "5µs".toList = .err "invalid number `5µ` in `5µs`: invalid digit found in string" ∧
      Denotes "5µs".toList 5000 ∧ ¬ ParsesExactly true "5µs".toList := by
  have herr : parseGoDuration true "5µs".toList =
      .err "invalid number `5µ` in `5µs`: invalid digit found in string" := by decide
  have hdenotes : Denotes "5µs".toList 5000 := ⟨['5'], .micro, ⟨rfl, by simp, by simp⟩, rfl⟩
  refine ⟨herr, hdenotes, fun h => ?_⟩
  have hok := (h.1 (.fromMicros 5)).mpr hdenotes
  rw [herr] at hok
  cases hok

end Akua.Rust
