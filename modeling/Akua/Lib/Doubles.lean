import Mathlib.Algebra.Order.Ring.WithTop
import Mathlib.Data.Int.Log
import Mathlib.Data.Rat.Floor
import Mathlib.Tactic.Linarith

/-! Floating-point numbers of double precision that are not negative: rationals, rounded to the nearest
    number of 53 binary digits, and infinity above them. -/

namespace Double

/-! ### The nearest whole number -/

/-- The nearest whole number, the even one of two. -/
def halfEven (x : ℚ) : ℤ :=
  if Int.fract x < 1 / 2 then ⌊x⌋
  else if 1 / 2 < Int.fract x then ⌊x⌋ + 1
  else if ⌊x⌋ % 2 = 0 then ⌊x⌋ else ⌊x⌋ + 1

@[simp] theorem halfEven_intCast (n : ℤ) : halfEven n = n := by
  simp [halfEven]

theorem floor_le_halfEven (x : ℚ) : ⌊x⌋ ≤ halfEven x := by
  rw [halfEven]
  split_ifs <;> omega

theorem halfEven_le (x : ℚ) : halfEven x ≤ ⌊x⌋ + 1 := by
  rw [halfEven]
  split_ifs <;> omega

theorem halfEven_mono {x y : ℚ} (h : x ≤ y) : halfEven x ≤ halfEven y := by
  rcases (Int.floor_le_floor h).lt_or_eq with hlt | heq
  · calc
      halfEven x ≤ ⌊x⌋ + 1 := halfEven_le x
      _ ≤ ⌊y⌋ := hlt
      _ ≤ halfEven y := floor_le_halfEven y
  · have hfract : Int.fract x ≤ Int.fract y := by
      rw [Int.fract, Int.fract, heq]
      exact sub_le_sub_right h _
    rw [halfEven, halfEven, heq]
    split_ifs <;> first | omega | linarith

/-! ### Rounding -/

/-- The exponent of the last binary digit that is kept. -/
def exponent (x : ℚ) : ℤ := max (Int.log 2 x - 52) (-1074)

def quantum (x : ℚ) : ℚ := 2 ^ exponent x

/-- The nearest number of 53 binary digits, its exponent bounded below only. -/
def nearest (x : ℚ) : ℚ := halfEven (x / quantum x) * quantum x

theorem quantum_pos (x : ℚ) : 0 < quantum x := zpow_pos (by norm_num) _

@[simp] theorem nearest_zero : nearest 0 = 0 := by
  have hzero : halfEven 0 = 0 := by simpa using halfEven_intCast 0
  simp [nearest, hzero]

/-- A multiple of the quantum is met exactly, and rounding does not cross it. -/
theorem nearest_le_multiple {x : ℚ} {n : ℤ} (h : x ≤ n * quantum x) : nearest x ≤ n * quantum x := by
  have hle : halfEven (x / quantum x) ≤ n := by
    rw [← halfEven_intCast n]
    exact halfEven_mono ((div_le_iff₀ (quantum_pos x)).mpr h)
  exact mul_le_mul_of_nonneg_right (Int.cast_le.mpr hle) (quantum_pos x).le

theorem multiple_le_nearest {x : ℚ} {n : ℤ} (h : n * quantum x ≤ x) : n * quantum x ≤ nearest x := by
  have hle : n ≤ halfEven (x / quantum x) := by
    rw [← halfEven_intCast n]
    exact halfEven_mono ((le_div_iff₀ (quantum_pos x)).mpr h)
  exact mul_le_mul_of_nonneg_right (Int.cast_le.mpr hle) (quantum_pos x).le

theorem nearest_nonneg {x : ℚ} (h : 0 ≤ x) : 0 ≤ nearest x := by
  simpa using multiple_le_nearest (n := 0) (by simpa using h)

/-- A power of two that is not below the quantum is a multiple of it. -/
theorem power_eq_multiple {x : ℚ} {j : ℤ} (h : exponent x ≤ j) :
    (2 : ℚ) ^ j = ((2 ^ (j - exponent x).toNat : ℤ) : ℚ) * quantum x := by
  have hsplit : ((j - exponent x).toNat : ℤ) + exponent x = j := by omega
  calc
    (2 : ℚ) ^ j = 2 ^ (((j - exponent x).toNat : ℤ) + exponent x) := by rw [hsplit]
    _ = 2 ^ ((j - exponent x).toNat : ℤ) * quantum x := zpow_add₀ (by norm_num) _ _
    _ = ((2 ^ (j - exponent x).toNat : ℤ) : ℚ) * quantum x := by push_cast; rw [zpow_natCast]

theorem exponent_mono {x y : ℚ} (hx : 0 < x) (h : x ≤ y) : exponent x ≤ exponent y :=
  max_le_max (sub_le_sub_right (Int.log_mono_right hx h) 52) le_rfl

theorem nearest_mono {x y : ℚ} (hx : 0 ≤ x) (h : x ≤ y) : nearest x ≤ nearest y := by
  rcases hx.eq_or_lt with rfl | hpos
  · rw [nearest_zero]
    exact nearest_nonneg h
  · rcases (exponent_mono hpos h).eq_or_lt with heq | hlt
    · have hquantum : quantum x = quantum y := by rw [quantum, quantum, heq]
      rw [nearest, nearest, hquantum]
      have hle := halfEven_mono (div_le_div_of_nonneg_right h (quantum_pos y).le)
      exact mul_le_mul_of_nonneg_right (Int.cast_le.mpr hle) (quantum_pos y).le
    · -- The power of two with which the greater quantum begins lies between the two.
      have hexponents : exponent y = Int.log 2 y - 52 ∧ Int.log 2 x < Int.log 2 y := by
        rw [exponent, exponent] at hlt
        rw [exponent]
        omega
      have hbetween : nearest x ≤ (2 : ℚ) ^ Int.log 2 y := by
        have hbelow : x ≤ (2 : ℚ) ^ Int.log 2 y := by
          have := (Int.lt_zpow_iff_log_lt (b := 2) (by norm_num) hpos).mpr hexponents.2
          exact_mod_cast this.le
        rw [power_eq_multiple (x := x) (by omega)] at hbelow ⊢
        exact nearest_le_multiple hbelow
      have habove : (2 : ℚ) ^ Int.log 2 y ≤ nearest y := by
        have hself : (2 : ℚ) ^ Int.log 2 y ≤ y := by
          exact_mod_cast Int.zpow_log_le_self (b := 2) (by norm_num) (hpos.trans_le h)
        rw [power_eq_multiple (x := y) (by omega)] at hself ⊢
        exact multiple_le_nearest hself
      exact hbetween.trans habove

/-- A number of 53 binary digits is its own nearest. -/
theorem nearest_exact {n : ℕ} {j : ℤ} (hn : n ≤ 2 ^ 53) (hj : -1074 ≤ j) : nearest (n * 2 ^ j) = n * 2 ^ j := by
  rcases Nat.eq_zero_or_pos n with rfl | hpos
  · simp
  · have hexact {x : ℚ} {m : ℤ} (hx : x = m * quantum x) : nearest x = x :=
      le_antisymm ((nearest_le_multiple hx.le).trans hx.ge) (hx.le.trans (multiple_le_nearest hx.ge))
    -- The greatest has 54 digits, and a zero at the end.
    have hkept {m : ℕ} {j : ℤ} (hm : 0 < m) (hm' : m < 2 ^ 53) (hj : -1074 ≤ j) :
        nearest (m * 2 ^ j) = m * 2 ^ j := by
      have hpositive : (0 : ℚ) < m * 2 ^ j := mul_pos (Nat.cast_pos.mpr hm) (zpow_pos (by norm_num) j)
      have hbelow : (m * 2 ^ j : ℚ) < 2 ^ (53 + j) := by
        rw [zpow_add₀ (by norm_num)]
        exact mul_lt_mul_of_pos_right (by exact_mod_cast hm') (zpow_pos (by norm_num) j)
      have hlog : Int.log 2 (m * 2 ^ j : ℚ) < 53 + j :=
        (Int.lt_zpow_iff_log_lt (b := 2) (by norm_num) hpositive).mp (by exact_mod_cast hbelow)
      refine hexact (m := m * 2 ^ (j - exponent (m * 2 ^ j)).toNat) ?_
      have hpower := power_eq_multiple (x := m * 2 ^ j) (j := j) (by rw [exponent]; omega)
      push_cast at hpower ⊢
      rw [mul_assoc, ← hpower]
    rcases hn.eq_or_lt with rfl | hlt
    · have htop : ((2 ^ 53 : ℕ) : ℚ) * 2 ^ j = ((1 : ℕ) : ℚ) * 2 ^ (53 + j) := by
        rw [zpow_add₀ (by norm_num)]
        norm_num
      rw [htop]
      exact hkept Nat.one_pos (by norm_num) (by omega)
    · exact hkept hpos hlt hj

/-- What is nearest to a number has 53 binary digits. -/
theorem nearest_digits {x : ℚ} (h : 0 ≤ x) : ∃ n : ℕ, n ≤ 2 ^ 53 ∧ nearest x = n * 2 ^ exponent x := by
  have hbelow : x ≤ (2 ^ 53 : ℤ) * quantum x := by
    have hlog : x < (2 : ℚ) ^ (Int.log 2 x + 1) := by
      exact_mod_cast Int.lt_zpow_succ_log_self (b := 2) (by norm_num) x
    calc
      x ≤ 2 ^ (Int.log 2 x + 1) := hlog.le
      _ ≤ 2 ^ (53 + exponent x) := zpow_le_zpow_right₀ (by norm_num) (by rw [exponent]; omega)
      _ = (2 ^ 53 : ℤ) * quantum x := by rw [zpow_add₀ (by norm_num)]; norm_num [quantum]
  have hdigits : halfEven (x / quantum x) ≤ 2 ^ 53 := by
    rw [← halfEven_intCast (2 ^ 53)]
    exact halfEven_mono ((div_le_iff₀ (quantum_pos x)).mpr hbelow)
  have hpositive : 0 ≤ halfEven (x / quantum x) := by
    rw [← halfEven_intCast 0]
    exact halfEven_mono (by simpa using div_nonneg h (quantum_pos x).le)
  obtain ⟨n, hn⟩ := Int.eq_ofNat_of_zero_le hpositive
  refine ⟨n, by omega, ?_⟩
  rw [nearest, hn, quantum]
  norm_cast

theorem nearest_nearest {x : ℚ} (h : 0 ≤ x) : nearest (nearest x) = nearest x := by
  obtain ⟨n, hn, heq⟩ := nearest_digits h
  rw [heq]
  exact nearest_exact hn (le_max_right _ _)

/-- A number less than half a quantum above a multiple is rounded down to it. -/
theorem nearest_below {x : ℚ} {e n : ℤ} (he : -1074 ≤ e) (hlower : (2 : ℚ) ^ (e + 52) ≤ x) (hupper : x < 2 ^ (e + 53))
    (hn : n * 2 ^ e ≤ x) (hx : x < (n + 1 / 2) * 2 ^ e) : nearest x = n * 2 ^ e := by
  have hpos : 0 < x := (zpow_pos (by norm_num) _).trans_le hlower
  have hlog : Int.log 2 x = e + 52 := by
    have hle : e + 52 ≤ Int.log 2 x :=
      (Int.zpow_le_iff_le_log (b := 2) (by norm_num) hpos).mp (by exact_mod_cast hlower)
    have hlt : Int.log 2 x < e + 53 :=
      (Int.lt_zpow_iff_log_lt (b := 2) (by norm_num) hpos).mp (by exact_mod_cast hupper)
    omega
  have hquantum : quantum x = 2 ^ e := by
    rw [quantum, exponent, hlog, add_sub_cancel_right, max_eq_left he]
  have hpower : (0 : ℚ) < 2 ^ e := zpow_pos (by norm_num) e
  have hover : n ≤ x / 2 ^ e := (le_div_iff₀ hpower).mpr hn
  have hunder : x / 2 ^ e < n + 1 / 2 := (div_lt_iff₀ hpower).mpr hx
  have hfloor : ⌊x / 2 ^ e⌋ = n := Int.floor_eq_iff.mpr ⟨hover, by linarith⟩
  have hfract : Int.fract (x / 2 ^ e) < 1 / 2 := by
    rw [Int.fract, hfloor]
    linarith
  rw [nearest, hquantum, halfEven, if_pos hfract, hfloor]

end Double

/-! ### Numbers -/

/-- A number that is not negative, or infinity. -/
abbrev Double := WithTop ℚ

namespace Double

/-- A rational number as a double; from the first power of two that has none, infinity. -/
def ofRat (x : ℚ) : Double := if nearest x < 2 ^ 1024 then (nearest x : WithTop ℚ) else ⊤

/-- `x + y` -/
def add : Double → Double → Double
  | (x : ℚ), (y : ℚ) => ofRat (x + y)
  | _, _ => ⊤

/-- `x * y` -/
def mul (x y : ℚ) : Double := ofRat (x * y)

/-- The rationals that are doubles, and infinity. -/
def Rounded : Double → Prop
  | ⊤ => True
  | (x : ℚ) => 0 ≤ x ∧ ofRat x = x

theorem ofRat_mono {x y : ℚ} (hx : 0 ≤ x) (h : x ≤ y) : ofRat x ≤ ofRat y := by
  have hle := nearest_mono hx h
  rw [ofRat, ofRat]
  by_cases hfinite : nearest y < 2 ^ 1024
  · rw [if_pos hfinite, if_pos (hle.trans_lt hfinite)]
    exact WithTop.coe_le_coe.mpr hle
  · rw [if_neg hfinite]
    exact le_top

/-- A rational of 53 binary digits is a double. -/
theorem ofRat_exact {x : ℚ} {n : ℕ} {j : ℤ} (hx : x = n * 2 ^ j) (hn : n ≤ 2 ^ 53) (hj : -1074 ≤ j) (hj' : j < 971) :
    ofRat x = (x : WithTop ℚ) := by
  have hsmall : x < 2 ^ 1024 :=
    calc
      x = n * 2 ^ j := hx
      _ ≤ 2 ^ (53 : ℤ) * 2 ^ j := mul_le_mul_of_nonneg_right (by exact_mod_cast hn) (zpow_pos (by norm_num) j).le
      _ = 2 ^ (53 + j) := (zpow_add₀ (by norm_num) 53 j).symm
      _ < 2 ^ (1024 : ℤ) := zpow_lt_zpow_right₀ (by norm_num) (by omega)
      _ = 2 ^ 1024 := zpow_ofNat 2 1024
  have hnearest : nearest x = x := by rw [hx, nearest_exact hn hj]
  rw [ofRat, hnearest, if_pos hsmall]

theorem rounded_ofRat {x : ℚ} (h : 0 ≤ x) : Rounded (ofRat x) := by
  by_cases hfinite : nearest x < 2 ^ 1024
  · rw [ofRat, if_pos hfinite]
    exact ⟨nearest_nonneg h, by rw [ofRat, nearest_nearest h, if_pos hfinite]⟩
  · rw [ofRat, if_neg hfinite]
    trivial

theorem ofRat_double {x r : ℚ} (h : 0 ≤ x) (heq : ofRat x = (r : WithTop ℚ)) : ofRat r = (r : WithTop ℚ) := by
  have hrounded := rounded_ofRat h
  rw [heq] at hrounded
  exact hrounded.2

/-- Adding does not make less. -/
theorem le_add {x : Double} {y : ℚ} (hx : Rounded x) (hy : 0 ≤ y) : x ≤ add x y := by
  match x, hx with
  | ⊤, _ => exact le_rfl
  | (x : ℚ), ⟨hnonneg, hdouble⟩ =>
    calc
      (x : WithTop ℚ) = ofRat x := hdouble.symm
      _ ≤ ofRat (x + y) := ofRat_mono hnonneg (le_add_of_nonneg_right hy)

theorem rounded_add {x : Double} {y : ℚ} (hx : Rounded x) (hy : 0 ≤ y) : Rounded (add x y) := by
  match x, hx with
  | ⊤, _ => trivial
  | (x : ℚ), ⟨hnonneg, _⟩ => exact rounded_ofRat (add_nonneg hnonneg hy)

@[simp] theorem add_top (x : Double) : add x ⊤ = ⊤ := by
  cases x <;> rfl

/-- Whole numbers are added exactly, up to the greatest that have all their neighbours. -/
theorem add_natCast {m n : ℕ} (h : m + n ≤ 2 ^ 53) : add (m : ℚ) (n : ℚ) = ((m + n : ℚ) : WithTop ℚ) :=
  ofRat_exact (n := m + n) (j := 0) (by simp) h (by norm_num) (by norm_num)

/-- The least of the doubles. -/
def least : ℚ := 2 ^ (-1074 : ℤ)

theorem least_pos : 0 < least := zpow_pos (by norm_num) _

theorem ofRat_least : ofRat least = (least : WithTop ℚ) :=
  ofRat_exact (n := 1) (j := -1074) (by simp [least]) (by norm_num) le_rfl (by norm_num)

theorem least_le {x : ℚ} (hpos : 0 < x) (h : ofRat x = (x : WithTop ℚ)) : least ≤ x := by
  obtain ⟨n, -, hn⟩ := nearest_digits hpos.le
  have hx : x = n * 2 ^ exponent x := by
    rw [← hn]
    rw [ofRat] at h
    split_ifs at h
    · exact (WithTop.coe_inj.mp h).symm
    · cases h
  have hone : (1 : ℚ) ≤ n := by
    rcases Nat.eq_zero_or_pos n with rfl | hpositive
    · rw [hx] at hpos
      simp at hpos
    · exact_mod_cast hpositive
  calc
    least ≤ 2 ^ exponent x := zpow_le_zpow_right₀ (by norm_num) (le_max_right _ _)
    _ ≤ n * 2 ^ exponent x := le_mul_of_one_le_left (zpow_pos (by norm_num) _).le hone
    _ = x := hx.symm

theorem ofRat_of_nearest {x r : ℚ} (h : nearest x = r) (hr : ofRat r = (r : WithTop ℚ)) : ofRat x = (r : WithTop ℚ) := by
  rw [ofRat] at hr
  split_ifs at hr with hfinite
  · rw [WithTop.coe_inj.mp hr] at hfinite
    rw [ofRat, h, if_pos hfinite]
  · cases hr

theorem ofRat_eq_top {x : ℚ} (h : 2 ^ 1024 ≤ x) : ofRat x = ⊤ := by
  have hpower : nearest (2 ^ 1024) = 2 ^ 1024 := by
    have := nearest_exact (n := 1) (j := 1024) (by norm_num) (by norm_num)
    simpa only [Nat.cast_one, one_mul, zpow_ofNat] using this
  have hle := nearest_mono (by positivity) h
  rw [hpower] at hle
  rw [ofRat, if_neg (not_lt.mpr hle)]

end Double
