import Mathlib
import ReleasePrompts.Number.Binary64

/-!
# Rounding to doubles

The values of the magnitudes of doubles increase (`strictMono_value`), and the magnitude that a
fraction is rounded to depends on its value only (`magnitudeOfRatio_eq`). A value on one side of the
middle between two magnitudes is not rounded to the other side (`nearest_le`, `lt_nearest`), so that
each magnitude is what its value is rounded to (`nearest_value`).
-/

namespace ReleasePrompts.Number.Binary64

/-- The value of a magnitude; that of infinity is the power of two behind the finite values. -/
def value (magnitude : ℕ) : ℚ := numerator magnitude / denominator magnitude

/-- The distance from a magnitude to the next. -/
def gap (magnitude : ℕ) : ℚ := 2 ^ (((magnitude / stride - 1 : ℕ) : ℤ) - 1074)

theorem stride_eq : stride = 2 ^ 52 := by decide

theorem two_zpow_pos (e : ℤ) : (0 : ℚ) < 2 ^ e := zpow_pos (by norm_num) e

/-! ## Values of magnitudes -/

theorem value_eq (m : ℕ) : value m = significand m * 2 ^ ((scale m : ℤ) - 1075) := by
  have hexp : (scale m : ℤ) - 1075 = (scale m - 1075 : ℕ) - (1075 - scale m : ℕ) := by omega
  rw [value, numerator, denominator, hexp, zpow_sub₀ two_ne_zero, zpow_natCast, zpow_natCast,
    ← mul_div_assoc]
  simp only [Nat.pow_eq, Nat.cast_mul, Nat.cast_pow, Nat.cast_ofNat]

/-- The magnitudes of one exponent are a grid, which goes on up to the next power of two. -/
theorem value_grid {e k : ℕ} (hk : k ≤ 2 * stride) (he : e = 0 ∨ stride ≤ k) :
    value (e * stride + k) = k * 2 ^ ((e : ℤ) - 1074) := by
  rw [value_eq]
  rcases Nat.lt_or_ge k stride with hlt | hge
  · obtain rfl : e = 0 := he.resolve_right (Nat.not_le.mpr hlt)
    have hzero : k / stride = 0 := Nat.div_eq_of_lt hlt
    rw [Nat.zero_mul, Nat.zero_add, significand, if_pos hzero, scale, hzero]
    norm_num
  rcases hk.lt_or_eq with hlt | rfl
  · have hdiv : (e * stride + k) / stride = e + 1 := by
      simp only [stride] at hge hlt ⊢
      omega
    have hmod : stride + (e * stride + k) % stride = k := by
      simp only [stride] at hge hlt ⊢
      omega
    rw [significand, if_neg (by omega), hmod, scale, hdiv, max_eq_left (by omega)]
    push_cast
    ring_nf
  · have hdiv : (e * stride + 2 * stride) / stride = e + 2 := by
      simp only [stride]
      omega
    have hmod : (e * stride + 2 * stride) % stride = 0 := by
      simp only [stride]
      omega
    rw [significand, if_neg (by omega), hmod, scale, hdiv, max_eq_left (by omega)]
    have hexp : ((e + 2 : ℕ) : ℤ) - 1075 = (e : ℤ) - 1074 + 1 := by
      push_cast
      ring
    rw [hexp, zpow_add_one₀ two_ne_zero]
    push_cast
    ring

/-- A magnitude on the grid of its exponent. -/
theorem exists_grid (m : ℕ) : ∃ k, m = (m / stride - 1) * stride + k ∧ k < 2 * stride ∧
    (m / stride - 1 = 0 ∨ stride ≤ k) := by
  refine ⟨m - (m / stride - 1) * stride, ?_, ?_, ?_⟩
  all_goals
    simp only [stride]
    omega

theorem value_succ (m : ℕ) : value (m + 1) = value m + gap m := by
  obtain ⟨k, hm, hk, he⟩ := exists_grid m
  rw [gap]
  generalize m / stride - 1 = e at *
  subst hm
  rw [Nat.add_assoc, value_grid hk (he.imp_right (Nat.le_succ_of_le)), value_grid hk.le he]
  push_cast
  ring

theorem gap_pos (m : ℕ) : 0 < gap m := two_zpow_pos _

theorem strictMono_value : StrictMono value :=
  strictMono_nat_of_lt_succ fun m => by
    rw [value_succ]
    exact lt_add_of_pos_right _ (gap_pos m)

theorem value_zero : value 0 = 0 := by
  simpa using value_grid (e := 0) (Nat.zero_le (2 * stride)) (.inl rfl)

theorem value_nonneg (m : ℕ) : 0 ≤ value m := value_zero ▸ strictMono_value.monotone m.zero_le

/-- A magnitude is less than `2 ^ 53` gaps above zero. -/
theorem exists_value_eq (m : ℕ) : ∃ k : ℕ, k < 2 ^ 53 ∧ value m = k * gap m := by
  obtain ⟨k, hm, hk, he⟩ := exists_grid m
  refine ⟨k, by rwa [stride_eq] at hk, ?_⟩
  conv_lhs => rw [hm]
  exact value_grid hk.le he

theorem value_lt_gap (m : ℕ) : value m < 2 ^ 53 * gap m := by
  obtain ⟨k, hk, hvalue⟩ := exists_value_eq m
  rw [hvalue]
  exact mul_lt_mul_of_pos_right (by exact_mod_cast hk) (gap_pos m)

theorem value_succ_le_gap (m : ℕ) : value (m + 1) ≤ 2 ^ 53 * gap m := by
  obtain ⟨k, hk, hvalue⟩ := exists_value_eq m
  rw [value_succ, hvalue, ← add_one_mul]
  exact mul_le_mul_of_nonneg_right (by exact_mod_cast hk) (gap_pos m).le

/-- Integers of fifty-three bits, and their multiples by powers of two, are values. -/
theorem exists_value {k : ℕ} {e : ℤ} (hk : k ≤ 2 ^ 53) (hlow : -1074 ≤ e) (hhigh : e ≤ 970) :
    ∃ m ≤ infinite, value m = k * 2 ^ e := by
  obtain ⟨shift, rfl⟩ : ∃ shift : ℕ, e = (shift : ℤ) - 1074 := ⟨(e + 1074).toNat, by omega⟩
  induction shift generalizing k with
  | zero =>
    refine ⟨k, ?_, ?_⟩
    · simp only [infinite, stride]
      omega
    · have hvalue := value_grid (e := 0) (k := k) (by rwa [stride_eq]) (.inl rfl)
      simpa [stride_eq, ← pow_succ'] using hvalue
  | succ shift ih =>
    rcases Nat.lt_or_ge k stride with hlt | hge
    · -- the leading bit is missing, so the next smaller power of two does as well
      rw [stride_eq] at hlt
      obtain ⟨m, hm, hvalue⟩ := ih (k := 2 * k) (by omega) (by omega) (by omega)
      refine ⟨m, hm, hvalue.trans ?_⟩
      push_cast
      rw [show (shift : ℤ) + 1 - 1074 = (shift : ℤ) - 1074 + 1 by ring, zpow_add_one₀ two_ne_zero]
      ring
    · refine ⟨(shift + 1) * stride + k, ?_, ?_⟩
      · simp only [infinite, stride]
        omega
      · exact value_grid (by rwa [stride_eq]) (.inr hge)

/-! ## Fractions by their value -/

/-- A fraction divided by a power of a base, as a fraction. -/
theorem scaled_div (n d b : ℕ) (hb : b ≠ 0) (e : ℤ) :
    ((n * b ^ (-e).toNat : ℕ) : ℚ) / (d * b ^ e.toNat : ℕ) = n / d / (b : ℚ) ^ e := by
  have hexp : e = (e.toNat : ℤ) - ((-e).toNat : ℤ) := by omega
  have hb : (b : ℚ) ≠ 0 := Nat.cast_ne_zero.mpr hb
  conv_rhs => rw [hexp, zpow_sub₀ hb, zpow_natCast, zpow_natCast]
  push_cast
  field_simp

theorem divHalfEven_of_lt {n d : ℕ} (hd : 0 < d)
    (h : 2 * ((n : ℚ) / d) < (n / d : ℕ) + ((n / d : ℕ) + 1)) : divHalfEven n d = n / d := by
  have hd : (0 : ℚ) < d := Nat.cast_pos.mpr hd
  have hsplit : (n : ℚ) = d * (n / d : ℕ) + (n % d : ℕ) := mod_cast (Nat.div_add_mod n d).symm
  have hlt : 2 * (n % d) < d := by
    rw [mul_div_assoc', div_lt_iff₀ hd, hsplit] at h
    have : (2 * (n % d : ℕ) : ℚ) < d := by linarith
    exact_mod_cast this
  rw [divHalfEven, if_pos hlt]

theorem divHalfEven_of_gt {n d : ℕ} (hd : 0 < d)
    (h : (n / d : ℕ) + ((n / d : ℕ) + 1) < 2 * ((n : ℚ) / d)) : divHalfEven n d = n / d + 1 := by
  have hd : (0 : ℚ) < d := Nat.cast_pos.mpr hd
  have hsplit : (n : ℚ) = d * (n / d : ℕ) + (n % d : ℕ) := mod_cast (Nat.div_add_mod n d).symm
  have hgt : d < 2 * (n % d) := by
    rw [mul_div_assoc', lt_div_iff₀ hd, hsplit] at h
    have : (d : ℚ) < 2 * (n % d : ℕ) := by linarith
    exact_mod_cast this
  rw [divHalfEven, if_neg (by omega), if_pos hgt]

theorem divHalfEven_cases (n d : ℕ) : divHalfEven n d = n / d ∨ divHalfEven n d = n / d + 1 := by
  unfold divHalfEven
  split_ifs <;> simp

/-- No integer is nearer than the rounded quotient. -/
theorem divHalfEven_bounds (n : ℕ) {d : ℕ} (hd : 0 < d) :
    2 * ((n : ℚ) / d) ≤ 2 * divHalfEven n d + 1 ∧ 2 * (divHalfEven n d : ℚ) ≤ 2 * (n / d) + 1 := by
  have hbelow := divHalfEven_of_lt (n := n) hd
  have habove := divHalfEven_of_gt (n := n) hd
  have hle : ((n / d : ℕ) : ℚ) ≤ n / d := Nat.cast_div_le
  have hlt : (n : ℚ) / d < (n / d : ℕ) + 1 := by
    rw [← Nat.floor_div_eq_div (K := ℚ)]
    exact Nat.lt_floor_add_one _
  rcases divHalfEven_cases n d with h | h <;> rw [h] at hbelow habove ⊢ <;> push_cast
  · refine ⟨?_, by linarith⟩
    by_contra hcontra
    have := habove (by linarith)
    omega
  · refine ⟨by linarith, ?_⟩
    by_contra hcontra
    have := hbelow (by linarith)
    omega

theorem divHalfEven_mul_right (n d : ℕ) {k : ℕ} (hk : 0 < k) :
    divHalfEven (n * k) (d * k) = divHalfEven n d := by
  simp only [divHalfEven, Nat.mul_mod_mul_right, Nat.mul_div_mul_right _ _ hk, ← mul_assoc,
    Nat.mul_lt_mul_right hk]

theorem divHalfEven_congr {n d n' d' : ℕ} (hd : 0 < d) (hd' : 0 < d')
    (h : (n : ℚ) / d = n' / d') : divHalfEven n d = divHalfEven n' d' := by
  have hcross : n * d' = n' * d := by
    rw [div_eq_div_iff (by positivity) (by positivity)] at h
    exact_mod_cast h
  rw [← divHalfEven_mul_right n d hd', hcross, Nat.mul_comm d d', divHalfEven_mul_right _ _ hd]

/-- Comparing a fraction with a power of a base. -/
theorem zpow_le_div_iff {n d b : ℕ} (hd : 0 < d) (hb : 0 < b) (e : ℤ) :
    (b : ℚ) ^ e ≤ n / d ↔ d * b ^ e.toNat ≤ n * b ^ (-e).toNat := by
  rw [← one_le_div (zpow_pos (Nat.cast_pos.mpr hb) e), ← scaled_div n d b hb.ne',
    one_le_div (by positivity), Nat.cast_le]

/-- The order of a positive fraction is the integer part of its binary logarithm. -/
theorem binaryOrder_eq {n d : ℕ} (hn : 0 < n) (hd : 0 < d) :
    binaryOrder n d = Int.log 2 ((n : ℚ) / d) := by
  have hx : (0 : ℚ) < (n : ℚ) / d := by positivity
  have hreached : ∀ e : ℤ, d * 2 ^ e.toNat ≤ n * 2 ^ (-e).toNat ↔ e ≤ Int.log 2 ((n : ℚ) / d) :=
    fun e => by rw [← Int.zpow_le_iff_le_log (by norm_num) hx, zpow_le_div_iff hd two_pos]
  have hlow : (n.log2 : ℤ) - d.log2 - 1 ≤ Int.log 2 ((n : ℚ) / d) := by
    rw [← Int.zpow_le_iff_le_log (by norm_num) hx]
    calc ((2 : ℕ) : ℚ) ^ ((n.log2 : ℤ) - d.log2 - 1)
        = 2 ^ n.log2 / 2 ^ (d.log2 + 1) := by
          rw [Nat.cast_ofNat, sub_sub, zpow_sub₀ two_ne_zero]
          exact_mod_cast rfl
      _ ≤ n / d := by
          gcongr
          · exact_mod_cast Nat.log2_self_le hn.ne'
          · exact_mod_cast Nat.lt_log2_self.le
  have hhigh : Int.log 2 ((n : ℚ) / d) < (n.log2 : ℤ) - d.log2 + 1 := by
    rw [← Int.lt_zpow_iff_log_lt (by norm_num) hx]
    calc (n : ℚ) / d < 2 ^ (n.log2 + 1) / 2 ^ d.log2 := by
          refine div_lt_div₀ ?_ ?_ (by positivity) (by positivity)
          · exact_mod_cast Nat.lt_log2_self
          · exact_mod_cast Nat.log2_self_le hd.ne'
      _ = ((2 : ℕ) : ℚ) ^ ((n.log2 : ℤ) - d.log2 + 1) := by
          rw [Nat.cast_ofNat, sub_add_eq_add_sub, zpow_sub₀ two_ne_zero]
          exact_mod_cast rfl
  have hguess := hreached ((n.log2 : ℤ) - d.log2)
  unfold binaryOrder
  generalize (n.log2 : ℤ) - d.log2 = guess at *
  have hcompared : (if 0 ≤ guess then decide (d * Nat.pow 2 guess.toNat ≤ n)
      else decide (d ≤ n * Nat.pow 2 (-guess).toNat)) =
      decide (guess ≤ Int.log 2 ((n : ℚ) / d)) := by
    split_ifs with hsign <;> refine decide_eq_decide.mpr ?_
    · rw [← hguess, show (-guess).toNat = 0 by omega, pow_zero, mul_one]
      rfl
    · rw [← hguess, show guess.toNat = 0 by omega, pow_zero, mul_one]
      rfl
  simp only [hcompared, decide_eq_true_eq]
  split_ifs <;> omega

/-! ## Rounding a fraction -/

/-- The exponent of the last digit that is kept of a value. -/
def unitOf (x : ℚ) : ℤ := max (Int.log 2 x - 52) (-1074)

/-- The magnitude nearest to a value that is not negative. -/
def nearest (x : ℚ) : ℕ := magnitudeOfRatio x.num.toNat x.den

theorem magnitudeOfRatio_of_pos {n d : ℕ} (hn : 0 < n) (hd : 0 < d) :
    magnitudeOfRatio n d = min infinite ((unitOf ((n : ℚ) / d) + 1074).toNat * stride +
      divHalfEven (n * 2 ^ (-unitOf ((n : ℚ) / d)).toNat)
        (d * 2 ^ (unitOf ((n : ℚ) / d)).toNat)) := by
  rw [magnitudeOfRatio, if_neg hn.ne', binaryOrder_eq hn hd]
  rfl

theorem num_div_den {x : ℚ} (hx : 0 ≤ x) : ((x.num.toNat : ℕ) : ℚ) / x.den = x := by
  rw [← Int.cast_natCast, Int.toNat_of_nonneg (Rat.num_nonneg.mpr hx), Rat.num_div_den]

theorem num_toNat_pos {x : ℚ} (hx : 0 < x) : 0 < x.num.toNat := by
  have := Rat.num_pos.mpr hx
  omega

/-- The magnitude that a fraction is rounded to depends on its value only. -/
theorem magnitudeOfRatio_eq (n : ℕ) {d : ℕ} (hd : 0 < d) :
    magnitudeOfRatio n d = nearest ((n : ℚ) / d) := by
  rcases Nat.eq_zero_or_pos n with rfl | hn
  · simp [nearest, magnitudeOfRatio]
  have hx : (0 : ℚ) < n / d := by positivity
  rw [nearest, magnitudeOfRatio_of_pos hn hd,
    magnitudeOfRatio_of_pos (num_toNat_pos hx) (Rat.den_pos _), num_div_den hx.le]
  congr 2
  refine divHalfEven_congr (by positivity) (Nat.mul_pos (Rat.den_pos _) (by positivity)) ?_
  rw [scaled_div _ _ _ two_ne_zero, scaled_div _ _ _ two_ne_zero, num_div_den hx.le]

theorem nearest_zero : nearest 0 = 0 := rfl

/-- What a positive value is rounded to on the grid of its unit. -/
theorem exists_quotient {x : ℚ} (hx : 0 < x) : ∃ quotient,
    nearest x = min infinite ((unitOf x + 1074).toNat * stride + quotient) ∧
    (quotient = ⌊x / 2 ^ unitOf x⌋₊ ∨ quotient = ⌊x / 2 ^ unitOf x⌋₊ + 1) ∧
    (2 * (x / 2 ^ unitOf x) < ⌊x / 2 ^ unitOf x⌋₊ + (⌊x / 2 ^ unitOf x⌋₊ + 1) →
      quotient = ⌊x / 2 ^ unitOf x⌋₊) ∧
    (⌊x / 2 ^ unitOf x⌋₊ + (⌊x / 2 ^ unitOf x⌋₊ + 1) < 2 * (x / 2 ^ unitOf x) →
      quotient = ⌊x / 2 ^ unitOf x⌋₊ + 1) := by
  have hnearest := magnitudeOfRatio_of_pos (num_toNat_pos hx) x.den_pos
  have hscaled := scaled_div x.num.toNat x.den 2 two_ne_zero (unitOf x)
  have hd : 0 < x.den * 2 ^ (unitOf x).toNat := Nat.mul_pos x.den_pos (by positivity)
  rw [num_div_den hx.le] at hnearest hscaled
  rw [Nat.cast_ofNat] at hscaled
  rw [← hscaled, Nat.floor_div_eq_div]
  exact ⟨_, hnearest, divHalfEven_cases _ _, divHalfEven_of_lt hd, divHalfEven_of_gt hd⟩

/-- In its unit a positive value has at most fifty-three bits before the point, and fewer only where
the unit is the least. -/
theorem floor_bounds {x : ℚ} (hx : 0 < x) : ⌊x / 2 ^ unitOf x⌋₊ < 2 * stride ∧
    ((unitOf x + 1074).toNat = 0 ∨ stride ≤ ⌊x / 2 ^ unitOf x⌋₊) := by
  have hunit := two_zpow_pos (unitOf x)
  constructor
  · rw [Nat.floor_lt (by positivity), div_lt_iff₀ hunit, stride_eq]
    calc x < 2 ^ (Int.log 2 x + 1) := mod_cast Int.lt_zpow_succ_log_self (by norm_num) x
      _ ≤ 2 ^ (53 + unitOf x) := by
          refine zpow_le_zpow_right₀ one_le_two ?_
          rw [unitOf]
          omega
      _ = ((2 * 2 ^ 52 : ℕ) : ℚ) * 2 ^ unitOf x := by
          rw [zpow_add₀ two_ne_zero]
          norm_num
  · by_cases hleast : unitOf x = -1074
    · exact .inl (by omega)
    refine .inr ((Nat.le_floor_iff (by positivity)).mpr ((le_div_iff₀ hunit).mpr ?_))
    rw [stride_eq]
    calc ((2 ^ 52 : ℕ) : ℚ) * 2 ^ unitOf x = 2 ^ (52 + unitOf x) := by
          rw [zpow_add₀ two_ne_zero]
          norm_num
      _ = 2 ^ Int.log 2 x := by
          congr 1
          rw [unitOf] at hleast ⊢
          omega
      _ ≤ x := mod_cast Int.zpow_log_le_self (by norm_num) hx

/-- A positive value lies between two magnitudes, and is rounded to the nearer of them. -/
theorem nearest_cases {x : ℚ} (hx : 0 < x) : ∃ m, value m ≤ x ∧ x < value (m + 1) ∧
    (nearest x = min infinite m ∨ nearest x = min infinite (m + 1)) ∧
    (2 * x < value m + value (m + 1) → nearest x = min infinite m) ∧
    (value m + value (m + 1) < 2 * x → nearest x = min infinite (m + 1)) := by
  obtain ⟨quotient, hnearest, hcases, hbelow, habove⟩ := exists_quotient hx
  obtain ⟨hlt, hlow⟩ := floor_bounds hx
  have hunit := two_zpow_pos (unitOf x)
  have hexp : ((unitOf x + 1074).toNat : ℤ) - 1074 = unitOf x := by
    have : -1074 ≤ unitOf x := le_max_right _ _
    omega
  have hx : x = x / 2 ^ unitOf x * 2 ^ unitOf x := (div_mul_cancel₀ x hunit.ne').symm
  have hfloor := Nat.floor_le (a := x / 2 ^ unitOf x) (by positivity)
  have hceil := Nat.lt_floor_add_one (x / 2 ^ unitOf x)
  generalize (unitOf x + 1074).toNat = e at *
  generalize ⌊x / 2 ^ unitOf x⌋₊ = floor at *
  generalize x / 2 ^ unitOf x = y at *
  have hm := value_grid hlt.le hlow
  have hnext := value_grid (k := floor + 1) hlt (hlow.imp_right Nat.le_succ_of_le)
  rw [hexp] at hm hnext
  push_cast at hnext
  generalize (2 : ℚ) ^ unitOf x = unit at *
  subst hx
  refine ⟨e * stride + floor, ?_, ?_, ?_, fun h => ?_, fun h => ?_⟩
  · rw [hm]
    exact mul_le_mul_of_nonneg_right hfloor hunit.le
  · rw [add_assoc, hnext]
    exact mul_lt_mul_of_pos_right hceil hunit
  · rw [hnearest, add_assoc]
    exact hcases.imp (fun h => by rw [h]) fun h => by rw [h]
  · rw [add_assoc, hm, hnext, ← add_mul, ← mul_assoc] at h
    rw [hnearest, hbelow (lt_of_mul_lt_mul_right h hunit.le)]
  · rw [add_assoc, hm, hnext, ← add_mul, ← mul_assoc] at h
    rw [hnearest, habove (lt_of_mul_lt_mul_right h hunit.le), add_assoc]

/-! ## The middle between two magnitudes -/

variable {x : ℚ} {m : ℕ}

/-- A value below the middle behind a magnitude is rounded to no greater one. -/
theorem nearest_le (hx : 0 ≤ x) (h : 2 * x < value m + value (m + 1)) : nearest x ≤ m := by
  rcases hx.eq_or_lt with rfl | hx
  · exact Nat.zero_le m
  obtain ⟨n, hle, hlt, hcases, hbelow, -⟩ := nearest_cases hx
  have hn : n ≤ m := by
    by_contra hmn
    have := strictMono_value.monotone (Nat.not_le.mp hmn : m + 1 ≤ n)
    have := value_succ m
    have := gap_pos m
    linarith
  rcases hn.eq_or_lt with rfl | hn
  · exact (hbelow h).le.trans (min_le_right _ _)
  · rcases hcases with hcase | hcase
    · exact hcase.le.trans ((min_le_right _ _).trans hn.le)
    · exact hcase.le.trans ((min_le_right _ _).trans hn)

/-- A value above the middle behind a finite magnitude is rounded to a greater one. -/
theorem lt_nearest (hm : m < infinite) (h : value m + value (m + 1) < 2 * x) : m < nearest x := by
  have hx : 0 < x := by
    have := value_nonneg m
    have := value_nonneg (m + 1)
    linarith
  obtain ⟨n, hle, hlt, hcases, -, habove⟩ := nearest_cases hx
  have hn : m ≤ n := by
    by_contra hmn
    have := strictMono_value.monotone (Nat.not_le.mp hmn : n + 1 ≤ m)
    have := value_succ m
    have := gap_pos m
    linarith
  rcases hn.eq_or_lt with rfl | hn
  · rw [habove h]
    exact lt_min hm (Nat.lt_succ_self m)
  · rcases hcases with hcase | hcase
    · rw [hcase]
      exact lt_min hm hn
    · rw [hcase]
      exact lt_min hm (Nat.lt_succ_of_lt hn)

theorem nearest_le_infinite (hx : 0 ≤ x) : nearest x ≤ infinite := by
  rcases hx.eq_or_lt with rfl | hx
  · exact Nat.zero_le _
  obtain ⟨n, -, -, hcases, -⟩ := nearest_cases hx
  rcases hcases with hcase | hcase <;> exact hcase.le.trans (min_le_left _ _)

theorem value_infinite : value infinite = 2 ^ 1024 := by
  have h := value_grid (e := 2046) (k := stride) (by omega) (.inr le_rfl)
  rw [show 2046 * stride + stride = infinite from rfl, stride_eq, Nat.cast_pow, Nat.cast_ofNat,
    show ((2046 : ℕ) : ℤ) - 1074 = (972 : ℕ) by norm_num, zpow_natCast, ← pow_add] at h
  exact h

/-- From the power of two behind the finite values on, a value is rounded to infinity. -/
theorem nearest_of_ge (h : 2 ^ 1024 ≤ x) : nearest x = infinite := by
  rw [← value_infinite] at h
  have hlt : infinite - 1 < infinite := by decide
  have hx : 0 ≤ x := (value_nonneg infinite).trans h
  have hlast := strictMono_value hlt
  have habove : infinite - 1 < nearest x := by
    refine lt_nearest hlt ?_
    rw [show infinite - 1 + 1 = infinite from rfl]
    linarith
  have := nearest_le_infinite hx
  omega

/-- A value nearer to a magnitude than the middles on either side is rounded to it. -/
theorem nearest_eq_of_between (hm : m ≤ infinite) (hx : 0 ≤ x)
    (hbelow : 2 * x < value m + value (m + 1))
    (habove : ∀ below, m = below + 1 → value below + value m < 2 * x) : nearest x = m := by
  refine Nat.le_antisymm (nearest_le hx hbelow) ?_
  cases m with
  | zero => exact Nat.zero_le _
  | succ below => exact lt_nearest hm (habove below rfl)

/-- A magnitude is what its value is rounded to. -/
theorem nearest_value (hm : m ≤ infinite) : nearest (value m) = m := by
  refine nearest_eq_of_between hm (value_nonneg m) ?_ ?_
  · have := value_succ m
    have := gap_pos m
    linarith
  · rintro below rfl
    have := strictMono_value below.lt_succ_self
    linarith

end ReleasePrompts.Number.Binary64
