import ReleasePrompts.Number.Shortest
import ReleasePrompts.Proofs.Number.Rounding

/-!
# Shortest decimals

A decimal is read as the magnitude nearest to its value (`magnitudeOfDecimal_eq`). Seventeen digits
are enough to tell the magnitudes apart (`nearestOnGrid_seventeen`), so the search for the shortest
decimal of a magnitude finds one that is read as that magnitude (`shortest_spec`), and for an
integer of fifty-three bits it finds the integer itself (`shortest_integer`).
-/

namespace ReleasePrompts.Number

/-! ## Decimal digits -/

/-- A number lies between the powers of ten that the number of its digits tells. -/
theorem toDigits_bounds {n : ℕ} (hn : 0 < n) :
    (10 : ℚ) ^ (((Nat.toDigits 10 n).length : ℤ) - 1) ≤ n ∧
      (n : ℚ) < 10 ^ ((Nat.toDigits 10 n).length : ℤ) := by
  obtain ⟨fewer, hlength⟩ : ∃ fewer, (Nat.toDigits 10 n).length = fewer + 1 :=
    Nat.exists_eq_succ_of_ne_zero Nat.length_toDigits_pos.ne'
  have hlt : n < 10 ^ (fewer + 1) :=
    (Nat.length_toDigits_le_iff (by norm_num) fewer.succ_pos).mp hlength.le
  have hle : 10 ^ fewer ≤ n := by
    rcases Nat.eq_zero_or_pos fewer with rfl | hpos
    · rw [pow_zero]
      exact hn
    · by_contra h
      have := (Nat.length_toDigits_le_iff (b := 10) (by norm_num) hpos).mpr (Nat.not_le.mp h)
      omega
  rw [hlength, Nat.cast_add_one, add_sub_cancel_right, zpow_natCast]
  constructor
  · exact_mod_cast hle
  · exact_mod_cast hlt

namespace Decimal

/-- The value of a decimal. -/
def value (x : Decimal) : ℚ := x.digits * 10 ^ x.exponent

theorem value_stripped (x : Decimal) : x.stripped.value = x.value := by
  induction x using stripped.induct with
  | case1 x hzero =>
    rw [stripped, if_pos hzero, value, value, hzero, Nat.cast_zero, zero_mul, zero_mul]
  | case2 x hzero hten ih =>
    rw [stripped, if_neg hzero, if_pos hten, ih, value, value, zpow_add_one₀ (by norm_num)]
    have hdigits : x.digits = x.digits / 10 * 10 := by omega
    conv_rhs => rw [hdigits]
    push_cast
    ring
  | case3 x hzero hten => rw [stripped, if_neg hzero, if_neg hten]

theorem digits_stripped {x : Decimal} (h : x.digits ≠ 0) : x.stripped.digits % 10 ≠ 0 := by
  induction x using stripped.induct with
  | case1 x hzero => exact absurd hzero h
  | case2 x hzero hten ih =>
    rw [stripped, if_neg hzero, if_pos hten]
    exact ih (by simp only; omega)
  | case3 x hzero hten => rwa [stripped, if_neg hzero, if_neg hten]

theorem exponent_le_stripped {x : Decimal} (h : x.digits ≠ 0) :
    x.exponent ≤ x.stripped.exponent := by
  induction x using stripped.induct with
  | case1 x hzero => exact absurd hzero h
  | case2 x hzero hten ih =>
    rw [stripped, if_neg hzero, if_pos hten]
    have := ih (by simp only; omega)
    simp only at this
    omega
  | case3 x hzero hten => rw [stripped, if_neg hzero, if_neg hten]

end Decimal

namespace Binary64

theorem ten_zpow_pos (e : ℤ) : (0 : ℚ) < 10 ^ e := zpow_pos (by norm_num) e

/-! ## The magnitude of a decimal -/

theorem pow_le_ten_pow : 2 ^ 1024 ≤ 10 ^ 310 := by decide +kernel

theorem pow_le_ten_pow_least : 2 ^ 1074 ≤ 10 ^ 400 := by decide +kernel

theorem pow_lt_ten_pow : 2 * 2 ^ 1074 < 10 ^ 331 := by decide +kernel

/-- A decimal is read as the magnitude nearest to its value, also where the power of ten is not
computed. -/
theorem magnitudeOfDecimal_eq (digits : ℕ) (exponent : ℤ) :
    magnitudeOfDecimal digits exponent = nearest (digits * 10 ^ exponent) := by
  rcases Nat.eq_zero_or_pos digits with rfl | hdigits
  · rw [magnitudeOfDecimal, if_pos rfl, Nat.cast_zero, zero_mul, nearest_zero]
  have hpow := ten_zpow_pos exponent
  have hx : 0 ≤ (digits : ℚ) * 10 ^ exponent := by positivity
  obtain ⟨hlow, hhigh⟩ := toDigits_bounds hdigits
  rw [magnitudeOfDecimal, if_neg hdigits.ne']
  generalize ((Nat.toDigits 10 digits).length : ℤ) = length at *
  simp only
  split_ifs with hlarge hsmall
  · refine (nearest_of_ge ?_).symm
    calc (2 : ℚ) ^ 1024 ≤ 10 ^ (310 : ℤ) := mod_cast pow_le_ten_pow
      _ ≤ 10 ^ (length - 1 + exponent) := zpow_le_zpow_right₀ (by norm_num) (by omega)
      _ = 10 ^ (length - 1) * 10 ^ exponent := zpow_add₀ (by norm_num) _ _
      _ ≤ digits * 10 ^ exponent := by gcongr
  · refine (Nat.le_zero.mp (nearest_le hx ?_)).symm
    calc 2 * ((digits : ℚ) * 10 ^ exponent) ≤ 2 * (10 ^ length * 10 ^ exponent) := by gcongr
      _ = 2 * 10 ^ (length + exponent) := by rw [zpow_add₀ (by norm_num)]
      _ ≤ 2 * 10 ^ (-331 : ℤ) := by
          gcongr
          · norm_num
          · omega
      _ < 2 ^ (-1074 : ℤ) := by
          rw [zpow_neg, zpow_neg, ← div_eq_mul_inv, div_lt_iff₀ (ten_zpow_pos _),
            ← div_eq_inv_mul, lt_div_iff₀ (two_zpow_pos _)]
          exact_mod_cast pow_lt_ten_pow
      _ = value 0 + value 1 := by
          rw [value_succ, value_zero]
          simp [gap]
  · have hscaled := scaled_div digits 1 10 (by norm_num) (-exponent)
    rw [neg_neg, one_mul, Nat.cast_one, div_one, zpow_neg, div_inv_eq_mul,
      Nat.cast_ofNat] at hscaled
    rw [← hscaled]
    exact magnitudeOfRatio_eq _ (Nat.pow_pos (by norm_num))

/-! ## The grids of decimals -/

/-- The place of the point in the decimals of a magnitude. -/
def orderOf (m : ℕ) : ℤ := decimalOrder (numerator m) (denominator m)

theorem denominator_pos (m : ℕ) : 0 < denominator m := Nat.pow_pos two_pos

theorem decimalOrder_bounds {n d : ℕ} (hd : 0 < d) (hlarge : (10 : ℚ) ^ (-(400 : ℕ) : ℤ) ≤ n / d) :
    (10 : ℚ) ^ (decimalOrder n d - 1) ≤ n / d ∧ (n : ℚ) / d < 10 ^ decimalOrder n d := by
  have hle_iff : ∀ e : ℤ, (10 : ℚ) ^ e ≤ n / d ↔ d * 10 ^ e.toNat ≤ n * 10 ^ (-e).toNat := fun e =>
    mod_cast zpow_le_div_iff hd (b := 10) (by norm_num) e
  rw [decimalOrder]
  split_ifs with hle
  · obtain ⟨hlow, hhigh⟩ := toDigits_bounds (Nat.div_pos hle hd)
    refine ⟨hlow.trans Nat.cast_div_le, ?_⟩
    rw [zpow_natCast] at hhigh ⊢
    rw [div_lt_iff₀ (Nat.cast_pos.mpr hd)]
    exact_mod_cast (Nat.div_lt_iff_lt_mul hd).mp (by exact_mod_cast hhigh)
  · obtain ⟨last, hlast⟩ : ∃ last, last + 1 = 400 := ⟨399, rfl⟩
    rw [← hlast, hle_iff, Int.toNat_neg_natCast, neg_neg, Int.toNat_natCast, pow_zero,
      mul_one] at hlarge
    obtain ⟨shift, hshift⟩ := Option.isSome_iff_exists.mp
      (List.find?_isSome (p := fun k => decide (d ≤ n * Nat.pow 10 (k + 1))).mpr
        ⟨last, List.mem_range.mpr (Nat.lt_of_succ_le hlast.le), decide_eq_true hlarge⟩)
    obtain ⟨hfound, -, hbefore⟩ := List.find?_range_eq_some.mp hshift
    have hneg : Int.neg (shift : ℤ) = -(shift : ℤ) := rfl
    simp only [hshift, Option.getD_some]
    rw [hneg, ← not_le, hle_iff, hle_iff]
    constructor
    · rw [show (-(shift : ℤ) - 1).toNat = 0 by omega,
        show (-(-(shift : ℤ) - 1)).toNat = shift + 1 by omega, pow_zero, mul_one]
      exact of_decide_eq_true hfound
    · rw [show (-(shift : ℤ)).toNat = 0 by omega, show (-(-(shift : ℤ))).toNat = shift by omega,
        pow_zero, mul_one]
      cases shift with
      | zero => simpa using hle
      | succ before =>
        have := hbefore before before.lt_succ_self
        simpa using this

theorem orderOf_bounds {m : ℕ} (hm : 0 < m) :
    (10 : ℚ) ^ (orderOf m - 1) ≤ value m ∧ value m < 10 ^ orderOf m := by
  refine decimalOrder_bounds (denominator_pos m) ?_
  calc (10 : ℚ) ^ (-(400 : ℕ) : ℤ) ≤ 2 ^ (-(1074 : ℕ) : ℤ) := by
        rw [zpow_neg, zpow_neg, zpow_natCast, zpow_natCast]
        exact inv_anti₀ (pow_pos two_pos _) (mod_cast pow_le_ten_pow_least)
    _ = value 1 := by
        rw [← zero_add 1, value_succ, value_zero]
        simp [gap]
    _ ≤ value m := strictMono_value.monotone hm

/-- On a grid the nearest decimal is tried, and then the one on the other side of the value. -/
theorem nearestOnGrid_eq (m : ℕ) (e : ℤ) : ∃ digits other : ℕ,
    2 * (value m / 10 ^ e) ≤ 2 * digits + 1 ∧ 2 * (digits : ℚ) ≤ 2 * (value m / 10 ^ e) + 1 ∧
    (other : ℚ) ≤ value m / 10 ^ e + 1 ∧
    nearestOnGrid m e =
      if nearest (digits * 10 ^ e) = m then some ⟨digits, e⟩
      else if nearest (other * 10 ^ e) = m then some ⟨other, e⟩
      else none := by
  have hd : 0 < denominator m * 10 ^ e.toNat := Nat.mul_pos (denominator_pos m) (by positivity)
  have hscaled := scaled_div (numerator m) (denominator m) 10 (by norm_num) e
  rw [← value, Nat.cast_ofNat] at hscaled
  rw [← hscaled]
  obtain ⟨hlow, hhigh⟩ := divHalfEven_bounds (numerator m * 10 ^ (-e).toNat) hd
  refine ⟨_, _, hlow, hhigh, ?_, by
    simp only [nearestOnGrid, beq_iff_eq, magnitudeOfDecimal_eq]
    rfl⟩
  have hfloor : ((numerator m * 10 ^ (-e).toNat / (denominator m * 10 ^ e.toNat) : ℕ) : ℚ) ≤
      (numerator m * 10 ^ (-e).toNat : ℕ) / (denominator m * 10 ^ e.toNat : ℕ) := Nat.cast_div_le
  split_ifs
  · rw [Nat.cast_add_one]
    exact add_le_add_left hfloor 1
  · exact hfloor.trans (le_add_of_nonneg_right zero_le_one)

/-- What is found on a grid is read as the magnitude. -/
theorem nearestOnGrid_eq_some {m : ℕ} {e : ℤ} {x : Decimal} (h : nearestOnGrid m e = some x) :
    x.exponent = e ∧ nearest x.value = m ∧ (x.digits : ℚ) ≤ value m / 10 ^ e + 1 := by
  obtain ⟨digits, other, -, hdigits, hother, heq⟩ := nearestOnGrid_eq m e
  rw [heq] at h
  split_ifs at h with hnearest hnearest'
  · obtain rfl := Option.some.inj h
    exact ⟨rfl, hnearest, by simp only; linarith⟩
  · obtain rfl := Option.some.inj h
    exact ⟨rfl, hnearest', hother⟩

/-- Seventeen digits are enough. -/
theorem nearestOnGrid_seventeen {m : ℕ} (hm : 0 < m) (hfinite : m ≤ infinite) :
    (nearestOnGrid m (orderOf m - 17)).isSome := by
  obtain ⟨digits, other, hlow, hhigh, -, heq⟩ := nearestOnGrid_eq m (orderOf m - 17)
  have hstep := ten_zpow_pos (orderOf m - 17)
  have hspace : 2 ^ 53 * (10 : ℚ) ^ (orderOf m - 17) < value m := by
    calc 2 ^ 53 * (10 : ℚ) ^ (orderOf m - 17) < 10 ^ 16 * 10 ^ (orderOf m - 17) := by
          gcongr
          norm_num
      _ = 10 ^ (orderOf m - 1) := by
          rw [← zpow_natCast, ← zpow_add₀ (by norm_num)]
          congr 1
          push_cast
          ring
      _ ≤ value m := (orderOf_bounds hm).1
  generalize (10 : ℚ) ^ (orderOf m - 17) = step at *
  rw [mul_div_assoc', div_le_iff₀ hstep] at hlow
  rw [mul_div_assoc', ← sub_le_iff_le_add, le_div_iff₀ hstep] at hhigh
  rw [heq, if_pos, Option.isSome_some]
  refine nearest_eq_of_between hfinite (mul_nonneg digits.cast_nonneg hstep.le) ?_ ?_
  · have := value_lt_gap m
    rw [value_succ]
    linarith
  · rintro below rfl
    have := value_succ_le_gap below
    rw [value_succ] at *
    linarith

/-! ## The search for the shortest -/

/-- The shortest decimal is the first that is found, grid by grid. -/
theorem exists_shortest {m : ℕ} (hm : 0 < m) (hfinite : m ≤ infinite) : ∃ count < 17, ∃ x,
    nearestOnGrid m (orderOf m - (count + 1 : ℕ)) = some x ∧ shortest m = x.stripped ∧
    ∀ fewer < count, nearestOnGrid m (orderOf m - (fewer + 1 : ℕ)) = none := by
  have hgrids : ∀ count < 17,
      ((List.range 17).map fun count => orderOf m - (count + 1 : ℕ))[count]? =
        some (orderOf m - (count + 1 : ℕ)) := fun count hlt => by
    rw [List.getElem?_map, List.getElem?_range hlt, Option.map_some]
  have hsome : (((List.range 17).map fun count => orderOf m - (count + 1 : ℕ)).findSome?
      (nearestOnGrid m)).isSome :=
    List.findSome?_isSome_iff.mpr
      ⟨_, List.mem_of_getElem? (hgrids 16 (by norm_num)), nearestOnGrid_seventeen hm hfinite⟩
  obtain ⟨x, hx⟩ := Option.isSome_iff_exists.mp hsome
  obtain ⟨before, e, behind, hsplit, hfound, hnone⟩ := List.findSome?_eq_some_iff.mp hx
  have hcount : before.length < 17 := by
    have := congrArg List.length hsplit
    simp only [List.length_map, List.length_range, List.length_append, List.length_cons] at this
    omega
  have he : orderOf m - (before.length + 1 : ℕ) = e := by
    have := hgrids _ hcount
    rw [hsplit, List.getElem?_append_right le_rfl, Nat.sub_self] at this
    exact (Option.some.inj this).symm
  refine ⟨before.length, hcount, x, he ▸ hfound, ?_, fun fewer hfewer => ?_⟩
  · rw [shortest]
    exact congrArg (fun found : Option Decimal => (found.getD ⟨0, 0⟩).stripped) hx
  · have := hgrids fewer (hfewer.trans hcount)
    rw [hsplit, List.getElem?_append_left hfewer] at this
    exact hnone _ (List.mem_of_getElem? this)

/-- The shortest decimal is read as its magnitude, and no zero ends its digits. -/
theorem shortest_spec {m : ℕ} (hm : 0 < m) (hfinite : m ≤ infinite) :
    nearest (shortest m).value = m ∧ 0 < (shortest m).digits ∧ (shortest m).digits % 10 ≠ 0 := by
  obtain ⟨count, -, x, hx, hshortest, -⟩ := exists_shortest hm hfinite
  obtain ⟨-, hnearest, -⟩ := nearestOnGrid_eq_some hx
  have hdigits : x.digits ≠ 0 := fun hzero => by
    rw [Decimal.value, hzero, Nat.cast_zero, zero_mul, nearest_zero] at hnearest
    omega
  have hmod := Decimal.digits_stripped hdigits
  rw [hshortest, Decimal.value_stripped]
  exact ⟨hnearest, by omega, hmod⟩

/-! ## Integers -/

theorem pos_of_value {m n : ℕ} (hn : 0 < n) (hvalue : value m = n) : 0 < m :=
  strictMono_value.lt_iff_lt.mp (by
    rw [value_zero, hvalue]
    exact_mod_cast hn)

/-- The point of an integer stands behind its digits. -/
theorem exists_orderOf_eq {m n : ℕ} (hn : 0 < n) (hvalue : value m = n) :
    ∃ last : ℕ, orderOf m = (last + 1 : ℕ) ∧ 10 ^ last ≤ n := by
  obtain ⟨hlow, hhigh⟩ := orderOf_bounds (pos_of_value hn hvalue)
  rw [hvalue] at hlow hhigh
  have horder : 0 < orderOf m := by
    rw [← zpow_lt_zpow_iff_right₀ (a := (10 : ℚ)) (by norm_num), zpow_zero]
    exact lt_of_le_of_lt (by exact_mod_cast hn) hhigh
  obtain ⟨last, hlast⟩ : ∃ last : ℕ, orderOf m = (last + 1 : ℕ) := ⟨(orderOf m).toNat - 1, by omega⟩
  rw [hlast, Nat.cast_add_one, add_sub_cancel_right, zpow_natCast] at hlow
  exact ⟨last, hlast, by exact_mod_cast hlow⟩

/-- A decimal of an integer of fifty-four bits that is read as a magnitude has the value of that, if
its digits are followed by a zero. -/
theorem value_eq_of_nearest {m digits exponent : ℕ}
    (hlarge : digits * 10 ^ (exponent + 1) ≤ 2 ^ 54)
    (h : nearest (digits * 10 ^ (exponent + 1)) = m) : value m = digits * 10 ^ (exponent + 1) := by
  -- the integer is even, so half of it has fifty-three bits
  obtain ⟨n, hn, hvalue⟩ := exists_value (k := digits * 10 ^ exponent * 5) (e := 1)
    (by rw [pow_succ, ← mul_assoc] at hlarge; omega) (by norm_num) (by norm_num)
  have heq : value n = digits * 10 ^ (exponent + 1) := by
    rw [hvalue, pow_succ]
    push_cast
    ring
  rw [← heq, nearest_value hn] at h
  rw [← h, heq]

/-- The grid of integers holds the magnitude of an integer. -/
theorem nearestOnGrid_integer {m n : ℕ} (hfinite : m ≤ infinite) (hvalue : value m = n) :
    nearestOnGrid m 0 = some ⟨n, 0⟩ := by
  obtain ⟨digits, other, hlow, hhigh, -, heq⟩ := nearestOnGrid_eq m 0
  rw [zpow_zero, div_one, hvalue] at hlow hhigh
  obtain rfl : digits = n := by
    have hlow : 2 * n ≤ 2 * digits + 1 := by exact_mod_cast hlow
    have hhigh : 2 * digits ≤ 2 * n + 1 := by exact_mod_cast hhigh
    omega
  rw [heq, zpow_zero, mul_one, ← hvalue, if_pos (nearest_value hfinite)]

/-- What is found for an integer of fifty-three bits is the integer, on each grid that is no wider
than the integer is large. -/
theorem value_of_nearestOnGrid {m n zeros : ℕ} {x : Decimal} (hfinite : m ≤ infinite)
    (hn : n ≤ 2 ^ 53) (hvalue : value m = n) (hzeros : 10 ^ zeros ≤ n)
    (h : nearestOnGrid m zeros = some x) : x.value = n := by
  obtain ⟨hexponent, hnearest, hdigits⟩ := nearestOnGrid_eq_some h
  rw [Decimal.value, hexponent, zpow_natCast] at *
  cases zeros with
  | zero =>
    rw [Nat.cast_zero, nearestOnGrid_integer hfinite hvalue] at h
    obtain rfl := Option.some.inj h
    rw [pow_zero, mul_one]
  | succ e =>
    rw [hvalue, ← sub_le_iff_le_add, le_div_iff₀ (by positivity), sub_mul, one_mul,
      sub_le_iff_le_add] at hdigits
    have hdigits : x.digits * 10 ^ (e + 1) ≤ n + 10 ^ (e + 1) := by exact_mod_cast hdigits
    rw [← value_eq_of_nearest (by omega) hnearest, hvalue]

end Binary64

/-- A decimal that is a positive integer with zeros behind its digits stays one without the zeros
that end its digits. -/
theorem Decimal.exists_stripped_eq {x : Decimal} {zeros n : ℕ} (hn : 0 < n)
    (hexponent : x.exponent = zeros) (hvalue : x.value = n) :
    ∃ all : ℕ, x.stripped.exponent = all ∧ x.stripped.digits * 10 ^ all = n := by
  have hdigits : x.digits ≠ 0 := fun hzero => by
    rw [Decimal.value, hzero, Nat.cast_zero, zero_mul] at hvalue
    exact hn.ne (by exact_mod_cast hvalue)
  have hle := exponent_le_stripped hdigits
  obtain ⟨all, hall⟩ : ∃ all : ℕ, x.stripped.exponent = all := ⟨x.stripped.exponent.toNat, by omega⟩
  refine ⟨all, hall, ?_⟩
  rw [← value_stripped, Decimal.value, hall, zpow_natCast] at hvalue
  exact_mod_cast hvalue

namespace Binary64

/-- The shortest decimal of an integer of fifty-three bits is the integer. -/
theorem shortest_integer {m n : ℕ} (hfinite : m ≤ infinite) (hn : 0 < n) (hn' : n ≤ 2 ^ 53)
    (hvalue : value m = n) :
    ∃ zeros : ℕ, (shortest m).exponent = zeros ∧ (shortest m).digits * 10 ^ zeros = n := by
  obtain ⟨last, hlast, hpow⟩ := exists_orderOf_eq hn hvalue
  obtain ⟨count, -, x, hx, hshortest, hnone⟩ := exists_shortest (pos_of_value hn hvalue) hfinite
  -- the search ends on the grid of integers at the latest
  have hcount : count ≤ last := by
    by_contra hlt
    have := hnone last (Nat.not_le.mp hlt)
    rw [hlast, sub_self, nearestOnGrid_integer hfinite hvalue] at this
    cases this
  obtain ⟨zeros, hzeros⟩ : ∃ zeros : ℕ, last = count + zeros := Nat.exists_eq_add_of_le hcount
  have hgrid : orderOf m - (count + 1 : ℕ) = zeros := by omega
  rw [hgrid] at hx
  rw [hshortest]
  exact Decimal.exists_stripped_eq hn (nearestOnGrid_eq_some hx).1
    (value_of_nearestOnGrid hfinite hn' hvalue
      ((Nat.pow_le_pow_right (by norm_num) (by omega)).trans hpow) hx)

end Binary64

end ReleasePrompts.Number
