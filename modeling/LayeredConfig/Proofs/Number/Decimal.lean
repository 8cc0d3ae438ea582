import LayeredConfig.Number.Shortest
import LayeredConfig.Proofs.Number.Rounding
import Mathlib.Algebra.Order.Field.Power
import Mathlib.Tactic.NormNum

/-!
# The values of decimal numbers

A decimal number is read as the floating point number nearest to its value: the bounds on its point
only keep quotients small. So what is read does not depend on how a value is written, with zeros at
the end or without them.

* `Decimal.toBinary64_eq_ofRatio`: reading is rounding of any quotient of the same value.
* `Decimal.toBinary64_congr`, `Decimal.magnitude_toBinary64_mono`: what is read depends on the value
  only and grows with it.
* `Decimal.value_dropZeros`: zeros at the end do not count.
-/

namespace LayeredConfig.Number.Decimal

variable {negative negative' : Bool} {d d' : Decimal} {n m k : Nat}

/-- The number that digits and exponent stand for. -/
def value (d : Decimal) : ℚ := d.digits * 10 ^ d.exponent

theorem value_nonneg (d : Decimal) : 0 ≤ d.value := by
  unfold value
  positivity

@[simp]
theorem value_exponent_zero (n : Nat) : value ⟨n, 0⟩ = n := by
  rw [value, zpow_zero, mul_one]

theorem cast_tenPow (k : Nat) : (tenPow k : ℚ) = 10 ^ (k : Int) := by
  rw [tenPow_eq, Nat.cast_pow, Nat.cast_ofNat, zpow_natCast]

/-- Zeros behind the digits are powers of ten. -/
theorem value_mul_tenPow (n k : Nat) (e : Int) : value ⟨n * tenPow k, e⟩ = value ⟨n, e + k⟩ := by
  rw [value, value, Nat.cast_mul, cast_tenPow, zpow_add₀ (by norm_num), mul_assoc,
    mul_comm (10 ^ (k : Int) : ℚ)]

/-- A quotient whose denominator divides a power of ten has finitely many digits. -/
theorem value_mul_of_eq_tenPow {p f : Nat} (hf : 0 < f) (h : p * f = tenPow k) (n : Nat) :
    value ⟨n * f, -k⟩ = n / p := by
  have hfq : (f : ℚ) ≠ 0 := by exact_mod_cast hf.ne'
  rw [value, zpow_neg, ← cast_tenPow, ← h, Nat.cast_mul, Nat.cast_mul, ← div_eq_mul_inv,
    mul_div_mul_right _ _ hfq]

/-! ### Digits -/

theorem digitCount_le_iff (h : 0 < k) : digitCount n ≤ k ↔ n < 10 ^ k :=
  Nat.length_toDigits_le_iff (by decide) h

theorem digitCount_pos (n : Nat) : 0 < digitCount n := List.length_pos_iff.2 Nat.toDigits_ne_nil

theorem lt_pow_digitCount (n : Nat) : n < 10 ^ digitCount n :=
  (digitCount_le_iff (digitCount_pos n)).1 (Nat.le_refl _)

theorem pow_le_of_lt_digitCount (hk : 0 < k) (h : k < digitCount n) : 10 ^ k ≤ n :=
  Nat.le_of_not_lt fun hlt => absurd ((digitCount_le_iff hk).2 hlt) (Nat.not_le_of_lt h)

theorem pow_digitCount_pred_le (h : n ≠ 0) : 10 ^ (digitCount n - 1) ≤ n := by
  rcases Nat.eq_zero_or_pos (digitCount n - 1) with hzero | hpos
  · rw [hzero, Nat.pow_zero]
    exact Nat.pos_of_ne_zero h
  · exact pow_le_of_lt_digitCount hpos (Nat.sub_lt (digitCount_pos n) Nat.one_pos)

/-- A value is below the power of ten with a zero for each digit before its point. -/
theorem value_lt_pow_point (d : Decimal) : d.value < 10 ^ d.point := by
  have hdigits : (d.digits : ℚ) < 10 ^ (digitCount d.digits : Int) := by
    rw [zpow_natCast]
    exact_mod_cast lt_pow_digitCount d.digits
  rw [value, point, zpow_add₀ (by norm_num)]
  exact mul_lt_mul_of_pos_right hdigits (by positivity)

/-- A value other than zero is at least the power of ten with as many digits before the point. -/
theorem pow_point_pred_le_value (h : d.digits ≠ 0) : 10 ^ (d.point - 1) ≤ d.value := by
  have hdigits : (10 : ℚ) ^ ((digitCount d.digits : Int) - 1) ≤ d.digits := by
    have hpos := digitCount_pos d.digits
    rw [show (digitCount d.digits : Int) - 1 = (digitCount d.digits - 1 : Nat) by omega,
      zpow_natCast]
    exact_mod_cast pow_digitCount_pred_le h
  rw [value, point, add_sub_right_comm, zpow_add₀ (by norm_num)]
  exact mul_le_mul_of_nonneg_right hdigits (by positivity)

/-! ### Reading -/

/-- Below `10 ^ -330` every number is nearest to zero. -/
theorem ofRatio_of_lt (hm : 0 < m) (h : (n / m : ℚ) < 10 ^ (-330 : Int)) :
    Binary64.ofRatio negative n m = .zero negative := by
  have htiny : (Binary64.ofRatio false 1 (tenPow 330)).magnitude = 0 := by decide +kernel
  have hle : (n / m : ℚ) ≤ (1 : Nat) / (tenPow 330 : Nat) := by
    rw [cast_tenPow, Nat.cast_one, one_div, ← zpow_neg]
    exact h.le
  rw [Binary64.mk.injEq]
  refine ⟨rfl, Nat.le_zero.1 ?_⟩
  exact (Binary64.magnitude_ofRatio_mono hm (tenPow_pos 330) hle).trans_eq htiny

/-- From `10 ^ 310` on every number is nearest to infinity. -/
theorem ofRatio_of_le (hm : 0 < m) (h : (10 ^ (310 : Int) : ℚ) ≤ n / m) :
    Binary64.ofRatio negative n m = .infinity negative := by
  have hhuge : (Binary64.ofRatio false (tenPow 310) 1).magnitude = Binary64.infiniteMagnitude := by
    decide +kernel
  have hle : ((tenPow 310 : Nat) / (1 : Nat) : ℚ) ≤ n / m := by
    rw [cast_tenPow, Nat.cast_one, div_one]
    exact h
  rw [Binary64.mk.injEq]
  refine ⟨rfl, Nat.le_antisymm ?_ ?_⟩
  · rw [Binary64.magnitude_ofRatio]
    exact Nat.min_le_right _ _
  · exact hhuge.ge.trans (Binary64.magnitude_ofRatio_mono Nat.one_pos hm hle)

/-- A decimal number is read as the number nearest to any quotient of its value. -/
theorem toBinary64_eq_ofRatio (hm : 0 < m) (h : (n / m : ℚ) = d.value) (negative : Bool) :
    d.toBinary64 negative = .ofRatio negative n m := by
  have hmq : (m : ℚ) ≠ 0 := by exact_mod_cast hm.ne'
  unfold toBinary64
  split
  -- past the bounds the quotient does not matter either
  next hsmall =>
    refine (ofRatio_of_lt hm ?_).symm
    rw [h]
    rcases hsmall with hzero | hpoint
    · rw [value, hzero, Nat.cast_zero, zero_mul]
      positivity
    · exact (value_lt_pow_point d).trans (zpow_lt_zpow_right₀ (by norm_num) hpoint)
  next hsmall =>
    split
    next hlarge =>
      refine (ofRatio_of_le hm ?_).symm
      rw [h]
      exact (zpow_le_zpow_right₀ (by norm_num) (by omega)).trans
        (pow_point_pred_le_value fun hzero => hsmall (.inl hzero))
    next =>
      split
      -- between them it is that of the digits and a power of ten
      next hexponent =>
        apply Binary64.ofRatio_congr Nat.one_pos hm
        rw [h, value, Nat.cast_one, div_one, Nat.cast_mul, cast_tenPow,
          Int.toNat_of_nonneg hexponent]
      next hexponent =>
        apply Binary64.ofRatio_congr (tenPow_pos _) hm
        rw [h, value, cast_tenPow, Int.toNat_of_nonneg (by omega), zpow_neg, div_inv_eq_mul]

/-- Digits alone are read as the number nearest to an integer. -/
theorem toBinary64_exponent_zero (negative : Bool) (n : Nat) :
    toBinary64 negative ⟨n, 0⟩ = .ofRatio negative n 1 :=
  toBinary64_eq_ofRatio Nat.one_pos (by rw [value_exponent_zero, Nat.cast_one, div_one]) negative

/-- Each value is a quotient. -/
theorem exists_ratio (d : Decimal) : ∃ n m : Nat, 0 < m ∧ (n / m : ℚ) = d.value := by
  refine ⟨d.value.num.toNat, d.value.den, d.value.den_pos, ?_⟩
  have hnum : ((d.value.num.toNat : Nat) : ℚ) = d.value.num := by
    rw [← Int.cast_natCast, Int.toNat_of_nonneg (Rat.num_nonneg.2 d.value_nonneg)]
  rw [hnum]
  exact Rat.num_div_den d.value

/-- What is read depends on the value only. -/
theorem toBinary64_congr (h : d.value = d'.value) (negative : Bool) :
    d.toBinary64 negative = d'.toBinary64 negative := by
  obtain ⟨n, m, hm, hvalue⟩ := exists_ratio d
  rw [toBinary64_eq_ofRatio hm hvalue, toBinary64_eq_ofRatio hm (hvalue.trans h)]

/-- What is read grows with the value. -/
theorem magnitude_toBinary64_mono (h : d.value ≤ d'.value) :
    (d.toBinary64 negative).magnitude ≤ (d'.toBinary64 negative').magnitude := by
  obtain ⟨n, m, hm, hvalue⟩ := exists_ratio d
  obtain ⟨n', m', hm', hvalue'⟩ := exists_ratio d'
  rw [toBinary64_eq_ofRatio hm hvalue, toBinary64_eq_ofRatio hm' hvalue']
  exact Binary64.magnitude_ofRatio_mono hm hm' (by rwa [hvalue, hvalue'])

/-- The value of a floating point number is read as this number. -/
theorem toBinary64_of_value {x : Binary64} (hx : x.isFinite) (h : d.value = x.value) :
    d.toBinary64 x.negative = x := by
  rw [Binary64.value] at h
  rw [toBinary64_eq_ofRatio Binary64.unitsPerOne_pos h.symm,
    Binary64.ofRatio_value hx Binary64.unitsPerOne_pos rfl]

/-! ### Zeros at the end -/

/-- Zeros at the end do not count. -/
theorem value_dropZeros (d : Decimal) : d.dropZeros.value = d.value := by
  induction d using dropZeros.induct with
  | case1 d h ih =>
    have htimes : d.digits / 10 * tenPow 1 = d.digits :=
      Nat.div_mul_cancel (Nat.dvd_of_mod_eq_zero h.2)
    rw [dropZeros, dif_pos h, ih, ← Nat.cast_one, ← value_mul_tenPow, htimes]
  | case2 d h => rw [dropZeros, dif_neg h]

/-- No zero is left. -/
theorem dropZeros_digits (d : Decimal) (h : d.digits ≠ 0) : d.dropZeros.digits % 10 ≠ 0 := by
  induction d using dropZeros.induct with
  | case1 d hzero ih =>
    rw [dropZeros, dif_pos hzero]
    exact ih (Nat.ne_of_gt (Nat.div_pos (Nat.le_of_dvd (Nat.pos_of_ne_zero h)
      (Nat.dvd_of_mod_eq_zero hzero.2)) (by decide)))
  | case2 d hlast =>
    rw [dropZeros, dif_neg hlast]
    exact fun hmod => hlast ⟨h, hmod⟩

/-- Digits without a zero at the end have no fraction if the value is an integer. -/
theorem exponent_nonneg (hlast : d.digits % 10 ≠ 0) (h : d.value = n) : 0 ≤ d.exponent := by
  by_contra hneg
  obtain ⟨k, hk⟩ : ∃ k : Nat, d.exponent = -(k + 1 : Nat) := ⟨(-d.exponent - 1).toNat, by omega⟩
  rw [value, hk, zpow_neg, zpow_natCast, ← div_eq_mul_inv, div_eq_iff (by positivity)] at h
  have hdigits : d.digits = n * 10 ^ (k + 1) := by exact_mod_cast h
  rw [hdigits, Nat.pow_succ, ← Nat.mul_assoc] at hlast
  exact hlast (Nat.mul_mod_left _ 10)

end LayeredConfig.Number.Decimal
