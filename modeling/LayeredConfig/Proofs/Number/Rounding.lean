import LayeredConfig.Number.Binary64
import Mathlib.Algebra.Order.Field.Basic
import Mathlib.Data.Nat.Log
import Mathlib.Data.Rat.Cast.Order

/-!
# Rounding to the nearest floating point number

`ofRatio` counts a quotient in units, cuts it to 53 binary digits by a shift and rounds what is left
to an integer. Shifts and mantissas grow with the quotient, and where the shift gets larger the
mantissa cannot fall behind, as one of 54 digits and one of 53 meet at the power of two between
them. So magnitudes are ordered like the quotients that they are nearest to.

* `Binary64.value`: the absolute value of a finite number.
* `Binary64.ofRatio_congr`: the nearest number depends on the value of the quotient only.
* `Binary64.magnitude_ofRatio_mono`: it grows with this value.
* `Binary64.ofRatio_value`: a quotient that is a floating point number is not changed.
* `Binary64.value_lt_value_iff`: magnitudes are ordered like absolute values.
-/

namespace LayeredConfig.Number

theorem twoPow_eq (n : Nat) : twoPow n = 2 ^ n := rfl

theorem twoPow_mono {m n : Nat} (h : m ≤ n) : twoPow m ≤ twoPow n :=
  Nat.pow_le_pow_right Nat.two_pos h

theorem twoPow_dvd_twoPow {m n : Nat} (h : m ≤ n) : twoPow m ∣ twoPow n := Nat.pow_dvd_pow 2 h

theorem tenPow_eq (n : Nat) : tenPow n = 10 ^ n := rfl

namespace Binary64

variable {negative negative' : Bool} {n n' d d' k q : Nat} {x y : Binary64}

/-- Numbers of one magnitude differ in the sign only. -/
theorem eq_of_magnitude_eq (h : x.magnitude = y.magnitude) :
    x = ⟨x.negative, y.magnitude, y.magnitude_lt⟩ := by
  rw [Binary64.mk.injEq]
  exact ⟨rfl, h⟩

/-- The mantissa of a number has 53 binary digits. -/
theorem mantissa_lt (x : Binary64) : twoPow 52 + x.magnitude % twoPow 52 < twoPow 53 := by
  have hmod := Nat.mod_lt x.magnitude (twoPow_pos 52)
  have hdouble : twoPow 53 = twoPow 52 * 2 := twoPow_succ 52
  omega

/-! ### Rounding to integers -/

/-- The integer nearest to a quotient is one of the two around it. -/
theorem divRoundEven_bounds (n d : Nat) :
    n / d ≤ divRoundEven n d ∧ divRoundEven n d ≤ n / d + 1 := by
  unfold divRoundEven
  dsimp only
  split_ifs <;> omega

theorem divRoundEven_mono (h : n ≤ n') : divRoundEven n d ≤ divRoundEven n' d := by
  obtain ⟨-, hupper⟩ := divRoundEven_bounds n d
  obtain ⟨hlower, -⟩ := divRoundEven_bounds n' d
  rcases Nat.lt_or_eq_of_le (Nat.div_le_div_right (c := d) h) with hlt | heq
  · omega
  -- between the same two integers the remainders decide
  · have hmod : n % d ≤ n' % d := by
      have hn := Nat.div_add_mod n d
      have hn' := Nat.div_add_mod n' d
      rw [← heq] at hn'
      omega
    unfold divRoundEven
    dsimp only
    rw [← heq]
    split_ifs <;> omega

/-- Integers are not changed. -/
theorem divRoundEven_mul_left (q : Nat) (hd : 0 < d) : divRoundEven (q * d) d = q := by
  unfold divRoundEven
  dsimp only
  rw [Nat.mul_mod_left, Nat.mul_div_cancel q hd, if_pos (by omega)]

theorem divRoundEven_mul_mul (n d : Nat) (hk : 0 < k) :
    divRoundEven (n * k) (d * k) = divRoundEven n d := by
  unfold divRoundEven
  dsimp only
  rw [Nat.mul_div_mul_right n d hk, Nat.mul_mod_mul_right, ← Nat.mul_assoc]
  simp only [Nat.mul_lt_mul_right hk]

/-! ### Shifts -/

/-- The number of binary digits of a count of units that are cut off. -/
def shift (q : Nat) : Nat := q.log2 - 52

theorem shift_mono (h : n ≤ n') : shift n ≤ shift n' := by
  have hlog : n.log2 ≤ n'.log2 := by
    rw [Nat.log2_eq_log_two, Nat.log2_eq_log_two]
    exact Nat.log_mono_right h
  exact Nat.sub_le_sub_right hlog 52

/-- What is left has at most 53 digits. -/
theorem lt_twoPow_shift (q : Nat) : q < twoPow 53 * twoPow (shift q) := by
  have hlog : q.log2 + 1 ≤ 53 + shift q := by
    unfold shift
    omega
  rw [twoPow_eq, twoPow_eq, ← Nat.pow_add]
  exact Nat.lt_of_lt_of_le Nat.lt_log2_self (Nat.pow_le_pow_right Nat.two_pos hlog)

/-- It has 53 digits if anything is cut off. -/
theorem twoPow_shift_le (h : 0 < shift q) : twoPow 52 * twoPow (shift q) ≤ q := by
  have hlog : 52 + shift q = q.log2 := by
    unfold shift at *
    omega
  have hq : q ≠ 0 := by
    rintro rfl
    exact absurd h (by decide)
  rw [twoPow_eq, twoPow_eq, ← Nat.pow_add, hlog]
  exact Nat.log2_self_le hq

/-- The shift of a number of 53 digits is where its last digit stands. -/
theorem shift_mul_twoPow (hlow : twoPow 52 ≤ q) (hhigh : q < twoPow 53) (k : Nat) :
    shift (q * twoPow k) = k := by
  have hne : q * twoPow k ≠ 0 :=
    Nat.mul_ne_zero (Nat.ne_of_gt (Nat.lt_of_lt_of_le (twoPow_pos 52) hlow))
      (Nat.ne_of_gt (twoPow_pos k))
  have hlog : (q * twoPow k).log2 = 52 + k := by
    rw [Nat.log2_eq_iff hne]
    constructor
    · rw [Nat.pow_add]
      exact Nat.mul_le_mul_right _ hlow
    · rw [show 52 + k + 1 = 53 + k by omega, Nat.pow_add]
      exact Nat.mul_lt_mul_of_pos_right hhigh (twoPow_pos k)
  rw [shift, hlog, Nat.add_sub_cancel_left]

/-! ### Rounding to floating point numbers -/

theorem magnitude_ofRatio (negative : Bool) (n d : Nat) : (ofRatio negative n d).magnitude =
    min (shift (n * unitsPerOne / d) * twoPow 52 +
      divRoundEven (n * unitsPerOne) (d * twoPow (shift (n * unitsPerOne / d))))
      infiniteMagnitude := rfl

theorem ofRatio_mul_mul (negative : Bool) (n d : Nat) (hk : 0 < k) :
    ofRatio negative (n * k) (d * k) = ofRatio negative n d := by
  rw [Binary64.mk.injEq]
  refine ⟨rfl, ?_⟩
  rw [magnitude_ofRatio, magnitude_ofRatio, Nat.mul_right_comm n k,
    Nat.mul_div_mul_right _ _ hk, Nat.mul_right_comm d k, divRoundEven_mul_mul _ _ hk]

theorem magnitude_ofRatio_le_of_le (h : n ≤ n') (hd : 0 < d) :
    (ofRatio negative n d).magnitude ≤ (ofRatio negative' n' d).magnitude := by
  rw [magnitude_ofRatio, magnitude_ofRatio]
  have hscaled := Nat.mul_le_mul_right unitsPerOne h
  revert hscaled
  generalize n * unitsPerOne = scaled
  generalize n' * unitsPerOne = scaled'
  intro hscaled
  have hmono := shift_mono (Nat.div_le_div_right (c := d) hscaled)
  refine Nat.le_min.2 ⟨Nat.le_trans (Nat.min_le_left _ _) ?_, Nat.min_le_right _ _⟩
  rcases Nat.lt_or_eq_of_le hmono with hlt | heq
  -- the smaller mantissa is at most `2 ^ 53`, the one that is shifted further at least `2 ^ 52`
  · have hdigits := lt_twoPow_shift (scaled / d)
    have hdigits' := twoPow_shift_le (Nat.lt_of_le_of_lt (Nat.zero_le _) hlt)
    revert hlt hdigits hdigits'
    generalize shift (scaled / d) = s
    generalize shift (scaled' / d) = s'
    intro hlt hdigits hdigits'
    have hpos : ∀ s, 0 < d * twoPow s := fun s => Nat.mul_pos hd (twoPow_pos s)
    have hupper : divRoundEven scaled (d * twoPow s) ≤ twoPow 53 := by
      rw [← divRoundEven_mul_left (twoPow 53) (hpos s)]
      apply divRoundEven_mono
      rw [Nat.mul_left_comm, Nat.mul_comm]
      exact Nat.le_of_lt ((Nat.div_lt_iff_lt_mul hd).1 hdigits)
    have hlower : twoPow 52 ≤ divRoundEven scaled' (d * twoPow s') := by
      rw [← divRoundEven_mul_left (twoPow 52) (hpos s')]
      apply divRoundEven_mono
      rw [Nat.mul_left_comm, Nat.mul_comm]
      exact (Nat.le_div_iff_mul_le hd).1 hdigits'
    rw [twoPow_succ] at hupper
    have hstep := Nat.mul_le_mul_right (twoPow 52) (Nat.succ_le_of_lt hlt)
    rw [Nat.succ_mul] at hstep
    omega
  · rw [heq]
    exact Nat.add_le_add_left (divRoundEven_mono hscaled) _

/-- The quotient that counts a finite number in units is this number. -/
theorem ofRatio_of_units (hx : x.isFinite) (hd : 0 < d) (h : n * unitsPerOne = x.units * d)
    (negative : Bool) : ofRatio negative n d = ⟨negative, x.magnitude, x.magnitude_lt⟩ := by
  rw [Binary64.mk.injEq]
  refine ⟨rfl, ?_⟩
  rw [isFinite, decide_eq_true_eq] at hx
  rw [magnitude_ofRatio, h, Nat.mul_div_cancel _ hd, units]
  split
  -- few digits are not shifted
  next hsmall =>
    have hshift : shift x.magnitude = 0 := by
      have hlog : x.magnitude.log2 < 53 := by
        rcases Nat.eq_zero_or_pos x.magnitude with hzero | hpos
        · rw [hzero]
          decide
        · rw [Nat.log2_lt (Nat.ne_of_gt hpos)]
          exact Nat.lt_of_lt_of_le hsmall (by decide)
      exact Nat.sub_eq_zero_of_le (by omega)
    rw [hshift, twoPow_zero, Nat.mul_one, divRoundEven_mul_left _ hd, Nat.zero_mul, Nat.zero_add]
    exact Nat.min_eq_left (Nat.le_of_lt hx)
  -- others are a mantissa of 53 digits, shifted by the exponent
  next hlarge =>
    have hdiv := Nat.div_add_mod x.magnitude (twoPow 52)
    have hexponent : 0 < x.magnitude / twoPow 52 :=
      Nat.div_pos (Nat.le_of_not_lt hlarge) (twoPow_pos 52)
    obtain ⟨e, he⟩ := Nat.exists_eq_add_of_lt hexponent
    rw [Nat.zero_add] at he
    rw [he] at hdiv ⊢
    rw [Nat.add_sub_cancel, shift_mul_twoPow (Nat.le_add_right _ _) (mantissa_lt x),
      Nat.mul_assoc, Nat.mul_comm (twoPow e) d,
      divRoundEven_mul_left _ (Nat.mul_pos hd (twoPow_pos e))]
    rw [Nat.mul_comm, Nat.succ_mul] at hdiv
    rw [← Nat.add_assoc, hdiv]
    exact Nat.min_eq_left (Nat.le_of_lt hx)

/-! ### Rounding by value -/

/-- The absolute value of a finite number. -/
def value (x : Binary64) : ℚ := x.units / unitsPerOne

theorem unitsPerOne_pos : 0 < unitsPerOne := twoPow_pos 1074

theorem value_of_units (h : x.units = n * unitsPerOne) : x.value = n := by
  rw [value, h, Nat.cast_mul, mul_div_cancel_right₀]
  exact_mod_cast unitsPerOne_pos.ne'

theorem natCast_le_value_iff : (n : ℚ) ≤ x.value ↔ n * unitsPerOne ≤ x.units := by
  rw [value, le_div_iff₀ (by exact_mod_cast unitsPerOne_pos)]
  exact_mod_cast Iff.rfl

/-- Nearest numbers grow with the value of the quotient. -/
theorem magnitude_ofRatio_mono (hd : 0 < d) (hd' : 0 < d') (h : (n / d : ℚ) ≤ n' / d') :
    (ofRatio negative n d).magnitude ≤ (ofRatio negative' n' d').magnitude := by
  rw [div_le_div_iff₀ (by exact_mod_cast hd) (by exact_mod_cast hd')] at h
  -- quotients are compared over one denominator
  rw [← ofRatio_mul_mul negative n d hd', ← ofRatio_mul_mul negative' n' d' hd, Nat.mul_comm d' d]
  exact magnitude_ofRatio_le_of_le (by exact_mod_cast h) (Nat.mul_pos hd hd')

/-- Quotients of one value are nearest to one number. -/
theorem ofRatio_congr (hd : 0 < d) (hd' : 0 < d') (h : (n / d : ℚ) = n' / d')
    (negative : Bool) : ofRatio negative n d = ofRatio negative n' d' := by
  rw [Binary64.mk.injEq]
  exact ⟨rfl, Nat.le_antisymm (magnitude_ofRatio_mono hd hd' h.le)
    (magnitude_ofRatio_mono hd' hd h.ge)⟩

/-- The number nearest to an integer that is not zero has the sign of this integer. -/
theorem ofInt_signed (negative : Bool) (hn : 0 < n) :
    ofInt (if negative then -(n : Int) else n) = ofRatio negative n 1 := by
  rw [ofInt]
  cases negative with
  | false => rw [if_neg Bool.false_ne_true, decide_eq_false (by omega), Int.natAbs_natCast]
  | true => rw [if_pos rfl, decide_eq_true (by omega), Int.natAbs_neg, Int.natAbs_natCast]

/-- A floating point number is nearest to itself. -/
theorem ofRatio_value (hx : x.isFinite) (hd : 0 < d) (h : (n / d : ℚ) = x.value)
    (negative : Bool) : ofRatio negative n d = ⟨negative, x.magnitude, x.magnitude_lt⟩ := by
  rw [value, div_eq_div_iff (by exact_mod_cast hd.ne') (by exact_mod_cast unitsPerOne_pos.ne')] at h
  exact ofRatio_of_units hx hd (by exact_mod_cast h) negative

theorem magnitude_le_of_value_le (hx : x.isFinite) (hy : y.isFinite) (h : x.value ≤ y.value) :
    x.magnitude ≤ y.magnitude := by
  have hmono : (ofRatio false x.units unitsPerOne).magnitude ≤
      (ofRatio false y.units unitsPerOne).magnitude :=
    magnitude_ofRatio_mono unitsPerOne_pos unitsPerOne_pos h
  rwa [ofRatio_value hx unitsPerOne_pos rfl, ofRatio_value hy unitsPerOne_pos rfl] at hmono

/-- Magnitudes are ordered like absolute values. -/
theorem value_lt_value_iff (hx : x.isFinite) (hy : y.isFinite) :
    x.value < y.value ↔ x.magnitude < y.magnitude := by
  constructor
  · intro h
    refine Nat.lt_of_le_of_ne (magnitude_le_of_value_le hx hy h.le) fun heq => ?_
    rw [value, value, units, units, heq] at h
    exact lt_irrefl _ h
  · intro h
    by_contra hle
    exact absurd (magnitude_le_of_value_le hy hx (not_lt.1 hle)) (Nat.not_le_of_lt h)

theorem value_le_value_iff (hx : x.isFinite) (hy : y.isFinite) :
    x.value ≤ y.value ↔ x.magnitude ≤ y.magnitude := by
  rw [← not_lt, value_lt_value_iff hy hx, Nat.not_lt]

end Binary64

end LayeredConfig.Number
