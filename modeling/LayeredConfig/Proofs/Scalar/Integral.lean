import LayeredConfig.Proofs.Scalar.FloatText

/-!
# Integers and floating point numbers of one value

A floating point number is read as the integer that it equals, if there is one of 64 bits, and an
integer is read as the floating point number nearest to it. Where this number equals the integer,
the readings are inverse to each other (`Scalar.InverseAt`).

The reading as an integer compares the absolute value with `2 ^ 63`, below which all integers have
64 bits. The least integer of 64 bits is `-2 ^ 63` itself, a floating point number that is not read
as an integer. It is the only exception (`Scalar.inverseAt_iff`).
-/

namespace LayeredConfig.Number.Binary64

variable {x : Binary64} {n : Int}

/-- The value of a finite number. -/
def signedValue (x : Binary64) : ℚ := if x.negative then -x.value else x.value

theorem value_nonneg (x : Binary64) : 0 ≤ x.value := by
  unfold value
  positivity

theorem abs_signedValue (x : Binary64) : |x.signedValue| = x.value := by
  rw [signedValue]
  split
  · rw [abs_neg, abs_of_nonneg (value_nonneg x)]
  · exact abs_of_nonneg (value_nonneg x)

theorem value_eq_of_magnitude_eq {y : Binary64} (h : x.magnitude = y.magnitude) :
    x.value = y.value := by
  rw [value, value, units, units, h]

/-- A number is an integer if its units are those of an integer. -/
theorem value_eq_natCast_iff {n : Nat} : x.value = n ↔ x.units = n * unitsPerOne := by
  refine ⟨fun h => ?_, value_of_units⟩
  rw [value, div_eq_iff (by exact_mod_cast unitsPerOne_pos.ne')] at h
  exact_mod_cast h

/-- The integer that a finite number is read as is its value. -/
theorem integer?_eq_some_iff (hx : x.isFinite) : x.integer? = some n ↔ x.signedValue = n := by
  unfold integer?
  constructor
  · intro h
    split at h
    next hunits =>
      have hvalue : x.value = (x.units / unitsPerOne : Nat) :=
        value_of_units (Nat.div_mul_cancel (Nat.dvd_of_mod_eq_zero hunits.2)).symm
      rw [← Option.some.inj h, signedValue, hvalue]
      split <;> push_cast <;> rfl
    next => exact absurd h (by simp)
  · intro h
    -- the absolute value counts the units
    have hvalue : x.value = n.natAbs := by rw [← abs_signedValue, h, Nat.cast_natAbs, Int.cast_abs]
    have hunits := value_eq_natCast_iff.1 hvalue
    have hcount : (x.units : Int) / unitsPerOne = |n| := by
      rw [hunits, Nat.cast_mul, Int.mul_ediv_cancel _ (by exact_mod_cast unitsPerOne_pos.ne'),
        Int.natCast_natAbs]
    rw [if_pos ⟨hx, by rw [hunits, Nat.mul_mod_left]⟩]
    dsimp only
    rw [hcount]
    rw [signedValue, hvalue, Nat.cast_natAbs] at h
    split at h
    next hnegative =>
      have heq : -|n| = n := by exact_mod_cast h
      rw [if_pos hnegative, heq]
    next hpositive =>
      have heq : |n| = n := by exact_mod_cast h
      rw [if_neg hpositive, heq]

/-- Numbers nearest to integers of 64 bits are finite. -/
theorem isFinite_ofInt (h : n.natAbs ≤ 2 ^ 63) : (ofInt n).isFinite := by
  have hle : ((n.natAbs : ℚ) / (1 : Nat)) ≤ (2 ^ 63 : Nat) / (1 : Nat) := by
    rw [Nat.cast_one, div_one, div_one]
    exact_mod_cast h
  have hvalue : (((2 ^ 63 : Nat) : ℚ) / (1 : Nat)) = Scalar.twoTo63.value := by
    rw [Scalar.value_twoTo63]
    norm_num
  have htop := ofRatio_value (by decide) Nat.one_pos hvalue false
  have hmono : (ofInt n).magnitude ≤ (ofRatio false (2 ^ 63) 1).magnitude :=
    magnitude_ofRatio_mono Nat.one_pos Nat.one_pos hle
  rw [htop] at hmono
  exact decide_eq_true (Nat.lt_of_le_of_lt hmono (by decide))

end LayeredConfig.Number.Binary64

namespace LayeredConfig.Scalar

open Number

variable {x : Binary64} {i : Int64}

/-- Among the integers of 64 bits, all but the least one have an absolute value below `2 ^ 63`. -/
theorem natAbs_toInt_lt_iff : i.toInt.natAbs < 2 ^ 63 ↔ i ≠ Int64.minValue := by
  have hlow := i.minValue_le_toInt
  have hhigh := i.toInt_lt
  rw [Ne, ← Int64.toInt_inj, Int64.toInt_minValue] at *
  omega

/-- A finite number is read as the integer that is its value, but never as the least one. -/
theorem integerOfFloat?_eq_some_iff (hx : x.isFinite) :
    integerOfFloat? x = some i ↔ x.signedValue = i.toInt ∧ i ≠ Int64.minValue := by
  rw [integerOfFloat?, Option.bind_eq_bind, Option.bind_eq_some_iff, ← natAbs_toInt_lt_iff]
  constructor
  · rintro ⟨n, hn, hi⟩
    split at hi
    next hlt =>
      have htoInt : i.toInt = n := by
        rw [← Option.some.inj hi]
        rw [twoPow_eq] at hlt
        exact Int64.toInt_ofInt_of_le (by omega) (by omega)
      rw [htoInt]
      exact ⟨(Binary64.integer?_eq_some_iff hx).1 hn, hlt⟩
    next => exact absurd hi (by simp)
  · rintro ⟨hvalue, hlt⟩
    refine ⟨i.toInt, (Binary64.integer?_eq_some_iff hx).2 hvalue, ?_⟩
    rw [twoPow_eq, if_pos hlt, Int64.ofInt_toInt]

/-! ### The least integer -/

/-- The least integer of 64 bits as a floating point number. -/
def minusTwoTo63 : Binary64 := { twoTo63 with negative := true }

theorem signedValue_minusTwoTo63 : minusTwoTo63.signedValue = Int64.minValue.toInt := by
  have hnegative : minusTwoTo63.negative = true := rfl
  have hmagnitude : minusTwoTo63.magnitude = twoTo63.magnitude := rfl
  rw [Binary64.signedValue, if_pos hnegative, Binary64.value_eq_of_magnitude_eq hmagnitude,
    value_twoTo63, Int64.toInt_minValue]
  norm_num

/-- No other finite number equals the least integer. -/
theorem eq_minusTwoTo63 (hx : x.isFinite) (h : x.signedValue = Int64.minValue.toInt) :
    x = minusTwoTo63 := by
  rw [Int64.toInt_minValue] at h
  have hvalue : x.value = twoTo63.value := by
    rw [value_twoTo63, ← Binary64.abs_signedValue, h]
    norm_num
  have hfinite : twoTo63.isFinite := by decide
  have hmagnitude : x.magnitude = twoTo63.magnitude :=
    Nat.le_antisymm ((Binary64.value_le_value_iff hx hfinite).1 hvalue.le)
      ((Binary64.value_le_value_iff hfinite hx).1 hvalue.ge)
  -- without the sign the value would not be negative
  have hnegative : x.negative = true := by
    by_contra hpositive
    rw [Binary64.signedValue, if_neg hpositive] at h
    have hnonneg := Binary64.value_nonneg x
    rw [h] at hnonneg
    norm_num at hnonneg
  rw [Binary64.eq_of_magnitude_eq hmagnitude, hnegative]
  rfl

theorem toFloat?_minValue : (integer Int64.minValue).toFloat? = some minusTwoTo63 := by
  decide +kernel

/-- The number that equals the least integer is not read as an integer. -/
theorem toInt64?_minusTwoTo63 : (float minusTwoTo63).toInt64? = none := by
  decide +kernel

/-! ### Both readings -/

/-- The readings of a floating point number and an integer are inverse to each other. -/
structure InverseAt (x : Binary64) (i : Int64) : Prop where
  /-- A finite number is read as the integer exactly if it equals the integer. -/
  toInt64?_float : x.isFinite → ((float x).toInt64? = some i ↔ x.signedValue = i.toInt)
  /-- If the integer is read as the number and equals it, the number is read as the integer. -/
  toInt64?_toFloat? : (integer i).toFloat? = some x → x.signedValue = i.toInt →
    (float x).toInt64? = some i

/-- The readings are inverse at every number and every integer, except where both are the least
integer. -/
theorem inverseAt_iff (x : Binary64) (i : Int64) :
    InverseAt x i ↔ ¬ (x = minusTwoTo63 ∧ i = Int64.minValue) := by
  constructor
  · rintro h ⟨rfl, rfl⟩
    have hread := h.toInt64?_toFloat? toFloat?_minValue signedValue_minusTwoTo63
    exact absurd (toInt64?_minusTwoTo63.symm.trans hread) (by simp)
  · intro h
    have hread : x.isFinite → ((float x).toInt64? = some i ↔ x.signedValue = i.toInt) := by
      intro hx
      refine (integerOfFloat?_eq_some_iff hx).trans (and_iff_left_of_imp fun hvalue => ?_)
      -- no other number has the value of the least integer
      rintro rfl
      exact h ⟨eq_minusTwoTo63 hx hvalue, rfl⟩
    refine ⟨hread, fun hfloat hvalue => ?_⟩
    obtain rfl : .ofInt i.toInt = x := Option.some.inj hfloat
    have hlow := i.le_toInt
    have hhigh := i.toInt_lt
    exact (hread (Binary64.isFinite_ofInt (by omega))).2 hvalue

/-- The largest floating point number below `2 ^ 63`. -/
def belowTwoTo63 : Binary64 := ⟨false, 0x43DFFFFFFFFFFFFF, by decide⟩

theorem inverseAt_belowTwoTo63 : InverseAt belowTwoTo63 9223372036854774784 ∧
    (float belowTwoTo63).toInt64? = some 9223372036854774784 :=
  ⟨(inverseAt_iff _ _).2 (by decide), by decide +kernel⟩

/-- The least integer is read as the number that it equals, and the number is not read back. -/
theorem not_inverseAt_minValue : ¬ InverseAt minusTwoTo63 Int64.minValue := by
  intro h
  have hfinite : minusTwoTo63.isFinite := by decide
  have hread := (h.toInt64?_float hfinite).2 signedValue_minusTwoTo63
  exact absurd (toInt64?_minusTwoTo63.symm.trans hread) (by simp)

end LayeredConfig.Scalar
