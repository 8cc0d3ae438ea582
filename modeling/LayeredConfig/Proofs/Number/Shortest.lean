import LayeredConfig.Proofs.Number.Decimal

/-!
# Shortest decimal forms

The shortest form of a finite number is read back as this number, and so is the form without the
zeros at its end: each candidate has been checked, and the exact value needs no check. A number from
`10 ^ 16` on has a shortest form without a fraction, since its 17 digits end in front of the point.
-/

namespace LayeredConfig.Number.Binary64

variable {x y : Binary64} {d : Decimal} {tie : Tie} {exponent : Int}

/-! ### Candidates -/

/-- What is found on a grid belongs to it and is read back. -/
theorem of_onGrid?_eq_some (h : x.onGrid? tie exponent = some d) :
    d.toBinary64 x.negative = x ∧ d.exponent = exponent := by
  unfold onGrid? at h
  dsimp only at h
  have hmem := List.mem_of_find?_eq_some h
  constructor
  · have hreads : x.readsBack d := List.find?_some h
    exact of_decide_eq_true hreads
  · simp only [List.mem_cons, List.not_mem_nil, or_false] at hmem
    rcases hmem with rfl | rfl
    all_goals split <;> rfl

/-- The exact value of a number is its value. -/
theorem value_exactDecimal (x : Binary64) : x.exactDecimal.value = x.value := by
  have hpow : unitsPerOne * Nat.pow 5 1074 = tenPow 1074 := by decide +kernel
  have hpos : 0 < Nat.pow 5 1074 := by decide +kernel
  exact Decimal.value_mul_of_eq_tenPow hpos hpow x.units

/-- The exact value of a number is read as this number. -/
theorem toBinary64_exactDecimal (hx : x.isFinite) : x.exactDecimal.toBinary64 x.negative = x :=
  Decimal.toBinary64_of_value hx (value_exactDecimal x)

/-- What is not above a decimal number is not above the number that it is read as. -/
theorem value_le_of_value_le (hx : x.isFinite) (hy : y.isFinite)
    (hread : d.toBinary64 x.negative = x) (h : y.value ≤ d.value) : y.value ≤ x.value := by
  rw [value_le_value_iff hy hx, ← hread]
  conv_lhs => rw [← toBinary64_exactDecimal hy]
  exact Decimal.magnitude_toBinary64_mono ((value_exactDecimal y).trans_le h)

/-- What is not below a decimal number is not below the number that it is read as. -/
theorem value_le_of_le_value (hx : x.isFinite) (hy : y.isFinite)
    (hread : d.toBinary64 x.negative = x) (h : d.value ≤ y.value) : x.value ≤ y.value := by
  rw [value_le_value_iff hx hy, ← hread]
  conv_rhs => rw [← toBinary64_exactDecimal hy]
  exact Decimal.magnitude_toBinary64_mono (h.trans_eq (value_exactDecimal y).symm)

/-- A number between a decimal number and what it is read as has the magnitude of the latter. -/
theorem magnitude_eq_of_le_value (hx : x.isFinite) (hy : y.isFinite)
    (hread : d.toBinary64 x.negative = x) (hd : d.value ≤ y.value) (h : y.value ≤ x.value) :
    x.magnitude = y.magnitude :=
  Nat.le_antisymm
    ((value_le_value_iff hx hy).1 (value_le_of_le_value hx hy hread hd))
    ((value_le_value_iff hy hx).1 h)

/-- The shortest form is found on one of seventeen grids, or else it is the exact value. -/
theorem shortest_cases (tie : Tie) (x : Binary64) : x.shortest tie = x.exactDecimal ∨
    ∃ count < 17, x.onGrid? tie (x.decimalPoint - (count + 1 : Nat)) = some (x.shortest tie) := by
  unfold shortest
  cases hfound : (List.range 17).findSome? fun count =>
      x.onGrid? tie (x.decimalPoint - (count + 1 : Nat)) with
  | none => exact .inl rfl
  | some d =>
    obtain ⟨count, hcount, hgrid⟩ := List.exists_of_findSome?_eq_some hfound
    exact .inr ⟨count, List.mem_range.1 hcount, hgrid⟩

/-- The shortest form is read back. -/
theorem toBinary64_shortest (hx : x.isFinite) (tie : Tie) :
    (x.shortest tie).toBinary64 x.negative = x := by
  rcases shortest_cases tie x with hexact | ⟨count, -, hgrid⟩
  · rw [hexact]
    exact toBinary64_exactDecimal hx
  · exact (of_onGrid?_eq_some hgrid).1

/-- Only zero is read from no digits but zeros. -/
theorem digits_shortest_ne_zero (hx : x.isFinite) (h : x.magnitude ≠ 0) (tie : Tie) :
    (x.shortest tie).digits ≠ 0 := by
  intro hzero
  have hread := toBinary64_shortest hx tie
  rw [Decimal.toBinary64, if_pos (.inl hzero)] at hread
  exact h (congrArg magnitude hread).symm

/-! ### Large numbers -/

/-- The digit in front of the point of a number from `10 ^ 16` on is the seventeenth or a later
one. -/
theorem decimalPoint_ge (h : 10 ^ 16 ≤ x.value) : 17 ≤ x.decimalPoint := by
  have hunits : 10 ^ 16 * unitsPerOne ≤ x.units := natCast_le_value_iff.1 (by exact_mod_cast h)
  have hscaled : 10 ^ 416 ≤ x.units * tenPow 400 / unitsPerOne := by
    rw [Nat.le_div_iff_mul_le unitsPerOne_pos]
    calc 10 ^ 416 * unitsPerOne = 10 ^ 16 * unitsPerOne * tenPow 400 := by decide +kernel
      _ ≤ x.units * tenPow 400 := Nat.mul_le_mul_right _ hunits
  have hdigits : 416 < Decimal.digitCount (x.units * tenPow 400 / unitsPerOne) := by
    by_contra hle
    exact absurd ((Decimal.digitCount_le_iff (by decide)).1 (Nat.le_of_not_lt hle))
      (Nat.not_lt_of_le hscaled)
  unfold decimalPoint
  omega

/-- A number from `2 ^ 53` on is an integer, as its last binary digit stands in front of the
point. -/
theorem exists_value_eq_natCast (h : 2 ^ 53 ≤ x.value) : ∃ n : Nat, x.value = n := by
  have hunits : 2 ^ 53 * unitsPerOne ≤ x.units := natCast_le_value_iff.1 (by exact_mod_cast h)
  rw [← twoPow_eq] at hunits
  suffices hdvd : unitsPerOne ∣ x.units by
    obtain ⟨n, hn⟩ := exists_eq_mul_left_of_dvd hdvd
    exact ⟨n, value_of_units hn⟩
  rw [units] at hunits ⊢
  split at hunits
  -- so few units are less than one
  next hsmall =>
    have hlarge : twoPow 52 ≤ twoPow 53 * unitsPerOne := by decide +kernel
    omega
  -- a mantissa of 53 digits is scaled by one at least
  next hlarge =>
    rw [if_neg hlarge]
    have hexponent : 1074 ≤ x.magnitude / twoPow 52 - 1 := by
      by_contra hlt
      have hpow : twoPow (x.magnitude / twoPow 52 - 1) ≤ unitsPerOne :=
        twoPow_mono (by omega)
      exact absurd (Nat.mul_lt_mul_of_lt_of_le (mantissa_lt x) hpow unitsPerOne_pos)
        (Nat.not_lt_of_le hunits)
    rw [unitsPerOne]
    exact Dvd.dvd.mul_left (twoPow_dvd_twoPow hexponent) _

/-- The shortest form of a number from `10 ^ 16` on has no fraction. -/
theorem exists_value_shortest_eq_natCast (h : 10 ^ 16 ≤ x.value) (tie : Tie) :
    ∃ n : Nat, (x.shortest tie).value = n := by
  rcases shortest_cases tie x with hexact | ⟨count, hcount, hgrid⟩
  · rw [hexact, value_exactDecimal]
    exact exists_value_eq_natCast (le_trans (by norm_num) h)
  · obtain ⟨-, hexponent⟩ := of_onGrid?_eq_some hgrid
    have hpoint := decimalPoint_ge h
    refine ⟨(x.shortest tie).digits * tenPow (x.shortest tie).exponent.toNat, ?_⟩
    rw [Decimal.value, Nat.cast_mul, Decimal.cast_tenPow, Int.toNat_of_nonneg (by omega)]

end LayeredConfig.Number.Binary64
