import LayeredConfig.Proofs.Number.Digits
import LayeredConfig.Proofs.Number.Shortest
import LayeredConfig.Proofs.Scalar.Literal

/-!
# Texts of floating point numbers as literals

The text of a finite number writes its shortest form without an exponent, and a literal of this text
is read as the same number. Only the type is another one where the text has no point: numbers from
`10 ^ 16` on lose the `.0` at their end, so the text of one that has 64 bits is that of an integer.

* `FloatLayout.positionalText_of_fraction`, `FloatLayout.positionalText_of_whole`: the two kinds of
  texts, with and without a point.
* `Scalar.tenTo16_le_value_iff`, `Scalar.lt_twoTo63_iff`: which texts have no point, and which of
  them write integers of 64 bits.
* `Scalar.ofLiteral_text_float`: what is read from the text of a finite number.
-/

namespace LayeredConfig.Number

/-! ### Digits and zeros -/

theorem digitsToNat_append_zeros (digits : List Char) (k : Nat) :
    digitsToNat (digits ++ List.replicate k '0') = digitsToNat digits * tenPow k := by
  rw [digitsToNat_eq, digitsToNat_eq, Nat.ofDigitChars_append, Nat.ofDigitChars_replicate_zero,
    Nat.mul_comm, tenPow_eq]

theorem digitsToNat_zeros_append (k : Nat) (digits : List Char) :
    digitsToNat (List.replicate k '0' ++ digits) = digitsToNat digits := by
  rw [digitsToNat_eq, digitsToNat_eq, Nat.ofDigitChars_append, Nat.ofDigitChars_replicate_zero,
    Nat.mul_zero]

theorem isDigit_of_mem_zeros (k : Nat) : ∀ c ∈ List.replicate k '0', c.isDigit := by
  intro c hc
  rw [List.eq_of_mem_replicate hc]
  rfl

theorem digitText_zero : DigitText ['0'] := ⟨by simp, isDigit_of_mem_zeros 1⟩

namespace FloatLayout

variable {layout : FloatLayout} {d : Decimal}

theorem digitText_toDigits (n : Nat) : DigitText (Nat.toDigits 10 n) :=
  isDigits_iff.1 (isDigits_toDigits n)

/-- Where no point is written, the text is an integer with the value of the number. -/
theorem positionalText_of_whole (hexponent : 0 ≤ d.exponent)
    (hpoint : layout.pointZeroUpTo < d.point) :
    ∃ digits, layout.positionalText (Nat.toDigits 10 d.digits) d.point = digits ∧
      DigitText digits ∧ (digitsToNat digits : ℚ) = d.value := by
  have hlength := Decimal.digitCount_pos d.digits
  obtain ⟨k, hk⟩ := Int.eq_ofNat_of_zero_le hexponent
  have hpos : ¬ d.point ≤ 0 := by
    unfold Decimal.point
    omega
  have hle : ((Nat.toDigits 10 d.digits).length : Int) ≤ d.point := by
    unfold Decimal.point Decimal.digitCount
    omega
  have hzeros : (d.point - (Nat.toDigits 10 d.digits).length).toNat = k := by
    unfold Decimal.point Decimal.digitCount
    omega
  rw [positionalText, if_neg hpos, if_pos hle, if_neg (not_le.2 hpoint), List.append_nil, zeros,
    hzeros]
  refine ⟨_, rfl, ?_, ?_⟩
  · obtain ⟨hne, hdigits⟩ := digitText_toDigits d.digits
    exact ⟨by simp [hne], List.forall_mem_append.2 ⟨hdigits, isDigit_of_mem_zeros k⟩⟩
  · rw [digitsToNat_append_zeros, digitsToNat_toDigits, ← Decimal.value_exponent_zero,
      Decimal.value_mul_tenPow, Int.zero_add, Decimal.value, Decimal.value, hk]

/-- Elsewhere there are digits on both sides of a point, and together they have the value of the
number. -/
theorem positionalText_of_fraction (h : d.exponent < 0 ∨ d.point ≤ layout.pointZeroUpTo) :
    ∃ whole fraction, layout.positionalText (Nat.toDigits 10 d.digits) d.point =
        whole ++ '.' :: fraction ∧ DigitText whole ∧ (∀ c ∈ fraction, c.isDigit) ∧
      Decimal.value ⟨digitsToNat (whole ++ fraction), -fraction.length⟩ = d.value := by
  obtain ⟨hne, hdigits⟩ := digitText_toDigits d.digits
  have hpoint : d.point = (Nat.toDigits 10 d.digits).length + d.exponent := rfl
  rw [positionalText]
  split
  -- zeros on both sides of the point
  next hsmall =>
    refine ⟨['0'], zeros (-d.point) ++ Nat.toDigits 10 d.digits, by simp,
      digitText_zero, List.forall_mem_append.2 ⟨isDigit_of_mem_zeros _, hdigits⟩, ?_⟩
    have hvalue : digitsToNat (['0'] ++ (zeros (-d.point) ++ Nat.toDigits 10 d.digits)) =
        d.digits := by
      rw [zeros, ← List.replicate_one, digitsToNat_zeros_append, digitsToNat_zeros_append,
        digitsToNat_toDigits]
    have hlength : -((zeros (-d.point) ++ Nat.toDigits 10 d.digits).length : Int) =
        d.exponent := by
      rw [zeros, List.length_append, List.length_replicate]
      omega
    rw [hvalue, hlength]
  next hsmall =>
    split
    -- a zero behind the point
    next hlarge =>
      obtain ⟨k, hk⟩ := Int.eq_ofNat_of_zero_le (show 0 ≤ d.exponent by omega)
      rw [if_pos (h.resolve_left (by omega))]
      refine ⟨Nat.toDigits 10 d.digits ++ zeros (d.point - (Nat.toDigits 10 d.digits).length),
        ['0'], rfl, ⟨by simp [hne], List.forall_mem_append.2 ⟨hdigits, isDigit_of_mem_zeros _⟩⟩,
        digitText_zero.2, ?_⟩
      have hzeros : (d.point - (Nat.toDigits 10 d.digits).length).toNat = k := by omega
      -- all the zeros are a power of ten
      rw [zeros, hzeros, List.append_assoc, ← List.replicate_succ', digitsToNat_append_zeros,
        digitsToNat_toDigits, Decimal.value_mul_tenPow, Decimal.value, Decimal.value, hk]
      congr 2
      simp
    -- the point among the digits
    next hmiddle =>
      refine ⟨(Nat.toDigits 10 d.digits).take d.point.toNat,
        (Nat.toDigits 10 d.digits).drop d.point.toNat, by simp, ⟨?_, fun c hc => ?_⟩,
        fun c hc => ?_, ?_⟩
      · rw [Ne, List.take_eq_nil_iff]
        simp only [hne, or_false]
        omega
      · exact hdigits c (List.mem_of_mem_take hc)
      · exact hdigits c (List.mem_of_mem_drop hc)
      · have hlength : -(((Nat.toDigits 10 d.digits).drop d.point.toNat).length : Int) =
            d.exponent := by
          rw [List.length_drop]
          omega
        rw [List.take_append_drop, digitsToNat_toDigits, hlength]

end FloatLayout

end LayeredConfig.Number

namespace LayeredConfig.Scalar

open Number

variable {x : Binary64} {text : String}

/-! ### The text of a finite number -/

/-- The shortest form of a number, without zeros at its end. -/
def written (x : Binary64) : Decimal := (x.shortest floatLayout.tie).dropZeros

theorem value_written (x : Binary64) : (written x).value = (x.shortest floatLayout.tie).value :=
  Decimal.value_dropZeros _

theorem toBinary64_written (hx : x.isFinite) : (written x).toBinary64 x.negative = x := by
  rw [Decimal.toBinary64_congr (value_written x)]
  exact Binary64.toBinary64_shortest hx _

theorem magnitudeText_eq (h : x.magnitude ≠ 0) : floatLayout.magnitudeText x =
    floatLayout.positionalText (Nat.toDigits 10 (written x).digits) (written x).point := by
  rw [FloatLayout.magnitudeText, if_neg h]
  exact if_pos rfl

/-- The text of a finite number is a minus if it is negative, and the text of its absolute value. -/
theorem toList_text_float (hx : x.isFinite) : (float x).text.toList =
    (if x.negative then ['-'] else []) ++ floatLayout.magnitudeText x := by
  have hlt : x.magnitude < Binary64.infiniteMagnitude := by simpa [Binary64.isFinite] using hx
  have hnan : ¬ x.isNaN := by
    rw [Binary64.isNaN, decide_eq_true_eq]
    omega
  have hinfinite : ¬ x.isInfinite := by
    rw [Binary64.isInfinite, decide_eq_true_eq]
    omega
  rw [text, FloatLayout.render, if_neg hnan, if_neg hinfinite, String.toList_ofList]

theorem signText_minus (negative : Bool) : SignText negative (if negative then ['-'] else []) := by
  cases negative
  · exact .none
  · exact .minus

/-! ### The bounds of the texts without a point -/

/-- The number from which on texts have no point. -/
def tenTo16 : Binary64 := ⟨false, 0x4341C37937E08000, by decide⟩

/-- The number from which on integers have more than 64 bits. -/
def twoTo63 : Binary64 := ⟨false, 0x43E0000000000000, by decide⟩

theorem value_tenTo16 : tenTo16.value = 10 ^ 16 := by
  have hunits : tenTo16.units = 10 ^ 16 * Binary64.unitsPerOne := by decide +kernel
  rw [Binary64.value_of_units hunits, Nat.cast_pow, Nat.cast_ofNat]

theorem value_twoTo63 : twoTo63.value = 2 ^ 63 := by
  have hunits : twoTo63.units = 2 ^ 63 * Binary64.unitsPerOne := by decide +kernel
  rw [Binary64.value_of_units hunits, Nat.cast_pow, Nat.cast_ofNat]

theorem shortest_tenTo16 (h : x.magnitude = tenTo16.magnitude) :
    x.shortest floatLayout.tie = ⟨1, 16⟩ := by
  have hshortest : ∀ negative, Binary64.shortest floatLayout.tie
      ⟨negative, tenTo16.magnitude, tenTo16.magnitude_lt⟩ = ⟨1, 16⟩ := by decide +kernel
  rw [Binary64.eq_of_magnitude_eq h, hshortest]

theorem shortest_twoTo63 (h : x.magnitude = twoTo63.magnitude) :
    x.shortest floatLayout.tie = ⟨9223372036854776, 3⟩ := by
  have hshortest : ∀ negative, Binary64.shortest floatLayout.tie
      ⟨negative, twoTo63.magnitude, twoTo63.magnitude_lt⟩ = ⟨9223372036854776, 3⟩ := by
    decide +kernel
  rw [Binary64.eq_of_magnitude_eq h, hshortest]

/-- Numbers and shortest forms are on the same side of a number that writes nothing below it. -/
theorem value_le_value_iff_written {y : Binary64} (hx : x.isFinite) (hy : y.isFinite)
    (hbound : x.magnitude = y.magnitude → y.value ≤ (written x).value) :
    y.value ≤ x.value ↔ y.value ≤ (written x).value := by
  constructor
  · intro h
    by_contra hlt
    exact hlt (hbound (Binary64.magnitude_eq_of_le_value hx hy (toBinary64_written hx)
      (not_le.1 hlt).le h))
  · exact Binary64.value_le_of_value_le hx hy (toBinary64_written hx)

theorem tenTo16_le_value_iff (hx : x.isFinite) :
    10 ^ 16 ≤ x.value ↔ 10 ^ 16 ≤ (written x).value := by
  rw [← value_tenTo16]
  refine value_le_value_iff_written hx (by decide) fun hmagnitude => ?_
  rw [value_written, shortest_tenTo16 hmagnitude, value_tenTo16]
  norm_num [Decimal.value]

theorem value_lt_twoTo63_iff (hx : x.isFinite) : x.value < 2 ^ 63 ↔ (written x).value < 2 ^ 63 := by
  rw [← value_twoTo63, ← not_le, ← not_le, not_iff_not]
  refine value_le_value_iff_written hx (by decide) fun hmagnitude => ?_
  rw [value_written, shortest_twoTo63 hmagnitude, value_twoTo63]
  norm_num [Decimal.value]

/-- No shortest form is `2 ^ 63`, as that bound is written with fewer digits. -/
theorem value_written_ne_twoTo63 (hx : x.isFinite) : (written x).value ≠ 2 ^ 63 := by
  rw [← value_twoTo63]
  intro heq
  have hbound := Binary64.value_le_of_value_le hx (by decide) (toBinary64_written hx) heq.ge
  have hmagnitude := Binary64.magnitude_eq_of_le_value hx (by decide) (toBinary64_written hx) heq.le
    hbound
  rw [value_written, shortest_twoTo63 hmagnitude, value_twoTo63] at heq
  exact absurd heq (by norm_num [Decimal.value])

/-- These bounds are those of the texts without a point. -/
theorem tenTo16_le_value_iff_exponent (hx : x.isFinite) (hzero : x.magnitude ≠ 0) :
    10 ^ 16 ≤ x.value ↔
      0 ≤ (written x).exponent ∧ floatLayout.pointZeroUpTo < (written x).point := by
  have hdigits : (written x).digits % 10 ≠ 0 :=
    Decimal.dropZeros_digits _ (Binary64.digits_shortest_ne_zero hx hzero _)
  constructor
  · intro h
    obtain ⟨n, hn⟩ := Binary64.exists_value_shortest_eq_natCast h floatLayout.tie
    refine ⟨Decimal.exponent_nonneg hdigits ((value_written x).trans hn), ?_⟩
    have hle : (10 ^ (16 : Int) : ℚ) ≤ (written x).value := by
      exact_mod_cast (tenTo16_le_value_iff hx).1 h
    exact (zpow_lt_zpow_iff_right₀ (by norm_num)).1
      (lt_of_le_of_lt hle (Decimal.value_lt_pow_point _))
  · rintro ⟨-, hpoint⟩
    rw [tenTo16_le_value_iff hx]
    have hne : (written x).digits ≠ 0 := fun hzero => hdigits (by rw [hzero])
    have hpow : (10 ^ (16 : Int) : ℚ) ≤ 10 ^ ((written x).point - 1) :=
      zpow_le_zpow_right₀ (by norm_num) (Int.le_sub_one_of_lt hpoint)
    exact_mod_cast hpow.trans (Decimal.pow_point_pred_le_value hne)

/-! ### Reading back -/

/-- A text with a point is not an integer. -/
theorem parseInt64?_of_point_mem {chars : List Char} (h : '.' ∈ chars) :
    parseInt64? chars = none := by
  rw [← Option.not_isSome_iff_eq_none, Option.isSome_iff_exists]
  rintro ⟨i, hi⟩
  rw [parseInt64?_eq_some_iff] at hi
  generalize i.toInt = n at hi
  obtain ⟨hsign, hdigits⟩ := hi
  rcases List.mem_append.1 h with hmem | hmem
  · cases hsign <;> exact absurd hmem (by decide)
  · exact absurd (hdigits.2 '.' hmem) (by decide)

/-- A text with a point is read as the number that it has been written for. -/
theorem ofLiteral_of_fraction {whole fraction sign : List Char} (hsign : SignText x.negative sign)
    (hwhole : DigitText whole) (hfraction : ∀ c ∈ fraction, c.isDigit)
    (htext : text.toList = sign ++ (whole ++ '.' :: fraction))
    (hread : Decimal.toBinary64 x.negative
      ⟨digitsToNat (whole ++ fraction), -fraction.length⟩ = x) : ofLiteral text = .float x := by
  have hmantissa : MantissaText (whole ++ '.' :: fraction) :=
    mantissaText_iff.2 ⟨whole, fraction, hwhole.2, hfraction, by simp [hwhole.1], .inr rfl⟩
  have hliteral := literalFloat?_decimal hsign hmantissa .none (.inl rfl)
  rw [List.append_nil, List.append_nil, Decimal.parse?_of_point hwhole hfraction, Option.map_some,
    hread] at hliteral
  rw [← htext] at hliteral
  exact ofLiteral_eq_float_iff.2 ⟨parseInt64?_of_point_mem (by simp [htext]), hliteral⟩

/-- A text without a point is read as an integer of the same value if it has 64 bits. -/
theorem ofLiteral_of_whole {digits sign : List Char} (hsign : SignText x.negative sign)
    (hdigits : DigitText digits) (htext : text.toList = sign ++ digits)
    (hread : Decimal.toBinary64 x.negative ⟨digitsToNat digits, 0⟩ = x)
    (hpos : 0 < digitsToNat digits) (hne : digitsToNat digits ≠ 2 ^ 63) :
    (digitsToNat digits < 2 ^ 63 → ∃ i : Int64, ofLiteral text = .integer i ∧ .ofInt i.toInt = x) ∧
      (¬ digitsToNat digits < 2 ^ 63 → ofLiteral text = .float x) := by
  have hmin : Int64.minValue.toInt = -2 ^ 63 := by decide
  have hmax : Int64.maxValue.toInt = 2 ^ 63 - 1 := by decide
  have hinteger := IntegerText.intro hsign hdigits
  rw [← htext, ← digitsToNat_eq] at hinteger
  constructor
  · intro hlt
    obtain ⟨i, hi⟩ : ∃ i : Int64, i.toInt =
        if x.negative then -(digitsToNat digits : Int) else digitsToNat digits :=
      ⟨.ofIntLE _ (by split <;> omega) (by split <;> omega), Int64.toInt_ofIntLE⟩
    rw [← hi] at hinteger
    refine ⟨i, ofLiteral_of_parseInt64? (parseInt64?_eq_some_iff.2 hinteger), ?_⟩
    rw [hi, Binary64.ofInt_signed _ hpos, ← Decimal.toBinary64_exponent_zero, hread]
  · intro hge
    -- the integer is out of range with either sign
    have hnone : parseInt64? text.toList = none := by
      rw [← Option.not_isSome_iff_eq_none, Option.isSome_iff_exists]
      rintro ⟨i, hi⟩
      rw [parseInt64?_eq_some_iff, ← parseInt?_eq_some_iff,
        parseInt?_eq_some_iff.2 hinteger, Option.some.injEq] at hi
      have hlow := i.minValue_le_toInt
      have hhigh := i.toInt_le
      split at hi <;> omega
    have hmantissa : MantissaText digits :=
      mantissaText_iff.2 ⟨digits, [], hdigits.2, by simp, by simp [hdigits.1], .inl ⟨rfl, rfl⟩⟩
    have hliteral := literalFloat?_decimal hsign hmantissa .none (.inl rfl)
    rw [List.append_nil, List.append_nil, Decimal.parse?_of_digitText hdigits, Option.map_some,
      hread, ← htext] at hliteral
    exact ofLiteral_eq_float_iff.2 ⟨hnone, hliteral⟩

/-- The literal of the text of a finite number is this number again, except from `10 ^ 16` on below
`2 ^ 63`, where it is an integer to which this number is the nearest one. -/
theorem ofLiteral_text_float (x : Binary64) (hx : x.isFinite) :
    (¬ (10 ^ 16 ≤ x.value ∧ x.value < 2 ^ 63) → ofLiteral (float x).text = .float x) ∧
      (10 ^ 16 ≤ x.value ∧ x.value < 2 ^ 63 →
        ∃ i : Int64, ofLiteral (float x).text = .integer i ∧ .ofInt i.toInt = x) := by
  have hsign := signText_minus x.negative
  have htext := toList_text_float hx
  have hread := toBinary64_written hx
  by_cases hzero : x.magnitude = 0
  -- zero is written with a point
  · have hunits : x.units = 0 * Binary64.unitsPerOne := by
      rw [Binary64.units, hzero, if_pos (twoPow_pos 52), Nat.zero_mul]
    have heq : x = .zero x.negative := by
      rw [Binary64.zero, Binary64.mk.injEq]
      exact ⟨rfl, hzero⟩
    have hread : Decimal.toBinary64 x.negative
        ⟨digitsToNat (['0'] ++ ['0']), -['0'].length⟩ = x := by
      conv_rhs => rw [heq]
      exact if_pos (.inl (by decide))
    rw [FloatLayout.magnitudeText, if_pos hzero] at htext
    refine ⟨fun _ => ofLiteral_of_fraction hsign digitText_zero digitText_zero.2 htext hread,
      fun h => ?_⟩
    rw [Binary64.value_of_units hunits] at h
    exact absurd h.1 (by norm_num)
  rw [magnitudeText_eq hzero] at htext
  rw [tenTo16_le_value_iff_exponent hx hzero, value_lt_twoTo63_iff hx]
  by_cases hwhole : 0 ≤ (written x).exponent ∧ floatLayout.pointZeroUpTo < (written x).point
  -- without a point, the digits are an integer of at least `10 ^ 16` and never `2 ^ 63` itself
  · obtain ⟨digits, hchars, hdigits, hvalue⟩ :=
      FloatLayout.positionalText_of_whole hwhole.1 hwhole.2
    rw [hchars] at htext
    have hbound := (tenTo16_le_value_iff hx).1 ((tenTo16_le_value_iff_exponent hx hzero).2 hwhole)
    have hne := value_written_ne_twoTo63 hx
    rw [← hvalue] at hbound hne ⊢
    have hpos : 0 < digitsToNat digits :=
      Nat.lt_of_lt_of_le (by decide) (by exact_mod_cast hbound : 10 ^ 16 ≤ digitsToNat digits)
    rw [← Decimal.value_exponent_zero] at hvalue
    rw [← Decimal.toBinary64_congr hvalue] at hread
    obtain ⟨hinteger, hfloat⟩ := ofLiteral_of_whole hsign hdigits htext hread hpos
      (by exact_mod_cast hne)
    exact ⟨fun h => hfloat fun hlt => h ⟨hwhole, by exact_mod_cast hlt⟩,
      fun h => hinteger (by exact_mod_cast h.2)⟩
  -- with a point, the digits have the value of the shortest form
  · have hpoint : (written x).exponent < 0 ∨ (written x).point ≤ floatLayout.pointZeroUpTo := by
      omega
    obtain ⟨whole, fraction, hchars, hdigits, hfraction, hvalue⟩ :=
      FloatLayout.positionalText_of_fraction hpoint
    rw [hchars] at htext
    rw [← Decimal.toBinary64_congr hvalue] at hread
    exact ⟨fun _ => ofLiteral_of_fraction hsign hdigits hfraction htext hread,
      fun h => absurd h.1 hwhole⟩

/-- On both sides of the lower bound. -/
theorem ofLiteral_text_tenTo16 :
    (∃ i : Int64, ofLiteral (float tenTo16).text = .integer i ∧ .ofInt i.toInt = tenTo16) ∧
      ofLiteral (float (.zero true)).text = .float (.zero true) := by
  constructor
  · apply (ofLiteral_text_float tenTo16 (by decide)).2
    rw [value_tenTo16]
    norm_num
  · apply (ofLiteral_text_float (.zero true) (by decide)).1
    rw [Binary64.value_of_units (n := 0) (by decide +kernel)]
    norm_num

/-- Not every finite number is read back from its text as a floating point number. -/
theorem not_forall_ofLiteral_text_eq :
    ¬ ∀ x : Binary64, x.isFinite → ofLiteral (float x).text = .float x := by
  intro h
  have hwritten : written tenTo16 = ⟨1, 16⟩ := by
    rw [written, shortest_tenTo16 rfl, Decimal.dropZeros, dif_neg (by decide)]
  have htext : (float tenTo16).text = "10000000000000000" := by
    rw [← String.toList_inj, toList_text_float (by decide), magnitudeText_eq (by decide), hwritten]
    decide
  have hread := h tenTo16 (by decide)
  rw [htext] at hread
  exact absurd hread (by decide)

end LayeredConfig.Scalar
