import LayeredConfig.Number.Digits
import Mathlib.Data.List.Basic
import Mathlib.Data.List.Induction

/-!
# Numbers written in decimal digits

The digits that the library writes for a number are read back as that number: for natural numbers
(`digitsToNat_toDigits`), for integers (`parseInt?_toString`) and for integers of 64 bits
(`parseInt64?_toString`).
-/

namespace LayeredConfig.Number

/-- Reading the decimal digits of a number gives the number back. -/
theorem digitsToNat_toDigits (n : Nat) : digitsToNat (Nat.toDigits 10 n) = n := by
  rw [digitsToNat, ← Nat.ofDigitChars_eq_foldl]
  exact Nat.ofDigitChars_ten_toDigits

/-- The character of a decimal digit is that of its value. -/
theorem digitChar_toNat_sub {digit : Char} (h : digit.isDigit) :
    digit.toNat - '0'.toNat < 10 ∧ Nat.digitChar (digit.toNat - '0'.toNat) = digit := by
  obtain ⟨hlow, hhigh⟩ : 48 ≤ digit.toNat ∧ digit.toNat ≤ 57 := by
    simpa [Char.isDigit, UInt32.le_iff_toNat_le] using h
  have hchar : ∀ n < 10, Nat.digitChar n = Char.ofNat (n + 48) := by decide
  have hlt : digit.toNat - 48 < 10 := by omega
  refine ⟨hlt, (hchar _ hlt).trans ?_⟩
  rw [Nat.sub_add_cancel hlow, Char.ofNat_toNat]

/-- Digits without a superfluous zero in front are those of the number that they write. -/
theorem toDigits_digitsToNat {digits : List Char} (h : isDigits digits)
    (hzero : ∀ more, digits = '0' :: more → more = []) :
    Nat.toDigits 10 (digitsToNat digits) = digits := by
  rw [isDigits, Bool.and_eq_true, decide_eq_true_eq, List.all_eq_true] at h
  obtain ⟨hne, hall⟩ := h
  induction digits using List.reverseRecOn with
  | nil => exact absurd rfl hne
  | append_singleton digits digit ih =>
    obtain ⟨hlt, hchar⟩ := digitChar_toNat_sub (hall digit (by simp))
    have hlast : Nat.toDigits 10 (digit.toNat - '0'.toNat) = [digit] := by
      rw [Nat.toDigits_of_lt_base hlt, hchar]
    have hvalue : digitsToNat (digits ++ [digit]) =
        10 * digitsToNat digits + (digit.toNat - '0'.toNat) := by
      rw [digitsToNat, List.foldl_append]
      rfl
    by_cases hdigits : digits = []
    · subst hdigits
      rw [hvalue]
      simpa [digitsToNat] using hlast
    -- the digits in front write a positive number, as they are not a zero
    · have hfront := ih (fun more heq => by simpa using hzero (more ++ [digit]) (by simp [heq]))
        hdigits fun c hc => hall c (List.mem_append_left _ hc)
      have hpos : 0 < digitsToNat digits := by
        rw [Nat.pos_iff_ne_zero]
        intro heq
        rw [heq, Nat.toDigits_zero] at hfront
        exact absurd (hzero [digit] (by simp [← hfront])) (by simp)
      rw [hvalue, ← Nat.toDigits_append_toDigits (by decide) hpos hlt, hfront, hlast]

theorem isDigits_toDigits (n : Nat) : isDigits (Nat.toDigits 10 n) := by
  rw [isDigits, Bool.and_eq_true, decide_eq_true_eq, List.all_eq_true]
  exact ⟨Nat.toDigits_ne_nil, fun c hc => Nat.isDigit_of_mem_toDigits (by decide) (by decide) hc⟩

theorem toList_toString_nat (n : Nat) : (toString n).toList = Nat.toDigits 10 n := by
  rw [Nat.toString_eq_ofList_toDigits, String.toList_ofList]

/-- The text of an integer is its digits, behind a minus if it is negative. -/
theorem toList_toString_int (i : Int) : (toString i).toList =
    if i < 0 then '-' :: Nat.toDigits 10 i.natAbs else Nat.toDigits 10 i.natAbs := by
  cases i with
  | ofNat n =>
    rw [if_neg (by simp)]
    exact toList_toString_nat n
  | negSucc n =>
    rw [if_pos (Int.negSucc_lt_zero n)]
    show ("-" ++ toString (n + 1)).toList = _
    rw [String.toList_append, toList_toString_nat]
    rfl

/-- The text of an integer is made of digits and a minus. -/
theorem isDigit_of_mem_toString {i : Int} {c : Char} (h : c ∈ (toString i).toList) :
    c.isDigit ∨ c = '-' := by
  have hdigits : ∀ c ∈ Nat.toDigits 10 i.natAbs, c.isDigit :=
    fun c hc => Nat.isDigit_of_mem_toDigits (by decide) (by decide) hc
  rw [toList_toString_int] at h
  split at h
  · exact (List.mem_cons.1 h).elim .inr fun hmem => .inl (hdigits c hmem)
  · exact .inl (hdigits c h)

theorem toList_toString_int_ne_nil (i : Int) : (toString i).toList ≠ [] := by
  rw [toList_toString_int]
  split
  · simp
  · exact Nat.toDigits_ne_nil

/-- Digits have no sign in front. -/
theorem splitSign_of_isDigits {digits : List Char} (h : isDigits digits) :
    splitSign digits = (false, digits) := by
  rw [isDigits, Bool.and_eq_true, List.all_eq_true] at h
  unfold splitSign
  split
  · exact absurd (h.2 '-' (by simp)) (by decide)
  · exact absurd (h.2 '+' (by simp)) (by decide)
  · rfl

/-- The text of an integer is read back. -/
theorem parseInt?_toString (i : Int) : parseInt? (toString i).toList = some i := by
  rw [toList_toString_int]
  have hdigits := isDigits_toDigits i.natAbs
  by_cases hneg : i < 0
  · rw [if_pos hneg, parseInt?]
    simp only [splitSign, hdigits, digitsToNat_toDigits, ↓reduceIte, Option.some.injEq]
    omega
  · rw [if_neg hneg, parseInt?, splitSign_of_isDigits hdigits]
    simp only [hdigits, digitsToNat_toDigits, ↓reduceIte, Bool.false_eq_true, Option.some.injEq]
    omega

/-- The text of a 64-bit integer is read back. -/
theorem parseInt64?_toString (i : Int64) : parseInt64? (toString i.toInt).toList = some i := by
  rw [parseInt64?, parseInt?_toString]
  -- the integer that is read has 64 bits, as it has been written from them
  have hrange : Int64.minValue.toInt ≤ i.toInt ∧ i.toInt ≤ Int64.maxValue.toInt :=
    ⟨i.minValue_le_toInt, i.toInt_le⟩
  simp only [Option.bind_eq_bind, Option.bind_some, dif_pos hrange]
  rw [Int64.ofIntLE_toInt]

end LayeredConfig.Number
