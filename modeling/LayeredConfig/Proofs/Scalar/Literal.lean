import LayeredConfig.Scalar.Literal
import Mathlib.Data.List.Basic
import Mathlib.Data.List.TakeDrop
import Mathlib.Data.List.TakeWhile

/-!
# The grammar of unquoted literals

What an unquoted text stands for is decided layer by layer: signs and suffixes are taken off, the
characters that are left are checked, and what passes goes to a reader of numbers. The grammar says
without these layers which texts are integers and which are floating point numbers.

* `IntegerText` and `FloatText`: the grammar, from `SignText`, `DigitText`, `MantissaText`,
  `ExponentText` and `SuffixText`.
* `parseInt?_eq_some_iff`, `Decimal.isSome_parse?_iff`: the readers of numbers accept their part of
  the grammar.
* `Scalar.ofLiteral_grammar`: each text stands for the scalar that the grammar gives it.
-/

namespace LayeredConfig.Number

/-! ### The grammar -/

/-- An optional sign, and whether it is a minus. -/
inductive SignText : Bool → List Char → Prop
  | none : SignText false []
  | plus : SignText false ['+']
  | minus : SignText true ['-']

/-- One or more decimal digits. -/
def DigitText (digits : List Char) : Prop := digits ≠ [] ∧ ∀ c ∈ digits, c.isDigit

/-- An optional sign and digits, with the integer that they write. -/
inductive IntegerText : List Char → Int → Prop
  | intro {negative : Bool} {sign digits : List Char} (hsign : SignText negative sign)
      (hdigits : DigitText digits) :
      IntegerText (sign ++ digits)
        (if negative then -(Nat.ofDigitChars 10 digits 0 : Int) else Nat.ofDigitChars 10 digits 0)

/-- Digits with at most one point among them, and at least one digit. -/
structure MantissaText (mantissa : List Char) : Prop where
  isDigit_or : ∀ c ∈ mantissa, c.isDigit ∨ c = '.'
  count_le : mantissa.count '.' ≤ 1
  exists_digit : ∃ c ∈ mantissa, c.isDigit

/-- An optional exponent: the letter, an optional sign and digits. -/
inductive ExponentText : List Char → Prop
  | none : ExponentText []
  | digits {letter : Char} {negative : Bool} {sign digits : List Char}
      (hletter : letter = 'e' ∨ letter = 'E') (hsign : SignText negative sign)
      (hdigits : DigitText digits) : ExponentText (letter :: (sign ++ digits))

/-- An optional suffix. -/
def SuffixText (suffix : List Char) : Prop :=
  suffix = [] ∨ ∃ letter ∈ ['f', 'F', 'd', 'D'], suffix = [letter]

/-- An optional sign, and a word or a decimal number behind it. -/
inductive FloatText : List Char → Prop
  | nan {negative : Bool} {sign : List Char} (hsign : SignText negative sign) :
      FloatText (sign ++ "NaN".toList)
  | infinity {negative : Bool} {sign : List Char} (hsign : SignText negative sign) :
      FloatText (sign ++ "Infinity".toList)
  | decimal {negative : Bool} {sign mantissa exponent suffix : List Char}
      (hsign : SignText negative sign) (hmantissa : MantissaText mantissa)
      (hexponent : ExponentText exponent) (hsuffix : SuffixText suffix) :
      FloatText (sign ++ (mantissa ++ exponent ++ suffix))

variable {chars body digits sign rest : List Char} {negative : Bool} {c : Char}

/-! ### Signs and integers -/

/-- The text has no sign in front. -/
def Unsigned (chars : List Char) : Prop := ∀ c, chars.head? = some c → c ≠ '+' ∧ c ≠ '-'

theorem splitSign_append (hsign : SignText negative sign) (hbody : Unsigned body) :
    splitSign (sign ++ body) = (negative, body) := by
  cases hsign with
  | none =>
    rw [List.nil_append]
    unfold splitSign
    split
    · exact absurd rfl (hbody '-' rfl).2
    · exact absurd rfl (hbody '+' rfl).1
    · rfl
  | plus | minus => rfl

/-- A text is its sign and what is left behind it. -/
theorem exists_sign (h : splitSign chars = (negative, body)) :
    ∃ sign, SignText negative sign ∧ chars = sign ++ body := by
  unfold splitSign at h
  split at h
  · obtain ⟨rfl, rfl⟩ := Prod.mk.inj h
    exact ⟨['-'], .minus, rfl⟩
  · obtain ⟨rfl, rfl⟩ := Prod.mk.inj h
    exact ⟨['+'], .plus, rfl⟩
  · obtain ⟨rfl, rfl⟩ := Prod.mk.inj h
    exact ⟨[], .none, rfl⟩

theorem ne_sign_of_isDigit (h : c.isDigit) : c ≠ '+' ∧ c ≠ '-' := by
  constructor
  · rintro rfl
    exact absurd h (by decide)
  · rintro rfl
    exact absurd h (by decide)

theorem DigitText.unsigned (h : DigitText digits) : Unsigned digits := by
  intro c hhead
  exact ne_sign_of_isDigit (h.2 c (List.mem_of_head? hhead))

theorem isDigits_iff : isDigits digits ↔ DigitText digits := by
  rw [isDigits, Bool.and_eq_true, decide_eq_true_eq, List.all_eq_true, DigitText]

theorem digitsToNat_eq (digits : List Char) : digitsToNat digits = Nat.ofDigitChars 10 digits 0 :=
  Nat.ofDigitChars_eq_foldl.symm

/-- An integer is read from the texts that write it. -/
theorem parseInt?_eq_some_iff {i : Int} : parseInt? chars = some i ↔ IntegerText chars i := by
  constructor
  · intro h
    rcases hsplit : splitSign chars with ⟨negative, digits⟩
    obtain ⟨sign, hsign, rfl⟩ := exists_sign hsplit
    rw [parseInt?, hsplit] at h
    simp only [Option.ite_none_right_eq_some, Option.some.injEq] at h
    obtain ⟨hdigits, rfl⟩ := h
    rw [digitsToNat_eq]
    exact .intro hsign (isDigits_iff.1 hdigits)
  · rintro ⟨hsign, hdigits⟩
    rw [parseInt?, splitSign_append hsign hdigits.unsigned]
    simp only [isDigits_iff.2 hdigits, ↓reduceIte, digitsToNat_eq]

/-- A 64-bit integer is read from the texts that write it. -/
theorem parseInt64?_eq_some_iff {i : Int64} :
    parseInt64? chars = some i ↔ IntegerText chars i.toInt := by
  rw [← parseInt?_eq_some_iff, parseInt64?, Option.bind_eq_bind, Option.bind_eq_some_iff]
  constructor
  · rintro ⟨n, hn, h⟩
    split at h
    · obtain rfl := Option.some.inj h
      rw [Int64.toInt_ofIntLE, hn]
    · exact absurd h (by simp)
  · intro h
    refine ⟨i.toInt, h, ?_⟩
    rw [dif_pos ⟨i.minValue_le_toInt, i.toInt_le⟩, Int64.ofIntLE_toInt]

/-! ### Decimal numbers -/

/-- Digits are cut off up to the first other character. -/
theorem span_isDigit (hdigits : ∀ c ∈ digits, c.isDigit)
    (hrest : ∀ c, rest.head? = some c → c.isDigit = false) :
    (digits ++ rest).span Char.isDigit = (digits, rest) := by
  rw [List.span_eq_takeWhile_dropWhile, List.takeWhile_append_of_pos hdigits,
    List.dropWhile_append_of_pos hdigits]
  cases rest with
  | nil => simp
  | cons c rest => simp [hrest c rfl]

theorem span_isDigit_self (hdigits : ∀ c ∈ digits, c.isDigit) :
    digits.span Char.isDigit = (digits, []) := by
  have hspan : (digits ++ []).span Char.isDigit = (digits, []) := span_isDigit hdigits (by simp)
  rwa [List.append_nil] at hspan

/-- The digits that are cut off, and what follows them. -/
theorem span_isDigit_eq (chars : List Char) :
    chars = (chars.span Char.isDigit).1 ++ (chars.span Char.isDigit).2 ∧
      ∀ c ∈ (chars.span Char.isDigit).1, c.isDigit := by
  rw [List.span_eq_takeWhile_dropWhile]
  exact ⟨List.takeWhile_append_dropWhile.symm, fun c hc => List.mem_takeWhile_imp hc⟩

theorem Decimal.isSome_parseExponent?_iff :
    (parseExponent? chars).isSome ↔ ExponentText chars := by
  constructor
  · intro h
    cases chars with
    | nil => exact .none
    | cons letter rest =>
      rw [parseExponent?] at h
      split at h
      next hletter =>
        obtain ⟨i, hi⟩ := Option.isSome_iff_exists.1 h
        obtain ⟨hsign, hdigits⟩ := parseInt?_eq_some_iff.1 hi
        exact .digits hletter hsign hdigits
      next => exact absurd h (by simp)
  · intro h
    cases h with
    | none => rfl
    | digits hletter hsign hdigits =>
      have hinteger := parseInt?_eq_some_iff.2 (IntegerText.intro hsign hdigits)
      rw [parseExponent?, if_pos hletter, hinteger]
      rfl

theorem ExponentText.head_eq (h : ExponentText chars) :
    ∀ c, chars.head? = some c → c = 'e' ∨ c = 'E' := by
  intro c hhead
  cases h with
  | none => exact absurd hhead (by simp)
  | digits hletter => exact Option.some.inj hhead ▸ hletter

/-- A mantissa is digits, with or without a point and more digits behind them. -/
theorem mantissaText_iff : MantissaText chars ↔
    ∃ whole fraction, (∀ c ∈ whole, c.isDigit) ∧ (∀ c ∈ fraction, c.isDigit) ∧
      whole ++ fraction ≠ [] ∧
      (chars = whole ∧ fraction = [] ∨ chars = whole ++ '.' :: fraction) := by
  constructor
  · rintro ⟨hmem, hcount, d, hd, hdigit⟩
    by_cases hpoint : '.' ∈ chars
    · obtain ⟨whole, fraction, rfl⟩ := List.append_of_mem hpoint
      -- the point is the only one
      rw [List.count_append, List.count_cons_self] at hcount
      have hwhole : '.' ∉ whole := List.count_eq_zero.1 (by omega)
      have hfraction : '.' ∉ fraction := List.count_eq_zero.1 (by omega)
      refine ⟨whole, fraction, fun c hc => ?_, fun c hc => ?_, ?_, .inr rfl⟩
      · exact (hmem c (by simp [hc])).resolve_right fun heq => hwhole (heq ▸ hc)
      · exact (hmem c (by simp [hc])).resolve_right fun heq => hfraction (heq ▸ hc)
      · intro hempty
        obtain ⟨rfl, rfl⟩ := List.append_eq_nil_iff.1 hempty
        obtain rfl : d = '.' := by simpa using hd
        exact absurd hdigit (by decide)
    · refine ⟨chars, [], fun c hc => ?_, by simp, ?_, .inl ⟨rfl, rfl⟩⟩
      · exact (hmem c hc).resolve_right fun heq => hpoint (heq ▸ hc)
      · rw [List.append_nil]
        exact List.ne_nil_of_mem hd
  · rintro ⟨whole, fraction, hwhole, hfraction, hne, hchars⟩
    have hpoint : ∀ digits : List Char, (∀ c ∈ digits, c.isDigit) → digits.count '.' = 0 :=
      fun digits hdigits => List.count_eq_zero.2 fun hmem => absurd (hdigits '.' hmem) (by decide)
    obtain ⟨d, hd⟩ := List.exists_mem_of_ne_nil _ hne
    have hdigit : d.isDigit := (List.mem_append.1 hd).elim (hwhole d) (hfraction d)
    rcases hchars with ⟨rfl, rfl⟩ | rfl
    · exact ⟨fun c hc => .inl (hwhole c hc), by simp [hpoint chars hwhole],
        d, by simpa using hd, hdigit⟩
    · refine ⟨fun c hc => ?_, ?_, d, ?_, hdigit⟩
      · rw [List.mem_append, List.mem_cons] at hc
        rcases hc with hc | rfl | hc
        · exact .inl (hwhole c hc)
        · exact .inr rfl
        · exact .inl (hfraction c hc)
      · rw [List.count_append, List.count_cons_self, hpoint whole hwhole,
          hpoint fraction hfraction]
      · rw [List.mem_append, List.mem_cons]
        exact (List.mem_append.1 hd).imp_right .inr

namespace Decimal

variable {whole fraction exponent : List Char}

/-- A decimal number is read part by part. -/
theorem parse?_of_parts (hwhole : chars.span Char.isDigit = (whole, rest))
    (hfraction : splitFraction rest = (fraction, exponent)) (hne : whole ++ fraction ≠ []) :
    parse? chars = (parseExponent? exponent).map fun e =>
      ⟨digitsToNat (whole ++ fraction), e - fraction.length⟩ := by
  rw [parse?]
  simp only [hwhole, hfraction]
  rw [if_neg hne]
  cases parseExponent? exponent <;> rfl

/-- A decimal number is read if there is a digit and the exponent is one. -/
theorem isSome_parse?_of_parts (hwhole : chars.span Char.isDigit = (whole, rest))
    (hfraction : splitFraction rest = (fraction, exponent)) :
    (parse? chars).isSome ↔ whole ++ fraction ≠ [] ∧ ExponentText exponent := by
  rw [← isSome_parseExponent?_iff]
  by_cases hempty : whole ++ fraction = []
  · rw [parse?]
    simp only [hwhole, hfraction]
    simp [hempty]
  · rw [parse?_of_parts hwhole hfraction hempty, Option.isSome_map]
    exact (and_iff_right hempty).symm

/-- Digits alone write an integer. -/
theorem parse?_of_digitText (h : DigitText digits) :
    parse? digits = some ⟨digitsToNat digits, 0⟩ := by
  have hsplit : splitFraction [] = ([], []) := rfl
  rw [parse?_of_parts (span_isDigit_self h.2) hsplit (by simpa using h.1), List.append_nil]
  rfl

/-- Digits behind a point scale all of them down. -/
theorem parse?_of_point (hwhole : DigitText whole) (hfraction : ∀ c ∈ fraction, c.isDigit) :
    parse? (whole ++ '.' :: fraction) =
      some ⟨digitsToNat (whole ++ fraction), -fraction.length⟩ := by
  have hspan : (whole ++ '.' :: fraction).span Char.isDigit = (whole, '.' :: fraction) :=
    span_isDigit hwhole.2 (by simp)
  have hsplit : splitFraction ('.' :: fraction) = (fraction, []) := span_isDigit_self hfraction
  rw [parse?_of_parts hspan hsplit (by simp [hwhole.1]), parseExponent?, Option.map_some,
    Int.zero_sub]

/-- A decimal number is read from the texts that write one. -/
theorem isSome_parse?_iff : (parse? chars).isSome ↔
    ∃ mantissa exponent, chars = mantissa ++ exponent ∧ MantissaText mantissa ∧
      ExponentText exponent := by
  constructor
  · intro h
    obtain ⟨hchars, hwhole⟩ := span_isDigit_eq chars
    rcases hspan : chars.span Char.isDigit with ⟨whole, rest⟩
    rw [hspan] at hchars hwhole
    by_cases hpoint : ∃ more, rest = '.' :: more
    · obtain ⟨more, rfl⟩ := hpoint
      obtain ⟨hmore, hfraction⟩ := span_isDigit_eq more
      rcases hspan' : more.span Char.isDigit with ⟨fraction, exponent⟩
      rw [hspan'] at hmore hfraction
      obtain ⟨hne, hexponent⟩ := (isSome_parse?_of_parts hspan hspan').1 h
      exact ⟨whole ++ '.' :: fraction, exponent, by simpa [hmore] using hchars,
        mantissaText_iff.2 ⟨whole, fraction, hwhole, hfraction, hne, .inr rfl⟩, hexponent⟩
    · have hfraction : splitFraction rest = ([], rest) := by
        unfold splitFraction
        split
        next more => exact absurd ⟨more, rfl⟩ hpoint
        next => rfl
      obtain ⟨hne, hexponent⟩ := (isSome_parse?_of_parts hspan hfraction).1 h
      exact ⟨whole, rest, hchars,
        mantissaText_iff.2 ⟨whole, [], hwhole, by simp, hne, .inl ⟨rfl, rfl⟩⟩, hexponent⟩
  · rintro ⟨mantissa, exponent, rfl, hmantissa, hexponent⟩
    -- neither a digit nor a point comes at the beginning of the exponent
    have hhead : ∀ c, exponent.head? = some c → c.isDigit = false ∧ c ≠ '.' := by
      intro c hhead
      rcases hexponent.head_eq c hhead with rfl | rfl <;> decide
    obtain ⟨whole, fraction, hwhole, hfraction, hne, ⟨rfl, rfl⟩ | rfl⟩ :=
      mantissaText_iff.1 hmantissa
    · have hsplit : splitFraction exponent = ([], exponent) := by
        unfold splitFraction
        split
        next => exact absurd rfl (hhead '.' rfl).2
        next => rfl
      have hspan := span_isDigit hwhole fun c hc => (hhead c hc).1
      exact (isSome_parse?_of_parts hspan hsplit).2 ⟨hne, hexponent⟩
    · rw [List.append_assoc]
      have hspan : (whole ++ ('.' :: fraction ++ exponent)).span Char.isDigit =
          (whole, '.' :: fraction ++ exponent) := span_isDigit hwhole (by simp)
      have hsplit : splitFraction ('.' :: fraction ++ exponent) = (fraction, exponent) :=
        span_isDigit hfraction fun c hc => (hhead c hc).1
      exact (isSome_parse?_of_parts hspan hsplit).2 ⟨hne, hexponent⟩

end Decimal

/-! ### The characters of numbers -/

/-- The character is one that signs, mantissas and exponents are made of. -/
def IsNumberChar (c : Char) : Prop := c.isDigit ∨ c ∈ ['.', 'e', 'E', '+', '-']

theorem SignText.isNumberChar (h : SignText negative sign) : ∀ c ∈ sign, IsNumberChar c := by
  cases h <;> simp [IsNumberChar]

theorem MantissaText.isNumberChar (h : MantissaText chars) : ∀ c ∈ chars, IsNumberChar c := by
  intro c hc
  rcases h.isDigit_or c hc with hdigit | rfl
  · exact .inl hdigit
  · exact .inr (by decide)

theorem ExponentText.isNumberChar (h : ExponentText chars) : ∀ c ∈ chars, IsNumberChar c := by
  intro c hc
  cases h with
  | none => exact absurd hc (by simp)
  | digits hletter hsign hdigits =>
    rw [List.mem_cons, List.mem_append] at hc
    rcases hc with rfl | hc | hc
    · rcases hletter with rfl | rfl <;> exact .inr (by decide)
    · exact hsign.isNumberChar c hc
    · exact .inl (hdigits.2 c hc)

/-- No suffix is one of these characters. -/
theorem IsNumberChar.notMem (h : IsNumberChar c) : c ∉ ['f', 'F', 'd', 'D'] := by
  intro hmem
  simp only [List.mem_cons, List.not_mem_nil, or_false] at hmem
  rcases hmem with rfl | rfl | rfl | rfl <;> rcases h with h | h <;> exact absurd h (by decide)

/-- A mantissa begins with a digit or a point, and not with a sign. -/
theorem MantissaText.unsigned_append (h : MantissaText chars) (rest : List Char) :
    Unsigned (chars ++ rest) := by
  obtain ⟨d, hd, -⟩ := h.exists_digit
  obtain ⟨first, more, rfl⟩ := List.exists_cons_of_ne_nil (List.ne_nil_of_mem hd)
  intro c hhead
  obtain rfl : first = c := Option.some.inj hhead
  rcases h.isDigit_or first List.mem_cons_self with hdigit | rfl
  · exact ne_sign_of_isDigit hdigit
  · decide

end LayeredConfig.Number

namespace LayeredConfig.Scalar

open Number

variable {chars body suffix : List Char} {negative : Bool} {c : Char}

/-! ### The layers of floating point literals -/

theorem stripSuffix_append (hbody : ∀ c, body.getLast? = some c → c ∉ ['f', 'F', 'd', 'D'])
    (hsuffix : SuffixText suffix) : stripSuffix (body ++ suffix) = body := by
  rcases hsuffix with rfl | ⟨letter, hletter, rfl⟩
  · rw [List.append_nil]
    unfold stripSuffix
    split
    next last hlast => rw [if_neg (hbody last hlast)]
    next => rfl
  · unfold stripSuffix
    simp only [List.getLast?_concat, hletter, ↓reduceIte, List.dropLast_concat]

/-- A text is what is left of it and its suffix. -/
theorem exists_suffix (chars : List Char) :
    ∃ suffix, SuffixText suffix ∧ chars = stripSuffix chars ++ suffix := by
  unfold stripSuffix
  split
  next last hlast =>
    split
    next hletter =>
      exact ⟨[last], .inr ⟨last, hletter, rfl⟩, (List.dropLast_append_getLast? last hlast).symm⟩
    next => exact ⟨[], .inl rfl, (List.append_nil _).symm⟩
  next => exact ⟨[], .inl rfl, (List.append_nil _).symm⟩

theorem isNumeric_iff : isNumeric chars ↔
    Unsigned chars ∧ (∀ c ∈ chars, IsNumberChar c) ∧ ∃ c ∈ chars, c.isDigit := by
  rw [isNumeric, Bool.and_eq_true, Bool.and_eq_true, List.all_eq_true, List.any_eq_true, and_assoc]
  refine and_congr ?_ (and_congr ?_ Iff.rfl)
  · cases chars <;> simp [Unsigned]
  · simp [IsNumberChar]

/-- Digits have no case. -/
theorem toLower_of_isDigit (h : c.isDigit) : c.toLower = c := by
  rw [Char.isDigit, Bool.and_eq_true, decide_eq_true_eq, decide_eq_true_eq] at h
  have hupper : ¬ (c.val ≥ 'A'.val ∧ c.val ≤ 'Z'.val) := fun hupper =>
    absurd (UInt32.le_trans hupper.1 h.2) (by decide)
  exact dif_neg hupper

/-- Where a digit is left behind the sign, no word is read. -/
theorem parseFloat?_of_digit {sign : List Char} (hsign : SignText negative sign)
    (hunsigned : Unsigned chars) (hc : c ∈ chars) (hdigit : c.isDigit) :
    parseFloat? (sign ++ chars) = (Decimal.parse? chars).map (·.toBinary64 negative) := by
  have hword : ∀ word : List Char, word.all (!·.isDigit) → chars.map Char.toLower ≠ word := by
    rintro word hword rfl
    rw [List.all_eq_true] at hword
    have hnot := hword c.toLower (List.mem_map_of_mem hc)
    rw [toLower_of_isDigit hdigit, hdigit] at hnot
    exact absurd hnot (by simp)
  rw [parseFloat?, splitSign_append hsign hunsigned]
  dsimp only
  rw [if_neg (not_or.2 ⟨hword _ (by decide), hword _ (by decide)⟩), if_neg (hword _ (by decide))]

/-- Where a number is left, there is no second sign. -/
theorem parseFloat?_of_isNumeric (h : isNumeric chars) :
    parseFloat? chars = (Decimal.parse? chars).map (·.toBinary64 false) := by
  obtain ⟨hunsigned, -, d, hd, hdigit⟩ := isNumeric_iff.1 h
  exact parseFloat?_of_digit .none hunsigned hd hdigit

theorem literalFloat?_of_splitSign (h : splitSign chars = (negative, body)) :
    literalFloat? chars =
      if body = "NaN".toList then some .nan
      else if body = "Infinity".toList then some (.infinity negative)
      else if isNumeric (stripSuffix body) then
        (parseFloat? (stripSuffix body)).map (·.timesSign negative)
      else none := by
  rw [literalFloat?, h]

/-- A sign in front of a decimal number changes the sign of the number nearest to it. -/
theorem timesSign_toBinary64 (negative : Bool) (d : Decimal) :
    (d.toBinary64 false).timesSign negative = d.toBinary64 negative := by
  have hsign : (false != negative) = negative := Bool.false_bne negative
  unfold Decimal.toBinary64
  split
  · rw [Binary64.timesSign, Binary64.zero, hsign, Binary64.zero]
  split
  · rw [Binary64.timesSign, Binary64.infinity, hsign, Binary64.infinity]
  split
  all_goals rw [Binary64.timesSign, Binary64.ofRatio, hsign, Binary64.ofRatio]

section Layers

variable {sign mantissa exponent : List Char}

theorem literalFloat?_nan (hsign : SignText negative sign) :
    literalFloat? (sign ++ "NaN".toList) = some .nan := by
  rw [literalFloat?_of_splitSign (splitSign_append hsign (by simp [Unsigned])), if_pos rfl]

theorem literalFloat?_infinity (hsign : SignText negative sign) :
    literalFloat? (sign ++ "Infinity".toList) = some (.infinity negative) := by
  rw [literalFloat?_of_splitSign (splitSign_append hsign (by simp [Unsigned])),
    if_neg (by decide), if_pos rfl]

/-- A literal is the number nearest to its mantissa and exponent, with its sign. -/
theorem literalFloat?_decimal (hsign : SignText negative sign) (hmantissa : MantissaText mantissa)
    (hexponent : ExponentText exponent) (hsuffix : SuffixText suffix) :
    literalFloat? (sign ++ (mantissa ++ exponent ++ suffix)) =
      (Decimal.parse? (mantissa ++ exponent)).map (·.toBinary64 negative) := by
  have hunsigned : Unsigned (mantissa ++ exponent ++ suffix) := by
    rw [List.append_assoc]
    exact hmantissa.unsigned_append _
  have hchars : ∀ c ∈ mantissa ++ exponent, IsNumberChar c := fun c hc =>
    (List.mem_append.1 hc).elim (hmantissa.isNumberChar c) (hexponent.isNumberChar c)
  -- no character of the number is taken for a suffix
  have hstrip : stripSuffix (mantissa ++ exponent ++ suffix) = mantissa ++ exponent :=
    stripSuffix_append (fun c hc => (hchars c (List.mem_of_getLast? hc)).notMem) hsuffix
  obtain ⟨d, hd, hdigit⟩ := hmantissa.exists_digit
  have hnumeric : isNumeric (mantissa ++ exponent) :=
    isNumeric_iff.2 ⟨hmantissa.unsigned_append exponent, hchars, d,
      List.mem_append_left exponent hd, hdigit⟩
  -- and no word has a digit
  have hword : ∀ word : List Char, word.all (!·.isDigit) →
      mantissa ++ exponent ++ suffix ≠ word := by
    rintro word hword rfl
    have hnot := List.all_eq_true.1 hword d (by simp [hd])
    rw [hdigit] at hnot
    exact absurd hnot (by simp)
  rw [literalFloat?_of_splitSign (splitSign_append hsign hunsigned),
    if_neg (hword _ (by decide)), if_neg (hword _ (by decide)), hstrip, if_pos hnumeric,
    parseFloat?_of_isNumeric hnumeric, Option.map_map]
  exact Option.map_congr fun d _ => timesSign_toBinary64 negative d

end Layers

/-- A floating point number is read from the texts that write one. -/
theorem isSome_literalFloat?_iff : (literalFloat? chars).isSome ↔ FloatText chars := by
  constructor
  · intro h
    rcases hsplit : splitSign chars with ⟨negative, unsigned⟩
    obtain ⟨sign, hsign, rfl⟩ := exists_sign hsplit
    rw [literalFloat?_of_splitSign hsplit] at h
    split at h
    next hnan =>
      rw [hnan]
      exact .nan hsign
    split at h
    next hinfinity =>
      rw [hinfinity]
      exact .infinity hsign
    split at h
    next hnumeric =>
      rw [parseFloat?_of_isNumeric hnumeric, Option.isSome_map, Option.isSome_map,
        Decimal.isSome_parse?_iff] at h
      obtain ⟨mantissa, exponent, hbody, hmantissa, hexponent⟩ := h
      obtain ⟨suffix, hsuffix, hunsigned⟩ := exists_suffix unsigned
      rw [hunsigned, hbody]
      exact .decimal hsign hmantissa hexponent hsuffix
    next => exact absurd h (by simp)
  · intro h
    cases h with
    | nan hsign =>
      rw [literalFloat?_nan hsign]
      rfl
    | infinity hsign =>
      rw [literalFloat?_infinity hsign]
      rfl
    | @decimal negative sign mantissa exponent suffix hsign hmantissa hexponent hsuffix =>
      rw [literalFloat?_decimal hsign hmantissa hexponent hsuffix, Option.isSome_map,
        Decimal.isSome_parse?_iff]
      exact ⟨mantissa, exponent, rfl, hmantissa, hexponent⟩

/-! ### Literals -/

/-- The text of a truth value writes no number. -/
theorem parse_boolText (value : Bool) :
    parseInt64? (boolText value).toList = none ∧ literalFloat? (boolText value).toList = none := by
  cases value <;> exact ⟨by decide, by decide⟩

/-- Each literal is a truth value, an integer, a floating point number or a text. -/
theorem ofLiteral_cases (text : String) :
    (∃ value, text = boolText value ∧ ofLiteral text = .bool value) ∨
      (∃ i, parseInt64? text.toList = some i ∧ ofLiteral text = .integer i) ∨
      (∃ x, parseInt64? text.toList = none ∧ literalFloat? text.toList = some x ∧
        ofLiteral text = .float x) ∨
      (∀ value, text ≠ boolText value) ∧ parseInt64? text.toList = none ∧
        literalFloat? text.toList = none ∧ ofLiteral text = .string text := by
  by_cases htrue : text = "true"
  · exact .inl ⟨true, htrue, by rw [ofLiteral, if_pos htrue]⟩
  by_cases hfalse : text = "false"
  · exact .inl ⟨false, hfalse, by rw [ofLiteral, if_neg htrue, if_pos hfalse]⟩
  have hbool : ∀ value, text ≠ boolText value := fun value => by
    cases value
    · exact hfalse
    · exact htrue
  rw [ofLiteral, if_neg htrue, if_neg hfalse]
  cases hinteger : parseInt64? text.toList with
  | some i => exact .inr (.inl ⟨i, rfl, rfl⟩)
  | none =>
    cases hfloat : literalFloat? text.toList with
    | some x => exact .inr (.inr (.inl ⟨x, rfl, rfl, rfl⟩))
    | none => exact .inr (.inr (.inr ⟨hbool, rfl, rfl, rfl⟩))

theorem ofLiteral_of_parseInt64? {text : String} {i : Int64}
    (h : parseInt64? text.toList = some i) : ofLiteral text = .integer i := by
  rcases ofLiteral_cases text with ⟨value, rfl, -⟩ | ⟨j, hj, hscalar⟩ | ⟨x, hi, -, -⟩ |
    ⟨-, hi, -, -⟩
  · exact absurd ((parse_boolText value).1.symm.trans h) (by simp)
  · rw [hscalar, Option.some.inj (hj.symm.trans h)]
  all_goals exact absurd (hi.symm.trans h) (by simp)

theorem ofLiteral_eq_float_iff {text : String} {x : Binary64} : ofLiteral text = .float x ↔
    parseInt64? text.toList = none ∧ literalFloat? text.toList = some x := by
  rcases ofLiteral_cases text with ⟨value, rfl, hscalar⟩ | ⟨i, hi, hscalar⟩ |
    ⟨y, hi, hy, hscalar⟩ | ⟨-, hi, hx, hscalar⟩
  · simp [hscalar, parse_boolText]
  · simp [hscalar, hi]
  · simp [hscalar, hi, hy]
  · simp [hscalar, hi, hx]

/-- Every text stands for the scalar that the grammar gives it: for a truth value if it spells one,
for the integer that it writes if that one has 64 bits, else for a floating point number if it
writes one, and otherwise for itself. -/
theorem ofLiteral_grammar (text : String) :
    (∀ value, ofLiteral text = .bool value ↔ text = boolText value) ∧
      (∀ i : Int64, ofLiteral text = .integer i ↔ IntegerText text.toList i.toInt) ∧
      ((∃ x, ofLiteral text = .float x) ↔
        (¬ ∃ i : Int64, IntegerText text.toList i.toInt) ∧ FloatText text.toList) ∧
      (∀ other, ofLiteral text = .string other ↔
        other = text ∧ (∀ value, text ≠ boolText value) ∧
          (¬ ∃ i : Int64, IntegerText text.toList i.toInt) ∧ ¬ FloatText text.toList) ∧
      ∀ bytes, ofLiteral text ≠ .bytes bytes := by
  have hnone : parseInt64? text.toList = none ↔ ¬ ∃ i : Int64, IntegerText text.toList i.toInt := by
    simp only [← parseInt64?_eq_some_iff, ← Option.isSome_iff_exists, Option.not_isSome_iff_eq_none]
  have hinjective : ∀ a b, boolText a = boolText b ↔ a = b := by decide
  rw [← isSome_literalFloat?_iff, ← hnone]
  simp only [← parseInt64?_eq_some_iff]
  rcases ofLiteral_cases text with ⟨value, rfl, hscalar⟩ | ⟨i, hi, hscalar⟩ |
    ⟨x, hi, hx, hscalar⟩ | ⟨hbool, hi, hx, hscalar⟩
  · obtain ⟨hi, hx⟩ := parse_boolText value
    simp [hscalar, hi, hx, hinjective]
  · have hbool : ∀ value, text ≠ boolText value := by
      rintro value rfl
      exact absurd ((parse_boolText value).1.symm.trans hi) (by simp)
    simp [hscalar, hi, hbool]
  · have hbool : ∀ value, text ≠ boolText value := by
      rintro value rfl
      exact absurd ((parse_boolText value).2.symm.trans hx) (by simp)
    simp [hscalar, hi, hx, hbool]
  · simp [hscalar, hi, hx, hbool, eq_comm]

end LayeredConfig.Scalar
