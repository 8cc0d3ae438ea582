import LayeredConfig.Number.Power

/-!
# Binary floating point numbers of 64 bits

A number is its sign and the lower 63 bits of its pattern, read as one natural number, its
*magnitude*. Magnitudes are ordered like absolute values and neighbouring numbers have neighbouring
magnitudes, so rounding is arithmetic on natural numbers: every finite absolute value is a multiple
of `2 ^ -1074`, and `units` counts these multiples.

* `ofBits` and `bits` pass between numbers and 64-bit patterns.
* `ofRatio` rounds an exact quotient to the nearest number, a tie to the even magnitude.
* `integer?` is the exact integer value of a number that has one.
-/

namespace LayeredConfig.Number

/-- A floating point number of 64 bits in the IEEE 754 binary format. -/
structure Binary64 where
  /-- The sign bit. -/
  negative : Bool
  /-- The other bits: 11 bits of exponent above 52 bits of fraction. -/
  magnitude : Nat
  /-- The magnitude has 63 bits. -/
  magnitude_lt : magnitude < twoPow 63
  deriving DecidableEq, Repr

namespace Binary64

/-- The magnitude of infinity; the magnitudes below it are finite, the others are not numbers. -/
def infiniteMagnitude : Nat := 2047 * twoPow 52

/-- The number is neither infinite nor NaN. -/
def isFinite (x : Binary64) : Bool := x.magnitude < infiniteMagnitude

/-- The number is one of the two infinities. -/
def isInfinite (x : Binary64) : Bool := x.magnitude = infiniteMagnitude

/-- The pattern is not a number. -/
def isNaN (x : Binary64) : Bool := infiniteMagnitude < x.magnitude

/-- Zero with the given sign. -/
def zero (negative : Bool) : Binary64 := ⟨negative, 0, by decide⟩

/-- Infinity with the given sign. -/
def infinity (negative : Bool) : Binary64 := ⟨negative, infiniteMagnitude, by decide⟩

/-- The quiet NaN without a sign. -/
def nan : Binary64 := ⟨false, infiniteMagnitude + twoPow 51, by decide⟩

/-- The number times minus one if `negative`, else times one. -/
def timesSign (negative : Bool) (x : Binary64) : Binary64 :=
  { x with negative := x.negative != negative }

/-- The number with a given pattern of 64 bits. -/
def ofBits (bits : UInt64) : Binary64 :=
  ⟨twoPow 63 ≤ bits.toNat, bits.toNat % twoPow 63, Nat.mod_lt _ (twoPow_pos 63)⟩

/-- The pattern of 64 bits of a number. -/
def bits (x : Binary64) : UInt64 :=
  UInt64.ofNat ((if x.negative then twoPow 63 else 0) + x.magnitude)

/-- The absolute value of a finite number as a multiple of `2 ^ -1074`. -/
def units (x : Binary64) : Nat :=
  if x.magnitude < twoPow 52 then
    x.magnitude
  else
    (twoPow 52 + x.magnitude % twoPow 52) * twoPow (x.magnitude / twoPow 52 - 1)

/-- The number of units in one. -/
def unitsPerOne : Nat := twoPow 1074

/-- The integer nearest to `numerator / denominator`; of two nearest, the even one. -/
def divRoundEven (numerator denominator : Nat) : Nat :=
  let quotient := numerator / denominator
  let twice := 2 * (numerator % denominator)
  if twice < denominator then quotient
  else if denominator < twice then quotient + 1
  else quotient + quotient % 2

/-- The number nearest to `numerator / denominator`, with a sign; of two nearest, the one with the
even magnitude, and infinity where the exponent would be too large. -/
def ofRatio (negative : Bool) (numerator denominator : Nat) : Binary64 :=
  let scaled := numerator * unitsPerOne
  let shift := (scaled / denominator).log2 - 52
  let mantissa := divRoundEven scaled (denominator * twoPow shift)
  ⟨negative, min (shift * twoPow 52 + mantissa) infiniteMagnitude,
    Nat.lt_of_le_of_lt (Nat.min_le_right _ _) (by decide)⟩

/-- The number nearest to an integer. -/
def ofInt (i : Int) : Binary64 := ofRatio (i < 0) i.natAbs 1

/-- The exact value of a finite number without a fractional part. -/
def integer? (x : Binary64) : Option Int :=
  if x.isFinite ∧ x.units % unitsPerOne = 0 then
    let absolute : Int := x.units / unitsPerOne
    some (if x.negative then -absolute else absolute)
  else
    none

end Binary64

end LayeredConfig.Number
