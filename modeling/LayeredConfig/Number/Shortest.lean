import LayeredConfig.Number.Decimal

/-!
# The shortest decimal form of a floating point number

The shortest form of a number has the fewest digits that read back as that number and, among the
forms of that many digits, is the nearest to it. `Tie` decides between two that are equally near.

On a decimal grid only the two neighbours of the number can matter: the numbers that read back form
an interval around it, so a grid point in that interval leaves a neighbour in it too.
-/

namespace LayeredConfig.Number

/-- Which of two equally near neighbours is taken. -/
inductive Tie where
  /-- The one further from zero. -/
  | away
  /-- The one with an even last digit. -/
  | even
  deriving DecidableEq, Repr

namespace Binary64

/-- The number of digits before the point of a positive finite number; not positive if zeros follow
the point. All such numbers are above `10 ^ -400`. -/
def decimalPoint (x : Binary64) : Int :=
  (Decimal.digitCount (x.units * tenPow 400 / unitsPerOne) : Int) - 400

/-- The absolute value divided by `10 ^ exponent`, as numerator and denominator. -/
def scaledBy (x : Binary64) (exponent : Int) : Nat × Nat :=
  if 0 ≤ exponent then
    (x.units, unitsPerOne * tenPow exponent.toNat)
  else
    (x.units * tenPow (-exponent).toNat, unitsPerOne)

/-- The decimal number reads back as `x`. -/
def readsBack (x : Binary64) (d : Decimal) : Bool :=
  d.toBinary64 x.negative = x

/-- The multiple of `10 ^ exponent` next to `x` that reads back as `x`, if there is one; the nearer
one if both neighbours do. -/
def onGrid? (tie : Tie) (x : Binary64) (exponent : Int) : Option Decimal :=
  let (numerator, denominator) := x.scaledBy exponent
  let lower : Decimal := ⟨numerator / denominator, exponent⟩
  let upper : Decimal := ⟨numerator / denominator + 1, exponent⟩
  let twice := 2 * (numerator % denominator)
  let upperFirst :=
    denominator < twice ∨
      (twice = denominator ∧ (tie = .away ∨ lower.digits % 2 = 1))
  [if upperFirst then upper else lower, if upperFirst then lower else upper].find? (x.readsBack ·)

/-- The exact value of a finite number as a decimal number. -/
def exactDecimal (x : Binary64) : Decimal := ⟨x.units * Nat.pow 5 1074, -1074⟩

/-- The shortest form of a positive finite number. Seventeen digits are always enough; the exact
value stands for the case that never arises. -/
def shortest (tie : Tie) (x : Binary64) : Decimal :=
  ((List.range 17).findSome? fun count =>
    x.onGrid? tie (x.decimalPoint - (count + 1 : Nat))).getD x.exactDecimal

end Binary64

/-- The same number with no zero at the end of its digits. -/
def Decimal.dropZeros (d : Decimal) : Decimal :=
  if h : d.digits ≠ 0 ∧ d.digits % 10 = 0 then
    Decimal.dropZeros ⟨d.digits / 10, d.exponent + 1⟩
  else
    d
termination_by d.digits
decreasing_by exact Nat.div_lt_self (Nat.pos_of_ne_zero h.1) (by decide)

end LayeredConfig.Number
