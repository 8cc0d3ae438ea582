import LayeredConfig.Number.Binary64
import LayeredConfig.Number.Digits

/-!
# Unsigned decimal numbers

A decimal number is a natural number of digits times a power of ten.

* `parse?` reads digits with at most one point, at least one digit, and an optional exponent.
* `toBinary64` rounds to the nearest floating point number.
-/

namespace LayeredConfig.Number

/-- The number `digits * 10 ^ exponent`. -/
structure Decimal where
  /-- All digits, read as one number. -/
  digits : Nat
  /-- The power of ten by which the digits are scaled. -/
  exponent : Int
  deriving DecidableEq, Repr

namespace Decimal

/-- The exponent after the digits: nothing at all, or `e`, an optional sign and digits. -/
def parseExponent? : List Char → Option Int
  | [] => some 0
  | c :: rest => if c = 'e' ∨ c = 'E' then parseInt? rest else none

/-- The digits after the point, and what follows them. -/
def splitFraction : List Char → List Char × List Char
  | '.' :: rest => rest.span Char.isDigit
  | chars => ([], chars)

/-- The number written by digits with at most one point among them, at least one digit, and an
optional exponent. -/
def parse? (chars : List Char) : Option Decimal := do
  let (whole, rest) := chars.span Char.isDigit
  let (fraction, rest) := splitFraction rest
  if whole ++ fraction = [] then
    none
  else
    let exponent ← parseExponent? rest
    some ⟨digitsToNat (whole ++ fraction), exponent - fraction.length⟩

/-- The number of decimal digits of a natural number. -/
def digitCount (n : Nat) : Nat := (Nat.toDigits 10 n).length

/-- The number of digits before the point; not positive if zeros follow the point. -/
def point (d : Decimal) : Int := digitCount d.digits + d.exponent

/-- The floating point number nearest to a decimal number, with a sign. A number of more than 310
digits before the point is past every finite one, and one with 330 zeros after the point is below
half the least positive one, so that neither needs an exact quotient. -/
def toBinary64 (negative : Bool) (d : Decimal) : Binary64 :=
  if d.digits = 0 ∨ d.point < -330 then .zero negative
  else if 310 < d.point then .infinity negative
  else if 0 ≤ d.exponent then .ofRatio negative (d.digits * tenPow d.exponent.toNat) 1
  else .ofRatio negative d.digits (tenPow (-d.exponent).toNat)

end Decimal

end LayeredConfig.Number
