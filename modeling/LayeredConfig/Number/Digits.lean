/-!
# Decimal digits

Numbers written with the ten ASCII digits, and integers with an optional sign in front.
-/

namespace LayeredConfig.Number

/-- The number that a list of decimal digits writes; leading zeros have no effect. -/
def digitsToNat (digits : List Char) : Nat :=
  digits.foldl (fun total digit => 10 * total + (digit.toNat - '0'.toNat)) 0

/-- At least one character, and decimal digits only. -/
def isDigits (chars : List Char) : Bool :=
  chars ≠ [] && chars.all Char.isDigit

/-- The text without a sign in front, and whether that sign was a minus. -/
def splitSign : List Char → Bool × List Char
  | '-' :: rest => (true, rest)
  | '+' :: rest => (false, rest)
  | chars => (false, chars)

/-- The integer that an optional sign and decimal digits write. -/
def parseInt? (chars : List Char) : Option Int :=
  let (negative, digits) := splitSign chars
  if isDigits digits then
    some (if negative then -(digitsToNat digits : Int) else digitsToNat digits)
  else
    none

/-- The 64-bit integer that an optional sign and decimal digits write, if it is in range. -/
def parseInt64? (chars : List Char) : Option Int64 := do
  let i ← parseInt? chars
  if h : Int64.minValue.toInt ≤ i ∧ i ≤ Int64.maxValue.toInt then
    some (Int64.ofIntLE i h.1 h.2)
  else
    none

end LayeredConfig.Number
