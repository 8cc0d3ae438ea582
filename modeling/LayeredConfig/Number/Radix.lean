/-!
# Digits of other radixes

Hexadecimal digits in both directions, and natural numbers written with the digits of any radix up
to sixteen.
-/

namespace LayeredConfig.Number

/-- The number that a hexadecimal digit of either case stands for. -/
def hexDigit? (c : Char) : Option Nat :=
  if c.isDigit then some (c.toNat - '0'.toNat)
  else if 'a' ≤ c ∧ c ≤ 'f' then some (c.toNat - 'a'.toNat + 10)
  else if 'A' ≤ c ∧ c ≤ 'F' then some (c.toNat - 'A'.toNat + 10)
  else none

/-- The number that at least one digit of a radix writes. -/
def parseRadix? (radix : Nat) (digits : List Char) : Option Nat :=
  if digits = [] then
    none
  else
    digits.foldlM
      (fun total c => ((hexDigit? c).filter (· < radix)).map (total * radix + ·)) 0

/-- The hexadecimal digits of a number in lowercase, with zeros in front up to a width. -/
def hexText (width n : Nat) : List Char := (Nat.toDigits 16 n).leftpad width '0'

end LayeredConfig.Number
