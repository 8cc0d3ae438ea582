import LayeredConfig.Number.Shortest

/-!
# Texts of floating point numbers

A `FloatLayout` holds the choices that a text format makes when it writes a floating point number;
`render` writes the shortest decimal form of a number by them.
-/

namespace LayeredConfig.Number

/-- How a text format writes floating point numbers. -/
structure FloatLayout where
  /-- Which of two equally near shortest forms is written. -/
  tie : Tie
  /-- The numbers of digits before the point for which no exponent is written. -/
  positional : Int → Bool
  /-- Integers with at most this many digits before the point end in `.0`. -/
  pointZeroUpTo : Int
  /-- The sign of an exponent that is not negative. -/
  exponentPlus : String
  /-- The text of a NaN. -/
  nan : String
  /-- The text of infinity. -/
  infinity : String
  /-- The text of negative infinity. -/
  negativeInfinity : String

namespace FloatLayout

/-- `count` zeros. -/
def zeros (count : Int) : List Char := List.replicate count.toNat '0'

/-- Digits with the point after the first `point` of them. -/
def positionalText (layout : FloatLayout) (digits : List Char) (point : Int) : List Char :=
  if point ≤ 0 then
    ['0', '.'] ++ zeros (-point) ++ digits
  else if digits.length ≤ point then
    digits ++ zeros (point - digits.length) ++
      (if point ≤ layout.pointZeroUpTo then ['.', '0'] else [])
  else
    digits.take point.toNat ++ ['.'] ++ digits.drop point.toNat

/-- Digits with the point after the first one and an exponent. -/
def exponentText (layout : FloatLayout) (digits : List Char) (point : Int) : List Char :=
  let mantissa :=
    match digits with
    | first :: second :: rest => first :: '.' :: second :: rest
    | short => short
  let exponent := point - 1
  let sign := if exponent < 0 then ['-'] else layout.exponentPlus.toList
  mantissa ++ ['e'] ++ sign ++ Nat.toDigits 10 exponent.natAbs

/-- The text of a finite absolute value. -/
def magnitudeText (layout : FloatLayout) (x : Binary64) : List Char :=
  if x.magnitude = 0 then
    ['0', '.', '0']
  else
    let d := (x.shortest layout.tie).dropZeros
    let digits := Nat.toDigits 10 d.digits
    if layout.positional d.point then
      layout.positionalText digits d.point
    else
      layout.exponentText digits d.point

/-- The text of a floating point number. -/
def render (layout : FloatLayout) (x : Binary64) : String :=
  if x.isNaN then layout.nan
  else if x.isInfinite then
    if x.negative then layout.negativeInfinity else layout.infinity
  else
    String.ofList ((if x.negative then ['-'] else []) ++ layout.magnitudeText x)

end FloatLayout

end LayeredConfig.Number
