import LayeredConfig.Scalar

/-!
# Unquoted literals

The scalar that an unquoted text stands for: `true` and `false`, then integers that fit 64 bits,
then floating point numbers, and otherwise the text itself.
-/

namespace LayeredConfig.Scalar

open Number

/-- The text without one letter `f`, `F`, `d` or `D` at its end. -/
def stripSuffix (chars : List Char) : List Char :=
  match chars.getLast? with
  | some last => if last ∈ ['f', 'F', 'd', 'D'] then chars.dropLast else chars
  | none => chars

/-- The text is made of digits, points, letters of exponents and signs, with no sign in front and a
digit among them. -/
def isNumeric (chars : List Char) : Bool :=
  !chars.head?.any (· ∈ ['+', '-']) &&
    chars.all (fun c => c.isDigit || c ∈ ['.', 'e', 'E', '+', '-']) && chars.any Char.isDigit

/-- The floating point number that a literal writes: an optional sign, then `NaN`, `Infinity` or a
decimal number with an optional suffix. -/
def literalFloat? (chars : List Char) : Option Binary64 :=
  let (negative, unsigned) := splitSign chars
  if unsigned = "NaN".toList then some .nan
  else if unsigned = "Infinity".toList then some (.infinity negative)
  else
    let body := stripSuffix unsigned
    if isNumeric body then (parseFloat? body).map (·.timesSign negative) else none

/-- The scalar that an unquoted text stands for. -/
def ofLiteral (literal : String) : Scalar :=
  if literal = "true" then .bool true
  else if literal = "false" then .bool false
  else
    match parseInt64? literal.toList with
    | some i => .integer i
    | none =>
      match literalFloat? literal.toList with
      | some x => .float x
      | none => .string literal

end LayeredConfig.Scalar
