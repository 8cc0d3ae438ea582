import LayeredConfig.Number.Layout
import LayeredConfig.Text.Base64
import LayeredConfig.Text.Blank
import LayeredConfig.Text.Case

/-!
# Scalars

A scalar is what a source stores at a path. Every scalar has a text; the other readings (`toBool?`,
`toInt64?`, `toFloat?`, `toBytes?`) exist only for scalars that stand for a value of that type.
-/

namespace LayeredConfig

open Number

/-- A value at a leaf of a configuration tree. -/
inductive Scalar where
  /-- A truth value. -/
  | bool (value : Bool)
  /-- An integer of 64 bits. -/
  | integer (value : Int64)
  /-- A floating point number. -/
  | float (value : Binary64)
  /-- A text. -/
  | string (value : String)
  /-- Raw bytes; their text is base64. -/
  | bytes (value : List UInt8)
  deriving DecidableEq

namespace Scalar

/-- Scalar texts write every finite number without an exponent; integers keep `.0` at the end as
long as they have at most sixteen digits. -/
def floatLayout : FloatLayout where
  tie := .away
  positional := fun _ => true
  pointZeroUpTo := 16
  exponentPlus := ""
  nan := "NaN"
  infinity := "inf"
  negativeInfinity := "-inf"

/-- The name of the type of a scalar. -/
def typeName : Scalar → String
  | bool _ => "boolean"
  | integer _ => "integer"
  | float _ => "float"
  | string _ => "string"
  | bytes _ => "bytes"

/-- The text of a truth value. -/
def boolText (value : Bool) : String := if value then "true" else "false"

/-- The text of a scalar. -/
def text : Scalar → String
  | bool value => boolText value
  | integer value => toString value.toInt
  | float value => floatLayout.render value
  | string value => value
  | bytes value => Text.Base64.encode value

/-- The text of a string scalar, and of no other. -/
def string? : Scalar → Option String
  | string value => some value
  | _ => none

/-- A truth value: itself, or a string that spells `true` or `false` in any case. -/
def toBool? : Scalar → Option Bool
  | bool value => some value
  | string value =>
    if Text.equalsIgnoringAsciiCase value "true" then some true
    else if Text.equalsIgnoringAsciiCase value "false" then some false
    else none
  | _ => none

/-- The integer that equals a floating point number strictly between `-2 ^ 63` and `2 ^ 63`. -/
def integerOfFloat? (value : Binary64) : Option Int64 := do
  let i ← value.integer?
  if i.natAbs < twoPow 63 then some (Int64.ofInt i) else none

/-- An integer: itself, the value of a floating point number without a fraction, or a string that
writes an integer between white space. -/
def toInt64? : Scalar → Option Int64
  | integer value => some value
  | float value => integerOfFloat? value
  | string value => parseInt64? (Text.trimChars value.toList)
  | _ => none

/-- The floating point number that a text writes: an optional sign, then `inf`, `infinity` or `nan`
in any case, or a decimal number. -/
def parseFloat? (chars : List Char) : Option Binary64 :=
  let (negative, body) := splitSign chars
  let word := body.map Char.toLower
  if word = "inf".toList ∨ word = "infinity".toList then some (.infinity negative)
  else if word = "nan".toList then some .nan
  else (Decimal.parse? body).map (·.toBinary64 negative)

/-- A floating point number: itself, the one nearest to an integer, or what a string writes between
white space. -/
def toFloat? : Scalar → Option Binary64
  | float value => some value
  | integer value => some (.ofInt value.toInt)
  | string value => parseFloat? (Text.trimChars value.toList)
  | _ => none

/-- Raw bytes: themselves, or what a string stands for in base64. -/
def toBytes? : Scalar → Option (List UInt8)
  | bytes value => some value
  | string value => Text.Base64.decode? value
  | _ => none

/-- The type and the text of a scalar, for use in messages; strings are quoted. -/
def describe : Scalar → String
  | string value => "string (\"" ++ value ++ "\")"
  | scalar => scalar.typeName ++ " (" ++ scalar.text ++ ")"

end Scalar

end LayeredConfig
