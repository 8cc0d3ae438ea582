import LayeredConfig.Number.Radix
import LayeredConfig.Value

/-!
# Writing JSON

Trees as JSON texts, on one line (`Json.compact`) or with one item a line (`Json.pretty`). The two
differ only in their `Style`: what stands at the line breaks and after the name of an entry.

Bytes are written as base64 strings, and numbers that are not finite as `null`.
-/

namespace LayeredConfig.Json

/-- Floating point numbers have a point or an exponent, and an exponent past sixteen digits before
the point or four zeros after it. -/
def floatLayout : Number.FloatLayout where
  tie := .even
  positional := fun point => -5 < point && point ≤ 16
  pointZeroUpTo := 16
  exponentPlus := "+"
  nan := "null"
  infinity := "null"
  negativeInfinity := "null"

/-- A character inside a string. Quotes, backslashes and control characters are escaped. -/
def escapeChar (c : Char) : List Char :=
  if c = '"' then ['\\', '"']
  else if c = '\\' then ['\\', '\\']
  else if c = '\x08' then ['\\', 'b']
  else if c = '\t' then ['\\', 't']
  else if c = '\n' then ['\\', 'n']
  else if c = '\x0C' then ['\\', 'f']
  else if c = '\r' then ['\\', 'r']
  else if c.toNat < 0x20 then '\\' :: 'u' :: Number.hexText 4 c.toNat
  else [c]

/-- A quoted string. -/
def stringChars (text : String) : List Char :=
  '"' :: text.toList.flatMap escapeChar ++ ['"']

/-- A scalar. -/
def scalarChars : Scalar → List Char
  | .bool value => (Scalar.boolText value).toList
  | .integer value => (toString value.toInt).toList
  | .float value => (floatLayout.render value).toList
  | .string value => stringChars value
  | .bytes value => '"' :: Text.Base64.encodeChars value ++ ['"']

/-- The blank parts of a JSON text. -/
structure Style where
  /-- What stands in front of an item or a closing bracket that is nested so many levels deep. -/
  lineBreak : Nat → List Char
  /-- What stands between the colon behind a name and the value. -/
  afterColon : List Char

namespace Style

/-- No blank at all. -/
def compact : Style := ⟨fun _ => [], []⟩

/-- Every item on a line of its own, indented by two spaces for each level. -/
def pretty : Style := ⟨fun level => '\n' :: List.replicate (2 * level) ' ', [' ']⟩

end Style

mutual

/-- A tree that is nested `level` levels deep. -/
def valueChars (style : Style) (level : Nat) : Value → List Char
  | .null => ['n', 'u', 'l', 'l']
  | .scalar leaf => scalarChars leaf
  | .sequence [] => ['[', ']']
  | .sequence (item :: rest) =>
    '[' :: style.lineBreak (level + 1) ++ valueChars style (level + 1) item ++
      itemsChars style level rest
  | .mapping [] => ['{', '}']
  | .mapping ((key, value) :: rest) =>
    '{' :: style.lineBreak (level + 1) ++ stringChars key ++ ':' :: style.afterColon ++
      valueChars style (level + 1) value ++ entriesChars style level rest

/-- The items of a sequence behind the first one, and the closing bracket. -/
def itemsChars (style : Style) (level : Nat) : List Value → List Char
  | [] => style.lineBreak level ++ [']']
  | item :: rest =>
    ',' :: style.lineBreak (level + 1) ++ valueChars style (level + 1) item ++
      itemsChars style level rest

/-- The entries of a mapping behind the first one, and the closing brace. -/
def entriesChars (style : Style) (level : Nat) : List (String × Value) → List Char
  | [] => style.lineBreak level ++ ['}']
  | (key, value) :: rest =>
    ',' :: style.lineBreak (level + 1) ++ stringChars key ++ ':' :: style.afterColon ++
      valueChars style (level + 1) value ++ entriesChars style level rest

end

/-- A tree as a JSON text. -/
def write (style : Style) (value : Value) : String := String.ofList (valueChars style 0 value)

/-- A tree as a JSON text on one line. -/
def compact (value : Value) : String := write .compact value

/-- A tree as a JSON text with one item a line. -/
def pretty (value : Value) : String := write .pretty value

end LayeredConfig.Json
