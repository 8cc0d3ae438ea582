import LayeredConfig.Number.Radix
import LayeredConfig.Scalar

/-!
# Styles of YAML texts

A text is written in the first of four styles that keeps it: as a literal block if it has several
lines, plain if nothing in it means something else to a reader, else in single or, as the style for
every text, in double quotes.

* `readsAsOther` finds the texts that stand for a null, a truth value or a number.
* `allowsPlain`, `allowsSingleQuotes` and `allowsLiteral` find the texts whose characters the styles
  keep; `styleOf` chooses.
-/

namespace LayeredConfig.Yaml

/-- How a text is written. -/
inductive Style where
  /-- As it is. -/
  | plain
  /-- Between single quotes. -/
  | singleQuoted
  /-- Between double quotes, with escapes. -/
  | doubleQuoted
  /-- As an indented block of lines. -/
  | literal
  deriving DecidableEq, Repr

/-- The character ends a line. -/
def isBreak (c : Char) : Bool :=
  c = '\n' || c = '\r' || c = '\x85' || c = '\u2028' || c = '\u2029'

/-- The character separates words or lines. -/
def isGap (c : Char) : Bool := c = ' ' || c = '\t' || isBreak c

/-- The character can be written as it is. Of the control characters only the line feed can. -/
def isPrintable (c : Char) : Bool :=
  let code := c.toNat
  c = '\n' || (0x20 ≤ code && code ≤ 0x7E) ||
    (0xA0 ≤ code && code ≠ 0xFEFF && code ≠ 0xFFFE && code ≠ 0xFFFF)

/-- Nothing or a gap follows. -/
def startsGap (chars : List Char) : Bool := chars.head?.all isGap

/-- At the beginning the characters mean something else than a text. -/
def opensMarkup : List Char → Bool
  | '-' :: '-' :: '-' :: _ => true
  | '.' :: '.' :: '.' :: _ => true
  | '-' :: rest => startsGap rest
  | '?' :: rest => startsGap rest
  | c :: _ => c ∈ [',', '[', ']', '{', '}', '&', '*', '!', '|', '>', '\'', '"', '%', '@', '\x60']
  | [] => false

/-- There is a colon before a gap or a number sign behind one; `afterGap` tells whether a gap is
in front. -/
def containsMarkup (afterGap : Bool) : List Char → Bool
  | [] => false
  | c :: rest =>
    (c = ':' && startsGap rest) || (c = '#' && afterGap) || containsMarkup (isGap c) rest

/-- Two neighbouring characters of a list stand in a relation. -/
def anyPair (test : Char → Char → Bool) (chars : List Char) : Bool :=
  (chars.zip (chars.drop 1)).any fun (left, right) => test left right

/-- A line ends in a space. -/
def hasSpaceBeforeBreak (chars : List Char) : Bool :=
  anyPair (fun left right => left = ' ' && isBreak right) chars

/-- A line after the first one begins with a space. -/
def hasSpaceAfterBreak (chars : List Char) : Bool :=
  anyPair (fun left right => isBreak left && right = ' ') chars

/-- The characters keep their meaning without quotes. -/
def allowsPlain (chars : List Char) : Bool :=
  chars.all isPrintable && !chars.any isBreak && chars.head? ≠ some ' ' &&
    chars.getLast? ≠ some ' ' && !opensMarkup chars && !containsMarkup true chars

/-- The characters can be written between single quotes. -/
def allowsSingleQuotes (chars : List Char) : Bool :=
  chars.all isPrintable && !hasSpaceBeforeBreak chars && !hasSpaceAfterBreak chars

/-- The characters can be written as a block of lines. -/
def allowsLiteral (chars : List Char) : Bool :=
  chars.all isPrintable && !hasSpaceBeforeBreak chars && chars.getLast? ≠ some ' '

/-- The text stands for a null or a truth value. -/
def isWord (text : String) : Bool :=
  text ∈ ["", "~", "null", "Null", "NULL", "true", "True", "TRUE", "false", "False", "FALSE"]

/-- The text stands for an infinity, which may have a sign, or for no number. -/
def isNonFinite (text : String) : Bool :=
  text ∈ [".inf", ".Inf", ".INF", "+.inf", "+.Inf", "+.INF", "-.inf", "-.Inf", "-.INF",
    ".nan", ".NaN", ".NAN"]

/-- The characters write an integer in hexadecimal, octal or binary digits, of 128 bits at most. -/
def isRadixInteger (chars : List Char) : Bool :=
  let (negative, body) := Number.splitSign chars
  let number? :=
    match body with
    | '0' :: 'x' :: digits => Number.parseRadix? 16 digits
    | '0' :: 'o' :: digits => Number.parseRadix? 8 digits
    | '0' :: 'b' :: digits => Number.parseRadix? 2 digits
    | _ => none
  number?.any fun number =>
    if negative then number ≤ Number.twoPow 127 else number < Number.twoPow 128

/-- The characters are digits with a needless zero in front, after an optional sign. -/
def isZeroPadded (chars : List Char) : Bool :=
  match (Number.splitSign chars).2 with
  | '0' :: rest => Number.isDigits rest
  | _ => false

/-- The text without quotes would stand for something else than a text. -/
def readsAsOther (text : String) : Bool :=
  let chars := text.toList
  isWord text || isNonFinite text || isRadixInteger chars || isZeroPadded chars ||
    (Scalar.parseFloat? chars).any (·.isFinite)

/-- The style of a text. -/
def styleOf (text : String) : Style :=
  let chars := text.toList
  if '\n' ∈ chars then
    if allowsLiteral chars then .literal else .doubleQuoted
  else if allowsPlain chars && !readsAsOther text then .plain
  else if allowsSingleQuotes chars then .singleQuoted
  else .doubleQuoted

end LayeredConfig.Yaml
