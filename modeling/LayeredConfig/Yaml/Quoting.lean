import LayeredConfig.Yaml.Style

/-!
# Writing YAML texts

The characters of a text in each style. `indent` is the column at which the lines of a text begin
after its first one.
-/

namespace LayeredConfig.Yaml

/-- The spaces in front of a line. -/
def spaces (indent : Nat) : List Char := List.replicate indent ' '

/-- The inside of a single-quoted text: quotes are written twice, and the lines are indented;
`atLineStart` tells whether a line begins here. -/
def singleQuotedChars (indent : Nat) (atLineStart : Bool) : List Char → List Char
  | [] => if atLineStart then spaces indent else []
  | c :: rest =>
    if isBreak c then
      c :: singleQuotedChars indent true rest
    else
      (if atLineStart then spaces indent else []) ++ (if c = '\'' then ['\'', '\''] else [c]) ++
        singleQuotedChars indent false rest

/-- The escape for a character by its number. -/
def numericEscape (c : Char) : List Char :=
  let code := c.toNat
  let hex := fun width => (Number.hexText width code).map Char.toUpper
  if code ≤ 0xFF then '\\' :: 'x' :: hex 2
  else if code ≤ 0xFFFF then '\\' :: 'u' :: hex 4
  else '\\' :: 'U' :: hex 8

/-- A character between double quotes. -/
def escapeChar (c : Char) : List Char :=
  if c = '"' then ['\\', '"']
  else if c = '\\' then ['\\', '\\']
  else if isPrintable c && !isBreak c then [c]
  else if c = '\x00' then ['\\', '0']
  else if c = '\x07' then ['\\', 'a']
  else if c = '\x08' then ['\\', 'b']
  else if c = '\t' then ['\\', 't']
  else if c = '\n' then ['\\', 'n']
  else if c = '\x0B' then ['\\', 'v']
  else if c = '\x0C' then ['\\', 'f']
  else if c = '\r' then ['\\', 'r']
  else if c = '\x1B' then ['\\', 'e']
  else if c = '\x85' then ['\\', 'N']
  else if c = '\u2028' then ['\\', 'L']
  else if c = '\u2029' then ['\\', 'P']
  else numericEscape c

/-- The lines of a literal block. Empty lines are not indented. -/
def literalLines (indent : Nat) (atLineStart : Bool) : List Char → List Char
  | [] => []
  | c :: rest =>
    if isBreak c then
      c :: literalLines indent true rest
    else
      (if atLineStart then spaces indent else []) ++ c :: literalLines indent false rest

/-- The hint that tells the indentation of a block whose first line does not show it. -/
def indentHint (chars : List Char) : List Char :=
  if chars.head?.any fun c => c = ' ' || isBreak c then ['2'] else []

/-- The hint that tells how many line ends a block has behind its last line: none, or more than
one. -/
def endHint (chars : List Char) : List Char :=
  match chars.reverse with
  | last :: previous =>
    if isBreak last then
      if previous.head?.all isBreak then ['+'] else []
    else
      ['-']
  | [] => ['-']

/-- The characters of a text. -/
def textChars (indent : Nat) (text : String) : List Char :=
  let chars := text.toList
  match styleOf text with
  | .plain => chars
  | .singleQuoted => '\'' :: singleQuotedChars indent false chars ++ ['\'']
  | .doubleQuoted => '"' :: chars.flatMap escapeChar ++ ['"']
  | .literal =>
    '|' :: indentHint chars ++ endHint chars ++ '\n' :: literalLines indent true chars

end LayeredConfig.Yaml
