import LayeredConfig.Text.CaseTable

/-!
# Letter case

* `toUppercase` is the full Unicode uppercase mapping of a text, independent of language: one
  character may become several (`ß` becomes `SS`).
* `equalsIgnoringAsciiCase` compares texts up to the case of ASCII letters only.
-/

namespace LayeredConfig.Text

/-- `code` is one of the code points of the run. -/
def CaseRun.contains (run : CaseRun) (code : Nat) : Bool :=
  run.first ≤ code && code ≤ run.last && (code - run.first) % run.step = 0

/-- The uppercase form of a character, as a list of characters. -/
def uppercaseChar (c : Char) : List Char :=
  if c.toNat < 0x80 then
    [c.toUpper]
  else
    match uppercaseExpansions.lookup c.toNat with
    | some codes => codes.map Char.ofNat
    | none =>
      match uppercaseRuns.find? (·.contains c.toNat) with
      | some run => [Char.ofNat (c.toNat + run.offset).toNat]
      | none => [c]

/-- The uppercase form of a text. -/
def toUppercase (text : String) : String :=
  String.ofList (text.toList.flatMap uppercaseChar)

/-- The texts are equal once every ASCII letter is taken in lowercase. -/
def equalsIgnoringAsciiCase (left right : String) : Bool :=
  left.toList.map Char.toLower = right.toList.map Char.toLower

end LayeredConfig.Text
