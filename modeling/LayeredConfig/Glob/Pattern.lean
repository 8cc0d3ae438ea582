/-!
# Wildcard patterns

A pattern consists of characters that stand for themselves, `?` for any one character, `*` for any
characters, and ranges in brackets. `**` as a whole component of a path stands for any directories.

* `Pattern.parse` reads a pattern; a `PatternFault` says what is wrong with it, and near which
  character.
* `Pattern.acceptsChars` says which characters a pattern stands for, and `Pattern.accepts` finds it
  out in time proportional to the product of the lengths (`accepts_eq_acceptsChars`).
-/

namespace LayeredConfig.Glob

/-- A member of a range in brackets. -/
inductive Specifier where
  /-- One character. -/
  | single (c : Char)
  /-- All characters from one to another. -/
  | range (first last : Char)
  deriving DecidableEq, Repr

/-- The character is meant by a specifier. -/
def Specifier.contains : Specifier → Char → Bool
  | single c, d => d = c
  | range first last, d => first ≤ d && d ≤ last

/-- A part of a pattern. -/
inductive Part where
  /-- A character that stands for itself. -/
  | char (c : Char)
  /-- Any one character. -/
  | anyChar
  /-- Any characters. -/
  | anySequence
  /-- Any directories. -/
  | anyDirectories
  /-- One of the characters of a range. -/
  | within (specifiers : List Specifier)
  /-- One character that is not in a range. -/
  | except (specifiers : List Specifier)
  deriving DecidableEq, Repr

/-- The character that the part stands for by itself. -/
def Part.char? : Part → Option Char
  | char c => some c
  | _ => none

/-- The part stands for a character. -/
def Part.accepts : Part → Char → Bool
  | char c, d => d = c
  | anyChar, _ => true
  | within specifiers, d => specifiers.any (·.contains d)
  | except specifiers, d => !specifiers.any (·.contains d)
  | anySequence, _ => false
  | anyDirectories, _ => false

/-- What can be wrong with a pattern. -/
inductive PatternFlaw where
  /-- There are more than two stars in a row. -/
  | wildcards
  /-- Two stars are not a component of their own. -/
  | directories
  /-- A bracket does not open a range. -/
  | range
  deriving DecidableEq, Repr

/-- The description of a flaw. -/
def PatternFlaw.message : PatternFlaw → String
  | wildcards => "wildcards are either regular \x60*\x60 or recursive \x60**\x60"
  | directories => "recursive wildcards must form a single path component"
  | range => "invalid range pattern"

/-- A flaw and the number of characters in front of it. -/
structure PatternFault where
  /-- The flaw. -/
  flaw : PatternFlaw
  /-- The number of characters of the pattern in front of the flaw, roughly. -/
  position : Nat
  deriving DecidableEq, Repr

/-- The text of a fault. -/
def PatternFault.message (fault : PatternFault) : String :=
  "Pattern syntax error near position " ++ toString fault.position ++ ": " ++ fault.flaw.message

/-- A pattern is its parts in order. -/
abbrev Pattern := List Part

namespace Pattern

/-- The members of a range: three characters with a hyphen in the middle stand for all characters
between the outer two. -/
def specifiers : List Char → List Specifier
  | first :: '-' :: last :: rest => .range first last :: specifiers rest
  | c :: rest => .single c :: specifiers rest
  | [] => []

/-- The characters up to a closing bracket, which is not the first one, and the rest behind it. -/
def splitRange? : List Char → Option (List Char × List Char)
  | [] => none
  | first :: rest =>
    match rest.dropWhile (· ≠ ']') with
    | _ :: after => some (first :: rest.takeWhile (· ≠ ']'), after)
    | [] => none

/-- The range behind an opening bracket and the rest of the pattern. -/
def parseRange? : List Char → Option (Part × List Char)
  | '!' :: rest => (splitRange? rest).map fun (inner, rest) => (.except (specifiers inner), rest)
  | chars => (splitRange? chars).map fun (inner, rest) => (.within (specifiers inner), rest)

theorem length_lt_of_splitRange? {chars inner rest : List Char}
    (h : splitRange? chars = some (inner, rest)) : rest.length < chars.length := by
  cases chars with
  | nil => simp [splitRange?] at h
  | cons first tail =>
    have hle := (List.dropWhile_suffix (fun c => decide (c ≠ ']')) (l := tail)).length_le
    rw [splitRange?] at h
    split at h
    next heq =>
      simp only [Option.some.injEq, Prod.mk.injEq] at h
      rw [heq, h.2, List.length_cons] at hle
      rw [List.length_cons]
      omega
    next => exact absurd h (by simp)

theorem length_lt_of_parseRange? {chars rest : List Char} {part : Part}
    (h : parseRange? chars = some (part, rest)) : rest.length < chars.length := by
  unfold parseRange? at h
  split at h
  · obtain ⟨⟨inner, rest'⟩, hsplit, heq⟩ := Option.map_eq_some_iff.1 h
    simp only [Prod.mk.injEq] at heq
    have := length_lt_of_splitRange? hsplit
    rw [← heq.2, List.length_cons]
    omega
  · obtain ⟨⟨inner, rest'⟩, hsplit, heq⟩ := Option.map_eq_some_iff.1 h
    simp only [Prod.mk.injEq] at heq
    rw [← heq.2]
    exact length_lt_of_splitRange? hsplit

/-- The parts of a pattern from a character on: `position` characters are in front of it, the last
of them is `previous`. The separator behind two stars belongs to them. -/
def parseFrom (position : Nat) (previous : Option Char) (chars : List Char) :
    Except PatternFault Pattern :=
  match chars with
  | [] => .ok []
  | '*' :: '*' :: '*' :: _ => .error ⟨.wildcards, position + 2⟩
  | '*' :: '*' :: rest =>
    if previous.all (· = '/') then
      match rest with
      | [] => .ok [.anyDirectories]
      | '/' :: rest => (parseFrom (position + 3) (some '/') rest).map (.anyDirectories :: ·)
      | _ => .error ⟨.directories, position + 2⟩
    else
      .error ⟨.directories, position - 1⟩
  | '*' :: rest => (parseFrom (position + 1) (some '*') rest).map (.anySequence :: ·)
  | '?' :: rest => (parseFrom (position + 1) (some '?') rest).map (.anyChar :: ·)
  | '[' :: rest =>
    match h : parseRange? rest with
    | some (part, rest') =>
      have := length_lt_of_parseRange? h
      (parseFrom (position + 1 + (rest.length - rest'.length)) (some ']') rest').map (part :: ·)
    | none => .error ⟨.range, position⟩
  | c :: rest => (parseFrom (position + 1) (some c) rest).map (.char c :: ·)
termination_by chars.length

/-- Read a pattern. -/
def parse (text : String) : Except PatternFault Pattern := parseFrom 0 none text.toList

/-- The pattern stands for any directories. -/
def isAnyDirectories (pattern : Pattern) : Bool := .anyDirectories ∈ pattern

/-- The only text that the pattern stands for, if all its characters stand for themselves. -/
def literal? (pattern : Pattern) : Option String :=
  (pattern.mapM Part.char?).map String.ofList

/-- A list or one of those that are left when characters at its beginning are dropped passes a
test. -/
def anySuffix (test : List Char → Bool) : List Char → Bool
  | [] => test []
  | c :: rest => test (c :: rest) || anySuffix test rest

/-- The pattern stands for a list of characters. -/
def acceptsChars : Pattern → List Char → Bool
  | [], chars => chars = []
  | .anySequence :: rest, chars => anySuffix (acceptsChars rest) chars
  | .anyDirectories :: rest, chars => anySuffix (acceptsChars rest) chars
  | part :: rest, c :: chars => part.accepts c && acceptsChars rest chars
  | _ :: _, [] => false

/-- The answers of a test on a list and on everything that is left of it when characters at its
beginning are dropped. -/
def overSuffixes (test : List Char → Bool) : List Char → List Bool
  | [] => [test []]
  | c :: rest => test (c :: rest) :: overSuffixes test rest

/-- For every answer, whether it or one behind it is positive. -/
def anyLater : List Bool → List Bool
  | [] => []
  | answer :: rest =>
    let later := anyLater rest
    (answer || later.headD false) :: later

/-- Whether the pattern stands for a list of characters, and whether it stands for what is left of
it when characters at its beginning are dropped. Each part of the pattern is tried once at every
place. -/
def acceptsSuffixes (chars : List Char) : Pattern → List Bool
  | [] => chars.map (fun _ => false) ++ [true]
  | .anySequence :: rest => anyLater (acceptsSuffixes chars rest)
  | .anyDirectories :: rest => anyLater (acceptsSuffixes chars rest)
  | part :: rest =>
    List.zipWith (fun c accepted => part.accepts c && accepted) chars
      (acceptsSuffixes chars rest).tail ++ [false]

/-- The pattern stands for a name. -/
def accepts (pattern : Pattern) (name : String) : Bool :=
  (acceptsSuffixes name.toList pattern).headD false

theorem headD_overSuffixes (test : List Char → Bool) (chars : List Char) :
    (overSuffixes test chars).headD false = test chars := by
  cases chars <;> rfl

theorem overSuffixes_nil (chars : List Char) :
    overSuffixes (acceptsChars []) chars = chars.map (fun _ => false) ++ [true] := by
  induction chars with
  | nil => rfl
  | cons c rest ih =>
    rw [overSuffixes, ih]
    rfl

theorem anyLater_overSuffixes (test : List Char → Bool) (chars : List Char) :
    anyLater (overSuffixes test chars) = overSuffixes (anySuffix test) chars := by
  induction chars with
  | nil => simp [overSuffixes, anyLater, anySuffix]
  | cons c rest ih => simp only [overSuffixes, anyLater, anySuffix, ih, headD_overSuffixes]

theorem zipWith_overSuffixes (part : Part) (test test' : List Char → Bool) (chars : List Char)
    (hnil : test' [] = false)
    (hcons : ∀ c rest, test' (c :: rest) = (part.accepts c && test rest)) :
    List.zipWith (fun c accepted => part.accepts c && accepted) chars
      (overSuffixes test chars).tail ++ [false] = overSuffixes test' chars := by
  induction chars with
  | nil => simp [overSuffixes, hnil]
  | cons c rest ih =>
    rw [overSuffixes, overSuffixes, hcons, ← ih]
    cases rest <;> simp [overSuffixes]

theorem acceptsSuffixes_eq_overSuffixes (pattern : Pattern) (chars : List Char) :
    acceptsSuffixes chars pattern = overSuffixes (acceptsChars pattern) chars := by
  induction pattern with
  | nil => rw [acceptsSuffixes, overSuffixes_nil]
  | cons part rest ih =>
    cases part with
    | anySequence =>
      rw [acceptsSuffixes, ih, anyLater_overSuffixes]
      rfl
    | anyDirectories =>
      rw [acceptsSuffixes, ih, anyLater_overSuffixes]
      rfl
    | _ =>
      rw [acceptsSuffixes, ih]
      · exact zipWith_overSuffixes _ _ _ _ rfl fun _ _ => rfl
      · simp
      · simp

/-- Trying every part once at every place gives the same answer as trying all ways in which the
pattern can stand for the name. -/
theorem accepts_eq_acceptsChars (pattern : Pattern) (name : String) :
    pattern.accepts name = pattern.acceptsChars name.toList := by
  rw [accepts, acceptsSuffixes_eq_overSuffixes, headD_overSuffixes]

end Pattern

end LayeredConfig.Glob
