import LayeredConfig.Number.Digits
import LayeredConfig.Number.Radix
import LayeredConfig.Text.Blank

/-!
# Scanning document text

The lexical rules of configuration documents, as functions on the text that has not been read yet.

* `skipSeparators` passes over white space, commas and comments.
* `scanQuoted` reads the inside of a quoted text, `scanKey` a quoted or unquoted name with the
  separator behind it, and `splitUnquoted` an unquoted value.
* A `ScanFault` says what is wrong, where, and how far the text has been read by then.

None of these functions gives back more text than it was given (`length_skipSeparators_le`,
`length_lt_of_scanKey`, …).
-/

namespace LayeredConfig.Document

open Number (hexDigit?)

/-- What can be wrong with a document. -/
inductive Flaw where
  /-- The text ends where a character is needed. -/
  | unexpectedEnd
  /-- A quoted text has no closing quote. -/
  | unterminatedQuote
  /-- Four hexadecimal digits are missing after a unicode escape. -/
  | badUnicodeEscape
  /-- A quoted name is followed by another character than a separator, or by the end. -/
  | separatorAfterQuoted (name : String) (found : Option Char)
  /-- The text ends inside an unquoted name. -/
  | separatorAfterName (name : String)
  /-- A closing bracket without an open one. -/
  | unopened (bracket : Char)
  /-- A closing bracket of the other kind than the innermost open one. -/
  | mismatched (bracket : Char)
  /-- The text ends before all brackets are closed. -/
  | unclosed (count : Nat)
  deriving DecidableEq, Repr

/-- The wording of a flaw. -/
def Flaw.message : Flaw → String
  | .unexpectedEnd => "Unexpected end of input"
  | .unterminatedQuote => "Unterminated quoted string"
  | .badUnicodeEscape => "Invalid unicode escape, expected four hex digits"
  | .separatorAfterQuoted name (some c) =>
    "Expected ':' or '=' after key \"" ++ name ++ "\", got '" ++ toString c ++ "'"
  | .separatorAfterQuoted name none =>
    "Expected ':' or '=' after key \"" ++ name ++ "\", got end of input"
  | .separatorAfterName name => "Expected ':' or '=' after key '" ++ name ++ "'"
  | .unopened bracket => "Unexpected '" ++ toString bracket ++ "' with no open bracket"
  | .mismatched bracket => "Mismatched closing '" ++ toString bracket ++ "'"
  | .unclosed count =>
    "Unexpected end of input with " ++ toString count ++ " unclosed bracket(s)"

/-- A flaw met while scanning. -/
structure ScanFault where
  /-- What is wrong. -/
  flaw : Flaw
  /-- The unread text at the place that the flaw is reported at. -/
  place : List Char
  /-- The unread text where scanning stopped. -/
  rest : List Char
  deriving DecidableEq, Repr

/-- A flaw reported where scanning stopped. -/
def ScanFault.here (flaw : Flaw) (rest : List Char) : ScanFault := ⟨flaw, rest, rest⟩

/-- The result of scanning: a value and the text after it, or a fault. -/
abbrev Scan (α : Type) := Except ScanFault (α × List Char)

/-- The text after white space, commas and comments; `inComment` tells whether it starts inside a
comment. A comment runs from `#` to the end of its line. -/
def skipFrom (inComment : Bool) : List Char → List Char
  | [] => []
  | c :: rest =>
    if inComment then
      skipFrom (c ≠ '\n' ∧ c ≠ '\r') rest
    else if c = '#' then
      skipFrom true rest
    else if Text.isBlank c ∨ c = ',' then
      skipFrom false rest
    else
      c :: rest

/-- The text after white space, commas and comments. -/
def skipSeparators (text : List Char) : List Char := skipFrom false text

theorem length_skipFrom_le (inComment : Bool) (text : List Char) :
    (skipFrom inComment text).length ≤ text.length := by
  induction text generalizing inComment with
  | nil => exact Nat.le_refl _
  | cons c rest ih =>
    unfold skipFrom
    split
    · exact Nat.le_succ_of_le (ih _)
    · split
      · exact Nat.le_succ_of_le (ih _)
      · split
        · exact Nat.le_succ_of_le (ih _)
        · exact Nat.le_refl _

theorem length_skipSeparators_le (text : List Char) :
    (skipSeparators text).length ≤ text.length := length_skipFrom_le false text

/-- The number that the next four hexadecimal digits write, and the text after them. -/
def hexUnit? : List Char → Option (Nat × List Char)
  | a :: b :: c :: d :: rest => do
    let a ← hexDigit? a
    let b ← hexDigit? b
    let c ← hexDigit? c
    let d ← hexDigit? d
    some (((a * 16 + b) * 16 + c) * 16 + d, rest)
  | _ => none

theorem length_lt_of_hexUnit? {text rest : List Char} {unit : Nat}
    (h : hexUnit? text = some (unit, rest)) : rest.length < text.length := by
  unfold hexUnit? at h
  split at h
  · simp only [Option.bind_eq_bind, Option.bind_eq_some_iff, Option.some.injEq, Prod.mk.injEq] at h
    obtain ⟨_, _, _, _, _, _, _, _, _, rfl⟩ := h
    simp only [List.length_cons]
    omega
  · exact absurd h (by simp)

/-- The unit is the first half of a surrogate pair. -/
def isHighSurrogate (unit : Nat) : Bool := 0xD800 ≤ unit && unit < 0xDC00

/-- The unit is the second half of a surrogate pair. -/
def isLowSurrogate (unit : Nat) : Bool := 0xDC00 ≤ unit && unit < 0xE000

/-- The character that stands for a unit that is no character. -/
def replacementChar : Char := '\uFFFD'

/-- The character of a single unit; half a surrogate pair is replaced. -/
def unitChar (unit : Nat) : Char :=
  if isHighSurrogate unit ∨ isLowSurrogate unit then replacementChar else Char.ofNat unit

/-- The character of a surrogate pair. -/
def pairChar (high low : Nat) : Char :=
  Char.ofNat (0x10000 + (high - 0xD800) * 0x400 + (low - 0xDC00))

/-- The escaped second half of a surrogate pair, if the text starts with one. -/
def lowSurrogate? : List Char → Option (Nat × List Char)
  | '\\' :: 'u' :: rest =>
    match hexUnit? rest with
    | some (unit, rest) => if isLowSurrogate unit then some (unit, rest) else none
    | none => none
  | _ => none

theorem length_lt_of_lowSurrogate? {text rest : List Char} {unit : Nat}
    (h : lowSurrogate? text = some (unit, rest)) : rest.length < text.length := by
  unfold lowSurrogate? at h
  split at h
  · split at h
    next heq =>
      split at h
      · simp only [Option.some.injEq, Prod.mk.injEq] at h
        obtain ⟨rfl, rfl⟩ := h
        have := length_lt_of_hexUnit? heq
        simp only [List.length_cons]
        omega
      · exact absurd h (by simp)
    next => exact absurd h (by simp)
  · exact absurd h (by simp)

/-- The character that a letter after a backslash stands for, other than `u`. -/
def simpleEscape? (c : Char) : Option Char :=
  match c with
  | '\'' | '"' | '\\' | '/' => some c
  | 'r' => some '\r'
  | 'n' => some '\n'
  | 't' => some '\t'
  | 'b' => some '\x08'
  | 'f' => some '\x0c'
  | _ => none

/-- The character of a unicode escape after its `u`. A surrogate pair is written as two escapes. -/
def scanUnicodeEscape (text : List Char) : Scan Char :=
  match hexUnit? text with
  | none => .error (.here .badUnicodeEscape text)
  | some (unit, rest) =>
    if isHighSurrogate unit then
      match lowSurrogate? rest with
      | some (low, rest) => .ok (pairChar unit low, rest)
      | none => .ok (replacementChar, rest)
    else
      .ok (unitChar unit, rest)

/-- The character, if any, that an escape after its backslash stands for. An unknown escape stands
for nothing. -/
def scanEscape : List Char → Scan (Option Char)
  | [] => .error (.here .unexpectedEnd [])
  | c :: rest =>
    if c = 'u' then
      (scanUnicodeEscape rest).map fun (decoded, rest) => (some decoded, rest)
    else
      .ok (simpleEscape? c, rest)

theorem length_lt_of_scanUnicodeEscape {text rest : List Char} {c : Char}
    (h : scanUnicodeEscape text = .ok (c, rest)) : rest.length < text.length := by
  unfold scanUnicodeEscape at h
  split at h
  · exact absurd h (by simp)
  next heq =>
    have hunit := length_lt_of_hexUnit? heq
    split at h
    · split at h
      next hlow =>
        have hlength := length_lt_of_lowSurrogate? hlow
        simp only [Except.ok.injEq, Prod.mk.injEq] at h
        obtain ⟨_, rfl⟩ := h
        omega
      next =>
        simp only [Except.ok.injEq, Prod.mk.injEq] at h
        obtain ⟨_, rfl⟩ := h
        exact hunit
    · simp only [Except.ok.injEq, Prod.mk.injEq] at h
      obtain ⟨_, rfl⟩ := h
      exact hunit

theorem length_lt_of_scanEscape {text rest : List Char} {decoded : Option Char}
    (h : scanEscape text = .ok (decoded, rest)) : rest.length < text.length := by
  unfold scanEscape at h
  split at h
  · exact absurd h (by simp)
  next c tail =>
    split at h
    · cases hscan : scanUnicodeEscape tail with
      | error fault => simp [hscan, Except.map] at h
      | ok result =>
        simp only [hscan, Except.map, Except.ok.injEq, Prod.mk.injEq] at h
        obtain ⟨_, rfl⟩ := h
        exact Nat.lt_succ_of_lt (length_lt_of_scanUnicodeEscape hscan)
    · simp only [Except.ok.injEq, Prod.mk.injEq] at h
      obtain ⟨_, rfl⟩ := h
      exact Nat.lt_succ_self _

theorem length_le_of_scanEscape_error {text : List Char} {fault : ScanFault}
    (h : scanEscape text = .error fault) : fault.rest.length ≤ text.length := by
  unfold scanEscape at h
  split at h
  · simp only [Except.error.injEq] at h
    subst h
    exact Nat.le_refl _
  next c tail =>
    split at h
    · unfold scanUnicodeEscape at h
      split at h
      · simp only [Except.map, Except.error.injEq] at h
        subst h
        exact Nat.le_succ _
      · split at h
        · split at h <;> simp [Except.map] at h
        · simp [Except.map] at h
    · exact absurd h (by simp)

/-- The text inside quotes, up to and without the closing quote, after the characters in `read`
(last one first). `opening` is the unread text at the opening quote. -/
def scanQuoted (opening read text : List Char) : Scan (List Char) :=
  match text with
  | [] => .error ⟨.unterminatedQuote, opening, []⟩
  | '"' :: rest => .ok (read.reverse, rest)
  | '\\' :: rest =>
    if rest = [] then
      .error ⟨.unterminatedQuote, opening, []⟩
    else
      match _hescape : scanEscape rest with
      | .error fault => .error fault
      | .ok (decoded, rest') => scanQuoted opening (decoded.toList ++ read) rest'
  | c :: rest => scanQuoted opening (c :: read) rest
termination_by text.length
decreasing_by
  · have := length_lt_of_scanEscape _hescape
    simp only [List.length_cons]
    omega
  · simp only [List.length_cons]
    omega

theorem length_lt_of_scanQuoted {opening read text chars rest : List Char}
    (h : scanQuoted opening read text = .ok (chars, rest)) : rest.length < text.length := by
  fun_induction scanQuoted opening read text with
  | case1 => exact absurd h (by simp)
  | case2 =>
    simp only [Except.ok.injEq, Prod.mk.injEq] at h
    obtain ⟨_, rfl⟩ := h
    exact Nat.lt_succ_self _
  | case3 => exact absurd h (by simp)
  | case4 => exact absurd h (by simp)
  | case5 read tail _ decoded rest' hescape ih =>
    have hlength := length_lt_of_scanEscape hescape
    have := ih h
    simp only [List.length_cons]
    omega
  | case6 read c tail _ _ ih => exact Nat.lt_succ_of_lt (ih h)

theorem length_le_of_scanQuoted_error {opening read text : List Char} {fault : ScanFault}
    (h : scanQuoted opening read text = .error fault) : fault.rest.length ≤ text.length := by
  fun_induction scanQuoted opening read text with
  | case1 =>
    simp only [Except.error.injEq] at h
    subst h
    exact Nat.le_refl _
  | case2 => exact absurd h (by simp)
  | case3 =>
    simp only [Except.error.injEq] at h
    subst h
    exact Nat.zero_le _
  | case4 read tail _ fault' hescape =>
    simp only [Except.error.injEq] at h
    subst h
    exact Nat.le_succ_of_le (length_le_of_scanEscape_error hescape)
  | case5 read tail _ decoded rest' hescape ih =>
    have hlength := length_lt_of_scanEscape hescape
    have := ih h
    simp only [List.length_cons]
    omega
  | case6 read c tail _ _ ih => exact Nat.le_succ_of_le (ih h)

/-- The unquoted name `read` (last character first) with one more character `c` of the text, and
the text after it: escapes are decoded and white space is dropped. -/
def extendName (read : List Char) (c : Char) (text : List Char) : Scan (List Char) :=
  if c = '\\' then
    (scanEscape text).map fun (decoded, rest) => (decoded.toList ++ read, rest)
  else if Text.isBlank c then
    .ok (read, text)
  else
    .ok (c :: read, text)

theorem length_le_of_extendName {read text read' rest : List Char} {c : Char}
    (h : extendName read c text = .ok (read', rest)) : rest.length ≤ text.length := by
  unfold extendName at h
  split at h
  · cases hscan : scanEscape text with
    | error fault => simp [hscan, Except.map] at h
    | ok result =>
      simp only [hscan, Except.map, Except.ok.injEq, Prod.mk.injEq] at h
      obtain ⟨_, rfl⟩ := h
      exact Nat.le_of_lt (length_lt_of_scanEscape hscan)
  · split at h <;>
    · simp only [Except.ok.injEq, Prod.mk.injEq] at h
      obtain ⟨_, rfl⟩ := h
      exact Nat.le_refl _

theorem length_le_of_extendName_error {read text : List Char} {c : Char} {fault : ScanFault}
    (h : extendName read c text = .error fault) : fault.rest.length ≤ text.length := by
  unfold extendName at h
  split at h
  · cases hscan : scanEscape text with
    | error fault' =>
      simp only [hscan, Except.map, Except.error.injEq] at h
      subst h
      exact length_le_of_scanEscape_error hscan
    | ok result => simp [hscan, Except.map] at h
  · split at h <;> exact absurd h (by simp)

/-- The characters of an unquoted name and the text after its separator. `c` is the last character
taken from the text and `text` follows it; `read` holds the name before `c`, last character first.
Commas and comments inside a name are dropped like white space, and an open bracket ends a name
without being part of the separator. -/
def scanName (read : List Char) (c : Char) (text : List Char) : Scan (List Char) :=
  if c = ':' ∨ c = '=' then
    .ok (read.reverse, text)
  else
    match _hextend : extendName read c text with
    | .error fault => .error fault
    | .ok (read', rest) =>
      match _hskip : skipSeparators rest with
      | [] => .error (.here (.separatorAfterName (String.ofList read'.reverse)) [])
      | c' :: rest' =>
        if c' = '{' ∨ c' = '[' then
          .ok (read'.reverse, c' :: rest')
        else
          scanName read' c' rest'
termination_by text.length
decreasing_by
  have hlength := length_skipSeparators_le rest
  have := length_le_of_extendName _hextend
  simp only [_hskip, List.length_cons] at hlength
  omega

theorem length_le_of_scanName {read text chars rest : List Char} {c : Char}
    (h : scanName read c text = .ok (chars, rest)) : rest.length ≤ text.length := by
  fun_induction scanName read c text with
  | case1 =>
    simp only [Except.ok.injEq, Prod.mk.injEq] at h
    obtain ⟨_, rfl⟩ := h
    exact Nat.le_refl _
  | case2 => exact absurd h (by simp)
  | case3 => exact absurd h (by simp)
  | case4 read c text _ read' rest hextend c' rest' hskip =>
    have hlength := length_skipSeparators_le rest
    have := length_le_of_extendName hextend
    simp only [Except.ok.injEq, Prod.mk.injEq] at h
    obtain ⟨_, rfl⟩ := h
    rw [hskip] at hlength
    omega
  | case5 read c text _ read' rest hextend c' rest' hskip _ ih =>
    have hlength := length_skipSeparators_le rest
    have := length_le_of_extendName hextend
    have := ih h
    simp only [hskip, List.length_cons] at hlength
    omega

theorem length_le_of_scanName_error {read text : List Char} {c : Char} {fault : ScanFault}
    (h : scanName read c text = .error fault) : fault.rest.length ≤ text.length := by
  fun_induction scanName read c text with
  | case1 => exact absurd h (by simp)
  | case2 read c text _ fault' hextend =>
    simp only [Except.error.injEq] at h
    subst h
    exact length_le_of_extendName_error hextend
  | case3 =>
    simp only [Except.error.injEq] at h
    subst h
    exact Nat.zero_le _
  | case4 => exact absurd h (by simp)
  | case5 read c text _ read' rest hextend c' rest' hskip _ ih =>
    have hlength := length_skipSeparators_le rest
    have := length_le_of_extendName hextend
    have := ih h
    simp only [hskip, List.length_cons] at hlength
    omega

/-- The name at the start of the text and the text after its separator; an open bracket may stand
in place of a separator. -/
def scanKey (text : List Char) : Scan String :=
  match text with
  | [] => .error (.here .unexpectedEnd [])
  | c :: rest =>
    if c = '"' then
      match scanQuoted text [] rest with
      | .error fault => .error fault
      | .ok (chars, rest) =>
        let name := String.ofList chars
        match skipSeparators rest with
        | [] => .error (.here (.separatorAfterQuoted name none) [])
        | c :: rest =>
          if c = ':' ∨ c = '=' then .ok (name, rest)
          else if c = '{' ∨ c = '[' then .ok (name, c :: rest)
          else .error (.here (.separatorAfterQuoted name (some c)) (c :: rest))
    else
      (scanName [] c rest).map fun (chars, rest) => (String.ofList chars, rest)

theorem length_lt_of_scanKey {text rest : List Char} {name : String}
    (h : scanKey text = .ok (name, rest)) : rest.length < text.length := by
  unfold scanKey at h
  split at h
  · exact absurd h (by simp)
  next c tail =>
    split at h
    · split at h
      · exact absurd h (by simp)
      next chars tail' hquoted =>
        have hlength := length_lt_of_scanQuoted hquoted
        have hle := length_skipSeparators_le tail'
        simp only at h
        split at h
        · exact absurd h (by simp)
        next c' rest' hskip =>
          simp only [hskip, List.length_cons] at hle
          split at h
          · simp only [Except.ok.injEq, Prod.mk.injEq] at h
            obtain ⟨_, rfl⟩ := h
            simp only [List.length_cons]
            omega
          · split at h
            · simp only [Except.ok.injEq, Prod.mk.injEq] at h
              obtain ⟨_, rfl⟩ := h
              simp only [List.length_cons]
              omega
            · exact absurd h (by simp)
    · cases hname : scanName [] c tail with
      | error fault => simp [hname, Except.map] at h
      | ok result =>
        simp only [hname, Except.map, Except.ok.injEq, Prod.mk.injEq] at h
        obtain ⟨_, rfl⟩ := h
        exact Nat.lt_succ_of_le (length_le_of_scanName hname)

theorem length_le_of_scanKey_error {text : List Char} {fault : ScanFault}
    (h : scanKey text = .error fault) : fault.rest.length ≤ text.length := by
  unfold scanKey at h
  split at h
  · simp only [Except.error.injEq] at h
    subst h
    exact Nat.le_refl _
  next c tail =>
    split at h
    · split at h
      next fault' hquoted =>
        simp only [Except.error.injEq] at h
        subst h
        exact Nat.le_succ_of_le (length_le_of_scanQuoted_error hquoted)
      next chars tail' hquoted =>
        have hlength := length_lt_of_scanQuoted hquoted
        have hle := length_skipSeparators_le tail'
        simp only at h
        split at h
        · simp only [Except.error.injEq] at h
          subst h
          exact Nat.zero_le _
        next c' rest' hskip =>
          split at h
          · exact absurd h (by simp)
          · split at h
            · exact absurd h (by simp)
            · simp only [Except.error.injEq] at h
              subst h
              rw [hskip] at hle
              exact Nat.le_trans hle (Nat.le_succ_of_le (Nat.le_of_lt hlength))
    · cases hname : scanName [] c tail with
      | error fault' =>
        simp only [hname, Except.map, Except.error.injEq] at h
        subst h
        exact Nat.le_succ_of_le (length_le_of_scanName_error hname)
      | ok result => simp [hname, Except.map] at h

/-- The character ends an unquoted value that it does not start. -/
def endsUnquoted (c : Char) : Bool :=
  c = '}' || c = ']' || c = ',' || c = ':' || c = '=' || c = '\n' || c = '\r'

/-- An unquoted value and the text after it. The first character always belongs to the value. -/
def splitUnquoted : List Char → List Char × List Char
  | [] => ([], [])
  | c :: rest => (c :: rest.takeWhile (!endsUnquoted ·), rest.dropWhile (!endsUnquoted ·))

theorem length_splitUnquoted_lt {text : List Char} (h : text ≠ []) :
    (splitUnquoted text).2.length < text.length := by
  cases text with
  | nil => exact absurd rfl h
  | cons c rest =>
    exact Nat.lt_succ_of_le (List.dropWhile_suffix _).length_le

end LayeredConfig.Document
