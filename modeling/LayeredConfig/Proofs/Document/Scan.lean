import LayeredConfig.Document.Parser
import LayeredConfig.Json
import LayeredConfig.Proofs.Number.Digits

/-!
# Scanning what has been written

The scanner reads back the pieces of a written JSON text, whatever follows them:

* `scanQuoted_stringChars`: the inside of a quoted string, with all its escapes.
* `scanValue_scalarChars`: a truth value, an integer or a string, in front of a character that ends
  unquoted values.
* `skipSeparators_append`: separators in front of something else are passed over.
-/

namespace LayeredConfig.Document

open Json (escapeChar stringChars scalarChars)

/-! ### Separators -/

/-- The character is passed over outside of comments. -/
def IsSeparator (c : Char) : Prop := Text.isBlank c ∨ c = ','

/-- The character starts something that is not passed over. -/
def IsStart (c : Char) : Prop := c ≠ '#' ∧ ¬ IsSeparator c

theorem skipSeparators_cons {c : Char} (h : IsSeparator c) (hc : c ≠ '#') (rest : List Char) :
    skipSeparators (c :: rest) = skipSeparators rest := by
  rw [skipSeparators, skipFrom, if_neg (by simp), if_neg hc,
    if_pos (show Text.isBlank c ∨ c = ',' from h)]
  rfl

/-- Separators are passed over. -/
theorem skipSeparators_append {separators : List Char}
    (h : ∀ c ∈ separators, IsSeparator c ∧ c ≠ '#') (rest : List Char) :
    skipSeparators (separators ++ rest) = skipSeparators rest := by
  induction separators with
  | nil => rfl
  | cons c separators ih =>
    obtain ⟨hseparator, hne⟩ := h c (by simp)
    rw [List.cons_append, skipSeparators_cons hseparator hne,
      ih fun c hc => h c (List.mem_cons_of_mem _ hc)]

/-- Anything else is not. -/
theorem skipSeparators_of_isStart {c : Char} (h : IsStart c) (rest : List Char) :
    skipSeparators (c :: rest) = c :: rest := by
  rw [skipSeparators, skipFrom, if_neg (by simp), if_neg h.1,
    if_neg (show ¬ (Text.isBlank c ∨ c = ',') from h.2)]

/-! ### Quoted strings -/

/-- Hexadecimal digits are read whatever follows them. -/
theorem hexUnit?_append {text more : List Char} {unit : Nat} (h : hexUnit? text = some (unit, more))
    (rest : List Char) : hexUnit? (text ++ rest) = some (unit, more ++ rest) := by
  unfold hexUnit? at h
  split at h
  · simp only [Option.bind_eq_bind, Option.bind_eq_some_iff, Option.some.injEq, Prod.mk.injEq] at h
    obtain ⟨a, ha, b, hb, c, hc, d, hd, rfl, rfl⟩ := h
    simp [hexUnit?, ha, hb, hc, hd]
  · exact absurd h (by simp)

/-- The unicode escape of a control character is read back. -/
theorem scanUnicodeEscape_hexText {c : Char} (h : c.toNat < 0x20) (rest : List Char) :
    scanUnicodeEscape (Number.hexText 4 c.toNat ++ rest) = .ok (c, rest) := by
  -- control characters are so few that all of them can be tried
  have hdigits : ∀ n < 0x20, hexUnit? (Number.hexText 4 n) = some (n, []) ∧
      isHighSurrogate n = false ∧ isLowSurrogate n = false := by decide
  obtain ⟨hunit, hhigh, hlow⟩ := hdigits c.toNat h
  rw [scanUnicodeEscape, hexUnit?_append hunit]
  simp [unitChar, hhigh, hlow, Char.ofNat_toNat]

/-- Inside quotes, an escape stands for what its scan gives. -/
theorem scanQuoted_backslash {text rest : List Char} {decoded : Option Char}
    (h : scanEscape text = .ok (decoded, rest)) (opening read : List Char) :
    scanQuoted opening read ('\\' :: text) = scanQuoted opening (decoded.toList ++ read) rest := by
  -- a backslash alone is no escape
  have hne : text ≠ [] := by
    rintro rfl
    exact absurd h (by simp [scanEscape])
  rw [scanQuoted, if_neg hne]
  split
  next fault hfault => exact absurd (h.symm.trans hfault) (by simp)
  next decoded' rest' hok =>
    obtain ⟨rfl, rfl⟩ : decoded = decoded' ∧ rest = rest' := by simpa [h] using hok
    rfl

/-- Inside quotes, any other character than a quote or a backslash stands for itself. -/
theorem scanQuoted_cons {c : Char} (hquote : c ≠ '"') (hbackslash : c ≠ '\\')
    (opening read rest : List Char) :
    scanQuoted opening read (c :: rest) = scanQuoted opening (c :: read) rest := by
  rw [scanQuoted]
  · exact fun heq => hquote heq
  · exact fun heq => hbackslash heq

/-- A written character is passed over and kept. -/
theorem scanQuoted_escapeChar (opening read : List Char) (c : Char) (rest : List Char) :
    scanQuoted opening read (escapeChar c ++ rest) = scanQuoted opening (c :: read) rest := by
  -- the escapes with a letter of their own
  have hsimple : ∀ letter, letter ≠ 'u' → simpleEscape? letter = some c →
      scanQuoted opening read ('\\' :: letter :: rest) = scanQuoted opening (c :: read) rest := by
    intro letter hne hletter
    have hescape : scanEscape (letter :: rest) = .ok (some c, rest) := by
      rw [scanEscape, if_neg hne, hletter]
    exact scanQuoted_backslash hescape opening read
  rw [escapeChar]
  split
  next heq => exact hsimple '"' (by decide) (by rw [heq]; rfl)
  next hquote =>
  split
  next heq => exact hsimple '\\' (by decide) (by rw [heq]; rfl)
  next hbackslash =>
  split
  next heq => exact hsimple 'b' (by decide) (by rw [heq]; rfl)
  split
  next heq => exact hsimple 't' (by decide) (by rw [heq]; rfl)
  split
  next heq => exact hsimple 'n' (by decide) (by rw [heq]; rfl)
  split
  next heq => exact hsimple 'f' (by decide) (by rw [heq]; rfl)
  split
  next heq => exact hsimple 'r' (by decide) (by rw [heq]; rfl)
  split
  -- other control characters are written by their number
  next hcontrol =>
    have hescape : scanEscape ('u' :: (Number.hexText 4 c.toNat ++ rest)) = .ok (some c, rest) := by
      rw [scanEscape, if_pos rfl, scanUnicodeEscape_hexText hcontrol]
      rfl
    exact scanQuoted_backslash hescape opening read
  next => exact scanQuoted_cons hquote hbackslash opening read rest

/-- The inside of a written string is read back, up to and with its closing quote. -/
theorem scanQuoted_flatMap_escapeChar (opening read chars rest : List Char) :
    scanQuoted opening read (chars.flatMap escapeChar ++ '"' :: rest) =
      .ok (read.reverse ++ chars, rest) := by
  induction chars generalizing read with
  | nil => rw [List.flatMap_nil, List.nil_append, scanQuoted, List.append_nil]
  | cons c chars ih =>
    rw [List.flatMap_cons, List.append_assoc, scanQuoted_escapeChar, ih]
    simp

theorem stringChars_append (text : String) (rest : List Char) :
    stringChars text ++ rest = '"' :: (text.toList.flatMap escapeChar ++ '"' :: rest) := by
  simp [stringChars]

/-- A written name with a colon behind it is read back. -/
theorem scanKey_stringChars (name : String) (rest : List Char) :
    scanKey (stringChars name ++ ':' :: rest) = .ok (name, rest) := by
  have hcolon : skipSeparators (':' :: rest) = ':' :: rest :=
    skipSeparators_of_isStart ⟨by decide, by unfold IsSeparator; decide⟩ rest
  rw [stringChars_append, scanKey, if_pos rfl, scanQuoted_flatMap_escapeChar]
  simp [hcolon]

/-! ### Scalars -/

/-- The scalars that JSON has: truth values, integers and strings. -/
inductive IsPlain : Scalar → Prop
  | bool (value : Bool) : IsPlain (.bool value)
  | integer (value : Int64) : IsPlain (.integer value)
  | string (value : String) : IsPlain (.string value)

/-- An unquoted value ends in front of the text. -/
def EndsUnquoted (text : List Char) : Prop :=
  ∀ c rest, text = c :: rest → endsUnquoted c

/-- An unquoted value is split from what follows it. -/
theorem splitUnquoted_append {literal rest : List Char} (hne : literal ≠ [])
    (hliteral : ∀ c ∈ literal, endsUnquoted c = false) (hrest : EndsUnquoted rest) :
    splitUnquoted (literal ++ rest) = (literal, rest) := by
  obtain ⟨c, literal, rfl⟩ := List.exists_cons_of_ne_nil hne
  have htail : ∀ c ∈ literal, (!endsUnquoted c) = true := fun c hc => by
    rw [hliteral c (List.mem_cons_of_mem _ hc)]
    rfl
  rw [List.cons_append, splitUnquoted, List.takeWhile_append_of_pos htail,
    List.dropWhile_append_of_pos htail]
  -- the literal ends where the rest begins
  cases rest with
  | nil => simp
  | cons d rest => simp [hrest d rest rfl]

/-- A text without blanks is not changed by trimming. -/
theorem trimChars_of_not_isBlank {chars : List Char} (h : ∀ c ∈ chars, Text.isBlank c = false) :
    Text.trimChars chars = chars := by
  have hdrop : ∀ l : List Char, (∀ c ∈ l, Text.isBlank c = false) →
      l.dropWhile Text.isBlank = l := by
    intro l hl
    cases l with
    | nil => rfl
    | cons c l => rw [List.dropWhile_cons_of_neg (by simp [hl c (by simp)])]
  rw [Text.trimChars, hdrop chars h, Text.trimEndChars,
    hdrop chars.reverse (fun c hc => h c (List.mem_reverse.1 hc)), List.reverse_reverse]

/-- A character that is not blank stays at the front. -/
theorem trimChars_cons {c : Char} (h : Text.isBlank c = false) (rest : List Char) :
    Text.trimChars (c :: rest) = c :: Text.trimEndChars rest := by
  rw [Text.trimChars, List.dropWhile_cons_of_neg (by simp [h]), Text.trimEndChars,
    Text.trimEndChars, List.reverse_cons, List.dropWhile_append]
  split
  next hempty => simp [List.isEmpty_iff.1 hempty, h]
  next => simp

/-- The characters of unquoted literals other than blanks. -/
structure IsLiteralChar (c : Char) : Prop where
  notBlank : Text.isBlank c = false
  notEnd : endsUnquoted c = false
  notSpecial : c ∉ ['"', '{', '[', '#']

theorem isLiteralChar_of_isDigit {c : Char} (h : c.isDigit) : IsLiteralChar c := by
  have hrange : 48 ≤ c.toNat ∧ c.toNat ≤ 57 := by
    rw [Char.isDigit, Bool.and_eq_true, decide_eq_true_eq, decide_eq_true_eq] at h
    exact ⟨h.1, h.2⟩
  have hne : ∀ d : Char, d.isDigit = false → c ≠ d := by
    rintro d hd rfl
    exact absurd h (by simp [hd])
  refine ⟨?_, ?_, ?_⟩
  · simp only [Text.isBlank, Bool.or_eq_false_iff, Bool.and_eq_false_iff, decide_eq_false_iff_not]
    omega
  · simp only [endsUnquoted, Bool.or_eq_false_iff, decide_eq_false_iff_not]
    refine ⟨⟨⟨⟨⟨⟨?_, ?_⟩, ?_⟩, ?_⟩, ?_⟩, ?_⟩, ?_⟩ <;> exact hne _ (by decide)
  · simp only [List.mem_cons, List.not_mem_nil, or_false, not_or]
    refine ⟨?_, ?_, ?_, ?_⟩ <;> exact hne _ (by decide)

/-- The text is an unquoted literal that stands for the scalar. -/
structure IsLiteral (chars : List Char) (scalar : Scalar) : Prop where
  ne_nil : chars ≠ []
  ne_null : chars ≠ ['n', 'u', 'l', 'l']
  isLiteralChar : ∀ c ∈ chars, IsLiteralChar c
  ofLiteral_eq : Scalar.ofLiteral (String.ofList chars) = scalar

theorem isLiteral_bool (value : Bool) : IsLiteral (scalarChars (.bool value)) (.bool value) := by
  have hchars : ∀ c ∈ ['t', 'r', 'u', 'e', 'f', 'a', 'l', 's', 'e'], Text.isBlank c = false ∧
      endsUnquoted c = false ∧ c ∉ ['"', '{', '[', '#'] := by
    simp only [List.forall_mem_cons, List.not_mem_nil, false_implies, implies_true, and_true]
    decide
  cases value with
  | true =>
    refine ⟨by decide, by decide, fun c hc => ?_, by decide⟩
    obtain ⟨hblank, hend, hspecial⟩ :=
      hchars c (List.mem_append_left ['f', 'a', 'l', 's', 'e'] hc)
    exact ⟨hblank, hend, hspecial⟩
  | false =>
    refine ⟨by decide, by decide, fun c hc => ?_, by decide⟩
    obtain ⟨hblank, hend, hspecial⟩ := hchars c (List.mem_append_right ['t', 'r', 'u', 'e'] hc)
    exact ⟨hblank, hend, hspecial⟩

theorem isLiteral_integer (value : Int64) :
    IsLiteral (scalarChars (.integer value)) (.integer value) := by
  have hparse := Number.parseInt64?_toString value
  -- a text that is read as a number is none of the words
  have hne : ∀ chars, Number.parseInt64? chars = none → (toString value.toInt).toList ≠ chars := by
    rintro chars hnone rfl
    exact absurd (hparse.symm.trans hnone) (by simp)
  refine ⟨Number.toList_toString_int_ne_nil _, hne _ (by decide), fun c hc => ?_, ?_⟩
  · rcases Number.isDigit_of_mem_toString hc with hdigit | rfl
    · exact isLiteralChar_of_isDigit hdigit
    · exact ⟨by decide, by decide, by decide⟩
  · have htrue : toString value.toInt ≠ "true" := fun heq =>
      hne "true".toList (by decide) (by rw [heq])
    have hfalse : toString value.toInt ≠ "false" := fun heq =>
      hne "false".toList (by decide) (by rw [heq])
    rw [scalarChars, String.ofList_toList, Scalar.ofLiteral, if_neg htrue, if_neg hfalse, hparse]

/-- An unquoted literal is read as its scalar, in front of anything that ends it. -/
theorem scanValue_literal {chars rest : List Char} {scalar : Scalar} (h : IsLiteral chars scalar)
    (hrest : EndsUnquoted rest) : Parser.scanValue (chars ++ rest) = .ok (scalar, rest) := by
  have hsplit := splitUnquoted_append h.ne_nil (fun c hc => (h.isLiteralChar c hc).notEnd) hrest
  have htrim := trimChars_of_not_isBlank fun c hc => (h.isLiteralChar c hc).notBlank
  unfold Parser.scanValue
  split
  next more heq =>
    obtain ⟨c, chars, rfl⟩ := List.exists_cons_of_ne_nil h.ne_nil
    obtain rfl : c = '"' := (List.cons.inj heq).1
    exact absurd (h.isLiteralChar '"' (by simp)).notSpecial (by simp)
  next =>
    rw [hsplit]
    simp only [htrim, h.ofLiteral_eq]

/-- A written string is read back. -/
theorem scanValue_stringChars (text : String) (rest : List Char) :
    Parser.scanValue (stringChars text ++ rest) = .ok (.string text, rest) := by
  rw [stringChars_append, Parser.scanValue, scanQuoted_flatMap_escapeChar]
  simp [Except.map]

end LayeredConfig.Document
