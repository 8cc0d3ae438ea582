import LayeredConfig.Proofs.Document.Steps

/-!
# Unicode escapes in quoted texts

A unicode escape writes one unit of UTF-16, and a quoted text is what decoding its runs of units
makes of them. `DecodesUtf16` describes the decoding by the encoding of characters alone, without
the order in which a scanner looks at the units.

* `EscapedUnit`: a unit with the four digits that write it, and `QuotedItem`, a piece of a quoted
  text.
* `scanQuoted_units`: a run of escapes is passed over as the characters that it decodes to.
* `next_quotedItems`: a quoted value is the decoding of its items, and the arithmetic on its units
  stays within the range of characters.
-/

namespace LayeredConfig.Document

open Number (hexDigit?)

/-! ### Pieces of quoted texts -/

/-- A hexadecimal digit of either case. -/
structure HexDigit where
  /-- The number that the digit stands for. -/
  value : Fin 16
  /-- A letter is written in uppercase. -/
  upper : Bool
  deriving DecidableEq

/-- The written digit. -/
def HexDigit.char (digit : HexDigit) : Char :=
  if digit.upper then (Nat.digitChar digit.value).toUpper else Nat.digitChar digit.value

/-- A unit of UTF-16 as four hexadecimal digits. -/
structure EscapedUnit where
  first : HexDigit
  second : HexDigit
  third : HexDigit
  fourth : HexDigit
  deriving DecidableEq

namespace EscapedUnit

/-- The unit that the digits write. -/
def value (unit : EscapedUnit) : Nat :=
  ((unit.first.value * 16 + unit.second.value) * 16 + unit.third.value) * 16 + unit.fourth.value

/-- The written digits. -/
def digits (unit : EscapedUnit) : List Char :=
  [unit.first.char, unit.second.char, unit.third.char, unit.fourth.char]

/-- The escape of the unit. -/
def chars (unit : EscapedUnit) : List Char := '\\' :: 'u' :: unit.digits

theorem value_lt (unit : EscapedUnit) : unit.value < 0x10000 := by
  have hfirst := unit.first.value.isLt
  have hsecond := unit.second.value.isLt
  have hthird := unit.third.value.isLt
  have hfourth := unit.fourth.value.isLt
  rw [value]
  omega

end EscapedUnit

/-- A piece of a quoted text: an escaped unit, or a character that stands for itself. -/
inductive QuotedItem where
  | escaped (unit : EscapedUnit)
  | plain (c : Char) (hquote : c ≠ '"') (hbackslash : c ≠ '\\')

/-- The written piece. -/
def QuotedItem.chars : QuotedItem → List Char
  | .escaped unit => unit.chars
  | .plain c _ _ => [c]

/-! ### Decoding -/

/-- The units that encode a character. -/
def utf16Units (c : Char) : List Nat :=
  if c.toNat < 0x10000 then [c.toNat]
  else [0xD800 + (c.toNat - 0x10000) / 0x400, 0xDC00 + (c.toNat - 0x10000) % 0x400]

/-- Decoding the units gives the characters: those that they encode, and a replacement character
for every unit with which no encoded character begins. -/
inductive DecodesUtf16 : List Nat → List Char → Prop
  | nil : DecodesUtf16 [] []
  | char {units : List Nat} {chars : List Char} (c : Char) (tail : DecodesUtf16 units chars) :
      DecodesUtf16 (utf16Units c ++ units) (c :: chars)
  | unpaired {unit : Nat} {units : List Nat} {chars : List Char}
      (hnone : ∀ c, ¬ utf16Units c <+: unit :: units) (tail : DecodesUtf16 units chars) :
      DecodesUtf16 (unit :: units) (replacementChar :: chars)

/-- The pieces stand for the characters: each run of escaped units, as long as it is, for what it
decodes to, and any other character for itself. -/
inductive Decodes : List QuotedItem → List Char → Prop
  | nil : Decodes [] []
  | plain {c : Char} {hquote : c ≠ '"'} {hbackslash : c ≠ '\\'} {items : List QuotedItem}
      {chars : List Char} (tail : Decodes items chars) :
      Decodes (.plain c hquote hbackslash :: items) (c :: chars)
  | run {units : List EscapedUnit} {items : List QuotedItem} {decoded chars : List Char}
      (hne : units ≠ []) (hend : ∀ unit, items.head? ≠ some (.escaped unit))
      (hunits : DecodesUtf16 (units.map EscapedUnit.value) decoded) (tail : Decodes items chars) :
      Decodes (units.map QuotedItem.escaped ++ items) (decoded ++ chars)

/-! ### Units and characters -/

variable {high low unit : Nat}

theorem isHighSurrogate_iff : isHighSurrogate unit ↔ 0xD800 ≤ unit ∧ unit < 0xDC00 := by
  simp [isHighSurrogate]

theorem isLowSurrogate_iff : isLowSurrogate unit ↔ 0xDC00 ≤ unit ∧ unit < 0xE000 := by
  simp [isLowSurrogate]

/-- No character has the number of half a surrogate pair. -/
theorem toNat_lt_or_le (c : Char) : c.toNat < 0xD800 ∨ 0xE000 ≤ c.toNat ∧ c.toNat < 0x110000 := by
  rcases c.valid with hlt | ⟨hlt, hlt'⟩
  · exact .inl hlt
  · exact .inr ⟨hlt, hlt'⟩

theorem toNat_ofNat_of_isValidChar {n : Nat} (h : n.isValidChar) : (Char.ofNat n).toNat = n := by
  rw [Char.ofNat, dif_pos h]
  rfl

/-- A unit that is no half of a pair encodes a character of its own. -/
theorem utf16Units_unitChar (hunit : unit < 0x10000) (hhigh : ¬ isHighSurrogate unit)
    (hlow : ¬ isLowSurrogate unit) : utf16Units (unitChar unit) = [unit] := by
  have hvalid : unit.isValidChar := by
    rw [isHighSurrogate_iff] at hhigh
    rw [isLowSurrogate_iff] at hlow
    rw [Nat.isValidChar]
    omega
  have hchar : (unitChar unit).toNat = unit := by
    rw [unitChar, if_neg (by simp [hhigh, hlow]), toNat_ofNat_of_isValidChar hvalid]
  rw [utf16Units, hchar, if_pos hunit]

/-- The number of the character of a surrogate pair. -/
theorem toNat_pairChar (hhigh : isHighSurrogate high) (hlow : isLowSurrogate low) :
    (pairChar high low).toNat = 0x10000 + (high - 0xD800) * 0x400 + (low - 0xDC00) := by
  rw [isHighSurrogate_iff] at hhigh
  rw [isLowSurrogate_iff] at hlow
  rw [pairChar, toNat_ofNat_of_isValidChar]
  rw [Nat.isValidChar]
  omega

/-- A surrogate pair encodes its character. -/
theorem utf16Units_pairChar (hhigh : isHighSurrogate high) (hlow : isLowSurrogate low) :
    utf16Units (pairChar high low) = [high, low] := by
  have hchar := toNat_pairChar hhigh hlow
  rw [isHighSurrogate_iff] at hhigh
  rw [isLowSurrogate_iff] at hlow
  rw [utf16Units, hchar, if_neg (by omega), List.cons.injEq, List.cons.injEq]
  refine ⟨?_, ?_, rfl⟩ <;> omega

/-- A character is encoded by one unit that is no half of a pair, or by a pair. -/
theorem utf16Units_cases (c : Char) :
    (utf16Units c = [c.toNat] ∧ ¬ isHighSurrogate c.toNat ∧ unitChar c.toNat = c) ∨
      ∃ high low, utf16Units c = [high, low] ∧ isHighSurrogate high ∧ isLowSurrogate low ∧
        pairChar high low = c := by
  have hrange := toNat_lt_or_le c
  by_cases hplane : c.toNat < 0x10000
  · have hhigh : ¬ isHighSurrogate c.toNat := by
      rw [isHighSurrogate_iff]
      omega
    have hlow : ¬ isLowSurrogate c.toNat := by
      rw [isLowSurrogate_iff]
      omega
    refine .inl ⟨by rw [utf16Units, if_pos hplane], hhigh, ?_⟩
    rw [unitChar, if_neg (by simp [hhigh, hlow]), Char.ofNat_toNat]
  · refine .inr ⟨_, _, by rw [utf16Units, if_neg hplane], ?_, ?_, ?_⟩
    · rw [isHighSurrogate_iff]
      omega
    · rw [isLowSurrogate_iff]
      omega
    · have hsum : 0x10000 + (0xD800 + (c.toNat - 0x10000) / 0x400 - 0xD800) * 0x400 +
          (0xDC00 + (c.toNat - 0x10000) % 0x400 - 0xDC00) = c.toNat := by omega
      rw [pairChar, hsum, Char.ofNat_toNat]

theorem utf16Units_ne_nil (c : Char) : utf16Units c ≠ [] := by
  rw [utf16Units]
  split <;> simp

/-- Any units decode to something. -/
theorem exists_decodesUtf16 (units : List Nat) : ∃ chars, DecodesUtf16 units chars := by
  -- a character may take two units, so the induction is on their number
  induction hn : units.length using Nat.strongRecOn generalizing units with
  | _ n ih =>
    subst hn
    cases units with
    | nil => exact ⟨[], .nil⟩
    | cons unit units =>
      by_cases hchar : ∃ c, utf16Units c <+: unit :: units
      · obtain ⟨c, rest, hrest⟩ := hchar
        have hlength : rest.length < (unit :: units).length := by
          rw [← hrest, List.length_append]
          have hpos := List.length_pos_iff.2 (utf16Units_ne_nil c)
          omega
        obtain ⟨chars, hdecodes⟩ := ih _ hlength rest rfl
        exact ⟨c :: chars, hrest ▸ .char c hdecodes⟩
      · obtain ⟨chars, hdecodes⟩ := ih _ (Nat.lt_succ_self _) units rfl
        exact ⟨_, .unpaired (fun c hbegins => hchar ⟨c, hbegins⟩) hdecodes⟩

/-- The pieces begin with a run, which may be empty. -/
theorem exists_run (items : List QuotedItem) :
    ∃ (units : List EscapedUnit) (rest : List QuotedItem),
      items = units.map QuotedItem.escaped ++ rest ∧ ∀ unit, rest.head? ≠ some (.escaped unit) := by
  induction items with
  | nil => exact ⟨[], [], rfl, by simp⟩
  | cons item items ih =>
    cases item with
    | escaped unit =>
      obtain ⟨units, rest, rfl, hend⟩ := ih
      exact ⟨unit :: units, rest, rfl, hend⟩
    | plain c hquote hbackslash =>
      exact ⟨[], .plain c hquote hbackslash :: items, rfl, by simp⟩

/-- Any pieces stand for something. -/
theorem exists_decodes (items : List QuotedItem) : ∃ chars, Decodes items chars := by
  induction hn : items.length using Nat.strongRecOn generalizing items with
  | _ n ih =>
    subst hn
    obtain ⟨units, rest, rfl, hend⟩ := exists_run items
    by_cases hunits : units = []
    · subst hunits
      cases rest with
      | nil => exact ⟨[], .nil⟩
      | cons item rest =>
        cases item with
        | escaped unit => exact absurd rfl (hend unit)
        | plain c hquote hbackslash =>
          obtain ⟨chars, hdecodes⟩ := ih _ (Nat.lt_succ_self _) rest rfl
          exact ⟨c :: chars, .plain hdecodes⟩
    · have hlength : rest.length < (units.map QuotedItem.escaped ++ rest).length := by
        rw [List.length_append, List.length_map]
        have hpos := List.length_pos_iff.2 hunits
        omega
      obtain ⟨chars, hdecodes⟩ := ih _ hlength rest rfl
      obtain ⟨decoded, hdecoded⟩ := exists_decodesUtf16 (units.map EscapedUnit.value)
      exact ⟨decoded ++ chars, .run hunits hend hdecoded hdecodes⟩

/-! ### Scanning units -/

section Scanning

variable (opening read : List Char) (u v : EscapedUnit) (rest : List Char)

theorem hexDigit?_char (digit : HexDigit) : hexDigit? digit.char = some digit.value.val := by
  -- both cases of all sixteen digits can be tried
  have hall : ∀ (value : Fin 16) (upper : Bool),
      hexDigit? (HexDigit.char ⟨value, upper⟩) = some value.val := by decide
  exact hall digit.value digit.upper

theorem hexUnit?_digits : hexUnit? (u.digits ++ rest) = some (u.value, rest) := by
  simp [hexUnit?, EscapedUnit.digits, EscapedUnit.value, hexDigit?_char]

theorem lowSurrogate?_chars : lowSurrogate? (u.chars ++ rest) =
    if isLowSurrogate u.value then some (u.value, rest) else none := by
  simp [lowSurrogate?, EscapedUnit.chars, hexUnit?_digits]

/-- A unit that is no first half of a pair is read alone. -/
theorem scanUnicodeEscape_single (h : ¬ isHighSurrogate u.value) :
    scanUnicodeEscape (u.digits ++ rest) = .ok (unitChar u.value, rest) := by
  rw [scanUnicodeEscape, hexUnit?_digits]
  simp [h]

/-- Both halves of a pair are read together. -/
theorem scanUnicodeEscape_pair (hhigh : isHighSurrogate u.value) (hlow : isLowSurrogate v.value) :
    scanUnicodeEscape (u.digits ++ (v.chars ++ rest)) =
      .ok (pairChar u.value v.value, rest) := by
  rw [scanUnicodeEscape, hexUnit?_digits]
  simp [hhigh, lowSurrogate?_chars, hlow]

/-- A first half without a second one is replaced, and what follows it is still to come. -/
theorem scanUnicodeEscape_unpaired (hhigh : isHighSurrogate u.value)
    (hnone : lowSurrogate? rest = none) :
    scanUnicodeEscape (u.digits ++ rest) = .ok (replacementChar, rest) := by
  rw [scanUnicodeEscape, hexUnit?_digits]
  simp [hhigh, hnone]

variable {u rest}

theorem scanQuoted_unit {c : Char} {more : List Char}
    (h : scanUnicodeEscape (u.digits ++ rest) = .ok (c, more)) :
    scanQuoted opening read (u.chars ++ rest) = scanQuoted opening (c :: read) more := by
  have hescape : scanEscape ('u' :: (u.digits ++ rest)) = .ok (some c, more) := by
    rw [scanEscape, if_pos rfl, h]
    rfl
  exact scanQuoted_backslash hescape opening read

end Scanning

/-- A run of escapes is passed over as the characters that it decodes to, if no other escape of a
second half follows it. -/
theorem scanQuoted_units {units : List EscapedUnit} {chars after : List Char}
    (h : DecodesUtf16 (units.map EscapedUnit.value) chars) (hafter : lowSurrogate? after = none)
    (opening read : List Char) :
    scanQuoted opening read (units.flatMap EscapedUnit.chars ++ after) =
      scanQuoted opening (chars.reverse ++ read) after := by
  generalize hvalues : units.map EscapedUnit.value = values at h
  induction h generalizing units read with
  | nil =>
    obtain rfl := List.map_eq_nil_iff.1 hvalues
    rfl
  | @char values chars c _ ih =>
    rcases utf16Units_cases c with ⟨hunits, hhigh, hchar⟩ | ⟨high, low, hunits, hhigh, hlow, hchar⟩
    · rw [hunits] at hvalues
      obtain ⟨u, units, rfl, hu, rfl⟩ := List.map_eq_cons_iff.1 hvalues
      have hscan := scanUnicodeEscape_single u (units.flatMap EscapedUnit.chars ++ after)
        (by rwa [hu])
      rw [hu, hchar] at hscan
      rw [List.flatMap_cons, List.append_assoc, scanQuoted_unit opening read hscan, ih _ rfl]
      simp
    · rw [hunits] at hvalues
      obtain ⟨u, more, rfl, rfl, hmore⟩ := List.map_eq_cons_iff.1 hvalues
      obtain ⟨v, units, rfl, rfl, rfl⟩ := List.map_eq_cons_iff.1 hmore
      have hscan := scanUnicodeEscape_pair u v (units.flatMap EscapedUnit.chars ++ after) hhigh hlow
      rw [hchar] at hscan
      rw [List.flatMap_cons, List.flatMap_cons, List.append_assoc, List.append_assoc,
        scanQuoted_unit opening read hscan, ih _ rfl]
      simp
  | @unpaired unit values chars hnone _ ih =>
    obtain ⟨u, units, rfl, rfl, rfl⟩ := List.map_eq_cons_iff.1 hvalues
    have hscan : scanUnicodeEscape (u.digits ++ (units.flatMap EscapedUnit.chars ++ after)) =
        .ok (replacementChar, units.flatMap EscapedUnit.chars ++ after) := by
      by_cases hhigh : isHighSurrogate u.value
      -- a second half right behind would make a pair
      · refine scanUnicodeEscape_unpaired u _ hhigh ?_
        cases units with
        | nil => exact hafter
        | cons v units =>
          rw [List.flatMap_cons, List.append_assoc, lowSurrogate?_chars, if_neg]
          intro hlow
          refine hnone (pairChar u.value v.value) ?_
          rw [utf16Units_pairChar hhigh hlow]
          exact ⟨_, rfl⟩
      · have hlow : isLowSurrogate u.value := by
          by_contra hlow
          refine hnone (unitChar u.value) ?_
          rw [utf16Units_unitChar u.value_lt hhigh hlow]
          exact ⟨_, rfl⟩
        rw [scanUnicodeEscape_single u _ hhigh, unitChar, if_pos (.inr hlow)]
    rw [List.flatMap_cons, List.append_assoc, scanQuoted_unit opening read hscan, ih _ rfl]
    simp

/-- The inside of a quoted text is read as what its pieces stand for. -/
theorem scanQuoted_items {items : List QuotedItem} {chars : List Char} (h : Decodes items chars)
    (opening read rest : List Char) :
    scanQuoted opening read (items.flatMap QuotedItem.chars ++ '"' :: rest) =
      .ok (read.reverse ++ chars, rest) := by
  induction h generalizing read with
  | nil => rw [List.flatMap_nil, List.nil_append, scanQuoted, List.append_nil]
  | @plain c hquote hbackslash items chars _ ih =>
    rw [List.flatMap_cons, List.append_assoc]
    refine (scanQuoted_cons hquote hbackslash opening read _).trans ((ih _).trans ?_)
    simp
  | @run units items decoded chars hne hend hunits _ ih =>
    -- behind the run comes a character or the closing quote
    have hafter : lowSurrogate? (items.flatMap QuotedItem.chars ++ '"' :: rest) = none := by
      cases items with
      | nil => rfl
      | cons item items =>
        cases item with
        | escaped unit => exact absurd rfl (hend unit)
        | plain c hquote hbackslash =>
          unfold lowSurrogate?
          split
          next heq => exact absurd (List.cons.inj heq).1 hbackslash
          next => rfl
    rw [List.flatMap_append, List.flatMap_map, List.append_assoc]
    refine (scanQuoted_units hunits hafter opening read).trans ((ih _).trans ?_)
    simp

/-! ### Quoted values -/

/-- The halves of a surrogate pair lie where the arithmetic on them neither falls below zero nor
leaves the range of characters. -/
structure PairInRange (high low : Nat) : Prop where
  high_ge : 0xD800 ≤ high
  low_ge : 0xDC00 ≤ low
  sum_lt : 0x10000 + (high - 0xD800) * 0x400 + (low - 0xDC00) < 0x110000
  toNat_eq : (pairChar high low).toNat = 0x10000 + (high - 0xD800) * 0x400 + (low - 0xDC00)

theorem pairInRange (hhigh : isHighSurrogate high) (hlow : isLowSurrogate low) :
    PairInRange high low := by
  have heq := toNat_pairChar hhigh hlow
  rw [isHighSurrogate_iff] at hhigh
  rw [isLowSurrogate_iff] at hlow
  exact ⟨hhigh.1, hlow.1, by omega, heq⟩

theorem lt_of_hexDigit? {c : Char} {n : Nat} (h : hexDigit? c = some n) : n < 16 := by
  have hzero : '0'.toNat = 48 := rfl
  have ha : 'a'.toNat = 97 := rfl
  have hA : 'A'.toNat = 65 := rfl
  rw [hexDigit?] at h
  split at h
  next hdigit =>
    have hle : c.toNat ≤ 57 := by
      rw [Char.isDigit, Bool.and_eq_true, decide_eq_true_eq, decide_eq_true_eq] at hdigit
      exact hdigit.2
    obtain rfl := Option.some.inj h
    omega
  split at h
  next hletter =>
    have hle : c.toNat ≤ 102 := hletter.2
    obtain rfl := Option.some.inj h
    omega
  split at h
  next hletter =>
    have hle : c.toNat ≤ 70 := hletter.2
    obtain rfl := Option.some.inj h
    omega
  next => exact absurd h (by simp)

/-- Any four digits write a unit. -/
theorem unit_lt_of_hexUnit? {text more : List Char} (h : hexUnit? text = some (unit, more)) :
    unit < 0x10000 := by
  unfold hexUnit? at h
  split at h
  · simp only [Option.bind_eq_bind, Option.bind_eq_some_iff, Option.some.injEq, Prod.mk.injEq] at h
    obtain ⟨a, ha, b, hb, c, hc, d, hd, rfl, rfl⟩ := h
    have hfirst := lt_of_hexDigit? ha
    have hsecond := lt_of_hexDigit? hb
    have hthird := lt_of_hexDigit? hc
    have hfourth := lt_of_hexDigit? hd
    omega
  · exact absurd h (by simp)

/-- A second half that is looked for is one. -/
theorem isLowSurrogate_of_lowSurrogate? {text more : List Char}
    (h : lowSurrogate? text = some (low, more)) : isLowSurrogate low := by
  unfold lowSurrogate? at h
  split at h
  · split at h
    · split at h
      next hlow =>
        obtain ⟨rfl, -⟩ := Prod.mk.inj (Option.some.inj h)
        exact hlow
      next => exact absurd h (by simp)
    · exact absurd h (by simp)
  · exact absurd h (by simp)

/-- Where a value is expected, a quoted text of escaped units and other characters is read as what
they stand for, and they always stand for something. The units of all escapes are in range, and so
is the number that the halves of a pair make up. -/
theorem next_quotedItems :
    (∀ (p : Parser) (items : List QuotedItem) (rest : List Char), p.ExpectsValue →
      skipSeparators p.rest = '"' :: (items.flatMap QuotedItem.chars ++ '"' :: rest) →
      (∃ chars, Decodes items chars) ∧
        ∀ chars, Decodes items chars →
          p.next = (.ok ⟨.value (.string (String.ofList chars)), p.beginElement.path⟩,
            p.behind rest)) ∧
      ∀ (text more : List Char) (unit : Nat), hexUnit? text = some (unit, more) →
        unit < 0x10000 ∧ ∀ low rest, isHighSurrogate unit → lowSurrogate? more = some (low, rest) →
          low < 0x10000 ∧ PairInRange unit low := by
  refine ⟨fun p items rest hp htext => ⟨exists_decodes items, fun chars hdecodes => ?_⟩, ?_⟩
  · have hscan : Parser.scanValue ('"' :: (items.flatMap QuotedItem.chars ++ '"' :: rest)) =
        .ok (.string (String.ofList chars), rest) := by
      rw [Parser.scanValue, scanQuoted_items hdecodes]
      rfl
    refine Parser.next_value hp htext (by decide) ?_ hscan
    -- a quote stands in front, so the text does not read as a null
    rw [splitUnquoted, trimChars_cons (by decide)]
    simp
  · intro text more unit hunit
    refine ⟨unit_lt_of_hexUnit? hunit, fun low rest hhigh hlow => ?_⟩
    have hrange := isLowSurrogate_of_lowSurrogate? hlow
    refine ⟨?_, pairInRange hhigh hrange⟩
    rw [isLowSurrogate_iff] at hrange
    omega

/-- Two first halves of a pair and one second half: `\ud83D\uD83d\uDE00`. -/
def halves : List EscapedUnit :=
  [⟨⟨13, false⟩, ⟨8, false⟩, ⟨3, false⟩, ⟨13, true⟩⟩,
    ⟨⟨13, true⟩, ⟨8, false⟩, ⟨3, false⟩, ⟨13, false⟩⟩,
    ⟨⟨13, true⟩, ⟨14, true⟩, ⟨0, false⟩, ⟨0, false⟩⟩]

/-- The halves with a letter behind them. -/
def halvesAndLetter : List QuotedItem :=
  halves.map .escaped ++ [.plain 'x' (by decide) (by decide)]

/-- A parser behind a name, in front of the quoted text. -/
def quotedHalves : Parser :=
  ⟨"a: \"\\ud83D\\uD83d\\uDE00x\"".toList, " \"\\ud83D\\uD83d\\uDE00x\"".toList,
    .object (some "a"), [], true⟩

theorem next_quotedItems_quotedHalves :
    quotedHalves.ExpectsValue ∧
      skipSeparators quotedHalves.rest =
        '"' :: (halvesAndLetter.flatMap QuotedItem.chars ++ ['"']) ∧
      Decodes halvesAndLetter [replacementChar, '😀', 'x'] ∧
      quotedHalves.next =
        (.ok ⟨.value (.string (String.ofList [replacementChar, '😀', 'x'])), "a"⟩,
          ⟨quotedHalves.text, [], .object (some "a"), [], false⟩) ∧
      hexUnit? "D83D\\uDE00".toList = some (0xD83D, "\\uDE00".toList) ∧
      PairInRange 0xD83D 0xDE00 := by
  have hexpects : quotedHalves.ExpectsValue := .inl rfl
  have htext : skipSeparators quotedHalves.rest =
      '"' :: (halvesAndLetter.flatMap QuotedItem.chars ++ ['"']) := by decide
  have hunpaired : ∀ c, ¬ utf16Units c <+: [0xD83D, 0xD83D, 0xDE00] := by
    intro c hbegins
    rcases utf16Units_cases c with ⟨hunits, hhigh, -⟩ | ⟨high, low, hunits, -, hlow, -⟩
    · rw [hunits, List.cons_prefix_cons] at hbegins
      exact hhigh (hbegins.1 ▸ by decide)
    · rw [hunits, List.cons_prefix_cons, List.cons_prefix_cons] at hbegins
      exact absurd (hbegins.2.1 ▸ hlow) (by decide)
  have hrun : DecodesUtf16 (halves.map EscapedUnit.value) [replacementChar, '😀'] :=
    .unpaired hunpaired (.char '😀' .nil)
  have hdecodes : Decodes halvesAndLetter [replacementChar, '😀', 'x'] :=
    .run (List.cons_ne_nil _ _) (by simp) hrun (.plain .nil)
  have hunit : hexUnit? "D83D\\uDE00".toList = some (0xD83D, "\\uDE00".toList) := by decide
  obtain ⟨-, hnext⟩ := next_quotedItems.1 quotedHalves halvesAndLetter [] hexpects htext
  obtain ⟨-, hpair⟩ := next_quotedItems.2 _ _ _ hunit
  exact ⟨hexpects, htext, hdecodes, hnext _ hdecodes, hunit,
    (hpair 0xDE00 [] (by decide) (by decide)).2⟩

end LayeredConfig.Document
