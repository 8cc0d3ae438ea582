import LayeredConfig.Proofs.Document.Steps
import Mathlib.Data.List.TakeWhile

/-!
# The text that a token takes

How far a scan reads, and on which part of the text behind it the result depends. Every lemma splits
the text into the part in front, which is read, and the rest. With other text in place of the rest
the scan gives the same result, as long as that text does not go on with what has been read.

* `exists_front_of_skipSeparators`: separators are passed over whatever follows them.
* `exists_front_of_scanQuoted`: a quoted text ends at its closing quote.
* `exists_front_of_scanKey`: a name ends behind its separator, or else in front of an open bracket.
* `exists_front_of_scanValue`: an unquoted value ends where the rest ends it.
-/

namespace LayeredConfig.Document

variable {text rest chars read : List Char} {c : Char} {unit : Nat}

/-- The result of a scan whose result is changed afterwards. -/
theorem exists_scan_of_map_eq_ok {α β : Type} {scan : Scan α} {f : α × List Char → β × List Char}
    {result : β × List Char} (h : scan.map f = .ok result) :
    ∃ a rest, scan = .ok (a, rest) ∧ f (a, rest) = result := by
  cases scan with
  | error fault => exact absurd h (by simp [Except.map])
  | ok found => exact ⟨found.1, found.2, rfl, Except.ok.inj h⟩

/-! ### Separators -/

theorem exists_front_of_skipFrom {inComment : Bool} (h : skipFrom inComment text = c :: rest) :
    ∃ front, text = front ++ c :: rest ∧
      ∀ more, skipFrom inComment (front ++ more) = skipFrom false more := by
  induction text generalizing inComment with
  | nil => exact absurd h (by simp [skipFrom])
  | cons first tail ih =>
    -- a character that is passed over joins the front of what follows it
    have hpass : ∀ inComment', (∀ more, skipFrom inComment (first :: more) =
        skipFrom inComment' more) → ∃ front, first :: tail = front ++ c :: rest ∧
          ∀ more, skipFrom inComment (front ++ more) = skipFrom false more := by
      intro inComment' hfirst
      rw [hfirst] at h
      obtain ⟨front, rfl, hfront⟩ := ih h
      exact ⟨first :: front, rfl, fun more => (hfirst _).trans (hfront more)⟩
    cases inComment with
    | true => exact hpass _ fun more => by rw [skipFrom, if_pos rfl]
    | false =>
      by_cases hcomment : first = '#'
      · exact hpass true fun more => by rw [skipFrom, if_neg (by simp), if_pos hcomment]
      · by_cases hseparator : Text.isBlank first ∨ first = ','
        · exact hpass false fun more => by
            rw [skipFrom, if_neg (by simp), if_neg hcomment, if_pos hseparator]
        · rw [skipFrom, if_neg (by simp), if_neg hcomment, if_neg hseparator] at h
          exact ⟨[], h, fun more => rfl⟩

/-- Separators are passed over whatever follows them. -/
theorem exists_front_of_skipSeparators (h : skipSeparators text = c :: rest) :
    ∃ front, text = front ++ c :: rest ∧
      ∀ more, skipSeparators (front ++ more) = skipSeparators more :=
  exists_front_of_skipFrom h

/-- Behind the separators something starts. -/
theorem isStart_of_skipSeparators (h : skipSeparators text = c :: rest) : IsStart c := by
  rcases skipFrom_eq_nil_or_isStart false text with hnil | ⟨d, tail, hcons, hstart⟩
  · exact absurd (h.symm.trans hnil) (by simp)
  · obtain ⟨rfl, -⟩ := List.cons.inj (h.symm.trans hcons)
    exact hstart

/-! ### Escapes -/

/-- The character takes no part in a unicode escape. -/
def BreaksEscape (c : Char) : Prop := c ≠ '\\' ∧ c ≠ 'u' ∧ Number.hexDigit? c = none

theorem exists_front_of_hexUnit? (h : hexUnit? text = some (unit, rest)) :
    ∃ front, text = front ++ rest ∧ ∀ more, hexUnit? (front ++ more) = some (unit, more) := by
  unfold hexUnit? at h
  split at h
  next a b c d tail =>
    simp only [Option.bind_eq_bind, Option.bind_eq_some_iff, Option.some.injEq, Prod.mk.injEq] at h
    obtain ⟨i, hi, j, hj, k, hk, l, hl, rfl, rfl⟩ := h
    exact ⟨[a, b, c, d], rfl, fun more => by simp [hexUnit?, hi, hj, hk, hl]⟩
  · exact absurd h (by simp)

/-- Four digits in front of another character are there whatever follows. -/
theorem exists_hexUnit?_eq_some {front more : List Char}
    (h : hexUnit? (front ++ c :: more) = some (unit, rest)) (hc : Number.hexDigit? c = none)
    (other : List Char) : ∃ rest', hexUnit? (front ++ other) = some (unit, rest') := by
  match front with
  | [] | [_] | [_, _] | [_, _, _] =>
    -- the other character is one of the four
    unfold hexUnit? at h
    split at h
    next heq =>
      simp only [Option.bind_eq_bind, Option.bind_eq_some_iff] at h
      simp_all
    next => exact absurd h (by simp)
  | first :: second :: third :: fourth :: front =>
    simp only [hexUnit?, List.cons_append, Option.bind_eq_bind, Option.bind_eq_some_iff,
      Option.some.injEq, Prod.mk.injEq] at h ⊢
    obtain ⟨i, hi, j, hj, k, hk, l, hl, hunit, -⟩ := h
    exact ⟨front ++ other, i, hi, j, hj, k, hk, l, hl, hunit, rfl⟩

theorem exists_front_of_lowSurrogate? (h : lowSurrogate? text = some (unit, rest)) :
    ∃ front, text = front ++ rest ∧ ∀ more, lowSurrogate? (front ++ more) = some (unit, more) := by
  unfold lowSurrogate? at h
  split at h
  next tail =>
    split at h
    next unit' rest' hunit =>
      split at h
      next hlow =>
        simp only [Option.some.injEq, Prod.mk.injEq] at h
        obtain ⟨rfl, rfl⟩ := h
        obtain ⟨front, rfl, hfront⟩ := exists_front_of_hexUnit? hunit
        exact ⟨'\\' :: 'u' :: front, rfl, fun more => by simp [lowSurrogate?, hfront, hlow]⟩
      next => exact absurd h (by simp)
    next => exact absurd h (by simp)
  next => exact absurd h (by simp)

/-- Where no second half of a surrogate pair comes, it does not come either if the text breaks off
at a character that takes no part in an escape. -/
theorem lowSurrogate?_eq_none {front : List Char} (h : lowSurrogate? (front ++ rest) = none)
    (hc : BreaksEscape c) (more : List Char) : lowSurrogate? (front ++ c :: more) = none := by
  obtain ⟨hbackslash, hu, hdigit⟩ := hc
  unfold lowSurrogate?
  split
  next tail heq =>
    match front with
    | [] => exact absurd (List.cons.inj heq).1 hbackslash
    | [_] => exact absurd (List.cons.inj (List.cons.inj heq).2).1 hu
    | first :: second :: front =>
      obtain ⟨rfl, htail⟩ := List.cons.inj heq
      obtain ⟨rfl, rfl⟩ := List.cons.inj htail
      split
      next unit _ hunit =>
        obtain ⟨_, hother⟩ := exists_hexUnit?_eq_some hunit hdigit rest
        by_cases hlow : isLowSurrogate unit
        · simp [lowSurrogate?, hother, hlow] at h
        · rw [if_neg hlow]
      next => rfl
  next => rfl

/-- The text has no second half of a surrogate pair in front if the other one has none. -/
def Resumes (rest more : List Char) : Prop := lowSurrogate? rest = none → lowSurrogate? more = none

theorem Resumes.of_breaksEscape {front : List Char} (hc : BreaksEscape c) (more : List Char) :
    Resumes (front ++ rest) (front ++ c :: more) :=
  fun h => lowSurrogate?_eq_none h hc more

theorem Resumes.of_mem {front : List Char} (hc : BreaksEscape c) (hmem : c ∈ front)
    (more : List Char) : Resumes (front ++ rest) (front ++ more) := by
  obtain ⟨before, after, rfl⟩ := List.append_of_mem hmem
  rw [List.append_assoc, List.append_assoc, List.cons_append, List.cons_append]
  exact .of_breaksEscape hc _

theorem exists_front_of_scanUnicodeEscape (h : scanUnicodeEscape text = .ok (c, rest)) :
    ∃ front, text = front ++ rest ∧
      ∀ more, Resumes rest more → scanUnicodeEscape (front ++ more) = .ok (c, more) := by
  unfold scanUnicodeEscape at h
  split at h
  · exact absurd h (by simp)
  next unit behind hunit =>
    obtain ⟨front, rfl, hfront⟩ := exists_front_of_hexUnit? hunit
    split at h
    next hhigh =>
      split at h
      next low rest' hlow =>
        obtain ⟨rfl, rfl⟩ := Prod.mk.inj (Except.ok.inj h)
        obtain ⟨second, rfl, hsecond⟩ := exists_front_of_lowSurrogate? hlow
        refine ⟨front ++ second, by simp, fun more _ => ?_⟩
        rw [scanUnicodeEscape, List.append_assoc, hfront]
        simp only [hhigh, if_true, hsecond]
      next hnone =>
        obtain ⟨rfl, rfl⟩ := Prod.mk.inj (Except.ok.inj h)
        refine ⟨front, rfl, fun more hmore => ?_⟩
        rw [scanUnicodeEscape, hfront]
        simp only [hhigh, if_true, hmore hnone]
    next hhigh =>
      obtain ⟨rfl, rfl⟩ := Prod.mk.inj (Except.ok.inj h)
      refine ⟨front, rfl, fun more _ => ?_⟩
      rw [scanUnicodeEscape, hfront]
      simp [hhigh]

theorem exists_front_of_scanEscape {decoded : Option Char}
    (h : scanEscape text = .ok (decoded, rest)) : ∃ front, text = front ++ rest ∧
      ∀ more, Resumes rest more → scanEscape (front ++ more) = .ok (decoded, more) := by
  unfold scanEscape at h
  split at h
  · exact absurd h (by simp)
  next first tail =>
    split at h
    next hu =>
      obtain ⟨c, behind, hscan, heq⟩ := exists_scan_of_map_eq_ok h
      obtain ⟨rfl, rfl⟩ := Prod.mk.inj heq
      obtain ⟨front, rfl, hfront⟩ := exists_front_of_scanUnicodeEscape hscan
      refine ⟨first :: front, rfl, fun more hmore => ?_⟩
      rw [List.cons_append, scanEscape, if_pos hu, hfront more hmore]
      rfl
    next hu =>
      obtain ⟨rfl, rfl⟩ := Prod.mk.inj (Except.ok.inj h)
      exact ⟨[first], rfl, fun more _ => by simp [scanEscape, hu]⟩

/-! ### Quoted texts -/

/-- A quoted text ends at its closing quote, whatever follows it. -/
theorem exists_front_of_scanQuoted {opening : List Char}
    (h : scanQuoted opening read text = .ok (chars, rest)) :
    ∃ inside, text = inside ++ '"' :: rest ∧
      ∀ opening' more, scanQuoted opening' read (inside ++ '"' :: more) = .ok (chars, more) := by
  have hquote : BreaksEscape '"' := ⟨by decide, by decide, by decide⟩
  fun_induction scanQuoted opening read text with
  | case1 => exact absurd h (by simp)
  | case2 read tail =>
    obtain ⟨rfl, rfl⟩ := Prod.mk.inj (Except.ok.inj h)
    exact ⟨[], rfl, fun opening' more => by rw [List.nil_append, scanQuoted]⟩
  | case3 => exact absurd h (by simp)
  | case4 => exact absurd h (by simp)
  | case5 read tail _ decoded behind hescape ih =>
    obtain ⟨inside, rfl, hinside⟩ := ih h
    obtain ⟨front, rfl, hfront⟩ := exists_front_of_scanEscape hescape
    refine ⟨'\\' :: (front ++ inside), by simp, fun opening' more => ?_⟩
    -- the closing quote keeps the escape from going on behind it
    rw [List.cons_append, List.append_assoc,
      scanQuoted_backslash (hfront _ (.of_breaksEscape hquote more)), hinside]
  | case6 read c tail hne hbackslash ih =>
    obtain ⟨inside, rfl, hinside⟩ := ih h
    refine ⟨c :: inside, rfl, fun opening' more => ?_⟩
    rw [List.cons_append, scanQuoted_cons hne hbackslash, hinside]

/-! ### Names -/

/-- The text starts with an open bracket. -/
def StartsBracket (text : List Char) : Prop := ∃ c rest, text = c :: rest ∧ (c = '{' ∨ c = '[')

/-- The name that has been read ends in front of an open bracket, and does so in front of any other
text that leads to one. -/
def EndsAtBracket {α : Type} (scan : List Char → Scan α) (name : α) (front rest : List Char) :
    Prop :=
  StartsBracket rest ∧ ∀ c more rest', BreaksEscape c → skipSeparators (c :: more) = rest' →
    StartsBracket rest' → scan (front ++ c :: more) = .ok (name, rest')

theorem exists_front_of_extendName {read' : List Char}
    (h : extendName read c text = .ok (read', rest)) : ∃ front, text = front ++ rest ∧
      ∀ more, Resumes rest more → extendName read c (front ++ more) = .ok (read', more) := by
  unfold extendName at h
  split at h
  next hbackslash =>
    obtain ⟨decoded, behind, hscan, heq⟩ := exists_scan_of_map_eq_ok h
    obtain ⟨rfl, rfl⟩ := Prod.mk.inj heq
    obtain ⟨front, rfl, hfront⟩ := exists_front_of_scanEscape hscan
    refine ⟨front, rfl, fun more hmore => ?_⟩
    rw [extendName, if_pos hbackslash, hfront more hmore]
    rfl
  next hbackslash =>
    split at h
    next hblank =>
      obtain ⟨rfl, rfl⟩ := Prod.mk.inj (Except.ok.inj h)
      exact ⟨[], rfl, fun more _ => by simp [extendName, hbackslash, hblank]⟩
    next hblank =>
      obtain ⟨rfl, rfl⟩ := Prod.mk.inj (Except.ok.inj h)
      exact ⟨[], rfl, fun more _ => by simp [extendName, hbackslash, hblank]⟩

/-- A name goes on with the next character that is not passed over. -/
theorem scanName_of_skipSeparators {read' behind : List Char} {next : Char}
    (hc : ¬ (c = ':' ∨ c = '=')) (hextend : extendName read c text = .ok (read', behind))
    (hskip : skipSeparators behind = next :: rest) : scanName read c text =
      if next = '{' ∨ next = '[' then .ok (read'.reverse, next :: rest)
      else scanName read' next rest := by
  rw [scanName, if_neg hc]
  split
  next fault hfault => exact absurd (hextend.symm.trans hfault) (by simp)
  next other behind' hother =>
    obtain ⟨rfl, rfl⟩ := Prod.mk.inj (Except.ok.inj (hextend.symm.trans hother))
    split
    next hnil => exact absurd (hskip.symm.trans hnil) (by simp)
    next other rest' hcons =>
      obtain ⟨rfl, rfl⟩ := List.cons.inj (hskip.symm.trans hcons)
      rfl

theorem breaksEscape_of_separator (h : c = ':' ∨ c = '=') : BreaksEscape c := by
  rcases h with rfl | rfl <;> exact ⟨by decide, by decide, by decide⟩

/-- An unquoted name ends behind a separator, whatever follows it, or else in front of an open
bracket. -/
theorem exists_front_of_scanName (h : scanName read c text = .ok (chars, rest)) :
    ∃ front, text = front ++ rest ∧
      (((∃ d ∈ c :: front, BreaksEscape d) ∧
          ∀ more, scanName read c (front ++ more) = .ok (chars, more)) ∨
        EndsAtBracket (scanName read c) chars front rest) := by
  fun_induction scanName read c text with
  | case1 read c text hc =>
    obtain ⟨rfl, rfl⟩ := Prod.mk.inj (Except.ok.inj h)
    refine ⟨[], rfl, .inl ⟨⟨c, by simp, breaksEscape_of_separator hc⟩, fun more => ?_⟩⟩
    rw [scanName, if_pos hc, List.nil_append]
  | case2 => exact absurd h (by simp)
  | case3 => exact absurd h (by simp)
  | case4 read c text hc read' behind hextend next rest' hskip hbracket =>
    obtain ⟨rfl, rfl⟩ := Prod.mk.inj (Except.ok.inj h)
    obtain ⟨first, rfl, hfirst⟩ := exists_front_of_extendName hextend
    obtain ⟨second, rfl, hsecond⟩ := exists_front_of_skipSeparators hskip
    refine ⟨first ++ second, by simp, .inr ⟨⟨next, rest', rfl, hbracket⟩, ?_⟩⟩
    rintro d more _ hd hmore ⟨bracket, tail, rfl, hbracket'⟩
    rw [List.append_assoc, scanName_of_skipSeparators hc
      (hfirst _ (.of_breaksEscape hd more)) ((hsecond _).trans hmore), if_pos hbracket']
  | case5 read c text hc read' behind hextend next rest' hskip hbracket ih =>
    obtain ⟨third, rfl, hthird⟩ := ih h
    obtain ⟨first, rfl, hfirst⟩ := exists_front_of_extendName hextend
    obtain ⟨second, rfl, hsecond⟩ := exists_front_of_skipSeparators hskip
    have hnext : ∀ more, skipSeparators (second ++ next :: more) = next :: more := fun more => by
      rw [hsecond, skipSeparators_of_isStart (isStart_of_skipSeparators hskip)]
    -- the name goes on in the same way whatever comes behind it
    have hstep : ∀ more,
        Resumes (second ++ next :: third ++ rest) (second ++ next :: third ++ more) →
        scanName read c (first ++ (second ++ next :: third) ++ more) =
          scanName read' next (third ++ more) := by
      intro more hmore
      simp only [List.append_assoc, List.cons_append] at hmore ⊢
      rw [scanName_of_skipSeparators hc (hfirst _ hmore) (hnext _), if_neg hbracket]
    refine ⟨first ++ (second ++ next :: third), by simp, ?_⟩
    rcases hthird with ⟨⟨d, hmem, hd⟩, hall⟩ | ⟨hrest, hall⟩
    · have hmem' : d ∈ second ++ next :: third := List.mem_append_right second hmem
      refine .inl ⟨⟨d, List.mem_cons_of_mem c (List.mem_append_right first hmem'), hd⟩, ?_⟩
      intro more
      rw [hstep more (.of_mem hd hmem' more), hall]
    · refine .inr ⟨hrest, fun d more rest'' hd hskip' hrest'' => ?_⟩
      rw [hstep _ (.of_breaksEscape hd more), hall d more rest'' hd hskip' hrest'']

/-- A quoted name is followed by the next character that is not passed over. -/
theorem scanKey_of_skipSeparators {behind : List Char} {next : Char}
    (hquoted : scanQuoted ('"' :: text) [] text = .ok (chars, behind))
    (hskip : skipSeparators behind = next :: rest) : scanKey ('"' :: text) =
      if next = ':' ∨ next = '=' then .ok (String.ofList chars, rest)
      else if next = '{' ∨ next = '[' then .ok (String.ofList chars, next :: rest)
      else .error (.here (.separatorAfterQuoted (String.ofList chars) (some next))
        (next :: rest)) := by
  rw [scanKey, if_pos rfl]
  simp only [hquoted, hskip]

/-- A quoted name takes the text up to its separator, or else up to an open bracket. -/
theorem exists_front_of_scanKey_quoted {name : String}
    (h : scanKey ('"' :: text) = .ok (name, rest)) : ∃ front, '"' :: text = front ++ rest ∧
      ((∀ more, scanKey (front ++ more) = .ok (name, more)) ∨
        EndsAtBracket scanKey name front rest) := by
  cases hquoted : scanQuoted ('"' :: text) [] text with
  | error fault => exact absurd h (by simp [scanKey, hquoted])
  | ok result =>
  obtain ⟨chars, behind⟩ := result
  cases hskip : skipSeparators behind with
  | nil => exact absurd h (by simp [scanKey, hquoted, hskip])
  | cons next rest' =>
  rw [scanKey_of_skipSeparators hquoted hskip] at h
  obtain ⟨inside, rfl, hinside⟩ := exists_front_of_scanQuoted hquoted
  obtain ⟨second, rfl, hsecond⟩ := exists_front_of_skipSeparators hskip
  split at h
  next hseparator =>
    obtain ⟨rfl, rfl⟩ := Prod.mk.inj (Except.ok.inj h)
    refine ⟨'"' :: (inside ++ '"' :: (second ++ [next])), by simp, .inl fun more => ?_⟩
    have hnext : skipSeparators (second ++ next :: more) = next :: more := by
      rw [hsecond, skipSeparators_of_isStart (isStart_of_skipSeparators hskip)]
    simpa [hseparator] using scanKey_of_skipSeparators (hinside _ _) hnext
  next hseparator =>
    split at h
    next hbracket =>
      obtain ⟨rfl, rfl⟩ := Prod.mk.inj (Except.ok.inj h)
      refine ⟨'"' :: (inside ++ '"' :: second), by simp, .inr ⟨⟨next, rest', rfl, hbracket⟩, ?_⟩⟩
      rintro c more _ - hmore ⟨bracket, tail, rfl, hbracket'⟩
      have hnot : ¬ (bracket = ':' ∨ bracket = '=') := by
        rcases hbracket' with rfl | rfl <;> decide
      simpa [hbracket', hnot] using
        scanKey_of_skipSeparators (hinside _ _) ((hsecond _).trans hmore)
    next => exact absurd h (by simp)

/-- A name is followed by its separator, or else by an open bracket. -/
theorem exists_front_of_scanKey {name : String} (h : scanKey text = .ok (name, rest)) :
    ∃ front, text = front ++ rest ∧ ((∀ more, scanKey (front ++ more) = .ok (name, more)) ∨
      EndsAtBracket scanKey name front rest) := by
  cases text with
  | nil => exact absurd h (by simp [scanKey])
  | cons first tail =>
    by_cases hfirst : first = '"'
    · subst hfirst
      exact exists_front_of_scanKey_quoted h
    · rw [scanKey, if_neg hfirst] at h
      obtain ⟨chars, behind, hscan, heq⟩ := exists_scan_of_map_eq_ok h
      obtain ⟨rfl, rfl⟩ := Prod.mk.inj heq
      obtain ⟨front, rfl, ⟨-, hall⟩ | ⟨hrest, hall⟩⟩ := exists_front_of_scanName hscan
      · refine ⟨first :: front, rfl, .inl fun more => ?_⟩
        rw [List.cons_append, scanKey, if_neg hfirst, hall]
        rfl
      · refine ⟨first :: front, rfl, .inr ⟨hrest, fun c more rest' hc hmore hrest' => ?_⟩⟩
        rw [List.cons_append, scanKey, if_neg hfirst, hall c more rest' hc hmore hrest']
        rfl

/-! ### Values -/

/-- An unquoted value ends where the rest ends it, or other text in its place. -/
theorem exists_front_of_splitUnquoted (h : splitUnquoted text = (chars, rest)) (hne : text ≠ []) :
    text = chars ++ rest ∧ chars ≠ [] ∧ EndsUnquoted rest ∧
      ∀ more, EndsUnquoted more → splitUnquoted (chars ++ more) = (chars, more) := by
  obtain ⟨first, tail, rfl⟩ := List.exists_cons_of_ne_nil hne
  obtain ⟨rfl, rfl⟩ := Prod.mk.inj h
  refine ⟨by simp, by simp, ?_, fun more hmore => ?_⟩
  · intro c more hcons
    have hhead := List.head?_dropWhile_not (fun c => !endsUnquoted c) tail
    rw [hcons] at hhead
    simpa using hhead
  · have hall : ∀ c ∈ tail.takeWhile (!endsUnquoted ·), (!endsUnquoted c) = true := by
      intro c hc
      simpa using List.mem_takeWhile_imp hc
    rw [List.cons_append, splitUnquoted, List.takeWhile_append_of_pos hall,
      List.dropWhile_append_of_pos hall]
    cases more with
    | nil => simp
    | cons c more => simp [hmore c more rfl]

/-- A scalar ends at its closing quote, or else where the rest ends it. In front of other text it is
read as the same scalar, and not as a null. -/
theorem exists_front_of_scanValue {scalar : Scalar} (hne : text ≠ [])
    (h : Parser.scanValue text = .ok (scalar, rest))
    (hnull : Text.trimChars (splitUnquoted text).1 ≠ ['n', 'u', 'l', 'l']) :
    ∃ front, text = front ++ rest ∧ front ≠ [] ∧ ∀ more, (EndsUnquoted rest → EndsUnquoted more) →
      Parser.scanValue (front ++ more) = .ok (scalar, more) ∧
        Text.trimChars (splitUnquoted (front ++ more)).1 ≠ ['n', 'u', 'l', 'l'] := by
  unfold Parser.scanValue at h
  split at h
  next tail =>
    obtain ⟨chars, behind, hquoted, heq⟩ := exists_scan_of_map_eq_ok h
    obtain ⟨rfl, rfl⟩ := Prod.mk.inj heq
    obtain ⟨inside, rfl, hinside⟩ := exists_front_of_scanQuoted hquoted
    refine ⟨'"' :: (inside ++ ['"']), by simp, by simp, fun more _ => ⟨?_, ?_⟩⟩
    · simp [Parser.scanValue, hinside, Except.map]
    -- a quote stands in front, so the text does not read as a null
    · rw [List.cons_append, splitUnquoted, trimChars_cons (by decide)]
      simp
  next hquote =>
    obtain ⟨rfl, rfl⟩ := Prod.mk.inj (Except.ok.inj h)
    obtain ⟨htext, hchars, hends, hall⟩ := exists_front_of_splitUnquoted rfl hne
    refine ⟨_, htext, hchars, fun more hmore => ?_⟩
    have hsplit := hall more (hmore hends)
    refine ⟨?_, by rwa [hsplit]⟩
    unfold Parser.scanValue
    split
    next tail heq =>
      obtain ⟨first, front, hcons⟩ := List.exists_cons_of_ne_nil hchars
      rw [hcons] at heq htext
      obtain ⟨rfl, -⟩ := List.cons.inj heq
      exact absurd htext (hquote _)
    next => simp only [hsplit]

end LayeredConfig.Document
