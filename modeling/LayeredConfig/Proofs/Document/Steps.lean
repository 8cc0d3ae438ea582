import LayeredConfig.Proofs.Document.Scan
import LayeredConfig.Proofs.Reading.Spelling

/-!
# The steps of the document parser

What one call of the parser gives, by the text behind the separators ahead. Each equation says which
event comes, at which path, and where the parser stands afterwards.

Looking ahead only passes over separators, so the parser can be looked into (`LawfulPeek`).
-/

namespace LayeredConfig.Document

open Json (stringChars scalarChars)

/-- Behind the separators the text ends, or something starts. -/
theorem skipFrom_eq_nil_or_isStart (inComment : Bool) (text : List Char) :
    skipFrom inComment text = [] ∨ ∃ c rest, skipFrom inComment text = c :: rest ∧ IsStart c := by
  induction text generalizing inComment with
  | nil => exact .inl rfl
  | cons c rest ih =>
    unfold skipFrom
    split
    next => exact ih _
    split
    next => exact ih _
    next hcomment =>
    split
    next => exact ih _
    next hseparator => exact .inr ⟨c, rest, rfl, hcomment, hseparator⟩

/-- Separators are passed over all at once. -/
@[simp]
theorem skipSeparators_skipSeparators (text : List Char) :
    skipSeparators (skipSeparators text) = skipSeparators text := by
  rcases skipFrom_eq_nil_or_isStart false text with hnil | ⟨c, rest, hcons, hstart⟩
  · rw [show skipSeparators text = [] from hnil]
    rfl
  · rw [show skipSeparators text = c :: rest from hcons, skipSeparators_of_isStart hstart]

namespace Parser

variable {p : Parser} {rest : List Char}

/-! ### Looking ahead -/

theorem skip_skip (p : Parser) : p.skip.skip = p.skip := by
  simp only [skip, skipSeparators_skipSeparators]

theorem next_skip (p : Parser) : p.skip.next = p.next := by
  rw [next, next, skip_skip]

/-- A closing bracket only gives the event that it is taken for. -/
theorem event_closeBracket {event : Event} {bracket : Char} {closesList : Bool} {item : Located}
    (h : (p.closeBracket event bracket closesList).1 = .ok item) : item.event = event := by
  unfold closeBracket at h
  split at h
  · exact absurd h (by simp)
  · split at h
    · rw [← Except.ok.inj h]
    · exact absurd h (by simp)

/-- The event that comes is the one that the text ahead promises. -/
theorem token_step {item : Located} (h : p.step.1 = .ok item) : item.event.token = p.upcoming := by
  unfold step at h
  split at h
  next heq => rw [heq, ← Except.ok.inj h]; rfl
  next heq => rw [heq, ← Except.ok.inj h]; rfl
  next heq => rw [heq, event_closeBracket h]; rfl
  next heq => rw [heq, event_closeBracket h]; rfl
  next heq =>
    rw [heq]
    unfold readKey at h
    split at h
    · exact absurd h (by simp)
    · rw [← Except.ok.inj h]; rfl
  next heq =>
    rw [heq]
    unfold readValue at h
    dsimp only at h
    split at h
    · exact absurd h (by simp)
    · rw [← Except.ok.inj h]; rfl
  next heq => rw [heq, ← Except.ok.inj h]; rfl
  next heq =>
    rw [heq]
    -- the end is given behind all brackets only
    unfold readEnd at h
    split at h
    · rw [← Except.ok.inj h]; rfl
    · exact absurd h (by simp)

instance : LawfulPeek Parser where
  peek_of_next {p p' item} h := by
    have htoken : item.event.token = p.skip.upcoming := token_step (congrArg Prod.fst h)
    refine ⟨p.skip, ?_, (next_skip p).trans h⟩
    rw [htoken]
    rfl
  peek_of_next_error {p p' error} h :=
    .inr ⟨p.skip.upcoming, p.skip, p', rfl, (next_skip p).trans h⟩

/-! ### Brackets -/

/-- The parser behind a value that ends in front of the text. -/
def behind (p : Parser) (rest : List Char) : Parser :=
  { p with rest, frame := p.frame.beginElement, afterKey := false }

/-- An opening brace starts an object. -/
theorem next_openBrace (h : skipSeparators p.rest = '{' :: rest) :
    p.next = (.ok ⟨.objectStart, p.beginElement.path⟩,
      ⟨p.text, rest, .object none, p.frame.beginElement :: p.enclosing, false⟩) := by
  have hupcoming : p.skip.upcoming = .objectStart := by simp only [skip, upcoming, h]
  rw [next, step, hupcoming]
  simp [openBracket, skip, beginElement, h, path]

/-- An opening bracket starts a list. -/
theorem next_openBracket (h : skipSeparators p.rest = '[' :: rest) :
    p.next = (.ok ⟨.listStart, p.beginElement.path⟩,
      ⟨p.text, rest, .list 0, p.frame.beginElement :: p.enclosing, false⟩) := by
  have hupcoming : p.skip.upcoming = .listStart := by simp only [skip, upcoming, h]
  rw [next, step, hupcoming]
  simp [openBracket, skip, beginElement, h, path]

/-- A closing brace ends the object that it stands in. -/
theorem next_closeBrace {key : Option String} {outer : Frame} {enclosing : List Frame}
    (h : skipSeparators p.rest = '}' :: rest) (hframe : p.frame = .object key)
    (henclosing : p.enclosing = outer :: enclosing) :
    p.next =
      (.ok ⟨.objectEnd, framePath p.enclosing⟩, ⟨p.text, rest, outer, enclosing, false⟩) := by
  have hupcoming : p.skip.upcoming = .objectEnd := by simp only [skip, upcoming, h]
  rw [next, step, hupcoming]
  simp [closeBracket, skip, henclosing, hframe, Frame.isList, h, path]

/-- A closing bracket ends the list that it stands in. -/
theorem next_closeBracket {begun : Nat} {outer : Frame} {enclosing : List Frame}
    (h : skipSeparators p.rest = ']' :: rest) (hframe : p.frame = .list begun)
    (henclosing : p.enclosing = outer :: enclosing) :
    p.next =
      (.ok ⟨.listEnd, framePath p.enclosing⟩, ⟨p.text, rest, outer, enclosing, false⟩) := by
  have hupcoming : p.skip.upcoming = .listEnd := by simp only [skip, upcoming, h]
  rw [next, step, hupcoming]
  simp [closeBracket, skip, henclosing, hframe, Frame.isList, h, path]

/-- A document ends behind all brackets. -/
theorem next_end (h : skipSeparators p.rest = []) (henclosing : p.enclosing = []) :
    p.next = (.ok ⟨.endOfStream, ""⟩, p.skip) := by
  have hupcoming : p.skip.upcoming = .endOfStream := by simp only [skip, upcoming, h]
  rw [next, step, hupcoming]
  simp [readEnd, skip, henclosing]

/-! ### Names and scalars -/

/-- A quoted name in an object is its next name. -/
theorem next_key {key : Option String} {name : String}
    (h : skipSeparators p.rest = stringChars name ++ ':' :: rest) (hframe : p.frame = .object key)
    (hafter : p.afterKey = false) :
    p.next = (.ok ⟨.key name, Path.join (framePath p.enclosing) name⟩,
      { p with rest, frame := .object (some name), afterKey := true }) := by
  have hscan := scanKey_stringChars name rest
  rw [stringChars_append] at h hscan
  have hupcoming : p.skip.upcoming = .key := by
    simp [skip, upcoming, h, hafter, hframe, Frame.isList]
  rw [next, step, hupcoming]
  simp only [readKey, skip, h, hscan, hframe, Frame.beginEntry]
  rfl

/-- The parser is in front of a value: behind a name, or in a list. -/
def ExpectsValue (p : Parser) : Prop := p.afterKey = true ∨ p.frame.isList = true

theorem upcoming_of_expectsValue (hp : p.ExpectsValue) {c : Char} (h : p.rest = c :: rest)
    (hc : c ∉ ['{', '}', '[', ']']) :
    p.upcoming = if Text.trimChars (splitUnquoted p.rest).1 = ['n', 'u', 'l', 'l'] then .null
      else .value := by
  -- no name comes behind a name or in a list
  have hkey : (!p.afterKey && !p.frame.isList) = false := by
    rcases hp with hafter | hlist
    · simp [hafter]
    · simp [hlist]
  simp only [List.mem_cons, List.not_mem_nil, or_false, not_or] at hc
  obtain ⟨hopenBrace, hcloseBrace, hopen, hclose⟩ := hc
  unfold upcoming
  split
  next hnil => exact absurd (hnil.symm.trans h) (by simp)
  next heq => exact absurd (List.cons.inj (heq.symm.trans h)).1.symm hopenBrace
  next heq => exact absurd (List.cons.inj (heq.symm.trans h)).1.symm hcloseBrace
  next heq => exact absurd (List.cons.inj (heq.symm.trans h)).1.symm hopen
  next heq => exact absurd (List.cons.inj (heq.symm.trans h)).1.symm hclose
  next => rw [hkey]; rfl

/-- The scalar that stands where a value is expected is that value. -/
theorem next_value (hp : p.ExpectsValue) {c : Char} {more : List Char} {scalar : Scalar}
    (h : skipSeparators p.rest = c :: more) (hc : c ∉ ['{', '}', '[', ']'])
    (hnull : Text.trimChars (splitUnquoted (c :: more)).1 ≠ ['n', 'u', 'l', 'l'])
    (hscan : scanValue (c :: more) = .ok (scalar, rest)) :
    p.next = (.ok ⟨.value scalar, p.beginElement.path⟩, p.behind rest) := by
  have hupcoming : p.skip.upcoming = .value := by
    rw [upcoming_of_expectsValue (p := p.skip) hp h hc]
    simp [skip, h, hnull]
  rw [next, step, hupcoming]
  simp only [readValue, beginElement, skip, h, hscan]
  rfl

/-- A written scalar is read back where a value is expected. -/
theorem next_scalarChars (hp : p.ExpectsValue) {leaf : Scalar} (hleaf : IsPlain leaf)
    (h : skipSeparators p.rest = scalarChars leaf ++ rest) (hrest : EndsUnquoted rest) :
    p.next = (.ok ⟨.value leaf, p.beginElement.path⟩, p.behind rest) := by
  -- truth values and integers are literals without quotes
  have hliteral : ∀ {chars : List Char}, IsLiteral chars leaf →
      skipSeparators p.rest = chars ++ rest →
      p.next = (.ok ⟨.value leaf, p.beginElement.path⟩, p.behind rest) := by
    intro chars hchars h
    have hscan := scanValue_literal hchars hrest
    have hsplit := splitUnquoted_append hchars.ne_nil
      (fun c hc => (hchars.isLiteralChar c hc).notEnd) hrest
    have htrim := trimChars_of_not_isBlank fun c hc => (hchars.isLiteralChar c hc).notBlank
    obtain ⟨c, more, rfl⟩ := List.exists_cons_of_ne_nil hchars.ne_nil
    have hc := hchars.isLiteralChar c (by simp)
    have hnull : Text.trimChars (splitUnquoted (c :: more ++ rest)).1 ≠ ['n', 'u', 'l', 'l'] := by
      rw [hsplit, htrim]
      exact hchars.ne_null
    refine next_value hp h ?_ hnull hscan
    have hend := hc.notEnd
    have hspecial := hc.notSpecial
    simp only [endsUnquoted, Bool.or_eq_false_iff, decide_eq_false_iff_not] at hend
    simp only [List.mem_cons, List.not_mem_nil, or_false, not_or] at hspecial ⊢
    tauto
  cases hleaf with
  | bool value => exact hliteral (isLiteral_bool value) h
  | integer value => exact hliteral (isLiteral_integer value) h
  | string text =>
    have hscan := scanValue_stringChars text rest
    change skipSeparators p.rest = stringChars text ++ rest at h
    rw [stringChars_append] at h hscan
    refine next_value hp h (by decide) ?_ hscan
    -- a quote stands in front, so the text does not read as a null
    rw [splitUnquoted, trimChars_cons (by decide)]
    simp

/-- A written null is read back where a value is expected. -/
theorem next_null (hp : p.ExpectsValue) (h : skipSeparators p.rest = ['n', 'u', 'l', 'l'] ++ rest)
    (hrest : EndsUnquoted rest) :
    p.next = (.ok ⟨.null, p.beginElement.path⟩, p.behind rest) := by
  have hsplit : splitUnquoted (['n', 'u', 'l', 'l'] ++ rest) = (['n', 'u', 'l', 'l'], rest) :=
    splitUnquoted_append (by simp) (by simp [endsUnquoted]) hrest
  have htrim : Text.trimChars ['n', 'u', 'l', 'l'] = ['n', 'u', 'l', 'l'] := by decide
  have hupcoming : p.skip.upcoming = .null := by
    rw [upcoming_of_expectsValue (p := p.skip) hp h (by decide)]
    simp only [skip, h, hsplit, htrim, ↓reduceIte]
  rw [next, step, hupcoming]
  simp only [readNull, beginElement, skip, h, hsplit]
  rfl

end Parser

end LayeredConfig.Document
