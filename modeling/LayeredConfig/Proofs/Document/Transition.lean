import LayeredConfig.Proofs.Document.Steps

/-!
# What a call of the document parser does

`Transition p item p'` says in full what a successful call of the parser can do: which text stands
ahead behind the separators, what the brackets around must be like, which event comes at which path,
and where the parser stands afterwards. `Failure p error p'` says the same of a call that fails.
Facts about runs of the parser follow their cases.

* `transition_of_next`: every successful call is one of these transitions.
* `failure_of_next`: every other call is one of these failures.
* `next_of_transition`: every transition is what the call does.
* `drains_iff`: a document is drained without an error exactly if its parser runs up to the end.
-/

namespace LayeredConfig.Document

namespace Parser

/-- The characters that are brackets wherever something starts. -/
def brackets : List Char := ['{', '}', '[', ']']

/-- A successful call of the parser: the event that comes and the parser after it. -/
inductive Transition (p : Parser) : Located → Parser → Prop
  /-- An opening brace starts an object. -/
  | objectStart {rest : List Char} (hahead : skipSeparators p.rest = '{' :: rest) :
      Transition p ⟨.objectStart, p.beginElement.path⟩
        ⟨p.text, rest, .object none, p.frame.beginElement :: p.enclosing, false⟩
  /-- An opening bracket starts a list. -/
  | listStart {rest : List Char} (hahead : skipSeparators p.rest = '[' :: rest) :
      Transition p ⟨.listStart, p.beginElement.path⟩
        ⟨p.text, rest, .list 0, p.frame.beginElement :: p.enclosing, false⟩
  /-- A closing brace ends the object that it stands in. -/
  | objectEnd {rest : List Char} {key : Option String} {outer : Frame} {enclosing : List Frame}
      (hahead : skipSeparators p.rest = '}' :: rest) (hframe : p.frame = .object key)
      (henclosing : p.enclosing = outer :: enclosing) :
      Transition p ⟨.objectEnd, framePath p.enclosing⟩ ⟨p.text, rest, outer, enclosing, false⟩
  /-- A closing bracket ends the list that it stands in. -/
  | listEnd {rest : List Char} {begun : Nat} {outer : Frame} {enclosing : List Frame}
      (hahead : skipSeparators p.rest = ']' :: rest) (hframe : p.frame = .list begun)
      (henclosing : p.enclosing = outer :: enclosing) :
      Transition p ⟨.listEnd, framePath p.enclosing⟩ ⟨p.text, rest, outer, enclosing, false⟩
  /-- In an object, and not behind a name, a name comes. -/
  | key {c : Char} {more rest : List Char} {name : String} {last : Option String}
      (hahead : skipSeparators p.rest = c :: more) (hc : c ∉ brackets)
      (hframe : p.frame = .object last) (hafter : p.afterKey = false)
      (hscan : scanKey (c :: more) = .ok (name, rest)) :
      Transition p ⟨.key name, Path.join (framePath p.enclosing) name⟩
        { p with rest, frame := .object (some name), afterKey := true }
  /-- Behind a name or in a list, a scalar comes. -/
  | value {c : Char} {more rest : List Char} {scalar : Scalar}
      (hahead : skipSeparators p.rest = c :: more) (hc : c ∉ brackets) (hexpects : p.ExpectsValue)
      (hnull : Text.trimChars (splitUnquoted (c :: more)).1 ≠ ['n', 'u', 'l', 'l'])
      (hscan : scanValue (c :: more) = .ok (scalar, rest)) :
      Transition p ⟨.value scalar, p.beginElement.path⟩ (p.behind rest)
  /-- In the same places, an unquoted `null` is a null. -/
  | null {c : Char} {more : List Char} (hahead : skipSeparators p.rest = c :: more)
      (hc : c ∉ brackets) (hexpects : p.ExpectsValue)
      (hnull : Text.trimChars (splitUnquoted (c :: more)).1 = ['n', 'u', 'l', 'l']) :
      Transition p ⟨.null, p.beginElement.path⟩ (p.behind (splitUnquoted (c :: more)).2)
  /-- The document ends behind all brackets. -/
  | endOfStream (hahead : skipSeparators p.rest = []) (henclosing : p.enclosing = []) :
      Transition p ⟨.endOfStream, ""⟩ p.skip

variable {p p' : Parser} {item : Located}

/-! ### By the text ahead -/

/-- A closing bracket of either kind closes a bracket of that kind. -/
theorem eq_of_closeBracket {event : Event} {bracket : Char} {closesList : Bool}
    (h : p.closeBracket event bracket closesList = (.ok item, p')) :
    ∃ outer enclosing, p.enclosing = outer :: enclosing ∧ p.frame.isList = closesList ∧
      item = ⟨event, framePath p.enclosing⟩ ∧
      p' = ⟨p.text, p.rest.drop 1, outer, enclosing, false⟩ := by
  unfold closeBracket at h
  split at h
  next => exact absurd (congrArg Prod.fst h) (by simp)
  next outer enclosing henclosing =>
    split at h
    next hlist =>
      obtain ⟨hitem, hp'⟩ := Prod.mk.inj h
      refine ⟨outer, enclosing, henclosing, hlist.symm, ?_, hp'.symm⟩
      rw [henclosing, ← Except.ok.inj hitem]
      rfl
    next => exact absurd (congrArg Prod.fst h) (by simp)

/-- At the end of the text only the end of the document can come. -/
theorem transition_of_nil (hahead : skipSeparators p.rest = [])
    (h : p.next = (.ok item, p')) : Transition p item p' := by
  have hupcoming : p.skip.upcoming = .endOfStream := by simp only [skip, upcoming, hahead]
  rw [next, step, hupcoming] at h
  simp only [readEnd] at h
  split at h
  next henclosing =>
    obtain ⟨hitem, rfl⟩ := Prod.mk.inj h
    obtain rfl := Except.ok.inj hitem
    exact .endOfStream hahead henclosing
  next => exact absurd (congrArg Prod.fst h) (by simp)

/-- In front of a bracket this bracket is opened or closed. -/
theorem transition_of_mem_brackets {c : Char} {more : List Char}
    (hahead : skipSeparators p.rest = c :: more) (hc : c ∈ brackets)
    (h : p.next = (.ok item, p')) : Transition p item p' := by
  simp only [brackets, List.mem_cons, List.not_mem_nil, or_false] at hc
  -- opening never fails, and closing needs a bracket of the same kind around
  rcases hc with rfl | rfl | rfl | rfl
  · obtain ⟨hitem, rfl⟩ := Prod.mk.inj ((next_openBrace hahead).symm.trans h)
    obtain rfl := Except.ok.inj hitem
    exact .objectStart hahead
  · have hupcoming : p.skip.upcoming = .objectEnd := by simp only [skip, upcoming, hahead]
    rw [next, step, hupcoming] at h
    obtain ⟨outer, enclosing, henclosing, hframe, rfl, rfl⟩ := eq_of_closeBracket h
    simp only [skip, hahead, List.drop_one, List.tail_cons] at henclosing hframe ⊢
    cases hkind : p.frame with
    | list begun => simp [hkind, Frame.isList] at hframe
    | object key => exact .objectEnd hahead hkind henclosing
  · obtain ⟨hitem, rfl⟩ := Prod.mk.inj ((next_openBracket hahead).symm.trans h)
    obtain rfl := Except.ok.inj hitem
    exact .listStart hahead
  · have hupcoming : p.skip.upcoming = .listEnd := by simp only [skip, upcoming, hahead]
    rw [next, step, hupcoming] at h
    obtain ⟨outer, enclosing, henclosing, hframe, rfl, rfl⟩ := eq_of_closeBracket h
    simp only [skip, hahead, List.drop_one, List.tail_cons] at henclosing hframe ⊢
    cases hkind : p.frame with
    | list begun => exact .listEnd hahead hkind henclosing
    | object key => simp [hkind, Frame.isList] at hframe

/-- In front of anything else, where a value is expected, a scalar or a null comes. -/
theorem transition_of_expectsValue {c : Char} {more : List Char}
    (hahead : skipSeparators p.rest = c :: more) (hc : c ∉ brackets) (hexpects : p.ExpectsValue)
    (h : p.next = (.ok item, p')) : Transition p item p' := by
  have hupcoming := upcoming_of_expectsValue (p := p.skip) hexpects hahead hc
  have hrest : p.skip.rest = c :: more := hahead
  rw [hrest] at hupcoming
  by_cases hnull : Text.trimChars (splitUnquoted (c :: more)).1 = ['n', 'u', 'l', 'l']
  · rw [next, step, hupcoming, if_pos hnull] at h
    simp only [readNull, beginElement, skip, hahead] at h
    obtain ⟨hitem, rfl⟩ := Prod.mk.inj h
    obtain rfl := Except.ok.inj hitem
    exact .null hahead hc hexpects hnull
  -- a text that is no null is scanned, and the call fails if the scan does
  · cases hscan : scanValue (c :: more) with
    | error fault =>
      rw [next, step, hupcoming, if_neg hnull] at h
      simp only [readValue, beginElement, skip, hahead, hscan] at h
      exact absurd (congrArg Prod.fst h) (by simp)
    | ok result =>
      obtain ⟨scalar, rest⟩ := result
      obtain ⟨hitem, rfl⟩ :=
        Prod.mk.inj ((next_value hexpects hahead hc hnull hscan).symm.trans h)
      obtain rfl := Except.ok.inj hitem
      exact .value hahead hc hexpects hnull hscan

/-- No value is expected outside a list, unless the last token was a name. -/
theorem not_expectsValue_iff :
    ¬ p.ExpectsValue ↔ p.afterKey = false ∧ p.frame.isList = false := by
  simp [ExpectsValue]

/-- In front of anything else, where no value is expected, the next token is a name. -/
theorem upcoming_of_not_expectsValue {c : Char} {more : List Char}
    (hahead : skipSeparators p.rest = c :: more) (hc : c ∉ brackets)
    (hexpects : ¬ p.ExpectsValue) : p.skip.upcoming = .key := by
  obtain ⟨hafter, hlist⟩ := not_expectsValue_iff.1 hexpects
  simp only [brackets, List.mem_cons, List.not_mem_nil, or_false, not_or] at hc
  obtain ⟨hopenBrace, hcloseBrace, hopen, hclose⟩ := hc
  simp only [upcoming, skip, hahead, hafter, hlist]
  split <;> simp_all

/-- In front of anything else, where no value is expected, a name comes. -/
theorem transition_of_not_expectsValue {c : Char} {more : List Char}
    (hahead : skipSeparators p.rest = c :: more) (hc : c ∉ brackets) (hexpects : ¬ p.ExpectsValue)
    (h : p.next = (.ok item, p')) : Transition p item p' := by
  obtain ⟨hafter, hlist⟩ := not_expectsValue_iff.1 hexpects
  -- outside a list, not behind a name and in front of no bracket only a name can come
  rw [next, step, upcoming_of_not_expectsValue hahead hc hexpects] at h
  simp only [readKey, skip, hahead] at h
  split at h
  next => exact absurd (congrArg Prod.fst h) (by simp)
  next name rest hscan =>
    obtain ⟨hitem, rfl⟩ := Prod.mk.inj h
    obtain rfl := Except.ok.inj hitem
    cases hframe : p.frame with
    | list begun => simp [hframe, Frame.isList] at hlist
    | object last => exact .key hahead hc hframe hafter hscan

/-- Every successful call is one of the transitions. -/
theorem transition_of_next (h : p.next = (.ok item, p')) : Transition p item p' := by
  -- brackets and the end of the text are seen first, whatever the parser expects
  cases hahead : skipSeparators p.rest with
  | nil => exact transition_of_nil hahead h
  | cons c more =>
    by_cases hc : c ∈ brackets
    · exact transition_of_mem_brackets hahead hc h
    · by_cases hexpects : p.ExpectsValue
      · exact transition_of_expectsValue hahead hc hexpects h
      · exact transition_of_not_expectsValue hahead hc hexpects h

/-- Every transition is what the call does. -/
theorem next_of_transition (transition : Transition p item p') : p.next = (.ok item, p') := by
  cases transition with
  | objectStart hahead => exact next_openBrace hahead
  | listStart hahead => exact next_openBracket hahead
  | objectEnd hahead hframe henclosing => exact next_closeBrace hahead hframe henclosing
  | listEnd hahead hframe henclosing => exact next_closeBracket hahead hframe henclosing
  | key hahead hc hframe hafter hscan =>
    have hlist : p.frame.isList = false := by rw [hframe]; rfl
    have hexpects : ¬ p.ExpectsValue := not_expectsValue_iff.2 ⟨hafter, hlist⟩
    rw [next, step, upcoming_of_not_expectsValue hahead hc hexpects]
    simp only [readKey, skip, hahead, hscan, hframe, Frame.beginEntry]
    rfl
  | value hahead hc hexpects hnull hscan => exact next_value hexpects hahead hc hnull hscan
  | null hahead hc hexpects hnull =>
    have hupcoming := upcoming_of_expectsValue (p := p.skip) hexpects hahead hc
    rw [show p.skip.rest = _ from hahead, if_pos hnull] at hupcoming
    rw [next, step, hupcoming]
    simp only [readNull, beginElement, skip, hahead]
    rfl
  | endOfStream hahead henclosing => exact next_end hahead henclosing

/-! ### Calls that fail -/

/-- A failed call of the parser: the error and the parser after it. -/
inductive Failure (p : Parser) : Error → Parser → Prop
  /-- Nothing is open that a closing bracket could close. -/
  | unopened {c : Char} {more : List Char} (hahead : skipSeparators p.rest = c :: more)
      (hc : c = '}' ∨ c = ']') (henclosing : p.enclosing = []) :
      Failure p (p.error (.unopened c) (c :: more)) p.skip
  /-- A closing bracket is of the other kind than the innermost open one. -/
  | mismatched {c : Char} {more : List Char} (hahead : skipSeparators p.rest = c :: more)
      (hc : c = '}' ∧ p.frame.isList = true ∨ c = ']' ∧ p.frame.isList = false)
      (henclosing : p.enclosing ≠ []) :
      Failure p (p.error (.mismatched c) (c :: more)) p.skip
  /-- In an object, and not behind a name, no name can be scanned. -/
  | key {c : Char} {more : List Char} {fault : ScanFault}
      (hahead : skipSeparators p.rest = c :: more) (hc : c ∉ brackets)
      (hexpects : ¬ p.ExpectsValue) (hscan : scanKey (c :: more) = .error fault) :
      Failure p (p.error fault.flaw fault.place) { p with rest := fault.rest }
  /-- Behind a name or in a list, no scalar can be scanned. An element of the list has begun. -/
  | value {c : Char} {more : List Char} {fault : ScanFault}
      (hahead : skipSeparators p.rest = c :: more) (hc : c ∉ brackets) (hexpects : p.ExpectsValue)
      (hnull : Text.trimChars (splitUnquoted (c :: more)).1 ≠ ['n', 'u', 'l', 'l'])
      (hscan : scanValue (c :: more) = .error fault) :
      Failure p ((p.error fault.flaw fault.place).withPath p.beginElement.path)
        { p.beginElement with rest := fault.rest }
  /-- The document ends inside brackets. -/
  | unclosed (hahead : skipSeparators p.rest = []) (henclosing : p.enclosing ≠ []) :
      Failure p (p.error (.unclosed p.depth) []) p.skip

variable {error : Error}

/-- A bracket of either kind cannot be closed without an open one of the same kind. -/
theorem eq_of_closeBracket_error {event : Event} {bracket : Char} {closesList : Bool}
    (h : p.closeBracket event bracket closesList = (.error error, p')) : p' = p ∧
      (p.enclosing = [] ∧ error = p.error (.unopened bracket) p.rest ∨
        p.enclosing ≠ [] ∧ closesList ≠ p.frame.isList ∧
          error = p.error (.mismatched bracket) p.rest) := by
  unfold closeBracket at h
  split at h
  next henclosing =>
    obtain ⟨herror, hp'⟩ := Prod.mk.inj h
    exact ⟨hp'.symm, .inl ⟨henclosing, (Except.error.inj herror).symm⟩⟩
  next outer enclosing henclosing =>
    split at h
    next => exact absurd (congrArg Prod.fst h) (by simp)
    next hkind =>
      obtain ⟨herror, hp'⟩ := Prod.mk.inj h
      exact ⟨hp'.symm, .inr ⟨by simp [henclosing], hkind, (Except.error.inj herror).symm⟩⟩

/-- At the end of the text only an open bracket can be wrong. -/
theorem failure_of_nil (hahead : skipSeparators p.rest = [])
    (h : p.next = (.error error, p')) : Failure p error p' := by
  have hupcoming : p.skip.upcoming = .endOfStream := by simp only [skip, upcoming, hahead]
  rw [next, step, hupcoming] at h
  simp only [readEnd, show p.skip.rest = [] from hahead] at h
  split at h
  next => exact absurd (congrArg Prod.fst h) (by simp)
  next henclosing =>
    obtain ⟨herror, rfl⟩ := Prod.mk.inj h
    obtain rfl := Except.error.inj herror
    exact .unclosed hahead henclosing

/-- A closing bracket ahead is taken to close a bracket of its own kind. -/
theorem exists_next_eq_closeBracket {c : Char} {more : List Char}
    (hahead : skipSeparators p.rest = c :: more) (hc : c = '}' ∨ c = ']') :
    ∃ event closesList, p.next = p.skip.closeBracket event c closesList ∧
      (c = '}' ∧ closesList = false ∨ c = ']' ∧ closesList = true) := by
  rcases hc with rfl | rfl
  · have hupcoming : p.skip.upcoming = .objectEnd := by simp only [skip, upcoming, hahead]
    exact ⟨.objectEnd, false, by rw [next, step, hupcoming], .inl ⟨rfl, rfl⟩⟩
  · have hupcoming : p.skip.upcoming = .listEnd := by simp only [skip, upcoming, hahead]
    exact ⟨.listEnd, true, by rw [next, step, hupcoming], .inr ⟨rfl, rfl⟩⟩

/-- A closing bracket ahead is wrong without an open one, and with one of the other kind. -/
theorem failure_of_closer {c : Char} {more : List Char}
    (hahead : skipSeparators p.rest = c :: more) (hc : c = '}' ∨ c = ']')
    (h : p.next = (.error error, p')) : Failure p error p' := by
  have hrest : p.skip.rest = c :: more := hahead
  obtain ⟨event, closesList, hnext, hcloses⟩ := exists_next_eq_closeBracket hahead hc
  rw [hnext] at h
  obtain ⟨rfl, ⟨henclosing, rfl⟩ | ⟨henclosing, hkind, rfl⟩⟩ := eq_of_closeBracket_error h
  · rw [hrest]
    exact .unopened hahead hc henclosing
  · rw [hrest]
    refine .mismatched hahead ?_ henclosing
    rcases hcloses with ⟨hc, rfl⟩ | ⟨hc, rfl⟩
    · exact .inl ⟨hc, (Bool.not_eq_false _).mp hkind.symm⟩
    · exact .inr ⟨hc, (Bool.not_eq_true _).mp hkind.symm⟩

/-- In front of a bracket only one that closes can be wrong. -/
theorem failure_of_mem_brackets {c : Char} {more : List Char}
    (hahead : skipSeparators p.rest = c :: more) (hc : c ∈ brackets)
    (h : p.next = (.error error, p')) : Failure p error p' := by
  simp only [brackets, List.mem_cons, List.not_mem_nil, or_false] at hc
  rcases hc with rfl | rfl | rfl | rfl
  · exact absurd ((next_openBrace hahead).symm.trans h) (by simp)
  · exact failure_of_closer hahead (.inl rfl) h
  · exact absurd ((next_openBracket hahead).symm.trans h) (by simp)
  · exact failure_of_closer hahead (.inr rfl) h

/-- In front of anything else, where a value is expected, a scalar can be wrong, but no null. -/
theorem failure_of_expectsValue {c : Char} {more : List Char}
    (hahead : skipSeparators p.rest = c :: more) (hc : c ∉ brackets) (hexpects : p.ExpectsValue)
    (h : p.next = (.error error, p')) : Failure p error p' := by
  have hrest : p.skip.rest = c :: more := hahead
  have hupcoming := upcoming_of_expectsValue (p := p.skip) hexpects hrest hc
  rw [hrest] at hupcoming
  by_cases hnull : Text.trimChars (splitUnquoted (c :: more)).1 = ['n', 'u', 'l', 'l']
  · rw [next, step, hupcoming, if_pos hnull] at h
    exact absurd (congrArg Prod.fst h) (by simp [readNull])
  · rw [next, step, hupcoming, if_neg hnull] at h
    simp only [readValue, beginElement, hrest] at h
    split at h
    next fault hscan =>
      obtain ⟨herror, rfl⟩ := Prod.mk.inj h
      obtain rfl := Except.error.inj herror
      exact .value hahead hc hexpects hnull hscan
    next => exact absurd (congrArg Prod.fst h) (by simp)

/-- In front of anything else, where no value is expected, a name can be wrong. -/
theorem failure_of_not_expectsValue {c : Char} {more : List Char}
    (hahead : skipSeparators p.rest = c :: more) (hc : c ∉ brackets) (hexpects : ¬ p.ExpectsValue)
    (h : p.next = (.error error, p')) : Failure p error p' := by
  rw [next, step, upcoming_of_not_expectsValue hahead hc hexpects] at h
  simp only [readKey, show p.skip.rest = c :: more from hahead] at h
  split at h
  next fault hscan =>
    obtain ⟨herror, rfl⟩ := Prod.mk.inj h
    obtain rfl := Except.error.inj herror
    exact .key hahead hc hexpects hscan
  next => exact absurd (congrArg Prod.fst h) (by simp)

/-- Every failed call is one of the failures. -/
theorem failure_of_next (h : p.next = (.error error, p')) : Failure p error p' := by
  cases hahead : skipSeparators p.rest with
  | nil => exact failure_of_nil hahead h
  | cons c more =>
    by_cases hc : c ∈ brackets
    · exact failure_of_mem_brackets hahead hc h
    · by_cases hexpects : p.ExpectsValue
      · exact failure_of_expectsValue hahead hc hexpects h
      · exact failure_of_not_expectsValue hahead hc hexpects h

end Parser

/-! ### Whole documents -/

/-- Draining the document meets no error and lists the events. -/
def Drains (text : String) (items : List Located) : Prop :=
  (TokenStream.drain (Parser.reader text)).1 = items.map fun item => .ok (.ofLocated item)

/-- A document is drained without an error exactly if its parser runs up to the end. -/
theorem drains_iff {text : String} {items : List Located} :
    Drains text items ↔ ∃ front p, items = front ++ [⟨.endOfStream, ""⟩] ∧
      (∀ item ∈ front, item.event ≠ .endOfStream) ∧ Run Parser.next (.ofText text) items p := by
  rw [Drains, Parser.reader, TokenStream.drain_eq_iff]
  constructor
  · rintro ⟨front, path, p, rfl, hfront, run⟩
    obtain ⟨q, -, last⟩ := run.of_append
    cases last with
    | cons hend _ =>
      -- the document as a whole has the empty path
      cases Parser.transition_of_next hend with
      | endOfStream => exact ⟨front, p, rfl, hfront, run⟩
  · rintro ⟨front, p, rfl, hfront, run⟩
    exact ⟨front, "", p, rfl, hfront, run⟩

/-- Every event of a drained document comes with a call behind the events before it. -/
theorem Drains.exists_transition {text : String} {earlier later : List Located} {item : Located}
    (h : Drains text (earlier ++ item :: later)) :
    ∃ p p', Run Parser.next (.ofText text) earlier p ∧ Parser.Transition p item p' := by
  obtain ⟨-, last, -, -, run⟩ := drains_iff.1 h
  obtain ⟨p, first, second⟩ := run.of_append
  cases second with
  | cons head _ => exact ⟨p, _, first, Parser.transition_of_next head⟩

end LayeredConfig.Document
