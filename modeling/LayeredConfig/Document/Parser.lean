import LayeredConfig.Document.Scan
import LayeredConfig.Path
import LayeredConfig.Scalar.Literal
import LayeredConfig.Token

/-!
# The document parser

A document is a list of entries `name: value` or `name = value`, or the same in braces, where a
value is an object in braces, a list in brackets, a quoted text or an unquoted literal. The parser
produces one event at a time and keeps the text that it has not read yet, the open brackets, and
whether it stands behind a name.

* `Parser.upcoming` tells the next token from the text ahead, `Parser.next` produces its event.
* `Parser.path` is the path of the current position, by the names and element numbers of the open
  brackets.
* A failed call leaves the parser where the failure arose; the next call goes on from there.
-/

namespace LayeredConfig.Document

/-- An open bracket, or the object that a document as a whole is. -/
inductive Frame where
  /-- An object and the last name read inside it. -/
  | object (key : Option String)
  /-- A list and the number of its elements begun so far. -/
  | list (begun : Nat)
  deriving DecidableEq, Repr

/-- The path of the current entry or element of a frame whose own path is `path`. -/
def Frame.extend (path : String) : Frame → String
  | object (some key) => Path.join path key
  | list (index + 1) => Path.join path (toString index)
  | _ => path

/-- The frame is a list. -/
def Frame.isList : Frame → Bool
  | list _ => true
  | object _ => false

/-- The frame at its next element, if it is a list. -/
def Frame.beginElement : Frame → Frame
  | list begun => list (begun + 1)
  | frame => frame

/-- The frame at the entry named `key`, if it is an object. -/
def Frame.beginEntry (key : String) : Frame → Frame
  | object _ => object (some key)
  | frame => frame

/-- The path of the current position in frames, innermost frame first. -/
def framePath : List Frame → String
  | [] => ""
  | frame :: enclosing => frame.extend (framePath enclosing)

/-- The state of a parser. -/
structure Parser where
  /-- The whole document. -/
  text : List Char
  /-- The part of the document that has not been read. -/
  rest : List Char
  /-- The innermost open bracket, or the document itself. -/
  frame : Frame
  /-- The brackets and the document around it, innermost first. -/
  enclosing : List Frame
  /-- The last token was a name, so a value is expected. -/
  afterKey : Bool
  deriving DecidableEq, Repr

namespace Parser

/-- The parser at the start of a document. -/
def ofText (text : String) : Parser :=
  ⟨text.toList, text.toList, .object none, [], false⟩

/-- The number of open brackets. -/
def depth (p : Parser) : Nat := p.enclosing.length

/-- The path of the current position. -/
def path (p : Parser) : String := framePath (p.frame :: p.enclosing)

/-- The line and the column, from one, of the end of a text. -/
def endOfText (read : List Char) : Nat × Nat :=
  (read.count '\n' + 1, (read.reverse.takeWhile (· ≠ '\n')).length + 1)

/-- The line and the column at which the unread text `place` starts. -/
def locate (p : Parser) (place : List Char) : Nat × Nat :=
  endOfText (p.text.take (p.text.length - place.length))

/-- The error for a flaw at the unread text `place`. -/
def error (p : Parser) (flaw : Flaw) (place : List Char) : Error :=
  .parseAt flaw.message (p.locate place).1 (p.locate place).2

/-- The parser past the separators ahead. -/
def skip (p : Parser) : Parser := { p with rest := skipSeparators p.rest }

/-- The next token, by the text ahead, once separators are skipped. A literal `null` in the place
of a name is a name. -/
def upcoming (p : Parser) : Token :=
  match p.rest with
  | [] => .endOfStream
  | '{' :: _ => .objectStart
  | '}' :: _ => .objectEnd
  | '[' :: _ => .listStart
  | ']' :: _ => .listEnd
  | _ :: _ =>
    if !p.afterKey && !p.frame.isList then .key
    else if Text.trimChars (splitUnquoted p.rest).1 = ['n', 'u', 'l', 'l'] then .null
    else .value

/-- The next token. -/
def peek (p : Parser) : Except Error Token × Parser :=
  (.ok p.skip.upcoming, p.skip)

/-- The parser at its next element, if it is inside a list. -/
def beginElement (p : Parser) : Parser := { p with frame := p.frame.beginElement }

/-- Open a bracket. -/
def openBracket (p : Parser) (event : Event) (inner : Frame) : Except Error Located × Parser :=
  let p := p.beginElement
  (.ok ⟨event, p.path⟩,
    { p with
      rest := p.rest.drop 1
      frame := inner
      enclosing := p.frame :: p.enclosing
      afterKey := false })

/-- Close a bracket. -/
def closeBracket (p : Parser) (event : Event) (bracket : Char) (closesList : Bool) :
    Except Error Located × Parser :=
  match p.enclosing with
  | [] => (.error (p.error (.unopened bracket) p.rest), p)
  | outer :: enclosing =>
    if closesList = p.frame.isList then
      let p := { p with rest := p.rest.drop 1, frame := outer, enclosing, afterKey := false }
      (.ok ⟨event, p.path⟩, p)
    else
      (.error (p.error (.mismatched bracket) p.rest), p)

/-- Read a name. -/
def readKey (p : Parser) : Except Error Located × Parser :=
  match scanKey p.rest with
  | .error fault => (.error (p.error fault.flaw fault.place), { p with rest := fault.rest })
  | .ok (name, rest) =>
    let p := { p with rest, frame := p.frame.beginEntry name, afterKey := true }
    (.ok ⟨.key name, p.path⟩, p)

/-- The scalar at the start of the text, and the text after it. -/
def scanValue (text : List Char) : Scan Scalar :=
  match text with
  | '"' :: rest =>
    (scanQuoted text [] rest).map fun (chars, rest) => (.string (String.ofList chars), rest)
  | _ =>
    let (chars, rest) := splitUnquoted text
    .ok (.ofLiteral (String.ofList (Text.trimChars chars)), rest)

/-- Read a scalar. An error carries the path of the scalar. -/
def readValue (p : Parser) : Except Error Located × Parser :=
  let p := p.beginElement
  match scanValue p.rest with
  | .error fault =>
    (.error ((p.error fault.flaw fault.place).withPath p.path), { p with rest := fault.rest })
  | .ok (scalar, rest) => (.ok ⟨.value scalar, p.path⟩, { p with rest, afterKey := false })

/-- Read a literal `null`. -/
def readNull (p : Parser) : Except Error Located × Parser :=
  let p := p.beginElement
  (.ok ⟨.null, p.path⟩, { p with rest := (splitUnquoted p.rest).2, afterKey := false })

/-- Read the end of the document. -/
def readEnd (p : Parser) : Except Error Located × Parser :=
  if p.enclosing = [] then
    (.ok ⟨.endOfStream, ""⟩, p)
  else
    (.error (p.error (.unclosed p.depth) p.rest), p)

/-- The event of the upcoming token, once separators are skipped. -/
def step (p : Parser) : Except Error Located × Parser :=
  match p.upcoming with
  | .objectStart => p.openBracket .objectStart (.object none)
  | .listStart => p.openBracket .listStart (.list 0)
  | .objectEnd => p.closeBracket .objectEnd '}' false
  | .listEnd => p.closeBracket .listEnd ']' true
  | .key => p.readKey
  | .value => p.readValue
  | .null => p.readNull
  | .endOfStream => p.readEnd

/-- The next event. -/
def next (p : Parser) : Except Error Located × Parser := p.skip.step

theorem upcoming_eq_endOfStream_iff (p : Parser) :
    p.upcoming = .endOfStream ↔ p.rest = [] := by
  unfold upcoming
  split
  · simp_all
  · simp_all
  · simp_all
  · simp_all
  · simp_all
  · split
    · simp_all
    · split <;> simp_all

theorem length_lt_of_scanValue {text rest : List Char} {scalar : Scalar} (hne : text ≠ [])
    (h : scanValue text = .ok (scalar, rest)) : rest.length < text.length := by
  unfold scanValue at h
  split at h
  next tail =>
    cases hscan : scanQuoted ('"' :: tail) [] tail with
    | error fault => simp [hscan, Except.map] at h
    | ok result =>
      simp only [hscan, Except.map, Except.ok.injEq, Prod.mk.injEq] at h
      obtain ⟨_, rfl⟩ := h
      exact Nat.lt_succ_of_lt (length_lt_of_scanQuoted hscan)
  next =>
    simp only [Except.ok.injEq, Prod.mk.injEq] at h
    obtain ⟨_, rfl⟩ := h
    exact length_splitUnquoted_lt hne

theorem length_le_of_scanValue_error {text : List Char} {fault : ScanFault}
    (h : scanValue text = .error fault) : fault.rest.length ≤ text.length := by
  unfold scanValue at h
  split at h
  next tail =>
    cases hscan : scanQuoted ('"' :: tail) [] tail with
    | error fault' =>
      simp only [hscan, Except.map, Except.error.injEq] at h
      subst h
      exact Nat.le_succ_of_le (length_le_of_scanQuoted_error hscan)
    | ok result => simp [hscan, Except.map] at h
  next => exact absurd h (by simp)

theorem length_closeBracket_lt {p : Parser} {event : Event} {bracket : Char} {closesList : Bool}
    {item : Located} (hrest : p.rest ≠ [])
    (h : (p.closeBracket event bracket closesList).1 = .ok item) :
    (p.closeBracket event bracket closesList).2.rest.length < p.rest.length := by
  have := List.length_pos_iff.2 hrest
  unfold closeBracket at h ⊢
  split at h
  next => exact absurd h (by simp)
  next =>
    split at h
    next hlist =>
      rw [if_pos hlist]
      simp only [List.length_drop]
      omega
    next => exact absurd h (by simp)

/-- A step never gives text back. -/
theorem length_step_le (p : Parser) : p.step.2.rest.length ≤ p.rest.length := by
  unfold step
  split
  · simp [openBracket, beginElement]
  · simp [openBracket, beginElement]
  · unfold closeBracket
    split
    · exact Nat.le_refl _
    · split <;> simp
  · unfold closeBracket
    split
    · exact Nat.le_refl _
    · split <;> simp
  · unfold readKey
    split
    next h => exact length_le_of_scanKey_error h
    next h => exact Nat.le_of_lt (length_lt_of_scanKey h)
  next hvalue =>
    unfold readValue
    simp only
    split
    next h => exact length_le_of_scanValue_error h
    next h =>
      refine Nat.le_of_lt (length_lt_of_scanValue ?_ h)
      intro hnil
      rw [(upcoming_eq_endOfStream_iff p).2 hnil] at hvalue
      exact absurd hvalue (by decide)
  next hnull =>
    refine Nat.le_of_lt (length_splitUnquoted_lt ?_)
    intro hnil
    rw [(upcoming_eq_endOfStream_iff p).2 hnil] at hnull
    exact absurd hnull (by decide)
  · unfold readEnd
    split <;> exact Nat.le_refl _

/-- A step that succeeds before the end of the text takes at least one character of it. -/
theorem length_step_lt (p : Parser) {item : Located} (h : p.step.1 = .ok item)
    (hne : item.event.token ≠ .endOfStream) : p.step.2.rest.length < p.rest.length := by
  have hrest : p.rest ≠ [] := by
    intro hnil
    have hend := (upcoming_eq_endOfStream_iff p).2 hnil
    simp only [step, hend, readEnd] at h
    split at h
    · simp only [Except.ok.injEq] at h
      subst h
      exact hne rfl
    · exact absurd h (by simp)
  have hdrop : (p.rest.drop 1).length < p.rest.length := by
    have := List.length_pos_iff.2 hrest
    simp only [List.length_drop]
    omega
  unfold step at h ⊢
  split at h
  · exact hdrop
  · exact hdrop
  · exact length_closeBracket_lt hrest h
  · exact length_closeBracket_lt hrest h
  · unfold readKey at h ⊢
    split at h
    next => exact absurd h (by simp)
    next heq => exact length_lt_of_scanKey heq
  · unfold readValue at h ⊢
    simp only at h ⊢
    split at h
    next => exact absurd h (by simp)
    next heq => exact length_lt_of_scanValue hrest heq
  · exact length_splitUnquoted_lt hrest
  · unfold readEnd at h
    split at h
    · simp only [Except.ok.injEq] at h
      subst h
      exact absurd rfl hne
    · exact absurd h (by simp)

instance : EventSource Parser where
  peek := peek
  next := next
  remaining p := p.rest.length
  remaining_peek p := length_skipSeparators_le p.rest
  remaining_next p := Nat.le_trans (length_step_le p.skip) (length_skipSeparators_le p.rest)
  remaining_next_lt p _ h hne :=
    Nat.lt_of_lt_of_le (length_step_lt p.skip h hne) (length_skipSeparators_le p.rest)

/-- The tokens of a document. -/
def reader (text : String) : Reader Parser := ⟨ofText text, .initial ""⟩

end Parser

end LayeredConfig.Document
