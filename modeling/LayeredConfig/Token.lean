import LayeredConfig.Error
import LayeredConfig.Scalar

/-!
# Tokens and token streams

A tree is read as a stream of tokens. Names and values carry a scalar that can be read once.

* `Event` is a token together with what it carries, `Slot` holds what the last token carried, and
  `Reader` puts a slot on top of anything that produces events.
* `TokenStream` is what readers of trees ask of a stream. Every operation gives a result and the
  state after it, also when it fails. A stream bounds the number of tokens that it can still give,
  so that reading it to its end terminates.
-/

namespace LayeredConfig

/-- One unit of the structure of a tree. -/
inductive Token where
  | objectStart
  | objectEnd
  | listStart
  | listEnd
  | key
  | value
  | null
  | endOfStream
  deriving DecidableEq, Repr

namespace Token

/-- The token opens an object or a list. -/
def isStart : Token → Bool
  | objectStart | listStart => true
  | _ => false

/-- The token closes an object or a list. -/
def isEnd : Token → Bool
  | objectEnd | listEnd => true
  | _ => false

/-- The name of a token in messages and listings. -/
def name : Token → String
  | objectStart => "OBJECT_START"
  | objectEnd => "OBJECT_END"
  | listStart => "LIST_START"
  | listEnd => "LIST_END"
  | key => "KEY"
  | value => "VALUE"
  | null => "NULL"
  | endOfStream => "END_OF_STREAM"

end Token

/-- A token with the scalar that it carries. -/
inductive Event where
  | objectStart
  | objectEnd
  | listStart
  | listEnd
  /-- The name of an entry. -/
  | key (name : String)
  /-- A scalar. -/
  | value (scalar : Scalar)
  | null
  | endOfStream
  deriving DecidableEq

namespace Event

/-- The token of an event. -/
def token : Event → Token
  | objectStart => .objectStart
  | objectEnd => .objectEnd
  | listStart => .listStart
  | listEnd => .listEnd
  | key _ => .key
  | value _ => .value
  | null => .null
  | endOfStream => .endOfStream

/-- The scalar that an event carries. -/
def scalar? : Event → Option Scalar
  | key name => some (.string name)
  | value scalar => some scalar
  | _ => none

end Event

/-- An event at a path. -/
structure Located where
  /-- The event. -/
  event : Event
  /-- The path of the position that it describes. -/
  path : String
  deriving DecidableEq

/-- What can be read of the last token. -/
inductive Slot.Content where
  /-- No token has been produced. -/
  | idle
  /-- The token carries a scalar that has not been read. -/
  | ready (scalar : Scalar)
  /-- The scalar of the token has been read. -/
  | taken
  /-- The token carries no scalar. -/
  | empty (token : Token)
  deriving DecidableEq

/-- The last token's path and what can be read of it. -/
structure Slot where
  /-- The path of the last token. -/
  path : String
  /-- What can be read of it. -/
  content : Slot.Content
  deriving DecidableEq

namespace Slot

/-- The slot of a stream that has produced nothing yet. -/
def initial (path : String) : Slot := ⟨path, .idle⟩

/-- The slot after an event. -/
def ofLocated (item : Located) : Slot :=
  match item.event.scalar? with
  | some scalar => ⟨item.path, .ready scalar⟩
  | none => ⟨item.path, .empty item.event.token⟩

/-- Take the scalar out of the slot. A failure leaves the slot as it is. -/
def take (slot : Slot) : Except Error Scalar × Slot :=
  match slot.content with
  | .ready scalar => (.ok scalar, { slot with content := .taken })
  | .idle => (.error (.usage slot.path "Read attempted before any token was produced"), slot)
  | .taken => (.error (.usage slot.path "Value has already been read"), slot)
  | .empty token => (.error (.usage slot.path (token.name ++ " token carries no value")), slot)

end Slot

/-- A stream of tokens in the state `s`. -/
class TokenStream (σ : Type) where
  /-- The next token, which stays the next one. -/
  peek (s : σ) : Except Error Token × σ
  /-- The next token, which becomes the last one. -/
  next (s : σ) : Except Error Token × σ
  /-- The scalar of the last token, which can be read once. -/
  readScalar (s : σ) : Except Error Scalar × σ
  /-- The path of the last token. -/
  currentPath (s : σ) : String
  /-- A bound on the number of tokens before the end of the stream. -/
  remaining (s : σ) : Nat
  /-- Peeking adds no tokens. -/
  remaining_peek (s : σ) : remaining (peek s).2 ≤ remaining s
  /-- Reading adds no tokens. -/
  remaining_readScalar (s : σ) : remaining (readScalar s).2 ≤ remaining s
  /-- Advancing adds no tokens. -/
  remaining_next (s : σ) : remaining (next s).2 ≤ remaining s
  /-- A token before the end of the stream uses up one of them. -/
  remaining_next_lt (s : σ) {token : Token} (h : (next s).1 = .ok token)
    (hne : token ≠ .endOfStream) : remaining (next s).2 < remaining s

namespace TokenStream

variable {σ : Type} [TokenStream σ]

/-- Read the scalar of the last token as a type: `read` gives its value of that type, if any. -/
def readAs {α : Type} (expected : String) (read : Scalar → Option α) (s : σ) :
    Except Error α × σ :=
  let (result, s) := readScalar s
  (result.bind fun scalar =>
    match read scalar with
    | some value => .ok value
    | none => .error (.typeCoercion (currentPath s) expected scalar.describe), s)

/-- Read the scalar of the last token as a text; every scalar has one. -/
def readString (s : σ) : Except Error String × σ :=
  let (result, s) := readScalar s
  (result.map Scalar.text, s)

/-- Read the scalar of the last token as a truth value. -/
def readBool (s : σ) : Except Error Bool × σ := readAs "boolean" Scalar.toBool? s

/-- Read the scalar of the last token as an integer. -/
def readInt64 (s : σ) : Except Error Int64 × σ := readAs "integer" Scalar.toInt64? s

/-- Read the scalar of the last token as a floating point number. -/
def readFloat (s : σ) : Except Error Number.Binary64 × σ := readAs "float" Scalar.toFloat? s

/-- Read the scalar of the last token as raw bytes. -/
def readBytes (s : σ) : Except Error (List UInt8) × σ := readAs "bytes" Scalar.toBytes? s

end TokenStream

/-- A producer of events in the state `s`. -/
class EventSource (σ : Type) where
  /-- The token of the next event. -/
  peek (s : σ) : Except Error Token × σ
  /-- The next event. -/
  next (s : σ) : Except Error Located × σ
  /-- A bound on the number of events before the end. -/
  remaining (s : σ) : Nat
  /-- Peeking adds no events. -/
  remaining_peek (s : σ) : remaining (peek s).2 ≤ remaining s
  /-- Advancing adds no events. -/
  remaining_next (s : σ) : remaining (next s).2 ≤ remaining s
  /-- An event before the end uses up one of them. -/
  remaining_next_lt (s : σ) {item : Located} (h : (next s).1 = .ok item)
    (hne : item.event.token ≠ .endOfStream) : remaining (next s).2 < remaining s

/-- A producer of events together with the slot of its last event. -/
structure Reader (σ : Type) where
  /-- The producer. -/
  events : σ
  /-- What can be read of the last event. -/
  slot : Slot

namespace Reader

variable {σ : Type} [EventSource σ]

/-- The token of the next event. -/
def peek (r : Reader σ) : Except Error Token × Reader σ :=
  let (result, events) := EventSource.peek r.events
  (result, { r with events })

/-- The token of the next event, which fills the slot; a failure leaves the slot as it is. -/
def next (r : Reader σ) : Except Error Token × Reader σ :=
  match EventSource.next r.events with
  | (.ok item, events) => (.ok item.event.token, ⟨events, .ofLocated item⟩)
  | (.error error, events) => (.error error, { r with events })

omit [EventSource σ] in
/-- The scalar in the slot. -/
def readScalar (r : Reader σ) : Except Error Scalar × Reader σ :=
  let (result, slot) := r.slot.take
  (result, { r with slot })

theorem events_next (r : Reader σ) : r.next.2.events = (EventSource.next r.events).2 := by
  unfold next
  split <;> simp_all

theorem next_eq_ok {r : Reader σ} {token : Token} (h : r.next.1 = .ok token) :
    ∃ item, (EventSource.next r.events).1 = .ok item ∧ item.event.token = token := by
  unfold next at h
  split at h
  next item events heq => exact ⟨item, by rw [heq], by simpa using h⟩
  next => simp at h

instance : TokenStream (Reader σ) where
  peek := peek
  next := next
  readScalar := readScalar
  currentPath r := r.slot.path
  remaining r := EventSource.remaining r.events
  remaining_peek r := EventSource.remaining_peek r.events
  remaining_readScalar _ := Nat.le_refl _
  remaining_next r := by
    rw [events_next]
    exact EventSource.remaining_next r.events
  remaining_next_lt r _ h hne := by
    obtain ⟨item, hitem, rfl⟩ := next_eq_ok h
    rw [events_next]
    exact EventSource.remaining_next_lt r.events hitem hne

end Reader

end LayeredConfig
