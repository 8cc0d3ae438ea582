import LayeredConfig.Token

/-!
# Calls of a stream

A reader of a stream looks ahead, moves on, reads the last scalar as some type and asks for the
path, in any order and also behind a call that failed. `TokenStream.replies` lists what such calls
give, and `TokenStream.afterCalls` is the state that they leave.

* `PeeksInvisible`: looking ahead cannot be noticed by the other calls, never fails, and promises
  the token that comes.
* `PeekInvariant.peeksInvisible`: this holds of every producer of events with a property that calls
  keep and under which a look ahead leaves the next event as it is.
-/

namespace LayeredConfig

/-- A call of a stream. -/
inductive Call where
  | peek
  | next
  | readScalar
  | readString
  | readBool
  | readInt64
  | readFloat
  | readBytes
  | currentPath
  deriving DecidableEq, Repr

/-- What a call gives. -/
inductive Reply where
  /-- The token of a look ahead or of a move. -/
  | token (result : Except Error Token)
  /-- The scalar that has been read. -/
  | scalar (result : Except Error Scalar)
  /-- The scalar read as a text. -/
  | text (result : Except Error String)
  /-- The scalar read as a truth value. -/
  | bool (result : Except Error Bool)
  /-- The scalar read as an integer. -/
  | integer (result : Except Error Int64)
  /-- The scalar read as a floating point number. -/
  | float (result : Except Error Number.Binary64)
  /-- The scalar read as raw bytes. -/
  | bytes (result : Except Error (List UInt8))
  /-- The path of the last token. -/
  | path (path : String)

namespace Call

/-- The call reads the scalar of the last token, as it is or as some type. -/
def isRead : Call → Bool
  | peek | next | currentPath => false
  | readScalar | readString | readBool | readInt64 | readFloat | readBytes => true

/-- What a call gives, and the state after it. -/
def run {σ : Type} [TokenStream σ] (s : σ) : Call → Reply × σ
  | peek => (TokenStream.peek s).map .token id
  | next => (TokenStream.next s).map .token id
  | readScalar => (TokenStream.readScalar s).map .scalar id
  | readString => (TokenStream.readString s).map .text id
  | readBool => (TokenStream.readBool s).map .bool id
  | readInt64 => (TokenStream.readInt64 s).map .integer id
  | readFloat => (TokenStream.readFloat s).map .float id
  | readBytes => (TokenStream.readBytes s).map .bytes id
  | currentPath => (.path (TokenStream.currentPath s), s)

end Call

namespace TokenStream

variable {σ : Type} [TokenStream σ]

/-- The state after calls that are made one after the other. -/
def afterCalls (s : σ) (calls : List Call) : σ :=
  calls.foldl (fun s call => (call.run s).2) s

/-- What calls give that are made one after the other. -/
def replies (s : σ) : List Call → List (Call × Reply)
  | [] => []
  | call :: rest => (call, (call.run s).1) :: replies (call.run s).2 rest

theorem afterCalls_append (s : σ) (calls more : List Call) :
    afterCalls s (calls ++ more) = afterCalls (afterCalls s calls) more :=
  List.foldl_append

theorem replies_append (s : σ) (calls more : List Call) :
    replies s (calls ++ more) = replies s calls ++ replies (afterCalls s calls) more := by
  induction calls generalizing s with
  | nil => rfl
  | cons call rest ih =>
    rw [List.cons_append, replies, ih, replies, List.cons_append]
    rfl

/-- Nothing but a look ahead itself shows that it has been made. -/
structure PeeksInvisible (s : σ) : Prop where
  /-- The other calls give the same when all looks ahead are left out. -/
  replies_erase : ∀ calls : List Call,
    replies s (calls.filter (· ≠ .peek)) = (replies s calls).filter (·.1 ≠ .peek)
  /-- Looking ahead never fails. -/
  exists_token : ∀ calls : List Call, ∃ token, (peek (afterCalls s calls)).1 = .ok token
  /-- A token that comes right behind a look ahead is the one that was promised. -/
  token_eq : ∀ (calls : List Call) (token : Token),
    (next (afterCalls s (calls ++ [.peek]))).1 = .ok token →
      (peek (afterCalls s calls)).1 = .ok token

end TokenStream

variable {σ : Type} [EventSource σ]

/-- A property of producers of events that calls keep, and under which a look ahead tells the next
event and leaves it as it is. -/
structure PeekInvariant (inv : σ → Prop) : Prop where
  /-- Looking ahead keeps the property. -/
  peek : ∀ {s : σ}, inv s → inv (EventSource.peek s).2
  /-- Moving on keeps the property, also where it fails. -/
  next : ∀ {s : σ}, inv s → inv (EventSource.next s).2
  /-- Looking ahead succeeds. -/
  exists_token : ∀ {s : σ}, inv s → ∃ token, (EventSource.peek s).1 = .ok token
  /-- The next call behind a look ahead is the next call without it. -/
  next_peek : ∀ {s : σ}, inv s → EventSource.next (EventSource.peek s).2 = EventSource.next s
  /-- The token that is promised is that of the event that comes, if one comes. -/
  token_eq : ∀ {s : σ} {item : Located}, inv s → (EventSource.next s).1 = .ok item →
    (EventSource.peek s).1 = .ok item.event.token

namespace Reader

variable {r r' : Reader σ} {call : Call}

/-- The readers have the same last event, and the same call comes next on both. -/
structure Agree (r r' : Reader σ) : Prop where
  /-- The same can be read of the last event. -/
  slot_eq : r.slot = r'.slot
  /-- The same event comes next. -/
  next_eq : EventSource.next r.events = EventSource.next r'.events

/-- A call other than a look ahead gives the same on readers that agree, and they still agree
afterwards. -/
theorem Agree.run (h : Agree r r') (hcall : call ≠ .peek) :
    (call.run r).1 = (call.run r').1 ∧ Agree (call.run r).2 (call.run r').2 := by
  obtain ⟨events, slot⟩ := r
  obtain ⟨events', slot'⟩ := r'
  obtain ⟨hslot, hnext⟩ := h
  obtain rfl : slot = slot' := hslot
  cases call with
  | peek => exact absurd rfl hcall
  | next =>
    -- moving on depends on nothing else, so both readers are in one state afterwards
    have hreader : Reader.next ⟨events, slot⟩ = Reader.next ⟨events', slot⟩ := by
      rw [Reader.next, Reader.next, hnext]
    have hrun : Call.next.run (⟨events, slot⟩ : Reader σ) = Call.next.run ⟨events', slot⟩ :=
      congrArg (Prod.map Reply.token id) hreader
    rw [hrun]
    exact ⟨rfl, rfl, rfl⟩
  | _ => exact ⟨rfl, rfl, hnext⟩

end Reader

namespace PeekInvariant

open TokenStream

variable {inv : σ → Prop} (h : PeekInvariant inv) {r r' : Reader σ}

include h

/-- Every call of a reader keeps the property. -/
theorem run (hinv : inv r.events) (call : Call) : inv (call.run r).2.events := by
  cases call with
  | peek => exact h.peek hinv
  | next =>
    show inv (Reader.next r).2.events
    rw [Reader.events_next]
    exact h.next hinv
  | _ => exact hinv

/-- Any calls of a reader keep the property. -/
theorem afterCalls (hinv : inv r.events) (calls : List Call) :
    inv (TokenStream.afterCalls r calls).events := by
  induction calls generalizing r with
  | nil => exact hinv
  | cons call rest ih => exact ih (h.run hinv call)

/-- Looks ahead on one of two readers that agree do not show in what the other calls give. -/
theorem replies_erase (hinv : inv r.events) (hagree : Reader.Agree r r') (calls : List Call) :
    replies r' (calls.filter (· ≠ .peek)) = (replies r calls).filter (·.1 ≠ .peek) := by
  induction calls generalizing r r' with
  | nil => rfl
  | cons call rest ih =>
    by_cases hcall : call = .peek
    · subst hcall
      -- the look ahead keeps the slot and the event to come
      have hpeek : Reader.Agree (Call.peek.run r).2 r' :=
        ⟨hagree.slot_eq, (h.next_peek hinv).trans hagree.next_eq⟩
      rw [List.filter_cons_of_neg (by simp), replies, List.filter_cons_of_neg (by simp)]
      exact ih (h.run hinv .peek) hpeek
    · obtain ⟨hreply, hafter⟩ := hagree.run hcall
      rw [List.filter_cons_of_pos (by simpa using hcall), replies, replies,
        List.filter_cons_of_pos (by simpa using hcall), hreply]
      congr 1
      exact ih (h.run hinv call) hafter

/-- Looking ahead is invisible on every reader that starts with the property. -/
theorem peeksInvisible (hinv : inv r.events) : PeeksInvisible r where
  replies_erase := h.replies_erase hinv ⟨rfl, rfl⟩
  exists_token calls := h.exists_token (h.afterCalls hinv calls)
  token_eq calls token hnext := by
    have hinv' := h.afterCalls hinv calls
    rw [afterCalls_append] at hnext
    obtain ⟨item, hitem, htoken⟩ := Reader.next_eq_ok hnext
    -- the event that comes behind the look ahead is the one that would have come anyway
    have hpeeked : (EventSource.next (TokenStream.afterCalls r calls).events).1 = .ok item := by
      rw [← h.next_peek hinv']
      exact hitem
    rw [← htoken]
    exact h.token_eq hinv' hpeeked

end PeekInvariant

end LayeredConfig
