import LayeredConfig.Proofs.Stream.Calls
import Mathlib.Data.List.Induction

/-!
# Reading a scalar once

The scalar of a token can be read once, between the call that gives the token and the next one that
gives another. What there is to read is told by the calls that have been made: `LastGiven` is the
event of the most recent successful move, with the calls behind it.

* `ReadsOnceFrom`: a stream gives the tokens of a reader, and it gives a scalar exactly if the last
  token was a name or a value and no call has read it since; any other reading is refused as out of
  order and changes nothing. The path is that of the last token.
* `ReadsOnce`: a reader does so itself.
* `slot_afterCalls`: calls that give no new token only take the scalar out of the slot.
* `Reader.readsOnce`: this holds of every producer of events with a slot for the last one.
-/

namespace LayeredConfig

variable {σ τ : Type} [EventSource σ] [TokenStream τ]

/-- Only names and values carry a scalar. -/
theorem Event.isSome_scalar?_iff {event : Event} :
    event.scalar?.isSome ↔ event.token = .key ∨ event.token = .value := by
  cases event <;> simp [scalar?, token]

namespace Slot

variable {slot : Slot}

/-- The second of two readings finds nothing more to take. -/
theorem take_take (slot : Slot) : slot.take.2.take.2 = slot.take.2 := by
  obtain ⟨path, content⟩ := slot
  cases content <;> rfl

theorem path_take (slot : Slot) : slot.take.2.path = slot.path := by
  obtain ⟨path, content⟩ := slot
  cases content <;> rfl

/-- Behind a reading there is nothing to read. -/
theorem take_take_ne_ok (slot : Slot) (scalar : Scalar) : slot.take.2.take.1 ≠ .ok scalar := by
  obtain ⟨path, content⟩ := slot
  cases content <;> simp [take]

/-- Taking a scalar that is not there fails as out of order and leaves the slot as it is. -/
theorem take_of_ne_ok (h : ∀ scalar, slot.take.1 ≠ .ok scalar) :
    ∃ cause, slot.take = (.error (.usage slot.path cause), slot) := by
  obtain ⟨path, content⟩ := slot
  cases content with
  | ready scalar => exact absurd rfl (h scalar)
  | _ => exact ⟨_, rfl⟩

/-- The scalar of an event can be taken right behind it. -/
theorem take_ofLocated_eq_ok_iff {item : Located} {scalar : Scalar} :
    (Slot.ofLocated item).take.1 = .ok scalar ↔ item.event.scalar? = some scalar := by
  unfold ofLocated
  split
  next heq => rw [heq, take, Except.ok.injEq, Option.some.injEq]
  next heq => simp [heq, take]

theorem path_ofLocated (item : Located) : (Slot.ofLocated item).path = item.path := by
  unfold ofLocated
  split <;> rfl

end Slot

open TokenStream

variable {r : Reader σ} {calls since : List Call} {item : Located}

/-- No call of the list gives another token: every move fails. -/
def StaysAt (s : τ) (calls : List Call) : Prop :=
  ∀ token, (Call.next, Reply.token (.ok token)) ∉ replies s calls

/-- The event that the most recent successful move among the calls has given, and the calls made
since. -/
def LastGiven (r : Reader σ) (calls since : List Call) (item : Located) : Prop :=
  ∃ before events, calls = before ++ .next :: since ∧
    EventSource.next (afterCalls r before).events = (.ok item, events) ∧
    StaysAt (afterCalls r (before ++ [.next])) since

/-- Every scalar of a reader can be read once from a stream that gives its tokens, right behind the
token or later, and nothing else can be read. -/
structure ReadsOnceFrom (s : τ) (r : Reader σ) : Prop where
  /-- The stream gives the tokens of the reader. -/
  next_eq : ∀ calls, (next (afterCalls s calls)).1 = (next (afterCalls r calls)).1
  /-- There is a scalar to read exactly if the last token was a name or a value and none of the
  calls since then has read it, whether or not the scalar was of the type that the call asked
  for. -/
  readScalar_iff : ∀ calls, (∃ scalar, (readScalar (afterCalls s calls)).1 = .ok scalar) ↔
    ∃ since item, LastGiven r calls since item ∧
      (item.event.token = .key ∨ item.event.token = .value) ∧ ∀ call ∈ since, call.isRead = false
  /-- The scalar that is read is that of the last event. -/
  scalar_eq : ∀ calls since item scalar, LastGiven r calls since item →
    (readScalar (afterCalls s calls)).1 = .ok scalar → item.event.scalar? = some scalar
  /-- Any other reading is out of order and leaves the state as it is. -/
  readScalar_error : ∀ calls, (∀ scalar, (readScalar (afterCalls s calls)).1 ≠ .ok scalar) →
    ∃ cause, readScalar (afterCalls s calls) =
      (.error (.usage (currentPath (afterCalls s calls)) cause), afterCalls s calls)
  /-- The path is that of the last event. -/
  currentPath_eq : ∀ calls since item, LastGiven r calls since item →
    currentPath (afterCalls s calls) = item.path
  /-- Before the first token the path stays as it was. -/
  currentPath_initial : ∀ calls, StaysAt s calls → currentPath (afterCalls s calls) = currentPath s

/-- Every scalar of a reader can be read once from the reader itself. -/
def ReadsOnce (r : Reader σ) : Prop := ReadsOnceFrom r r

/-! ### Calls that give no new token -/

/-- What a call does to the slot if it gives no new token. -/
theorem slot_run {call : Call} (h : ∀ token, (Call.next, Reply.token (.ok token)) ≠
    (call, (call.run r).1)) :
    (call.run r).2.slot = if call.isRead then r.slot.take.2 else r.slot := by
  cases call with
  | next =>
    show (Reader.next r).2.slot = r.slot
    have hrun : (Call.next.run r).1 = .token (Reader.next r).1 := rfl
    rw [hrun] at h
    -- only a successful move fills the slot
    unfold Reader.next at h ⊢
    split
    next heq =>
      rw [heq] at h
      exact absurd rfl (h _)
    next => rfl
  | _ => rfl

/-- Calls that give no new token leave the slot as it is, up to its scalar being read. -/
theorem slot_afterCalls (h : StaysAt r calls) :
    (afterCalls r calls).slot = if ∃ call ∈ calls, call.isRead then r.slot.take.2 else r.slot := by
  induction calls generalizing r with
  | nil => simp [afterCalls]
  | cons call rest ih =>
    have hcall := slot_run fun token heq => h token (heq ▸ List.mem_cons_self)
    have hrest : StaysAt (call.run r).2 rest := fun token hmem =>
      h token (List.mem_cons_of_mem _ hmem)
    show (afterCalls (call.run r).2 rest).slot = _
    rw [ih hrest, hcall]
    by_cases hread : call.isRead
    · simp [hread, Slot.take_take]
    · simp [hread]

/-- Behind the most recent successful move the slot holds its event, as far as it has not been
read. -/
theorem LastGiven.slot_eq (h : LastGiven r calls since item) :
    (afterCalls r calls).slot =
      if ∃ call ∈ since, call.isRead then (Slot.ofLocated item).take.2 else .ofLocated item := by
  obtain ⟨before, events, rfl, hnext, hstays⟩ := h
  have hmoved : afterCalls r (before ++ [.next]) = ⟨events, .ofLocated item⟩ := by
    rw [afterCalls_append]
    show (Reader.next _).2 = _
    rw [Reader.next, hnext]
  rw [← List.singleton_append, ← List.append_assoc, afterCalls_append, slot_afterCalls hstays,
    hmoved]

/-- Either no call has given a token, or there is a last one. -/
theorem staysAt_or_exists_lastGiven (r : Reader σ) (calls : List Call) :
    StaysAt r calls ∨ ∃ since item, LastGiven r calls since item := by
  induction calls using List.reverseRecOn with
  | nil => exact .inl fun _ => List.not_mem_nil
  | append_singleton calls call ih =>
    by_cases hgives : ∃ token, (Call.next, Reply.token (.ok token)) =
        (call, (call.run (afterCalls r calls)).1)
    · obtain ⟨token, heq⟩ := hgives
      obtain ⟨rfl, hreply⟩ := Prod.mk.inj heq
      -- the last call is itself the most recent successful move
      obtain ⟨item, hitem, -⟩ := Reader.next_eq_ok (Reply.token.inj hreply).symm
      exact .inr ⟨[], item, calls, _, rfl, Prod.ext hitem rfl, fun _ => List.not_mem_nil⟩
    · have hlast : StaysAt (afterCalls r calls) [call] := fun token hmem =>
        hgives ⟨token, List.mem_singleton.1 hmem⟩
      rcases ih with hstays | ⟨since, item, before, events, rfl, hnext, hstays⟩
      · refine .inl fun token hmem => ?_
        rw [replies_append] at hmem
        exact (List.mem_append.1 hmem).elim (hstays token) (hlast token)
      · refine .inr ⟨since ++ [call], item, before, events, by simp, hnext, fun token hmem => ?_⟩
        rw [replies_append, ← afterCalls_append, List.append_assoc, List.singleton_append] at hmem
        exact (List.mem_append.1 hmem).elim (hstays token) (hlast token)

/-! ### Reading -/

/-- Before the first token there is nothing to read. -/
theorem slot_eq_initial {path : String} (hslot : r.slot = .initial path) (h : StaysAt r calls) :
    (afterCalls r calls).slot = .initial path := by
  rw [slot_afterCalls h, hslot]
  exact ite_self _

/-- What is read behind the most recent successful move is the scalar of its event. -/
theorem LastGiven.readScalar_eq_ok_iff (h : LastGiven r calls since item) {scalar : Scalar} :
    (readScalar (afterCalls r calls)).1 = .ok scalar ↔
      item.event.scalar? = some scalar ∧ ∀ call ∈ since, call.isRead = false := by
  show (afterCalls r calls).slot.take.1 = _ ↔ _
  rw [h.slot_eq]
  split
  next hread =>
    obtain ⟨call, hcall, hcallRead⟩ := hread
    constructor
    · intro htake
      exact absurd htake (Slot.take_take_ne_ok _ _)
    · rintro ⟨-, hunread⟩
      exact absurd hcallRead (by simp [hunread call hcall])
  next hunread =>
    rw [Slot.take_ofLocated_eq_ok_iff, and_iff_left]
    intro call hcall
    exact Bool.eq_false_iff.2 fun hcallRead => hunread ⟨call, hcall, hcallRead⟩

/-- A reader that starts without a token gives every scalar once. -/
theorem Reader.readsOnce {path : String} (hslot : r.slot = .initial path) : ReadsOnce r where
  next_eq _ := rfl
  readScalar_iff calls := by
    constructor
    · rintro ⟨scalar, hread⟩
      rcases staysAt_or_exists_lastGiven r calls with hstays | ⟨since, item, hgiven⟩
      · change (afterCalls r calls).slot.take.1 = _ at hread
        rw [slot_eq_initial hslot hstays] at hread
        exact absurd hread (by simp [Slot.initial, Slot.take])
      · obtain ⟨hscalar, hunread⟩ := hgiven.readScalar_eq_ok_iff.1 hread
        have htoken := Event.isSome_scalar?_iff.1 (Option.isSome_iff_exists.2 ⟨scalar, hscalar⟩)
        exact ⟨since, item, hgiven, htoken, hunread⟩
    · rintro ⟨since, item, hgiven, htoken, hunread⟩
      obtain ⟨scalar, hscalar⟩ := Option.isSome_iff_exists.1 (Event.isSome_scalar?_iff.2 htoken)
      exact ⟨scalar, hgiven.readScalar_eq_ok_iff.2 ⟨hscalar, hunread⟩⟩
  scalar_eq calls since item scalar hgiven hread := (hgiven.readScalar_eq_ok_iff.1 hread).1
  readScalar_error calls hnone := by
    obtain ⟨cause, htake⟩ := Slot.take_of_ne_ok hnone
    refine ⟨cause, ?_⟩
    show Reader.readScalar _ = _
    rw [Reader.readScalar, htake]
    rfl
  currentPath_eq calls since item hgiven := by
    show (afterCalls r calls).slot.path = _
    rw [hgiven.slot_eq]
    split
    next => rw [Slot.path_take, Slot.path_ofLocated]
    next => exact Slot.path_ofLocated item
  currentPath_initial calls hstays := by
    show (afterCalls r calls).slot.path = r.slot.path
    rw [slot_eq_initial hslot hstays, hslot]

end LayeredConfig
