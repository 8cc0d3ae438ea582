import LayeredConfig.Token.Drain

/-!
# Runs of a stream

`Run step s items s'` says that successive calls of `step`, the first one in the state `s`, succeed
with the events `items` and leave the state `s'`. Runs describe what a stream gives without
reference to a reader of it.

* `Run.append`, `Run.map`: runs are put one behind the other, and carried over to enclosing states.
* `Reaches` is a run up to the next call: it leads to a state that goes on like the given one.
* `Emits` is a run of which only the events matter, not their paths.
* `exists_drain_eq`: draining ends, with the end of the stream or an error.
* `drain_of_run_end`, `drain_of_run_error`: draining a stream lists the events of its run, followed
  by the end of the stream or by the error that the run stops at. Without an error, a drain is such
  a run (`drain_eq_iff`).
-/

namespace LayeredConfig

/-- Successive calls of `step` from the first state on succeed with the listed events and leave the
last state. -/
inductive Run {σ : Type} (step : σ → Except Error Located × σ) : σ → List Located → σ → Prop
  | nil (s : σ) : Run step s [] s
  | cons {s s' s'' : σ} {item : Located} {items : List Located}
      (head : step s = (.ok item, s')) (tail : Run step s' items s'') :
      Run step s (item :: items) s''

namespace Run

variable {σ τ : Type} {step : σ → Except Error Located × σ} {s s' s'' t : σ}
  {items more : List Located} {item : Located}

/-- A single successful call is a run. -/
theorem single (h : step s = (.ok item, s')) : Run step s [item] s' :=
  .cons h (.nil s')

/-- Two runs, the second from where the first one ends. -/
theorem append (first : Run step s items s') (second : Run step s' more s'') :
    Run step s (items ++ more) s'' := by
  induction first with
  | nil => exact second
  | cons head _ ih => exact .cons head (ih second)

/-- A run passes through the state behind every part of its events. -/
theorem of_append (run : Run step s (items ++ more) s'') :
    ∃ s', Run step s items s' ∧ Run step s' more s'' := by
  induction items generalizing s with
  | nil => exact ⟨s, .nil s, run⟩
  | cons item items ih =>
    cases run with
    | cons head tail =>
      obtain ⟨s', first, second⟩ := ih tail
      exact ⟨s', .cons head first, second⟩

/-- The events of a run decide where it leads. -/
theorem unique (run : Run step s items s') (other : Run step s items s'') : s' = s'' := by
  induction run with
  | nil =>
    cases other
    rfl
  | cons head _ ih =>
    cases other with
    | cons head' tail' =>
      obtain ⟨-, rfl⟩ := Prod.mk.inj (head.symm.trans head')
      exact ih tail'

/-- Of two runs from one state, one goes on where the other one ends. -/
theorem prefix_or_prefix (run : Run step s items s') (other : Run step s more s'') :
    items <+: more ∨ more <+: items := by
  induction run generalizing more with
  | nil => exact .inl (List.nil_prefix)
  | cons head _ ih =>
    cases other with
    | nil => exact .inr (List.nil_prefix)
    | cons head' tail' =>
      obtain ⟨hitem, rfl⟩ := Prod.mk.inj (head.symm.trans head')
      obtain rfl := Except.ok.inj hitem
      exact (ih tail').imp (List.cons_prefix_cons.2 ⟨rfl, ·⟩) (List.cons_prefix_cons.2 ⟨rfl, ·⟩)

/-- Runs can be found out by calling. -/
instance decidable [DecidableEq σ] (step : σ → Except Error Located × σ) :
    (s : σ) → (items : List Located) → (s' : σ) → Decidable (Run step s items s')
  | s, [], s' => decidable_of_iff (s = s') ⟨fun h => h ▸ .nil s, fun run => by cases run; rfl⟩
  | s, item :: items, s' =>
    have := decidable step (step s).2 items s'
    decidable_of_iff ((step s).1.toOption = some item ∧ Run step (step s).2 items s') <| by
      constructor
      · rintro ⟨head, tail⟩
        cases hstep : (step s).1 with
        | error => simp [hstep, Except.toOption] at head
        | ok => exact .cons (Prod.ext (by simpa [hstep, Except.toOption] using head) rfl) tail
      · intro run
        cases run with
        | cons head tail => simpa [head, Except.toOption] using tail

/-- Where a run of at least one event leads is decided by its first call. -/
theorem of_step_eq (h : step s = step t) (hne : items ≠ []) (run : Run step t items s') :
    Run step s items s' := by
  cases run with
  | nil => exact absurd rfl hne
  | cons head tail => exact .cons (h.trans head) tail

/-- Runs are carried over by any map of states that respects every call giving an event before the
end of the stream. -/
theorem map {step' : τ → Except Error Located × τ} (f : σ → τ)
    (hstep : ∀ s item s', step s = (.ok item, s') → item.event ≠ .endOfStream →
      step' (f s) = (.ok item, f s'))
    (run : Run step s items s') (hitems : ∀ item ∈ items, item.event ≠ .endOfStream) :
    Run step' (f s) items (f s') := by
  induction run with
  | nil => exact .nil _
  | cons head _ ih =>
    refine .cons (hstep _ _ _ head (hitems _ (by simp))) (ih fun item hitem => ?_)
    exact hitems item (List.mem_cons_of_mem _ hitem)

end Run

/-- A run through the listed events that leads to a state from which the next call is the one from
the last state. -/
def Reaches {σ : Type} (step : σ → Except Error Located × σ) (s : σ) (items : List Located)
    (s' : σ) : Prop :=
  ∃ reached, Run step s items reached ∧ step reached = step s'

namespace Reaches

variable {σ : Type} {step : σ → Except Error Located × σ} {s s' s'' : σ} {items more : List Located}

theorem of_run (run : Run step s items s') : Reaches step s items s' :=
  ⟨s', run, rfl⟩

theorem of_step_eq (h : step s = step s') : Reaches step s [] s' :=
  ⟨s, .nil s, h⟩

/-- A run of at least one event goes on where another one leads. -/
theorem append_run (first : Reaches step s items s') (second : Run step s' more s'')
    (hne : more ≠ []) : Run step s (items ++ more) s'' := by
  obtain ⟨reached, run, hstep⟩ := first
  exact run.append (second.of_step_eq hstep hne)

theorem append (first : Reaches step s items s') (second : Reaches step s' more s'') :
    Reaches step s (items ++ more) s'' := by
  obtain ⟨reached, run, hstep⟩ := second
  -- a run through no event stays before the second state, from which the next call is the same
  by_cases hmore : more = []
  · subst hmore
    cases run with
    | nil =>
      obtain ⟨reached', run', hstep'⟩ := first
      rw [List.append_nil]
      exact ⟨reached', run', hstep'.trans hstep⟩
  · exact ⟨reached, first.append_run run hmore, hstep⟩

end Reaches

/-- A run through the listed events, at whatever paths. -/
def Emits {σ : Type} [EventSource σ] (s : σ) (events : List Event) (s' : σ) : Prop :=
  ∃ items : List Located, items.map (·.event) = events ∧ Run EventSource.next s items s'

namespace Emits

variable {σ : Type} [EventSource σ] {s s' : σ} {event : Event} {events more : List Event}

/-- A run through no event stays where it is. -/
theorem of_nil (h : Emits s [] s') : s' = s := by
  obtain ⟨items, hitems, run⟩ := h
  obtain rfl : items = [] := by simpa using hitems
  cases run
  rfl

/-- A run takes its first event with one call. -/
theorem of_cons (h : Emits s (event :: events) s') :
    ∃ path s₁, EventSource.next s = (.ok ⟨event, path⟩, s₁) ∧ Emits s₁ events s' := by
  obtain ⟨items, hitems, run⟩ := h
  obtain ⟨⟨_, path⟩, rest, rfl, rfl, hrest⟩ := List.map_eq_cons_iff.1 hitems
  cases run with
  | cons head tail => exact ⟨path, _, head, rest, hrest, tail⟩

/-- Where a run of at least one event leads is decided by its first call. -/
theorem of_next_eq {t : σ} (h : EventSource.next t = EventSource.next s) (hne : events ≠ [])
    (run : Emits s events s') : Emits t events s' := by
  obtain ⟨items, rfl, hrun⟩ := run
  exact ⟨items, rfl, hrun.of_step_eq h (by simpa using hne)⟩

/-- A run passes through the state behind every part of its events. -/
theorem of_append (h : Emits s (events ++ more) s') :
    ∃ s₁, Emits s events s₁ ∧ Emits s₁ more s' := by
  obtain ⟨items, hitems, run⟩ := h
  obtain ⟨first, second, rfl, hfirst, hsecond⟩ := List.map_eq_append_iff.1 hitems
  obtain ⟨s₁, run₁, run₂⟩ := run.of_append
  exact ⟨s₁, ⟨first, hfirst, run₁⟩, ⟨second, hsecond, run₂⟩⟩

end Emits

/-- Only the event that ends a stream has the token that ends it. -/
theorem Event.token_ne_of_ne {event : Event} (h : event ≠ .endOfStream) :
    event.token ≠ .endOfStream := by
  cases event <;> simp_all [Event.token]

/-- What draining lists for an event: the scalar of a name or a value is read with success. -/
def Drained.ofLocated (item : Located) : Drained :=
  ⟨item.event.token, item.event.scalar?.map .ok, item.path⟩

/-- What is listed for an event tells the event. -/
theorem Drained.eq_of_ofLocated_eq {item other : Located}
    (h : Drained.ofLocated item = Drained.ofLocated other) : item = other := by
  obtain ⟨event, path⟩ := item
  obtain ⟨event', path'⟩ := other
  simp only [Drained.ofLocated, Drained.mk.injEq] at h
  obtain ⟨htoken, hscalar, rfl⟩ := h
  cases event <;> cases event' <;> simp_all [Event.token, Event.scalar?]

namespace TokenStream

section Steps

variable {σ : Type} [TokenStream σ] {s s' : σ}

/-- Draining stops at an error. -/
theorem drain_of_next_error {error : Error} (h : next s = (.error error, s')) :
    drain s = ([.error error], s') := by
  rw [drain]
  split
  next herror => simp_all
  next htoken => simp [h] at htoken

/-- Draining stops at the end of the stream. -/
theorem drain_of_next_end (h : next s = (.ok .endOfStream, s')) :
    drain s = ([.ok ⟨.endOfStream, none, currentPath s'⟩], s') := by
  rw [drain]
  split
  next herror => simp [h] at herror
  next token htoken =>
    -- the end of the stream carries no scalar, so inspecting it changes nothing
    obtain rfl : Token.endOfStream = token := by simpa [h] using htoken
    simp [h, inspect, carriesScalar]

/-- Draining lists a token before the end of the stream and goes on behind it. -/
theorem drain_of_next_token {token : Token} (h : next s = (.ok token, s'))
    (hne : token ≠ .endOfStream) :
    drain s = (.ok (inspect token s').1 :: (drain (inspect token s').2).1,
      (drain (inspect token s').2).2) := by
  rw [drain]
  split
  next herror => simp [h] at herror
  next token' htoken =>
    obtain rfl : token = token' := by simpa [h] using htoken
    simp [h, hne]

theorem token_inspect (token : Token) (s : σ) : (inspect token s).1.token = token := by
  unfold inspect
  split <;> rfl

/-- Draining ends with the end of the stream or an error, behind no more tokens than remain. -/
theorem exists_drain_eq (s : σ) : ∃ front last, (drain s).1 = front ++ [last] ∧
    front.length ≤ remaining s ∧
    (∀ entry ∈ front, ∃ drained, entry = .ok drained ∧ drained.token ≠ .endOfStream) ∧
    ∀ drained, last = .ok drained → drained.token = .endOfStream := by
  induction hn : remaining s using Nat.strongRecOn generalizing s with
  | _ n ih =>
    rcases hnext : next s with ⟨error | token, after⟩
    · exact ⟨[], .error error, by rw [drain_of_next_error hnext]; rfl, by simp⟩
    · by_cases hend : token = .endOfStream
      · subst hend
        exact ⟨[], _, by rw [drain_of_next_end hnext]; rfl, by simp⟩
      -- a token before the end uses up one of those that remain
      · have hlt : remaining (inspect token after).2 < n := by
          have hle := remaining_inspect token after
          have hless := remaining_next_lt s (congrArg Prod.fst hnext) hend
          rw [hnext, hn] at hless
          exact Nat.lt_of_le_of_lt hle hless
        obtain ⟨front, last, hdrain, hlength, hfront, hlast⟩ := ih _ hlt _ rfl
        refine ⟨.ok (inspect token after).1 :: front, last, ?_, by simp; omega, ?_, hlast⟩
        · rw [drain_of_next_token hnext hend, hdrain, List.cons_append]
        · exact List.forall_mem_cons.2 ⟨⟨_, rfl, by rwa [token_inspect]⟩, hfront⟩

end Steps

variable {σ : Type} [EventSource σ] {events events' : σ} {items : List Located}

/-- Taking an event fills the slot of the reader with it. -/
theorem next_of_events {item : Located} (h : EventSource.next events = (.ok item, events'))
    (slot : Slot) :
    next (⟨events, slot⟩ : Reader σ) = (.ok item.event.token, ⟨events', .ofLocated item⟩) := by
  show Reader.next _ = _
  rw [Reader.next, h]

/-- A failed call leaves the slot of the reader as it is. -/
theorem next_of_events_error {error : Error}
    (h : EventSource.next events = (.error error, events')) (slot : Slot) :
    next (⟨events, slot⟩ : Reader σ) = (.error error, ⟨events', slot⟩) := by
  show Reader.next _ = _
  rw [Reader.next, h]

/-- A reader fails with the error of its producer of events. -/
theorem exists_next_of_error {r : Reader σ} {error : Error} (h : (next r).1 = .error error) :
    ∃ events', EventSource.next r.events = (.error error, events') := by
  rcases hnext : EventSource.next r.events with ⟨error' | item, events'⟩
  · have hreader := next_of_events_error hnext r.slot
    obtain rfl := Except.error.inj ((congrArg Prod.fst hreader).symm.trans h)
    exact ⟨events', rfl⟩
  · have hreader := next_of_events hnext r.slot
    exact absurd ((congrArg Prod.fst hreader).symm.trans h) (by simp)

/-- Inspecting an event right after it has been taken reads its scalar and leaves the producer of
events as it is. -/
theorem inspect_ofLocated (item : Located) (events : σ) :
    ∃ slot, inspect item.event.token (⟨events, .ofLocated item⟩ : Reader σ) =
      (.ofLocated item, ⟨events, slot⟩) := by
  obtain ⟨event, path⟩ := item
  cases event <;> exact ⟨_, rfl⟩

/-- Draining a reader lists an event before the end of the stream and goes on behind it. -/
theorem drain_of_events {item : Located} (h : EventSource.next events = (.ok item, events'))
    (hne : item.event ≠ .endOfStream) (slot : Slot) :
    ∃ slot', drain (⟨events, slot⟩ : Reader σ) =
      (.ok (.ofLocated item) :: (drain (⟨events', slot'⟩ : Reader σ)).1,
        (drain (⟨events', slot'⟩ : Reader σ)).2) := by
  obtain ⟨slot', hslot⟩ := inspect_ofLocated item events'
  refine ⟨slot', ?_⟩
  rw [drain_of_next_token (next_of_events h slot) (Event.token_ne_of_ne hne), hslot]

/-- Draining a stream that runs to its end lists the events of the run and the end. -/
theorem drain_of_run_end {path : String} {after : σ}
    (run : Run EventSource.next events items events')
    (hitems : ∀ item ∈ items, item.event ≠ .endOfStream)
    (hend : EventSource.next events' = (.ok ⟨.endOfStream, path⟩, after)) (slot : Slot) :
    drain (⟨events, slot⟩ : Reader σ) =
      ((items.map fun item => .ok (.ofLocated item)) ++ [.ok (.ofLocated ⟨.endOfStream, path⟩)],
        ⟨after, .ofLocated ⟨.endOfStream, path⟩⟩) := by
  induction run generalizing slot with
  | nil s => exact drain_of_next_end (next_of_events hend slot)
  | cons head _ ih =>
    obtain ⟨slot', hdrain⟩ := drain_of_events head (hitems _ (by simp)) slot
    rw [hdrain, ih (fun item hitem => hitems item (List.mem_cons_of_mem _ hitem)) hend slot']
    rfl

/-- Draining a stream whose run stops at an error lists the events of the run and the error. -/
theorem drain_of_run_error {error : Error} {after : σ}
    (run : Run EventSource.next events items events')
    (hitems : ∀ item ∈ items, item.event ≠ .endOfStream)
    (herror : EventSource.next events' = (.error error, after)) (slot : Slot) :
    (drain (⟨events, slot⟩ : Reader σ)).1 =
      (items.map fun item => .ok (.ofLocated item)) ++ [.error error] := by
  induction run generalizing slot with
  | nil s => rw [drain_of_next_error (next_of_events_error herror slot)]; rfl
  | cons head _ ih =>
    obtain ⟨slot', hdrain⟩ := drain_of_events head (hitems _ (by simp)) slot
    rw [hdrain]
    simp only [List.map_cons, List.cons_append, List.cons.injEq, true_and]
    exact ih (fun item hitem => hitems item (List.mem_cons_of_mem _ hitem)) herror slot'

/-- Every stream runs up to its end or to an error. -/
theorem exists_run (events : σ) : ∃ items events', Run EventSource.next events items events' ∧
    (∀ item ∈ items, item.event ≠ .endOfStream) ∧
    ((∃ path after, EventSource.next events' = (.ok ⟨.endOfStream, path⟩, after)) ∨
      ∃ error after, EventSource.next events' = (.error error, after)) := by
  induction hn : EventSource.remaining events using Nat.strongRecOn generalizing events with
  | _ n ih =>
    rcases hnext : EventSource.next events with ⟨error | item, after⟩
    · exact ⟨[], events, .nil _, by simp, .inr ⟨error, after, hnext⟩⟩
    · by_cases hend : item.event = .endOfStream
      · refine ⟨[], events, .nil _, by simp, .inl ⟨item.path, after, ?_⟩⟩
        rw [hnext, ← hend]
      -- an event before the end uses up one of those that remain
      · have hlt : EventSource.remaining after < n := by
          have := EventSource.remaining_next_lt events (congrArg Prod.fst hnext)
            (Event.token_ne_of_ne hend)
          rwa [hnext, hn] at this
        obtain ⟨items, events', run, hitems, hstop⟩ := ih _ hlt after rfl
        refine ⟨item :: items, events', .cons hnext run, ?_, hstop⟩
        exact List.forall_mem_cons.2 ⟨hend, hitems⟩

/-- A drain without an error lists a run up to the end of the stream. -/
theorem drain_eq_iff {slot : Slot} :
    (drain (⟨events, slot⟩ : Reader σ)).1 = (items.map fun item => .ok (.ofLocated item)) ↔
      ∃ front path events', items = front ++ [⟨.endOfStream, path⟩] ∧
        (∀ item ∈ front, item.event ≠ .endOfStream) ∧
        Run EventSource.next events items events' := by
  constructor
  · intro h
    obtain ⟨front, stop, run, hfront, ⟨path, after, hend⟩ | ⟨error, after, herror⟩⟩ :=
      exists_run events
    · rw [drain_of_run_end run hfront hend slot] at h
      have hinj : ∀ item other : Located, (.ok (.ofLocated item) : Except Error Drained) =
          .ok (.ofLocated other) → item = other :=
        fun _ _ heq => Drained.eq_of_ofLocated_eq (Except.ok.inj heq)
      have hitems : front ++ [⟨.endOfStream, path⟩] = items := by
        rw [← List.map_inj_right hinj, ← h, List.map_append]
        rfl
      exact ⟨front, path, after, hitems.symm, hfront, hitems ▸ run.append (.single hend)⟩
    -- a list of events has no error at its end
    · rw [drain_of_run_error run hfront herror slot] at h
      have hmem : (.error error : Except Error Drained) ∈
          items.map fun item => .ok (.ofLocated item) := by
        rw [← h]
        simp
      simp at hmem
  · rintro ⟨front, path, after, rfl, hfront, run⟩
    obtain ⟨stop, first, last⟩ := run.of_append
    cases last with
    | cons hend _ =>
      rw [drain_of_run_end first hfront hend slot]
      simp

end TokenStream

end LayeredConfig
