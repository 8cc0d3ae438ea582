import LayeredConfig.Proofs.Resolution.Visit

/-!
# Calls leave visits in order

A visit and a reader of the same path are in step before the first call (`InStep`), and every call
gives the same on both and leaves them in step. So what a visit does is what the reader does, and
its fields stay consistent on every level: in front of a name there is a current entry, inside of a
value or an item there is a child, and a scalar that is to be moved outwards has not been read.

* `StandsAt.orderly`: the fields of a visit that stands for a cursor are consistent (`Orderly`).
* `InStep.run`: a call gives the same on both, and leaves them in step.
* `orderly_resolve`: on every path of every source, any calls leave the fields consistent, they give
  what they give on the reader, and none of them fails with an internal error.
-/

namespace LayeredConfig

/-- The call has failed with the error. -/
def Reply.Fails (error : Error) : Reply → Prop
  | .token result => result = .error error
  | .scalar result => result = .error error
  | .text result => result = .error error
  | .bool result => result = .error error
  | .integer result => result = .error error
  | .float result => result = .error error
  | .bytes result => result = .error error
  | .path _ => False

/-! ### Readings -/

namespace TokenStream

variable {σ τ : Type} [TokenStream σ] [TokenStream τ] {call : Call} {error : Error}

/-- Every reading takes the scalar of the last token, whatever its type. -/
theorem snd_run_of_isRead (h : call.isRead) (s : σ) : (call.run s).2 = (readScalar s).2 := by
  cases call with
  | peek | next | currentPath => exact absurd h (by decide)
  | _ => rfl

/-- What a reading gives is told by the scalar and the path of the last token. -/
theorem fst_run_of_isRead (h : call.isRead) {s : σ} {s' : τ}
    (hscalar : (readScalar s).1 = (readScalar s').1)
    (hpath : currentPath (readScalar s).2 = currentPath (readScalar s').2) :
    (call.run s).1 = (call.run s').1 := by
  cases call with
  | peek | next | currentPath => exact absurd h (by decide)
  | readScalar | readString => simp only [Call.run, readString, Prod.map_fst, hscalar]
  | _ =>
    simp only [Call.run, readBool, readInt64, readFloat, readBytes, readAs, Prod.map_fst, hscalar,
      hpath]

theorem readAs_fails {α : Type} {expected : String} {read : Scalar → Option α} {s : σ}
    (h : (readAs expected read s).1 = .error error) :
    (readScalar s).1 = .error error ∨ error.kind = .typeCoercion := by
  simp only [readAs] at h
  generalize (readScalar s).1 = scalar at h
  cases scalar with
  | error error' => exact .inl (congrArg _ (Except.error.inj h))
  | ok scalar =>
    right
    simp only [Except.bind] at h
    split at h
    next => exact absurd h (by simp)
    next => exact Except.error.inj h ▸ rfl

/-- A reading fails where no scalar can be taken, or where it is not of the type. -/
theorem read_fails (h : call.isRead) {s : σ} (hfail : (call.run s).1.Fails error) :
    (readScalar s).1 = .error error ∨ error.kind = .typeCoercion := by
  cases call with
  | peek | next | currentPath => exact absurd h (by decide)
  | readScalar => exact .inl hfail
  | readString =>
    left
    have htext : (readScalar s).1.map Scalar.text = .error error := hfail
    generalize (readScalar s).1 = scalar at htext
    cases scalar with
    | error error' => exact congrArg _ (Except.error.inj htext)
    | ok scalar => exact absurd htext (by simp [Except.map])
  | _ => exact readAs_fails hfail

end TokenStream

open TokenStream

/-- A slot has no scalar to take only if it has been asked out of order. -/
theorem Slot.kind_of_take {slot : Slot} {error : Error} (h : slot.take.1 = .error error) :
    error.kind = .usage := by
  obtain ⟨path, content⟩ := slot
  cases content with
  | ready scalar => exact absurd h (by simp [take])
  | _ => exact Except.error.inj h ▸ rfl

namespace Resolution

variable {source : Source} {path : String} {depth : Nat} {visit : Visit} {cursor : Cursor}

/-! ### The errors of cursors -/

namespace Cursor

variable {error : Error}

theorem error_of_nextHere (h : (cursor.nextHere source).1 = .error error) :
    ∃ place, error = .depthExceeded place maxDepth := by
  fun_cases nextHere source cursor with
  | case6 path depth key rest error' herror =>
    obtain rfl : error' = error := by simpa [nextHere, herror] using h
    exact ⟨_, (eq_of_resolveAt_error herror).2⟩
  | case10 path depth index rest error' herror =>
    obtain rfl : error' = error := by simpa [nextHere, herror] using h
    exact ⟨_, (eq_of_resolveAt_error herror).2⟩
  | _ => simp_all [nextHere]

/-- Moving on fails only where a child lies too deep. -/
theorem error_of_next (h : (cursor.next source).1 = .error error) :
    ∃ place, error = .depthExceeded place maxDepth := by
  fun_induction next source cursor with
  | case1 path depth child rest r error' herror ih => exact ih (herror.trans h)
  | case2 path depth child rest r item hitem hend ih => exact error_of_nextHere h
  | case4 path depth child rest r error' herror ih => exact ih (herror.trans h)
  | case6 path depth child r item hitem hend index rest error' herror ih =>
    exact ⟨_, Except.error.inj h ▸ (eq_of_resolveAt_error herror).2⟩
  | case7 path depth child r item hitem hend index rest fresh hfresh r' ih =>
    exact error_of_nextHere h
  | case9 cursor => exact error_of_nextHere h
  | _ => exact absurd h (by simp)

end Cursor

/-! ### Consistent fields -/

/-- The first visit is the second one or lies inside of it, on any level. -/
inductive LiesIn (inner : Visit) : Visit → Prop
  | here : LiesIn inner inner
  | map {m : MapVisit Visit} {child : Visit} (hchild : m.child = some child)
      (h : LiesIn inner child) : LiesIn inner (.map m)
  | list {l : ListVisit Visit} {child : Visit} (hchild : l.child = some child)
      (h : LiesIn inner child) : LiesIn inner (.list l)

/-- The fields of a visit are consistent on every level. -/
structure Orderly (s : VisitStream) : Prop where
  /-- A map that comes to a name has a current entry. -/
  current : ∀ m, LiesIn (.map m) s.visit → m.phase = .key → ∃ entry, m.current = some entry
  /-- A map that comes to the tokens of a value has a child. -/
  mapChild : ∀ m, LiesIn (.map m) s.visit → m.phase = .value → ∃ child, m.child = some child
  /-- A list that comes to the tokens of an item has a child. -/
  listChild : ∀ l, LiesIn (.list l) s.visit → l.phase = .value → ∃ child, l.child = some child
  /-- The scalar of a name or a value has not been read when it is moved into the slot around it. -/
  relay : ∀ child token after, LiesIn child s.visit → child.next s.source = (.ok token, after) →
    carriesScalar token → ∃ scalar,
      after.readScalar.1 = .ok scalar ∧ (after.relay token).1 = .ok (.filled after.slot.path scalar)
  /-- A step fails only where a child lies too deep. -/
  error : ∀ inner error after, LiesIn inner s.visit →
    inner.next s.source = (.error error, after) → ∃ place, error = .depthExceeded place maxDepth

/-- What lies in a visit that stands for a cursor stands for a cursor. -/
theorem StandsAt.of_liesIn {inner : Visit} (h : StandsAt visit cursor)
    (hinner : LiesIn inner visit) : ∃ cursor, StandsAt inner cursor := by
  induction hinner generalizing cursor with
  | here => exact ⟨cursor, h⟩
  | map hchild _ ih =>
    cases h with
    | outside h => cases h <;> exact absurd hchild (by simp)
    | mapValue _ _ _ _ _ h => exact ih (Option.some.inj hchild ▸ h)
  | list hchild _ ih =>
    cases h with
    | outside h => cases h <;> exact absurd hchild (by simp)
    | listItem _ _ _ _ h => exact ih (Option.some.inj hchild ▸ h)

/-- The fields of a visit that stands for a cursor are consistent. -/
theorem StandsAt.orderly (h : StandsAt visit cursor) : Orderly ⟨source, visit⟩ where
  current m hm hphase := by
    obtain ⟨cursor, hstands⟩ := h.of_liesIn hm
    cases hstands with
    | outside h =>
      cases h with
      | mapKey path depth entry rest slot => exact ⟨entry, rfl⟩
      | _ => cases hphase
    | mapValue => cases hphase
  mapChild m hm hphase := by
    obtain ⟨cursor, hstands⟩ := h.of_liesIn hm
    cases hstands with
    | outside h => cases h <;> cases hphase
    | mapValue => exact ⟨_, rfl⟩
  listChild l hl hphase := by
    obtain ⟨cursor, hstands⟩ := h.of_liesIn hl
    cases hstands with
    | outside h => cases h <;> cases hphase
    | listItem => exact ⟨_, rfl⟩
  relay child token after hchild hnext hcarries := by
    obtain ⟨cursor, hstands⟩ := h.of_liesIn hchild
    have hmatches : Matches child.slot (child.next source) (cursor.next source) :=
      hstands.matches_next
    rw [hnext] at hmatches
    generalize cursor.next source = step at hmatches
    obtain ⟨⟨event, place⟩, -, hslot⟩ := hmatches
    have hread : after.readScalar.1 = (Slot.ofLocated ⟨event, place⟩).take.1 := hslot ▸ rfl
    obtain ⟨taken, hrelay⟩ := Visit.relay_of_slot hslot
    rw [hread, hrelay, hslot]
    -- only names and values carry a scalar
    cases event with
    | key name => exact ⟨_, rfl, rfl⟩
    | value scalar => exact ⟨_, rfl, rfl⟩
    | _ => cases hcarries
  error inner error after hinner hnext := by
    obtain ⟨cursor, hstands⟩ := h.of_liesIn hinner
    have hmatches : Matches inner.slot (inner.next source) (cursor.next source) :=
      hstands.matches_next
    rw [hnext] at hmatches
    generalize hcursor : cursor.next source = step at hmatches
    obtain - | ⟨-, -⟩ := hmatches
    exact Cursor.error_of_next (congrArg Prod.fst hcursor)

/-! ### Calls -/

/-- A visit and a reader are in step: they read the same source, the visit stands for the position
of the reader, and the same can be read of the last token. -/
structure InStep (s : VisitStream) (r : Reader Node) : Prop where
  source_eq : s.source = r.events.source
  stands : StandsAt s.visit r.events.cursor
  slot_eq : s.visit.slot = r.slot

namespace InStep

variable {s : VisitStream} {r : Reader Node} {call : Call} {error : Error}

theorem readScalar (h : InStep s r) :
    (TokenStream.readScalar s).1 = (TokenStream.readScalar r).1 ∧
      InStep (TokenStream.readScalar s).2 (TokenStream.readScalar r).2 := by
  obtain ⟨source, visit⟩ := s
  obtain ⟨events, slot⟩ := r
  obtain ⟨hsource, hstands, rfl⟩ := h
  refine ⟨rfl, hsource, hstands.withSlot _, ?_⟩
  cases visit <;> rfl

theorem peek (h : InStep s r) :
    (TokenStream.peek s).1 = (TokenStream.peek r).1 ∧
      InStep (TokenStream.peek s).2 (TokenStream.peek r).2 := by
  obtain ⟨source, visit⟩ := s
  obtain ⟨⟨_, kind, cursor⟩, slot⟩ := r
  obtain ⟨rfl, hstands, rfl⟩ := h
  have hlook : LooksAlike visit.slot (visit.peek source) (cursor.peek source) :=
    hstands.looksAlike_peek
  exact ⟨hlook.result_eq, rfl, hlook.stands, hlook.slot_eq⟩

theorem next (h : InStep s r) :
    (TokenStream.next s).1 = (TokenStream.next r).1 ∧
      InStep (TokenStream.next s).2 (TokenStream.next r).2 := by
  obtain ⟨source, visit⟩ := s
  obtain ⟨⟨_, kind, cursor⟩, slot⟩ := r
  obtain ⟨rfl, hstands, rfl⟩ := h
  have hmatches : Matches visit.slot (visit.next source) (cursor.next source) :=
    hstands.matches_next
  show (visit.next source).1 = _ ∧ InStep ⟨source, (visit.next source).2⟩ _
  revert hmatches
  generalize visit.next source = step, hcursor : cursor.next source = step'
  rintro (⟨item, hstands, hslot⟩ | ⟨hstands, hslot⟩)
  · rw [Node.next_reader kind visit.slot hcursor]
    exact ⟨rfl, rfl, hstands, hslot⟩
  · rw [Node.next_reader_error kind visit.slot hcursor]
    exact ⟨rfl, rfl, hstands, hslot⟩

/-- Every call gives the same on a visit and on a reader in step, and leaves them in step. -/
theorem run (h : InStep s r) (call : Call) :
    (call.run s).1 = (call.run r).1 ∧ InStep (call.run s).2 (call.run r).2 := by
  cases hread : call.isRead with
  | true =>
    obtain ⟨hscalar, hstep⟩ := h.readScalar
    rw [snd_run_of_isRead hread, snd_run_of_isRead hread]
    exact ⟨fst_run_of_isRead hread hscalar (congrArg Slot.path hstep.slot_eq), hstep⟩
  | false =>
    cases call with
    | currentPath => exact ⟨congrArg Reply.path (congrArg Slot.path h.slot_eq), h⟩
    | peek => exact ⟨congrArg Reply.token h.peek.1, h.peek.2⟩
    | next => exact ⟨congrArg Reply.token h.next.1, h.next.2⟩
    | _ => exact absurd hread (by decide)

/-- No call fails with an internal error. -/
theorem kind_ne_internal (h : InStep s r) (hfail : (call.run s).1.Fails error) :
    error.kind ≠ .internal := by
  cases hread : call.isRead with
  | true =>
    rcases read_fails hread hfail with hscalar | hkind
    · rw [Slot.kind_of_take hscalar]
      decide
    · rw [hkind]
      decide
  | false =>
    cases call with
    | currentPath => exact hfail.elim
    | peek =>
      -- looking ahead never fails
      obtain ⟨token, htoken⟩ := Cursor.exists_token_of_sound h.stands.sound
      have herror : (TokenStream.peek r).1 = .error error := h.peek.1 ▸ hfail
      exact absurd (herror.symm.trans htoken) (by simp)
    | next =>
      obtain ⟨place, rfl⟩ := h.stands.orderly.error s.visit error _ .here (Prod.ext hfail rfl)
      exact nofun
    | _ => exact absurd hread (by decide)

/-- Any calls leave a visit and a reader in step. -/
theorem afterCalls (h : InStep s r) (calls : List Call) :
    InStep (afterCalls s calls) (afterCalls r calls) := by
  induction calls generalizing s r with
  | nil => exact h
  | cons call rest ih => exact ih (h.run call).2

/-- Any calls give the same on a visit and on a reader that are in step. -/
theorem replies_eq (h : InStep s r) (calls : List Call) : replies s calls = replies r calls := by
  induction calls generalizing s r with
  | nil => rfl
  | cons call rest ih => rw [replies, replies, (h.run call).1, ih (h.run call).2]

/-- None of any calls fails with an internal error. -/
theorem kind_ne_internal_of_mem (h : InStep s r) {calls : List Call} {reply : Reply}
    (hreply : (call, reply) ∈ replies s calls) (hfail : reply.Fails error) :
    error.kind ≠ .internal := by
  induction calls generalizing s r with
  | nil => exact absurd hreply List.not_mem_nil
  | cons first rest ih =>
    rcases List.mem_cons.1 hreply with heq | hrest
    · obtain ⟨rfl, rfl⟩ := Prod.mk.inj heq
      exact h.kind_ne_internal hfail
    · exact ih (h.run first).2 hrest

end InStep

/-- Every path resolves to a visit and to a reader that are in step before the first call. -/
theorem exists_inStep_resolve (source : Source) (path : String) :
    ∃ stream reader, VisitStream.resolve source path = .ok stream ∧
      Node.resolve source path = .ok reader ∧ InStep stream reader ∧
      reader.slot = .initial path := by
  obtain ⟨visit, cursor, hvisit, hcursor, hstands, hslot⟩ :=
    exists_standsOutside_of_le source path (Nat.zero_le maxDepth)
  have hstream : VisitStream.resolve source path = .ok ⟨source, visit⟩ := by
    rw [VisitStream.resolve, hvisit]
    rfl
  exact ⟨_, _, hstream, resolve_of_resolveAt hcursor, ⟨rfl, .outside hstands, hslot⟩, rfl⟩

/-- On every path of every source any calls keep the fields of the visit consistent on every level,
also those behind a call that has failed. They give what they give on the reader of the path, and
none of them fails with an internal error. -/
theorem orderly_resolve (source : Source) (path : String) :
    ∃ stream reader, VisitStream.resolve source path = .ok stream ∧
      Node.resolve source path = .ok reader ∧
      ∀ calls, Orderly (afterCalls stream calls) ∧ replies stream calls = replies reader calls ∧
        ∀ call reply error, (call, reply) ∈ replies stream calls → reply.Fails error →
          error.kind ≠ .internal := by
  obtain ⟨stream, reader, hstream, hreader, hstep, -⟩ := exists_inStep_resolve source path
  refine ⟨stream, reader, hstream, hreader, fun calls => ?_⟩
  refine ⟨(hstep.afterCalls calls).stands.orderly, hstep.replies_eq calls, ?_⟩
  intro call reply error
  exact hstep.kind_ne_internal_of_mem

end Resolution

end LayeredConfig
