import LayeredConfig.Resolution.Node
import LayeredConfig.Proofs.Reading.Spelling

/-!
# The steps of cursors

What one call does to a cursor that stands inside a child: as long as the child gives events, they
are handed on (`next_mapValue`, `next_listItem`), and once it is at its end, the next child takes
its place (`next_mapValue_done`, `next_listItem_done`).

Looking ahead may already pass over a child at its end or resolve the next item of a list. The
instance of `LawfulPeek` for resolved nodes says that this changes nothing about the event to come.
-/

namespace LayeredConfig.Resolution

variable {source : Source} {path : String} {depth : Nat} {child cursor : Cursor}
  {rest : List String}

namespace Cursor

/-- A cursor before everything that a path holds. -/
def IsFresh : Cursor → Prop
  | leaf .. | mapStart .. | listStart .. => True
  | _ => False

end Cursor

open Cursor

theorem isFresh_of_resolveAt (h : resolveAt source path depth = .ok cursor) : cursor.IsFresh := by
  unfold resolveAt at h
  split at h
  · exact absurd h (by simp)
  · split at h
    · exact Except.ok.inj h ▸ trivial
    · split at h <;> exact Except.ok.inj h ▸ trivial

namespace Cursor

theorem next_of_isFresh (h : cursor.IsFresh) : cursor.next source = cursor.nextHere source := by
  cases cursor <;> first | rfl | exact h.elim

/-- A call that does not go into a child gives the event that the look ahead tells. -/
theorem token_nextHere {item : Located} (h : (cursor.nextHere source).1 = .ok item) :
    item.event.token = cursor.peekHere := by
  fun_cases nextHere source cursor <;> simp_all [nextHere] <;> subst h <;> rfl

/-- A fresh cursor does not promise the end. -/
theorem peekHere_ne_of_isFresh (hfresh : cursor.IsFresh) : cursor.peekHere ≠ .endOfStream := by
  cases cursor with
  | leaf path scalar => cases scalar <;> simp [peekHere]
  | mapStart | listStart => simp [peekHere]
  | _ => exact hfresh.elim

/-- A fresh cursor is not at the end of its tree. -/
theorem event_ne_of_isFresh (hfresh : cursor.IsFresh) {item : Located}
    (h : (cursor.nextHere source).1 = .ok item) : item.event ≠ .endOfStream := by
  have htoken := token_nextHere h
  intro hend
  rw [hend] at htoken
  exact peekHere_ne_of_isFresh hfresh htoken.symm

/-- The first event of a fresh cursor begins a tree. -/
theorem token_ne_of_isFresh (hfresh : cursor.IsFresh) {item : Located}
    (h : (cursor.nextHere source).1 = .ok item) :
    item.event.token ≠ .listEnd ∧ item.event.token ≠ .endOfStream := by
  rw [token_nextHere h]
  refine ⟨?_, peekHere_ne_of_isFresh hfresh⟩
  cases cursor with
  | leaf path scalar => cases scalar <;> simp [peekHere]
  | mapStart | listStart => simp [peekHere]
  | _ => exact hfresh.elim

/-! ### Inside a child -/

theorem next_mapValue {item : Located} (h : child.next source = (.ok item, cursor))
    (hne : item.event ≠ .endOfStream) :
    (mapValue path depth child rest).next source = (.ok item, mapValue path depth cursor rest) := by
  simp only [next, h, hne, ↓reduceIte]

theorem next_mapValue_error {error : Error} (h : child.next source = (.error error, cursor)) :
    (mapValue path depth child rest).next source =
      (.error error, mapValue path depth cursor rest) := by
  simp only [next, h]

/-- Behind the value of an entry the map goes on with the next entry or its end. -/
theorem next_mapValue_done (place : String) :
    (mapValue path depth (done place) rest).next source =
      (afterValue path depth rest).nextHere source := by
  simp only [next, nextHere, ↓reduceIte]

theorem next_listItem {item : Located} (h : child.next source = (.ok item, cursor))
    (hne : item.event ≠ .endOfStream) :
    (listItem path depth child rest).next source = (.ok item, listItem path depth cursor rest) := by
  simp only [next, h, hne, ↓reduceIte]

theorem next_listItem_error {error : Error} (h : child.next source = (.error error, cursor)) :
    (listItem path depth child rest).next source =
      (.error error, listItem path depth cursor rest) := by
  simp only [next, h]

/-- Behind the last item the list ends. -/
theorem next_listItem_done_nil (place : String) :
    (listItem path depth (done place) []).next source = (.ok ⟨.listEnd, path⟩, done path) := by
  simp only [next, nextHere, ↓reduceIte]

/-- A call on a list inside a fresh item is a call on the item. -/
theorem next_listItem_of_isFresh (h : child.IsFresh) :
    (listItem path depth child rest).next source =
      ((child.nextHere source).1, listItem path depth (child.nextHere source).2 rest) := by
  unfold next
  simp only [next_of_isFresh h]
  split
  next error herror => rw [herror]
  next item hitem => rw [if_neg (event_ne_of_isFresh h hitem), hitem]

/-- Behind an item the list goes on with the next item. -/
theorem next_listItem_done {index : String}
    (h : resolveAt source (Path.join path index) (depth + 1) = .ok child) (place : String) :
    (listItem path depth (done place) (index :: rest)).next source =
      (listItem path depth child rest).next source := by
  rw [next_listItem_of_isFresh (isFresh_of_resolveAt h)]
  simp only [next, nextHere, ↓reduceIte, h]

/-! ### Looking ahead -/

/-- Behind the value of an entry the look ahead has passed over it. -/
theorem peek_mapValue_end {peeked : Cursor}
    (h : child.peek source = (.ok .endOfStream, peeked)) :
    (mapValue path depth child rest).peek source =
      (.ok (afterValue path depth rest).peekHere, afterValue path depth rest) := by
  simp only [peek, h]

theorem peek_mapValue {peeked : Cursor} {result : Except Error Token}
    (h : child.peek source = (result, peeked)) (hne : result ≠ .ok .endOfStream) :
    (mapValue path depth child rest).peek source = (result, mapValue path depth peeked rest) := by
  unfold peek
  simp only [h]

theorem peek_listItem {peeked : Cursor} {result : Except Error Token}
    (h : child.peek source = (result, peeked)) (hne : result ≠ .ok .endOfStream) :
    (listItem path depth child rest).peek source = (result, listItem path depth peeked rest) := by
  unfold peek
  simp only [h]

theorem token_ne_of_event_ne {item : Located} (h : item.event ≠ .endOfStream) :
    (.ok item.event.token : Except Error Token) ≠ .ok .endOfStream := by
  rw [ne_eq, Except.ok.injEq]
  exact Event.token_ne_of_ne h

theorem next_afterValue : (afterValue path depth rest).next source =
    (afterValue path depth rest).nextHere source := by
  cases rest <;> rfl

/-- An event to come is promised by the look ahead, and it still comes after it. -/
def Promises (source : Source) (cursor : Cursor) : Prop :=
  ∀ {item : Located} {after : Cursor}, cursor.next source = (.ok item, after) →
    ∃ peeked, cursor.peek source = (.ok item.event.token, peeked) ∧
      peeked.next source = (.ok item, after)

/-- An error to come is met by the look ahead or still comes after it, and the look ahead does not
promise the end in its place. -/
def Warns (source : Source) (cursor : Cursor) : Prop :=
  ∀ {error : Error} {after : Cursor}, cursor.next source = (.error error, after) →
    (∃ peeked, cursor.peek source = (.error error, peeked)) ∨
      ∃ token peeked after, token ≠ .endOfStream ∧ cursor.peek source = (.ok token, peeked) ∧
        peeked.next source = (.error error, after)

theorem promises_mapValue (hchild : child.Promises source) :
    (mapValue path depth child rest).Promises source := by
  intro item after h
  obtain ⟨result, child', hnext⟩ : ∃ result child', child.next source = (result, child') :=
    ⟨_, _, rfl⟩
  cases result with
  | error error =>
    rw [next_mapValue_error hnext] at h
    exact absurd (congrArg Prod.fst h) (by simp)
  | ok item' =>
    obtain ⟨peeked, hpeek, hpeeked⟩ := hchild hnext
    by_cases hend : item'.event = .endOfStream
    -- the child is at its end, and both calls go on behind the value
    · rw [hend] at hpeek
      simp only [next, hnext, hend, ↓reduceIte] at h
      refine ⟨_, ?_, next_afterValue.trans h⟩
      rw [peek_mapValue_end hpeek, token_nextHere (congrArg Prod.fst h)]
    · rw [next_mapValue hnext hend] at h
      obtain ⟨hitem, rfl⟩ := Prod.ext_iff.1 h
      obtain rfl : item' = item := by simpa using hitem
      exact ⟨_, peek_mapValue hpeek (token_ne_of_event_ne hend), next_mapValue hpeeked hend⟩

theorem promises_listItem (hchild : child.Promises source) :
    (listItem path depth child rest).Promises source := by
  intro item after h
  obtain ⟨result, child', hnext⟩ : ∃ result child', child.next source = (result, child') :=
    ⟨_, _, rfl⟩
  cases result with
  | error error =>
    rw [next_listItem_error hnext] at h
    exact absurd (congrArg Prod.fst h) (by simp)
  | ok item' =>
    obtain ⟨peeked, hpeek, hpeeked⟩ := hchild hnext
    by_cases hend : item'.event = .endOfStream
    · rw [hend] at hpeek
      cases rest with
      -- behind the last item only the end of the list is left
      | nil =>
        simp only [next, hnext, hend, ↓reduceIte] at h
        refine ⟨listEnd path, ?_, h⟩
        obtain rfl : ⟨.listEnd, path⟩ = item := by simpa using congrArg Prod.fst h
        simp only [peek, hpeek, Event.token]
      | cons index rest =>
        cases hresolve : resolveAt source (Path.join path index) (depth + 1) with
        | error error =>
          simp only [next, hnext, hend, hresolve, ↓reduceIte] at h
          exact absurd (congrArg Prod.fst h) (by simp)
        -- the look ahead goes into the next item, where the call behind it finds its first event
        | ok fresh =>
          have hfresh := isFresh_of_resolveAt hresolve
          simp only [next, hnext, hend, hresolve, ↓reduceIte] at h
          refine ⟨listItem path depth fresh rest, ?_, (next_listItem_of_isFresh hfresh).trans h⟩
          rw [token_nextHere (congrArg Prod.fst h)]
          simp only [peek, hpeek, hresolve, Event.token]
    · rw [next_listItem hnext hend] at h
      obtain ⟨hitem, rfl⟩ := Prod.ext_iff.1 h
      obtain rfl : item' = item := by simpa using hitem
      exact ⟨_, peek_listItem hpeek (token_ne_of_event_ne hend), next_listItem hpeeked hend⟩

/-- Looking ahead promises every event to come, inside any child. -/
theorem promises (source : Source) (cursor : Cursor) : cursor.Promises source := by
  induction cursor with
  | mapValue path depth child rest ih => exact promises_mapValue ih
  | listItem path depth child rest ih => exact promises_listItem ih
  | _ =>
    intro item after h
    refine ⟨_, ?_, h⟩
    rw [token_nextHere (congrArg Prod.fst h)]
    rfl

theorem warns_mapValue (hchild : child.Warns source) :
    (mapValue path depth child rest).Warns source := by
  intro error after h
  obtain ⟨result, child', hnext⟩ : ∃ result child', child.next source = (result, child') :=
    ⟨_, _, rfl⟩
  cases result with
  | error error' =>
    rw [next_mapValue_error hnext] at h
    obtain rfl : error' = error := by simpa using congrArg Prod.fst h
    rcases hchild hnext with ⟨peeked, hpeek⟩ | ⟨token, peeked, after', hne, hpeek, hpeeked⟩
    · exact .inl ⟨_, peek_mapValue hpeek (by simp)⟩
    · exact .inr ⟨token, _, _, hne, peek_mapValue hpeek (by simpa using hne),
        next_mapValue_error hpeeked⟩
  | ok item =>
    obtain ⟨peeked, hpeek, -⟩ := promises source child hnext
    by_cases hend : item.event = .endOfStream
    · rw [hend] at hpeek
      simp only [next, hnext, hend, ↓reduceIte] at h
      -- the look ahead stops in front of the next entry, and the call behind it fails there
      refine .inr ⟨_, _, _, ?_, peek_mapValue_end hpeek, next_afterValue.trans h⟩
      cases rest <;> simp [afterValue, peekHere]
    · rw [next_mapValue hnext hend] at h
      exact absurd (congrArg Prod.fst h) (by simp)

theorem warns_listItem (hchild : child.Warns source) :
    (listItem path depth child rest).Warns source := by
  intro error after h
  obtain ⟨result, child', hnext⟩ : ∃ result child', child.next source = (result, child') :=
    ⟨_, _, rfl⟩
  cases result with
  | error error' =>
    rw [next_listItem_error hnext] at h
    obtain rfl : error' = error := by simpa using congrArg Prod.fst h
    rcases hchild hnext with ⟨peeked, hpeek⟩ | ⟨token, peeked, after', hne, hpeek, hpeeked⟩
    · exact .inl ⟨_, peek_listItem hpeek (by simp)⟩
    · exact .inr ⟨token, _, _, hne, peek_listItem hpeek (by simpa using hne),
        next_listItem_error hpeeked⟩
  | ok item =>
    obtain ⟨peeked, hpeek, -⟩ := promises source child hnext
    by_cases hend : item.event = .endOfStream
    · rw [hend] at hpeek
      cases rest with
      | nil =>
        simp only [next, hnext, hend, ↓reduceIte] at h
        exact absurd (congrArg Prod.fst h) (by simp)
      | cons index rest =>
        cases hresolve : resolveAt source (Path.join path index) (depth + 1) with
        -- the next item fails to resolve, for the look ahead and for the call
        | error error' =>
          simp only [next, hnext, hend, hresolve, ↓reduceIte] at h
          obtain rfl : error' = error := by simpa using congrArg Prod.fst h
          refine .inl ⟨listItem path depth peeked rest, ?_⟩
          simp only [peek, hpeek, hresolve, Event.token]
        | ok fresh =>
          have hfresh := isFresh_of_resolveAt hresolve
          simp only [next, hnext, hend, hresolve, ↓reduceIte] at h
          refine .inr ⟨fresh.peekHere, listItem path depth fresh rest, _,
            peekHere_ne_of_isFresh hfresh, ?_, (next_listItem_of_isFresh hfresh).trans h⟩
          simp only [peek, hpeek, hresolve, Event.token]
    · rw [next_listItem hnext hend] at h
      exact absurd (congrArg Prod.fst h) (by simp)

/-- Looking ahead warns of every error to come, inside any child. -/
theorem warns (source : Source) (cursor : Cursor) : cursor.Warns source := by
  induction cursor with
  | mapValue path depth child rest ih => exact warns_mapValue ih
  | listItem path depth child rest ih => exact warns_listItem ih
  | mapKey path depth entry rest =>
    intro error after h
    exact .inr ⟨_, _, _, by simp [peekHere], rfl, h⟩
  | listStart path depth indexes =>
    intro error after h
    exact .inr ⟨_, _, _, by simp [peekHere], rfl, h⟩
  | leaf path scalar =>
    intro error after h
    cases scalar <;> exact absurd (congrArg Prod.fst h) (by simp [next, nextHere])
  | _ =>
    intro error after h
    exact absurd (congrArg Prod.fst h) (by simp [next, nextHere])

end Cursor

/-! ### Resolved nodes -/

namespace Node

/-- A call on a node is a call on its cursor. -/
theorem next_eq {cursor after : Cursor} {result : Except Error Located} (kind : NodeKind)
    (h : cursor.next source = (result, after)) :
    EventSource.next (⟨source, kind, cursor⟩ : Node) = (result, ⟨source, kind, after⟩) := by
  show (let r := cursor.next source; (r.1, ({ source, kind, cursor := r.2 } : Node))) = _
  rw [h]

/-- Looking ahead on a node is looking ahead on its cursor. -/
theorem peek_eq {cursor peeked : Cursor} {result : Except Error Token} (kind : NodeKind)
    (h : cursor.peek source = (result, peeked)) :
    EventSource.peek (⟨source, kind, cursor⟩ : Node) = (result, ⟨source, kind, peeked⟩) := by
  show (let r := cursor.peek source; (r.1, ({ source, kind, cursor := r.2 } : Node))) = _
  rw [h]

instance : LawfulPeek Node where
  peek_of_next {node node' item} h := by
    obtain ⟨source, kind, cursor⟩ := node
    rw [next_eq kind rfl, Prod.mk.injEq] at h
    obtain ⟨hitem, rfl⟩ := h
    obtain ⟨peeked, hpeek, hnext⟩ := Cursor.promises source cursor (Prod.ext hitem rfl)
    exact ⟨_, peek_eq kind hpeek, next_eq kind hnext⟩
  peek_of_next_error {node node' error} h := by
    obtain ⟨source, kind, cursor⟩ := node
    rw [next_eq kind rfl, Prod.mk.injEq] at h
    obtain ⟨herror, rfl⟩ := h
    rcases Cursor.warns source cursor (Prod.ext herror rfl) with
      ⟨peeked, hpeek⟩ | ⟨token, peeked, after, -, hpeek, hnext⟩
    · exact .inl ⟨_, peek_eq kind hpeek⟩
    · exact .inr ⟨token, _, _, peek_eq kind hpeek, next_eq kind hnext⟩

/-- A run of a cursor is a run of any node at that cursor. -/
theorem run_of_cursor {cursor after : Cursor} {items : List Located} (kind : NodeKind)
    (run : Run (Cursor.next source) cursor items after) :
    Run EventSource.next (⟨source, kind, cursor⟩ : Node) items ⟨source, kind, after⟩ := by
  induction run with
  | nil => exact .nil _
  | cons head _ ih => exact .cons (next_eq kind head) ih

end Node

end LayeredConfig.Resolution
