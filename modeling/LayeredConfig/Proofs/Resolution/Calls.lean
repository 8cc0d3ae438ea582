import LayeredConfig.Proofs.Document.Steps
import LayeredConfig.Proofs.Resolution.Walk
import LayeredConfig.Proofs.Stream.Calls

/-!
# Calls of documents and of resolved trees

Looking ahead is not idle inside a tree: it passes over children at their end and resolves the next
item of a list, on every level. It can only fail at an item that lies too deep. All items of a list
lie on one level, so this does not happen behind an item that has been resolved. `Cursor.Sound`
states this of the lists that a cursor stands in, and every call keeps it, also one that fails.

* `Cursor.next_peek`: the call behind a look ahead is the one without it, with the same state after
  it.
* `Node.peekInvariant`, `Parser.peekInvariant`: looking ahead is harmless in nodes with a sound
  cursor, and in every state of a parser.
-/

namespace LayeredConfig.Resolution

variable {source : Source} {path : String} {depth : Nat} {cursor child : Cursor}
  {rest : List String}

/-- Only what lies within the limit resolves. -/
theorem depth_le_of_resolveAt (h : resolveAt source path depth = .ok cursor) :
    depth ≤ maxDepth := by
  by_contra hdepth
  rw [resolveAt_of_lt (Nat.lt_of_not_le hdepth)] at h
  exact absurd h (by simp)

/-- Whatever lies within the limit resolves. -/
theorem exists_resolveAt (source : Source) (path : String) (h : depth ≤ maxDepth) :
    ∃ cursor, resolveAt source path depth = .ok cursor := by
  rw [resolveAt, if_neg (Nat.not_lt.2 h)]
  split
  next => exact ⟨_, rfl⟩
  next => split <;> exact ⟨_, rfl⟩

namespace Cursor

/-- The items of all lists that the cursor stands in lie within the limit. -/
def Sound : Cursor → Prop
  | mapValue _ _ child _ => child.Sound
  | listItem _ depth child _ => depth < maxDepth ∧ child.Sound
  | _ => True

theorem IsFresh.sound (h : cursor.IsFresh) : cursor.Sound := by
  cases cursor <;> trivial

theorem sound_afterValue (path : String) (depth : Nat) (rest : List String) :
    (afterValue path depth rest).Sound := by
  cases rest <;> trivial

/-- Going into a child keeps the cursor sound: the first item of a list has been resolved. -/
theorem sound_nextHere (h : cursor.Sound) : (cursor.nextHere source).2.Sound := by
  fun_cases nextHere source cursor with
  | case5 path depth key rest child hchild => exact (isFresh_of_resolveAt hchild).sound
  | case9 path depth index rest child hchild =>
    exact ⟨depth_le_of_resolveAt hchild, (isFresh_of_resolveAt hchild).sound⟩
  | case12 | case13 => exact h
  | _ => trivial

/-- Every call keeps the cursor sound, also where it fails. -/
theorem sound_next (h : cursor.Sound) : (cursor.next source).2.Sound := by
  fun_induction next source cursor with
  | case1 path depth child rest r error herror ih => exact ih h
  | case2 path depth child rest r item hitem hend ih =>
    exact sound_nextHere (sound_afterValue path depth rest)
  | case3 path depth child rest r item hitem hend ih => exact ih h
  | case4 path depth child rest r error herror ih => exact ⟨h.1, ih h.2⟩
  | case5 => trivial
  | case6 path depth child r item hitem hend index rest error herror ih => exact ⟨h.1, ih h.2⟩
  | case7 path depth child r item hitem hend index rest fresh hfresh r' ih =>
    exact ⟨h.1, sound_nextHere (isFresh_of_resolveAt hfresh).sound⟩
  | case8 path depth child rest r item hitem hend ih => exact ⟨h.1, ih h.2⟩
  | case9 cursor => exact sound_nextHere h

/-- Looking ahead keeps the cursor sound. -/
theorem sound_peek (h : cursor.Sound) : (cursor.peek source).2.Sound := by
  fun_induction peek source cursor with
  | case1 path depth child rest r hend next ih => exact sound_afterValue path depth rest
  | case2 path depth child rest r hend ih => exact ih h
  | case3 => trivial
  | case4 path depth child r hend index rest fresh hfresh ih =>
    exact ⟨h.1, (isFresh_of_resolveAt hfresh).sound⟩
  | case5 path depth child r hend index rest error herror ih => exact ⟨h.1, ih h.2⟩
  | case6 path depth child rest r hend ih => exact ⟨h.1, ih h.2⟩
  | case7 cursor => exact h

/-- Looking ahead succeeds, as the next item of a list lies as deep as the one before it. -/
theorem exists_token_of_sound (h : cursor.Sound) :
    ∃ token, (cursor.peek source).1 = .ok token := by
  fun_induction peek source cursor with
  | case1 => exact ⟨_, rfl⟩
  | case2 path depth child rest r hend ih => exact ih h
  | case3 => exact ⟨_, rfl⟩
  | case4 => exact ⟨_, rfl⟩
  | case5 path depth child r hend index rest error herror ih =>
    obtain ⟨fresh, hfresh⟩ := exists_resolveAt source (Path.join path index) h.1
    rw [hfresh] at herror
    exact absurd herror (by simp)
  | case6 path depth child rest r hend ih => exact ih h.2
  | case7 => exact ⟨_, rfl⟩

/-- Where the look ahead tells the end, the end comes. -/
theorem exists_next_of_peek_end (h : (cursor.peek source).1 = .ok .endOfStream) :
    ∃ item after, cursor.next source = (.ok item, after) ∧ item.event = .endOfStream := by
  obtain ⟨result, after, hnext⟩ : ∃ result after, cursor.next source = (result, after) :=
    ⟨_, _, rfl⟩
  cases result with
  | error error =>
    -- an error to come is not hidden behind the end
    rcases warns source cursor hnext with ⟨peeked, hpeek⟩ | ⟨token, peeked, -, hne, hpeek, -⟩
    · rw [hpeek] at h
      exact absurd h (by simp)
    · rw [hpeek, Except.ok.injEq] at h
      exact absurd h hne
  | ok item =>
    obtain ⟨peeked, hpeek, -⟩ := promises source cursor hnext
    rw [hpeek, Except.ok.injEq] at h
    refine ⟨item, after, hnext, ?_⟩
    by_contra hne
    exact Event.token_ne_of_ne hne h

/-- The call behind a look ahead is the call without it. -/
theorem next_peek (h : cursor.Sound) :
    (cursor.peek source).2.next source = cursor.next source := by
  fun_induction peek source cursor with
  | case1 path depth child rest r hend following ih =>
    -- both calls go on behind the value
    obtain ⟨item, after, hnext, hevent⟩ := exists_next_of_peek_end hend
    simp only [next, hnext, hevent, ↓reduceIte]
    exact next_afterValue
  | case2 path depth child rest r hend ih =>
    simp only [next]
    rw [ih h]
  | case3 path depth child r hend ih =>
    obtain ⟨item, after, hnext, hevent⟩ := exists_next_of_peek_end hend
    simp only [next, nextHere, hnext, hevent, ↓reduceIte]
  | case4 path depth child r hend index rest fresh hfresh ih =>
    -- the look ahead has gone into the next item, where the other call finds its first event
    obtain ⟨item, after, hnext, hevent⟩ := exists_next_of_peek_end hend
    rw [next_listItem_of_isFresh (isFresh_of_resolveAt hfresh)]
    simp only [next, hnext, hevent, hfresh, ↓reduceIte]
  | case5 path depth child r hend index rest error herror ih =>
    obtain ⟨fresh, hfresh⟩ := exists_resolveAt source (Path.join path index) h.1
    rw [hfresh] at herror
    exact absurd herror (by simp)
  | case6 path depth child rest r hend ih =>
    unfold next
    rw [ih h.2]
  | case7 cursor => rfl

end Cursor

/-- Looking ahead is harmless in nodes with a sound cursor. -/
theorem Node.peekInvariant : PeekInvariant fun node : Node => node.cursor.Sound where
  peek h := Cursor.sound_peek h
  next h := Cursor.sound_next h
  exists_token h := Cursor.exists_token_of_sound h
  next_peek {node} h := by
    obtain ⟨source, kind, cursor⟩ := node
    exact next_eq kind (Cursor.next_peek h)
  token_eq {node item} _ hnext := by
    obtain ⟨peeked, hpeek, -⟩ := LawfulPeek.peek_of_next (Prod.ext hnext rfl)
    exact congrArg Prod.fst hpeek

end LayeredConfig.Resolution

namespace LayeredConfig.Document.Parser

/-- Looking ahead is harmless in every state of a parser. -/
theorem peekInvariant : PeekInvariant fun _ : Parser => True where
  peek _ := trivial
  next _ := trivial
  exists_token _ := ⟨_, rfl⟩
  next_peek {p} _ := next_skip p
  token_eq {p item} _ hnext := by
    obtain ⟨peeked, hpeek, -⟩ := LawfulPeek.peek_of_next (Prod.ext hnext rfl)
    exact congrArg Prod.fst hpeek

end LayeredConfig.Document.Parser
