import LayeredConfig.Proofs.Resolution.Failure
import LayeredConfig.Resolution.Visit.Stream

/-!
# Visits and cursors

The fields of a visit admit states that no cursor has: a map that comes to a name without a current
entry, a map or a list inside a child that is not there, or a child whose scalar has been taken. A
step from such a state would fail with an internal error, or refuse to move the scalar.

`StandsAt` says which cursor a visit stands for. Its fields are consistent then, and each step takes
a visit that stands for a cursor to one that stands for the cursor behind it
(`StandsAt.matches_next`, `StandsAt.looksAlike_peek`), also where the step fails halfway. So a visit
that starts from a resolved path never leaves these states.

* `Matches`, `LooksAlike`: a step and a look ahead that are the same on both sides.
* `Matches.mapValue`, `Matches.listItem`: what is the same inside a child is the same around it.
-/

namespace LayeredConfig.Resolution

variable {source : Source} {path : String} {depth : Nat}

namespace Visit

variable {visit child : Visit}

/-! ### Slots -/

@[simp]
theorem slot_advance (m : MapVisit Visit) : (map m.advance).slot = m.slot := by
  unfold MapVisit.advance
  split <;> rfl

theorem withSlot_slot (visit : Visit) : visit.withSlot visit.slot = visit := by
  cases visit <;> rfl

/-- Behind a token of a child the slot around it takes over what can be read. -/
theorem relay_of_slot {item : Located} (h : child.slot = .ofLocated item) :
    ∃ slot, child.relay item.event.token = (.ok (.ofLocated item), child.withSlot slot) := by
  obtain ⟨event, path⟩ := item
  unfold relay readScalar
  rw [h]
  -- only names and values are read from the child
  cases event with
  | key name => exact ⟨_, rfl⟩
  | value scalar => exact ⟨_, rfl⟩
  | _ =>
    refine ⟨child.slot, ?_⟩
    rw [withSlot_slot]
    rfl

/-! ### Steps inside a child -/

/-- Inside a child a map hands on what the child gives, and the next entry comes behind it. -/
theorem next_map {m : MapVisit Visit} (hphase : m.phase = .value) (hchild : m.child = some child) :
    (map m).next source =
      match child.next source with
      | (.error error, child) => (.error error, map { m with child := some child })
      | (.ok token, child) =>
        if token = .endOfStream then
          (map m.advance).next source
        else
          match child.relay token with
          | (.error error, child) => (.error error, map { m with child := some child })
          | (.ok slot, child) => (.ok token, map { m with child := some child, slot }) := by
  rw [next]
  simp only [hphase]
  split
  next hnone => exact absurd (hchild.symm.trans hnone) (by simp)
  next child' hchild' =>
    obtain rfl : child' = child := Option.some.inj (hchild'.symm.trans hchild)
    rcases child'.next source with ⟨error | token, after⟩ <;> rfl

/-- Inside a child a list hands on what the child gives, and resolves the next item behind it. -/
theorem next_list {l : ListVisit Visit} (hphase : l.phase = .value)
    (hchild : l.child = some child) :
    (list l).next source =
      match child.next source with
      | (.error error, child) => (.error error, list { l with child := some child })
      | (.ok token, child) =>
        if token = .endOfStream then
          match l.advance source with
          | (.error error, l) => (.error error, list l)
          | (.ok _, l) => (list l).next source
        else
          match child.relay token with
          | (.error error, child) => (.error error, list { l with child := some child })
          | (.ok slot, child) => (.ok token, list { l with child := some child, slot }) := by
  rw [next]
  simp only [hphase]
  split
  next hnone => exact absurd (hchild.symm.trans hnone) (by simp)
  next child' hchild' =>
    obtain rfl : child' = child := Option.some.inj (hchild'.symm.trans hchild)
    rcases child'.next source with ⟨error | token, after⟩
    · rfl
    · dsimp only
      split
      · split <;> simp_all
      · rfl

/-- Inside a child a map looks ahead in it, and passes over it at its end. -/
theorem peek_map {m : MapVisit Visit} (hphase : m.phase = .value) (hchild : m.child = some child) :
    (map m).peek source =
      if (child.peek source).1 = .ok .endOfStream then
        (map m.advance).peek source
      else
        ((child.peek source).1, map { m with child := some (child.peek source).2 }) := by
  rw [peek]
  simp only [hphase]
  split
  next hnone => exact absurd (hchild.symm.trans hnone) (by simp)
  next child' hchild' =>
    obtain rfl : child' = child := Option.some.inj (hchild'.symm.trans hchild)
    rcases child'.peek source with ⟨error | token, after⟩
    · simp
    · simp only [Except.ok.injEq]

/-- Inside a child a list looks ahead in it, and resolves the next item at its end. -/
theorem peek_list {l : ListVisit Visit} (hphase : l.phase = .value)
    (hchild : l.child = some child) :
    (list l).peek source =
      if (child.peek source).1 = .ok .endOfStream then
        match l.advance source with
        | (.error error, l) => (.error error, list l)
        | (.ok _, l) => (list l).peek source
      else
        ((child.peek source).1, list { l with child := some (child.peek source).2 }) := by
  rw [peek]
  simp only [hphase]
  split
  next hnone => exact absurd (hchild.symm.trans hnone) (by simp)
  next child' hchild' =>
    obtain rfl : child' = child := Option.some.inj (hchild'.symm.trans hchild)
    rcases child'.peek source with ⟨error | token, after⟩
    · simp
    · simp only [Except.ok.injEq]
      split
      · split <;> simp_all
      · rfl

end Visit

/-! ### Visits that stand for cursors -/

/-- A visit that is not inside a child stands for a cursor. What is left in fields that its phase
does not use does not matter. -/
inductive StandsOutside : Visit → Cursor → Prop
  | leaf (path : String) (scalar : Option Scalar) (slot : Slot) :
      StandsOutside (.leaf ⟨path, scalar, false, slot⟩) (.leaf path scalar)
  | leafDone (path : String) (scalar : Option Scalar) (slot : Slot) :
      StandsOutside (.leaf ⟨path, scalar, true, slot⟩) (.done path)
  | mapStart (path : String) (depth : Nat) (keys : List String) (slot : Slot) :
      StandsOutside (.map ⟨path, depth, .own :: keys.map .child, none, none, .start, slot⟩)
        (.mapStart path depth keys)
  | mapKey (path : String) (depth : Nat) (entry : Entry) (rest : List String) (slot : Slot) :
      StandsOutside (.map ⟨path, depth, rest.map .child, some entry, none, .key, slot⟩)
        (.mapKey path depth entry rest)
  | mapEnd (path : String) (depth : Nat) (entries : List Entry) (current : Option Entry)
      (slot : Slot) :
      StandsOutside (.map ⟨path, depth, entries, current, none, .finish, slot⟩) (.mapEnd path)
  | mapDone (path : String) (depth : Nat) (entries : List Entry) (current : Option Entry)
      (slot : Slot) :
      StandsOutside (.map ⟨path, depth, entries, current, none, .done, slot⟩) (.done path)
  | listStart (path : String) (depth : Nat) (indexes : List String) (slot : Slot) :
      StandsOutside (.list ⟨path, depth, indexes, none, .start, slot⟩)
        (.listStart path depth indexes)
  | listEnd (path : String) (depth : Nat) (indexes : List String) (slot : Slot) :
      StandsOutside (.list ⟨path, depth, indexes, none, .finish, slot⟩) (.listEnd path)
  | listDone (path : String) (depth : Nat) (indexes : List String) (slot : Slot) :
      StandsOutside (.list ⟨path, depth, indexes, none, .done, slot⟩) (.done path)

/-- A visit stands for a cursor: both are in the same node, and the visits inside stand for the
cursors inside. Where a list is inside an item, there is a level left for its items. -/
inductive StandsAt : Visit → Cursor → Prop
  | outside {visit : Visit} {cursor : Cursor} (h : StandsOutside visit cursor) :
      StandsAt visit cursor
  | mapValue (path : String) (depth : Nat) (rest : List String) (current : Option Entry)
      (slot : Slot) {visit : Visit} {child : Cursor} (hchild : StandsAt visit child) :
      StandsAt (.map ⟨path, depth, rest.map .child, current, some visit, .value, slot⟩)
        (.mapValue path depth child rest)
  | listItem (path : String) {depth : Nat} (rest : List String) (slot : Slot) {visit : Visit}
      {child : Cursor} (hdepth : depth < maxDepth) (hchild : StandsAt visit child) :
      StandsAt (.list ⟨path, depth, rest, some visit, .value, slot⟩)
        (.listItem path depth child rest)

/-- The same step of a visit and of a cursor: the token is that of the event, and the slot of the
visit is then what can be read of the event. A failure leaves the slot as it is. -/
inductive Matches (slot : Slot) :
    Except Error Token × Visit → Except Error Located × Cursor → Prop
  | event (item : Located) {visit : Visit} {cursor : Cursor} (hstands : StandsAt visit cursor)
      (hslot : visit.slot = .ofLocated item) :
      Matches slot (.ok item.event.token, visit) (.ok item, cursor)
  | error {error : Error} {visit : Visit} {cursor : Cursor} (hstands : StandsAt visit cursor)
      (hslot : visit.slot = slot) : Matches slot (.error error, visit) (.error error, cursor)

/-- The same look ahead of a visit and of a cursor, which leaves the slot of the visit as it is. -/
structure LooksAlike (slot : Slot) (look : Except Error Token × Visit)
    (look' : Except Error Token × Cursor) : Prop where
  result_eq : look.1 = look'.1
  stands : StandsAt look.2 look'.2
  slot_eq : look.2.slot = slot

variable {visit : Visit} {cursor : Cursor} {rest : List String}

theorem StandsOutside.withSlot (h : StandsOutside visit cursor) (slot : Slot) :
    StandsOutside (visit.withSlot slot) cursor := by
  cases h <;> constructor

/-- Another slot does not move a visit. -/
theorem StandsAt.withSlot (h : StandsAt visit cursor) (slot : Slot) :
    StandsAt (visit.withSlot slot) cursor := by
  cases h with
  | outside h => exact .outside (h.withSlot slot)
  | mapValue path depth rest current _ hchild => exact .mapValue path depth rest current slot hchild
  | listItem path rest _ hdepth hchild => exact .listItem path rest slot hdepth hchild

/-- The cursors that stand for visits do not stand in lists that leave their items no level. -/
theorem StandsAt.sound (h : StandsAt visit cursor) : cursor.Sound := by
  induction h with
  | outside h => cases h <;> trivial
  | mapValue _ _ _ _ _ _ ih => exact ih
  | listItem _ _ _ hdepth _ ih => exact ⟨hdepth, ih⟩

/-- A path resolves to a visit and to a cursor that it stands for, or to neither of them. -/
theorem exists_standsOutside_or_error (source : Source) (path : String) (depth : Nat) :
    (∃ visit cursor, Visit.resolveAt source path depth = .ok visit ∧
      resolveAt source path depth = .ok cursor ∧ StandsOutside visit cursor ∧
      visit.slot = .initial path) ∨
    ∃ error, Visit.resolveAt source path depth = .error error ∧
      resolveAt source path depth = .error error := by
  unfold Visit.resolveAt resolveAt
  split
  next => exact .inr ⟨_, rfl, rfl⟩
  next =>
    left
    cases source.keys path with
    | nil => exact ⟨_, _, rfl, rfl, .leaf path _ _, rfl⟩
    | cons key keys =>
      dsimp only
      cases listIndexes? (key :: keys) with
      | some indexes => exact ⟨_, _, rfl, rfl, .listStart path depth indexes _, rfl⟩
      | none => exact ⟨_, _, rfl, rfl, .mapStart path depth (key :: keys) _, rfl⟩

/-- Within the limit every path resolves to a visit and to a cursor that it stands for. -/
theorem exists_standsOutside_of_le (source : Source) (path : String) (h : depth ≤ maxDepth) :
    ∃ visit cursor, Visit.resolveAt source path depth = .ok visit ∧
      resolveAt source path depth = .ok cursor ∧ StandsOutside visit cursor ∧
      visit.slot = .initial path := by
  apply (exists_standsOutside_or_error source path depth).resolve_right
  rintro ⟨error, -, herror⟩
  obtain ⟨cursor, hcursor⟩ := exists_resolveAt source path h
  exact absurd (hcursor.symm.trans herror) (by simp)

/-- Behind the value of an entry a map stands before its next entry or before its end. -/
theorem standsOutside_advance {m : MapVisit Visit} (h : m.entries = rest.map .child) :
    StandsOutside (.map m.advance) (.afterValue m.path m.depth rest) := by
  obtain ⟨path, depth, entries, current, child, phase, slot⟩ := m
  obtain rfl : entries = rest.map .child := h
  cases rest with
  | nil => exact .mapEnd path depth [] none slot
  | cons key rest => exact .mapKey path depth (.child key) rest slot

/-! ### Steps outside of children -/

namespace StandsOutside

/-- A step that does not begin inside a child is the same for the visit and the cursor. -/
theorem matches_next (h : StandsOutside visit cursor) :
    Matches visit.slot (visit.next source) (cursor.nextHere source) := by
  cases h with
  | leaf path scalar slot =>
    rw [Visit.next]
    cases scalar with
    | none => exact .event ⟨.null, path⟩ (.outside (.leafDone path none _)) rfl
    | some scalar =>
      exact .event ⟨.value scalar, path⟩ (.outside (.leafDone path none _)) rfl
  | leafDone path scalar slot =>
    rw [Visit.next]
    exact .event ⟨.endOfStream, path⟩ (.outside (.leafDone path scalar _)) rfl
  | mapStart path depth keys slot =>
    rw [Visit.next]
    exact .event ⟨.objectStart, path⟩ (.outside (.mapKey path depth .own keys _)) rfl
  | mapKey path depth entry rest slot =>
    rw [Visit.next]
    cases entry with
    | own =>
      exact .event ⟨.key pathKey, Path.join path pathKey⟩
        (.mapValue path depth rest _ _ (.outside (.leaf _ _ _))) rfl
    | child key =>
      -- the map stays before an entry whose value does not resolve
      rcases exists_standsOutside_or_error source (Path.join path key) (depth + 1) with
        ⟨child, cursor, hvisit, hcursor, hstands, -⟩ | ⟨error, hvisit, hcursor⟩
      · simp only [MapVisit.openEntry, Cursor.nextHere, hvisit, hcursor]
        exact .event ⟨.key key, Path.join path key⟩
          (.mapValue path depth rest _ _ (.outside hstands)) rfl
      · simp only [MapVisit.openEntry, Cursor.nextHere, hvisit, hcursor]
        exact .error (.outside (.mapKey path depth (.child key) rest slot)) rfl
  | mapEnd path depth entries current slot =>
    rw [Visit.next]
    exact .event ⟨.objectEnd, path⟩ (.outside (.mapDone path depth entries current _)) rfl
  | mapDone path depth entries current slot =>
    rw [Visit.next]
    exact .event ⟨.endOfStream, path⟩
      (.outside (.mapDone path depth entries current _)) rfl
  | listStart path depth indexes slot =>
    rw [Visit.next]
    cases indexes with
    | nil => exact .event ⟨.listStart, path⟩ (.outside (.listEnd path depth [] _)) rfl
    | cons index rest =>
      -- an item that does not resolve is dropped, and the list stays before its start
      rcases exists_standsOutside_or_error source (Path.join path index) (depth + 1) with
        ⟨child, cursor, hvisit, hcursor, hstands, -⟩ | ⟨error, hvisit, hcursor⟩
      · have hdepth : depth < maxDepth := depth_le_of_resolveAt hcursor
        simp only [ListVisit.advance, Cursor.nextHere, hvisit, hcursor]
        exact .event ⟨.listStart, path⟩
          (.listItem path rest _ hdepth (.outside hstands)) rfl
      · simp only [ListVisit.advance, Cursor.nextHere, hvisit, hcursor]
        exact .error (.outside (.listStart path depth rest slot)) rfl
  | listEnd path depth indexes slot =>
    rw [Visit.next]
    exact .event ⟨.listEnd, path⟩ (.outside (.listDone path depth indexes _)) rfl
  | listDone path depth indexes slot =>
    rw [Visit.next]
    exact .event ⟨.endOfStream, path⟩ (.outside (.listDone path depth indexes _)) rfl

/-- Looking ahead outside of a child is the same for the visit and the cursor, and moves neither. -/
theorem peek_eq (h : StandsOutside visit cursor) :
    visit.peek source = (.ok cursor.peekHere, visit) := by
  cases h with
  | leaf path scalar slot =>
    rw [Visit.peek]
    cases scalar <;> rfl
  | _ =>
    rw [Visit.peek]
    rfl

/-- Outside of a child the calls of a cursor are those that do not go into one. -/
theorem cursor_eq (h : StandsOutside visit cursor) :
    cursor.next source = cursor.nextHere source ∧
      cursor.peek source = (.ok cursor.peekHere, cursor) := by
  cases h <;> exact ⟨rfl, rfl⟩

end StandsOutside

/-! ### Steps inside of children -/

namespace Matches

variable {child : Visit} {inner : Cursor}

/-- A map hands on what the value of its entry gives, and its next step is the one behind a value
that is at its end. -/
theorem mapValue (h : Matches child.slot (child.next source) (inner.next source))
    (current : Option Entry) (slot : Slot) :
    Matches slot
      ((Visit.map ⟨path, depth, rest.map .child, current, some child, .value, slot⟩).next source)
      ((Cursor.mapValue path depth inner rest).next source) := by
  rw [Visit.next_map rfl rfl]
  revert h
  generalize child.next source = step, hinner : inner.next source = step'
  rintro (⟨item, hstands, hslot⟩ | ⟨hstands, -⟩)
  · by_cases hevent : item.event = .endOfStream
    · let m : MapVisit Visit := ⟨path, depth, rest.map .child, current, some child, .value, slot⟩
      have hafter : Matches (Visit.map m.advance).slot ((Visit.map m.advance).next source)
          ((Cursor.afterValue path depth rest).nextHere source) :=
        (standsOutside_advance rfl).matches_next
      rw [Visit.slot_advance] at hafter
      simp only [hevent, Event.token, ↓reduceIte, Cursor.next, hinner]
      exact hafter
    · obtain ⟨taken, hrelay⟩ := Visit.relay_of_slot hslot
      rw [Cursor.next_mapValue hinner hevent]
      simp only [Event.token_ne_of_ne hevent, ↓reduceIte, hrelay]
      exact .event item (.mapValue path depth rest current _ (hstands.withSlot taken)) rfl
  · rw [Cursor.next_mapValue_error hinner]
    exact .error (.mapValue path depth rest current slot hstands) rfl

/-- A list hands on what its item gives, as long as the item is not at its end. -/
theorem listItem_of_ne (h : Matches child.slot (child.next source) (inner.next source))
    (slot : Slot) (hdepth : depth < maxDepth)
    (hne : ∀ item, (inner.next source).1 = .ok item → item.event ≠ .endOfStream) :
    Matches slot ((Visit.list ⟨path, depth, rest, some child, .value, slot⟩).next source)
      ((Cursor.listItem path depth inner rest).next source) := by
  rw [Visit.next_list rfl rfl]
  revert h
  generalize child.next source = step, hinner : inner.next source = step'
  rintro (⟨item, hstands, hslot⟩ | ⟨hstands, -⟩)
  · have hevent : item.event ≠ .endOfStream := hne item (congrArg Prod.fst hinner)
    obtain ⟨taken, hrelay⟩ := Visit.relay_of_slot hslot
    rw [Cursor.next_listItem hinner hevent]
    simp only [Event.token_ne_of_ne hevent, ↓reduceIte, hrelay]
    exact .event item (.listItem path rest _ hdepth (hstands.withSlot taken)) rfl
  · rw [Cursor.next_listItem_error hinner]
    exact .error (.listItem path rest slot hdepth hstands) rfl

/-- Behind an item that is at its end the next step of a list is the first one of the next item, or
its end. -/
theorem listItem (h : Matches child.slot (child.next source) (inner.next source)) (slot : Slot)
    (hdepth : depth < maxDepth) :
    Matches slot ((Visit.list ⟨path, depth, rest, some child, .value, slot⟩).next source)
      ((Cursor.listItem path depth inner rest).next source) := by
  by_cases hend : ∃ item, (inner.next source).1 = .ok item ∧ item.event = .endOfStream
  · obtain ⟨item, hitem, hevent⟩ := hend
    rw [Visit.next_list rfl rfl]
    revert h
    generalize child.next source = step, hinner : inner.next source = step'
    rintro (⟨item', -, -⟩ | ⟨-, -⟩)
    · obtain rfl : item' = item := by simpa [hinner] using hitem
      simp only [hevent, Event.token, ↓reduceIte, Cursor.next, hinner]
      cases rest with
      | nil =>
        simp only [ListVisit.advance, Visit.next]
        exact .event ⟨.listEnd, path⟩ (.outside (.listDone path depth [] _)) rfl
      | cons index rest =>
        -- the item lies as deep as the one before it, so it resolves
        obtain ⟨fresh, cursor, hvisit, hcursor, hstands, -⟩ :=
          exists_standsOutside_of_le source (Path.join path index) hdepth
        have hfresh := isFresh_of_resolveAt hcursor
        have hmatches : Matches fresh.slot (fresh.next source) (cursor.next source) :=
          hstands.cursor_eq.1 ▸ hstands.matches_next
        simp only [ListVisit.advance, hvisit, hcursor]
        rw [← Cursor.next_listItem_of_isFresh hfresh]
        apply hmatches.listItem_of_ne slot hdepth
        rw [Cursor.next_of_isFresh hfresh]
        exact fun _ => Cursor.event_ne_of_isFresh hfresh
    · exact absurd (hinner ▸ hitem) (by simp)
  · exact h.listItem_of_ne slot hdepth fun item hitem hevent => hend ⟨item, hitem, hevent⟩

end Matches

namespace LooksAlike

variable {child : Visit} {inner : Cursor}

/-- A map looks ahead in the value of its entry, and behind it once it is at its end. -/
theorem mapValue (h : LooksAlike child.slot (child.peek source) (inner.peek source))
    (current : Option Entry) (slot : Slot) :
    LooksAlike slot
      ((Visit.map ⟨path, depth, rest.map .child, current, some child, .value, slot⟩).peek source)
      ((Cursor.mapValue path depth inner rest).peek source) := by
  rw [Visit.peek_map rfl rfl, h.result_eq]
  split
  next hend =>
    let m : MapVisit Visit := ⟨path, depth, rest.map .child, current, some child, .value, slot⟩
    have hafter : StandsOutside (.map m.advance) (.afterValue path depth rest) :=
      standsOutside_advance rfl
    rw [Cursor.peek_mapValue_end (Prod.ext hend rfl), hafter.peek_eq]
    exact ⟨rfl, .outside hafter, Visit.slot_advance m⟩
  next hne =>
    rw [Cursor.peek_mapValue rfl hne]
    exact ⟨rfl, .mapValue path depth rest current slot h.stands, rfl⟩

/-- A list looks ahead in its item, and in the next one once it is at its end. -/
theorem listItem (h : LooksAlike child.slot (child.peek source) (inner.peek source)) (slot : Slot)
    (hdepth : depth < maxDepth) :
    LooksAlike slot ((Visit.list ⟨path, depth, rest, some child, .value, slot⟩).peek source)
      ((Cursor.listItem path depth inner rest).peek source) := by
  rw [Visit.peek_list rfl rfl, h.result_eq]
  split
  next hend =>
    cases rest with
    | nil =>
      simp only [ListVisit.advance, Visit.peek, Cursor.peek, hend]
      exact ⟨rfl, .outside (.listEnd path depth [] slot), rfl⟩
    | cons index rest =>
      obtain ⟨fresh, cursor, hvisit, hcursor, hstands, -⟩ :=
        exists_standsOutside_of_le source (Path.join path index) hdepth
      have hfresh := isFresh_of_resolveAt hcursor
      simp only [ListVisit.advance, hvisit, Cursor.peek, hend, hcursor]
      rw [Visit.peek_list rfl rfl, hstands.peek_eq, if_neg]
      · exact ⟨rfl, .listItem path rest slot hdepth (.outside hstands), rfl⟩
      · simpa using Cursor.peekHere_ne_of_isFresh hfresh
  next hne =>
    rw [Cursor.peek_listItem rfl hne]
    exact ⟨rfl, .listItem path rest slot hdepth h.stands, rfl⟩

end LooksAlike

namespace StandsAt

/-- Every step of a visit is the step of the cursor that it stands for, and behind it the visit
stands for the cursor behind it, also where the step has failed. -/
theorem matches_next (h : StandsAt visit cursor) :
    Matches visit.slot (visit.next source) (cursor.next source) := by
  induction h with
  | outside h => exact h.cursor_eq.1 ▸ h.matches_next
  | mapValue path depth rest current slot _ ih => exact ih.mapValue current slot
  | listItem path rest slot hdepth _ ih => exact ih.listItem slot hdepth

/-- Looking ahead in a visit is looking ahead on the cursor that it stands for. -/
theorem looksAlike_peek (h : StandsAt visit cursor) :
    LooksAlike visit.slot (visit.peek source) (cursor.peek source) := by
  induction h with
  | outside h =>
    rw [h.peek_eq, h.cursor_eq.2]
    exact ⟨rfl, .outside h, rfl⟩
  | mapValue path depth rest current slot _ ih => exact ih.mapValue current slot
  | listItem path rest slot hdepth _ ih => exact ih.listItem slot hdepth

end StandsAt

end LayeredConfig.Resolution
