import LayeredConfig.Resolution.Cursor
import LayeredConfig.Token.Drain

/-!
# Visits of nodes

A visit is the state in which a node of a tree is being read, kept in fields that are set one at a
time: how far the node has been read (`MapPhase`, `ListPhase`), what is still to come, the current
entry, the visit of the child that is being read through, and a slot for the last token. A visit of
a child takes a token first, and the visit around it then moves what was read into its own slot
(`Visit.relay`).

Nothing but the order in which the fields are set keeps them consistent. A step that finds no
current entry or no child where its phase needs one fails with an internal error, and moving a
scalar that has been read fails like any second reading.

* `Visit.next` and `Visit.peek` go on as long as children end. They stop because going on with the
  next child leaves fewer of them and at most as many visits inside (`Visit.nesting`).
* `VisitStream` is a visit with its source, as a stream of tokens.
-/

namespace LayeredConfig

namespace Slot

/-- The slot behind a token that carries a scalar. -/
def filled (path : String) (scalar : Scalar) : Slot := ⟨path, .ready scalar⟩

/-- The slot behind a token that carries nothing. -/
def cleared (path : String) (token : Token) : Slot := ⟨path, .empty token⟩

end Slot

namespace Resolution

/-- How far a map has been read. -/
inductive MapPhase where
  /-- Its start has not been given. -/
  | start
  /-- The name of the current entry comes next. -/
  | key
  /-- The tokens of the child come next. -/
  | value
  /-- Its end comes next. -/
  | finish
  /-- Its end has been given. -/
  | done
  deriving DecidableEq, Repr

/-- How far a list has been read. -/
inductive ListPhase where
  /-- Its start has not been given. -/
  | start
  /-- The tokens of the child come next. -/
  | value
  /-- Its end comes next. -/
  | finish
  /-- Its end has been given. -/
  | done
  deriving DecidableEq, Repr

/-- The state in which a map is being read. The children are visited in states of the type `χ`. -/
structure MapVisit (χ : Type) where
  /-- The path of the map. -/
  path : String
  /-- The number of levels above the map. -/
  depth : Nat
  /-- The entries to come. -/
  entries : List Entry
  /-- The current entry. -/
  current : Option Entry
  /-- The visit of the value of the current entry. -/
  child : Option χ
  /-- How far the map has been read. -/
  phase : MapPhase
  /-- What can be read of the last token. -/
  slot : Slot

/-- The state in which a list is being read. -/
structure ListVisit (χ : Type) where
  /-- The path of the list. -/
  path : String
  /-- The number of levels above the list. -/
  depth : Nat
  /-- The items to come. -/
  indexes : List String
  /-- The visit of the current item. -/
  child : Option χ
  /-- How far the list has been read. -/
  phase : ListPhase
  /-- What can be read of the last token. -/
  slot : Slot

/-- The state in which a leaf is being read. -/
structure LeafVisit where
  /-- The path of the leaf. -/
  path : String
  /-- The scalar that has not been given yet. -/
  scalar : Option Scalar
  /-- The only token of the leaf has been given. -/
  emitted : Bool
  /-- What can be read of the last token. -/
  slot : Slot

/-- The state in which a node is being read. -/
inductive Visit where
  /-- The node is a map. -/
  | map (visit : MapVisit Visit)
  /-- The node is a list. -/
  | list (visit : ListVisit Visit)
  /-- The node is a leaf, with a scalar or without. -/
  | leaf (visit : LeafVisit)

/-- The next entry becomes the current one. Behind the last entry the map is finished. -/
def MapVisit.advance {χ : Type} (m : MapVisit χ) : MapVisit χ :=
  match m.entries with
  | [] => { m with child := none, current := none, phase := .finish }
  | entry :: rest => { m with child := none, current := some entry, entries := rest, phase := .key }

namespace Visit

/-- The visit of a map that has the given children, ready to be read. -/
def ofMap (path : String) (depth : Nat) (keys : List String) : Visit :=
  map ⟨path, depth, .own :: keys.map .child, none, none, .start, .initial path⟩

/-- The visit of a list that has the given items, ready to be read. -/
def ofList (path : String) (depth : Nat) (indexes : List String) : Visit :=
  list ⟨path, depth, indexes, none, .start, .initial path⟩

/-- The visit of a leaf, ready to be read. -/
def ofLeaf (path : String) (scalar : Option Scalar) : Visit :=
  leaf ⟨path, scalar, false, .initial path⟩

/-- The visit of what a path holds, `depth` levels below the root of the resolution. -/
def resolveAt (source : Source) (path : String) (depth : Nat) : Except Error Visit :=
  if maxDepth < depth then
    .error (.depthExceeded path maxDepth)
  else
    match source.keys path with
    | [] => .ok (ofLeaf path (source.value? path))
    | key :: keys =>
      match listIndexes? (key :: keys) with
      | some indexes => .ok (ofList path depth indexes)
      | none => .ok (ofMap path depth (key :: keys))

/-- What can be read of the last token of a visit. -/
def slot : Visit → Slot
  | map m => m.slot
  | list l => l.slot
  | leaf l => l.slot

/-- The visit with another slot. -/
def withSlot (slot : Slot) : Visit → Visit
  | map m => map { m with slot }
  | list l => list { l with slot }
  | leaf l => leaf { l with slot }

/-- Read the scalar of the last token. -/
def readScalar (visit : Visit) : Except Error Scalar × Visit :=
  (visit.slot.take.1, visit.withSlot visit.slot.take.2)

/-- The slot for the last token of a child in the visit around it. A scalar is read from the child
for it. -/
def relay (child : Visit) (token : Token) : Except Error Slot × Visit :=
  if TokenStream.carriesScalar token then
    (child.readScalar.1.map (.filled child.slot.path), child.readScalar.2)
  else
    (.ok (.cleared child.slot.path token), child)

/-- The number of visits inside of each other. -/
def nesting : Visit → Nat
  | map ⟨_, _, _, _, some child, _, _⟩ => nesting child + 1
  | list ⟨_, _, _, some child, _, _⟩ => nesting child + 1
  | _ => 0

/-- The number of children that a visit has not come to. -/
def toCome : Visit → Nat
  | map m => m.entries.length
  | list l => l.indexes.length
  | leaf _ => 0

end Visit

/-- Resolve the value of the current entry. The name of the entry comes with the path of the
value. -/
def MapVisit.openEntry (source : Source) (m : MapVisit Visit) :
    Except Error (String × String) × MapVisit Visit :=
  match m.current with
  | none =>
    (.error (.internal ("map cursor at '" ++ m.path ++ "' has no current entry")), m)
  | some .own =>
    let place := Path.join m.path pathKey
    (.ok (pathKey, place), { m with child := some (.ofLeaf place (some (.string m.path))) })
  | some (.child key) =>
    let place := Path.join m.path key
    match Visit.resolveAt source place (m.depth + 1) with
    | .error error => (.error error, m)
    | .ok child => (.ok (key, place), { m with child := some child })

/-- Resolve the next item. Behind the last item the list is finished. An item that fails to resolve
has been dropped, together with the child. -/
def ListVisit.advance (source : Source) (l : ListVisit Visit) :
    Except Error Unit × ListVisit Visit :=
  match l.indexes with
  | [] => (.ok (), { l with child := none, phase := .finish })
  | index :: rest =>
    match Visit.resolveAt source (Path.join l.path index) (l.depth + 1) with
    | .error error => (.error error, { l with child := none, indexes := rest })
    | .ok child => (.ok (), { l with child := some child, indexes := rest, phase := .value })

namespace Visit

variable {source : Source} {path : String} {depth : Nat} {visit child : Visit}

theorem nesting_of_resolveAt (h : resolveAt source path depth = .ok visit) : visit.nesting = 0 := by
  unfold resolveAt at h
  split at h
  next => exact absurd h (by simp)
  next =>
    split at h
    next => exact Except.ok.inj h ▸ rfl
    next => split at h <;> exact Except.ok.inj h ▸ rfl

/-- A child has fewer visits inside than the map that is being read through it. -/
theorem nesting_map {m : MapVisit Visit} (h : m.child = some child) :
    (map m).nesting = child.nesting + 1 := by
  obtain ⟨_, _, _, _, _, _, _⟩ := m
  obtain rfl := h
  rfl

/-- A child has fewer visits inside than the list that is being read through it. -/
theorem nesting_list {l : ListVisit Visit} (h : l.child = some child) :
    (list l).nesting = child.nesting + 1 := by
  obtain ⟨_, _, _, _, _, _⟩ := l
  obtain rfl := h
  rfl

/-- A map that goes on with its next entry has no visit inside. -/
theorem nesting_advance_map (m : MapVisit Visit) : (map m.advance).nesting = 0 := by
  unfold MapVisit.advance
  split <;> rfl

/-- A list that goes on with its next item has no visits inside of that of the item, and one item
less to come. Behind the last item it has no visit inside. -/
theorem lex_of_advance {l after : ListVisit Visit} {result : Unit} (hchild : l.child = some child)
    (h : l.advance source = (.ok result, after)) : Prod.Lex (· < ·) (· < ·)
      ((list after).nesting, (list after).toCome) ((list l).nesting, (list l).toCome) := by
  rw [nesting_list hchild]
  unfold ListVisit.advance at h
  split at h
  next =>
    obtain rfl := (Prod.mk.inj h).2
    exact Prod.Lex.left _ _ (Nat.succ_pos _)
  next index rest hindexes =>
    split at h
    next => exact absurd (congrArg Prod.fst h) (by simp)
    next fresh hfresh =>
      obtain rfl := (Prod.mk.inj h).2
      let after : ListVisit Visit :=
        { l with child := some fresh, indexes := rest, phase := .value }
      have hnesting : (list after).nesting = 1 := congrArg (· + 1) (nesting_of_resolveAt hfresh)
      have htoCome : rest.length < l.indexes.length := by
        rw [hindexes]
        exact Nat.lt_succ_self _
      rw [hnesting]
      -- the child that has ended may have had visits inside
      rcases Nat.eq_zero_or_pos child.nesting with hzero | hpos
      · rw [hzero]
        exact Prod.Lex.right _ htoCome
      · exact Prod.Lex.left _ _ (Nat.succ_lt_succ hpos)

/-- The next token of a visit, and the visit behind it. -/
def next (source : Source) : Visit → Except Error Token × Visit
  | map m =>
    match m.phase with
    | .start => (.ok .objectStart, map { m.advance with slot := .cleared m.path .objectStart })
    | .key =>
      match m.openEntry source with
      | (.error error, m) => (.error error, map m)
      | (.ok (key, place), m) =>
        (.ok .key, map { m with phase := .value, slot := .filled place (.string key) })
    | .value =>
      match _ : m.child with
      | none => (.error (.internal "map cursor lost its child"), map m)
      | some child =>
        let r := next source child
        match r.1 with
        | .error error => (.error error, map { m with child := some r.2 })
        | .ok token =>
          if token = .endOfStream then
            next source (map m.advance)
          else
            match relay r.2 token with
            | (.error error, child) => (.error error, map { m with child := some child })
            | (.ok slot, child) => (.ok token, map { m with child := some child, slot })
    | .finish =>
      (.ok .objectEnd, map { m with phase := .done, slot := .cleared m.path .objectEnd })
    | .done => (.ok .endOfStream, map { m with slot := .cleared m.path .endOfStream })
  | list l =>
    match l.phase with
    | .start =>
      match l.advance source with
      | (.error error, l) => (.error error, list l)
      | (.ok _, l) => (.ok .listStart, list { l with slot := .cleared l.path .listStart })
    | .value =>
      match _ : l.child with
      | none => (.error (.internal "list cursor lost its child"), list l)
      | some child =>
        let r := next source child
        match r.1 with
        | .error error => (.error error, list { l with child := some r.2 })
        | .ok token =>
          if token = .endOfStream then
            match _ : l.advance source with
            | (.error error, l) => (.error error, list l)
            | (.ok _, l) => next source (list l)
          else
            match relay r.2 token with
            | (.error error, child) => (.error error, list { l with child := some child })
            | (.ok slot, child) => (.ok token, list { l with child := some child, slot })
    | .finish => (.ok .listEnd, list { l with phase := .done, slot := .cleared l.path .listEnd })
    | .done => (.ok .endOfStream, list { l with slot := .cleared l.path .endOfStream })
  | leaf l =>
    if l.emitted then
      (.ok .endOfStream, leaf { l with slot := .cleared l.path .endOfStream })
    else
      match l.scalar with
      | some scalar =>
        (.ok .value,
          leaf { l with scalar := none, emitted := true, slot := .filled l.path scalar })
      | none => (.ok .null, leaf { l with emitted := true, slot := .cleared l.path .null })
termination_by visit => (visit.nesting, visit.toCome)
decreasing_by
  · rw [nesting_map ‹_›]
    exact Prod.Lex.left _ _ (Nat.lt_succ_self _)
  · rw [nesting_advance_map, nesting_map ‹_›]
    exact Prod.Lex.left _ _ (Nat.succ_pos _)
  · rw [nesting_list ‹_›]
    exact Prod.Lex.left _ _ (Nat.lt_succ_self _)
  · exact lex_of_advance ‹_› ‹_›

/-- The next token of a visit, and the visit that is to give it. Children that have ended are left
behind. -/
def peek (source : Source) : Visit → Except Error Token × Visit
  | map m =>
    match m.phase with
    | .start => (.ok .objectStart, map m)
    | .key => (.ok .key, map m)
    | .value =>
      match _ : m.child with
      | none => (.error (.internal "map cursor lost its child"), map m)
      | some child =>
        let r := peek source child
        match r.1 with
        | .error error => (.error error, map { m with child := some r.2 })
        | .ok token =>
          if token = .endOfStream then
            peek source (map m.advance)
          else
            (.ok token, map { m with child := some r.2 })
    | .finish => (.ok .objectEnd, map m)
    | .done => (.ok .endOfStream, map m)
  | list l =>
    match l.phase with
    | .start => (.ok .listStart, list l)
    | .value =>
      match _ : l.child with
      | none => (.error (.internal "list cursor lost its child"), list l)
      | some child =>
        let r := peek source child
        match r.1 with
        | .error error => (.error error, list { l with child := some r.2 })
        | .ok token =>
          if token = .endOfStream then
            match _ : l.advance source with
            | (.error error, l) => (.error error, list l)
            | (.ok _, l) => peek source (list l)
          else
            (.ok token, list { l with child := some r.2 })
    | .finish => (.ok .listEnd, list l)
    | .done => (.ok .endOfStream, list l)
  | leaf l =>
    if l.emitted then (.ok .endOfStream, leaf l)
    else if l.scalar.isSome then (.ok .value, leaf l)
    else (.ok .null, leaf l)
termination_by visit => (visit.nesting, visit.toCome)
decreasing_by
  · rw [nesting_map ‹_›]
    exact Prod.Lex.left _ _ (Nat.lt_succ_self _)
  · rw [nesting_advance_map, nesting_map ‹_›]
    exact Prod.Lex.left _ _ (Nat.succ_pos _)
  · rw [nesting_list ‹_›]
    exact Prod.Lex.left _ _ (Nat.lt_succ_self _)
  · exact lex_of_advance ‹_› ‹_›

end Visit

end Resolution

end LayeredConfig
