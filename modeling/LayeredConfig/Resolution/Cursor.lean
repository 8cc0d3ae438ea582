import LayeredConfig.Path
import LayeredConfig.Source
import LayeredConfig.Token
import LayeredConfig.Value.Reading

/-!
# Cursors over a source

A path of a source resolves to a map, if it has children, or to a list, if all its children are list
indexes; without children it is a leaf that holds its scalar or nothing. A cursor is a position
inside such a tree. It resolves a child only when it gets there.

* `resolve` gives the cursor at the start of a path; `Cursor.next` produces the events of the tree
  one at a time, and `Cursor.peek` tells the next token.
* Every map begins with an entry named `pathKey` that holds the path of the map.
* Resolving fails below `maxDepth` levels. A map stays in front of a child that failed to resolve,
  while a list has dropped it.

The bound on the events to come is `Cursor.remaining`, with `treeSize` for a child not yet resolved.
-/

namespace LayeredConfig.Resolution

/-- The segments in the order of the list indexes that they write, if all of them write one. -/
def listIndexes? (keys : List String) : Option (List String) := do
  let indexes ← keys.mapM fun key => (Path.parseIndex? key).map fun index => (index, key)
  some ((indexes.mergeSort fun a b => a.1 ≤ b.1).map Prod.snd)

/-- A name in a map: the one that tells the path of the map, or that of a child. -/
inductive Entry where
  /-- The entry that tells the path of the map. -/
  | own
  /-- A child. -/
  | child (key : String)
  deriving DecidableEq, Repr

/-- A position in the tree below a path. -/
inductive Cursor where
  /-- Before a leaf with its scalar, if it holds one. -/
  | leaf (path : String) (scalar : Option Scalar)
  /-- Before a map. -/
  | mapStart (path : String) (depth : Nat) (keys : List String)
  /-- In a map, before an entry and the children after it. -/
  | mapKey (path : String) (depth : Nat) (entry : Entry) (rest : List String)
  /-- In a map, inside the value of an entry and before the children after it. -/
  | mapValue (path : String) (depth : Nat) (child : Cursor) (rest : List String)
  /-- In a map, before its end. -/
  | mapEnd (path : String)
  /-- Before a list. -/
  | listStart (path : String) (depth : Nat) (indexes : List String)
  /-- In a list, inside an element and before the elements after it. -/
  | listItem (path : String) (depth : Nat) (child : Cursor) (rest : List String)
  /-- In a list, before its end. -/
  | listEnd (path : String)
  /-- Behind everything. -/
  | done (path : String)
  deriving DecidableEq

/-- The cursor before what a path holds, `depth` levels below the root of the resolution. -/
def resolveAt (source : Source) (path : String) (depth : Nat) : Except Error Cursor :=
  if maxDepth < depth then
    .error (.depthExceeded path maxDepth)
  else
    match source.keys path with
    | [] => .ok (.leaf path (source.value? path))
    | key :: keys =>
      match listIndexes? (key :: keys) with
      | some indexes => .ok (.listStart path depth indexes)
      | none => .ok (.mapStart path depth (key :: keys))

/-- The cursor before what a path holds. -/
def resolve (source : Source) (path : String) : Except Error Cursor := resolveAt source path 0

namespace Cursor

/-- The cursor in a map behind the value of an entry. -/
def afterValue (path : String) (depth : Nat) : List String → Cursor
  | [] => mapEnd path
  | key :: rest => mapKey path depth (.child key) rest

/-- The next token of a cursor that is not inside a child. -/
def peekHere : Cursor → Token
  | leaf _ (some _) => .value
  | leaf _ none => .null
  | mapStart .. => .objectStart
  | mapKey .. => .key
  | mapValue .. => .endOfStream
  | mapEnd _ => .objectEnd
  | listStart .. => .listStart
  | listItem .. => .endOfStream
  | listEnd _ => .listEnd
  | done _ => .endOfStream

/-- The next event of a cursor that is not inside a child. -/
def nextHere (source : Source) : Cursor → Except Error Located × Cursor
  | leaf path (some scalar) => (.ok ⟨.value scalar, path⟩, done path)
  | leaf path none => (.ok ⟨.null, path⟩, done path)
  | mapStart path depth keys => (.ok ⟨.objectStart, path⟩, mapKey path depth .own keys)
  | mapKey path depth .own rest =>
    (.ok ⟨.key pathKey, Path.join path pathKey⟩,
      mapValue path depth (leaf (Path.join path pathKey) (some (.string path))) rest)
  | mapKey path depth (.child key) rest =>
    match resolveAt source (Path.join path key) (depth + 1) with
    | .ok child => (.ok ⟨.key key, Path.join path key⟩, mapValue path depth child rest)
    | .error error => (.error error, mapKey path depth (.child key) rest)
  | mapEnd path => (.ok ⟨.objectEnd, path⟩, done path)
  | listStart path _ [] => (.ok ⟨.listStart, path⟩, listEnd path)
  | listStart path depth (index :: rest) =>
    match resolveAt source (Path.join path index) (depth + 1) with
    | .ok child => (.ok ⟨.listStart, path⟩, listItem path depth child rest)
    | .error error => (.error error, listStart path depth rest)
  | listEnd path => (.ok ⟨.listEnd, path⟩, done path)
  | mapValue path depth child rest => (.ok ⟨.endOfStream, path⟩, mapValue path depth child rest)
  | listItem path depth child rest => (.ok ⟨.endOfStream, path⟩, listItem path depth child rest)
  | done path => (.ok ⟨.endOfStream, path⟩, done path)

/-- The next token. A child without events left is passed over, and in a list the next element is
resolved in its place. -/
def peek (source : Source) : Cursor → Except Error Token × Cursor
  | mapValue path depth child rest =>
    let r := peek source child
    match r.1 with
    | .ok .endOfStream =>
      let next := afterValue path depth rest
      (.ok next.peekHere, next)
    | result => (result, mapValue path depth r.2 rest)
  | listItem path depth child rest =>
    let r := peek source child
    match r.1 with
    | .ok .endOfStream =>
      match rest with
      | [] => (.ok .listEnd, listEnd path)
      | index :: rest =>
        match resolveAt source (Path.join path index) (depth + 1) with
        | .ok child => (.ok child.peekHere, listItem path depth child rest)
        | .error error => (.error error, listItem path depth r.2 rest)
    | result => (result, listItem path depth r.2 rest)
  | cursor => (.ok cursor.peekHere, cursor)

/-- The next event. -/
def next (source : Source) : Cursor → Except Error Located × Cursor
  | mapValue path depth child rest =>
    let r := next source child
    match r.1 with
    | .error error => (.error error, mapValue path depth r.2 rest)
    | .ok item =>
      if item.event = .endOfStream then
        (afterValue path depth rest).nextHere source
      else
        (.ok item, mapValue path depth r.2 rest)
  | listItem path depth child rest =>
    let r := next source child
    match r.1 with
    | .error error => (.error error, listItem path depth r.2 rest)
    | .ok item =>
      if item.event = .endOfStream then
        match rest with
        | [] => (.ok ⟨.listEnd, path⟩, done path)
        | index :: rest =>
          match resolveAt source (Path.join path index) (depth + 1) with
          | .error error => (.error error, listItem path depth r.2 rest)
          | .ok child =>
            let r := child.nextHere source
            (r.1, listItem path depth r.2 rest)
      else
        (.ok item, listItem path depth r.2 rest)
  | cursor => cursor.nextHere source

end Cursor

/-- The sum of a bound over a list. -/
def sumOver (bound : String → Nat) (keys : List String) : Nat :=
  keys.foldr (fun key total => bound key + total) 0

/-- A bound on the number of events of the tree below a path that has `levels` levels at most. -/
def treeSize (source : Source) : Nat → String → Nat
  | 0, _ => 0
  | levels + 1, path =>
    match source.keys path with
    | [] => 1
    | key :: keys =>
      match listIndexes? (key :: keys) with
      | some indexes =>
        2 + sumOver (fun index => treeSize source levels (Path.join path index)) indexes
      | none =>
        4 + sumOver (fun key => 1 + treeSize source levels (Path.join path key)) (key :: keys)

namespace Cursor

/-- A bound on the events of the children of a map, from their names on. -/
def entriesSize (source : Source) (path : String) (depth : Nat) (keys : List String) : Nat :=
  sumOver (fun key => 1 + treeSize source (maxDepth - depth) (Path.join path key)) keys

/-- A bound on the events of the elements of a list. -/
def itemsSize (source : Source) (path : String) (depth : Nat) (indexes : List String) : Nat :=
  sumOver (fun index => treeSize source (maxDepth - depth) (Path.join path index)) indexes

/-- A bound on the number of events to come. -/
def remaining (source : Source) : Cursor → Nat
  | leaf _ _ => 1
  | mapStart path depth keys => 4 + entriesSize source path depth keys
  | mapKey path depth .own rest => 3 + entriesSize source path depth rest
  | mapKey path depth (.child key) rest => 1 + entriesSize source path depth (key :: rest)
  | mapValue path depth child rest =>
    1 + remaining source child + entriesSize source path depth rest
  | mapEnd _ => 1
  | listStart path depth indexes => 2 + itemsSize source path depth indexes
  | listItem path depth child rest =>
    1 + remaining source child + itemsSize source path depth rest
  | listEnd _ => 1
  | done _ => 0

end Cursor

/-- A freshly resolved cursor has exactly the events of its tree ahead. -/
theorem remaining_of_resolveAt {source : Source} {path : String} {depth : Nat} {cursor : Cursor}
    (h : resolveAt source path depth = .ok cursor) :
    cursor.remaining source = treeSize source (maxDepth + 1 - depth) path := by
  unfold resolveAt at h
  split at h
  · exact absurd h (by simp)
  next hdepth =>
    obtain ⟨levels, hlevels⟩ : ∃ levels, maxDepth + 1 - depth = levels + 1 :=
      ⟨maxDepth - depth, by omega⟩
    have hsub : maxDepth - depth = levels := by omega
    rw [hlevels, treeSize]
    split at h
    next hkeys =>
      simp only [Except.ok.injEq] at h
      subst h
      rfl
    next hkeys =>
      split at h
      · simp only [Except.ok.injEq] at h
        subst h
        simp [Cursor.remaining, Cursor.itemsSize, hsub]
      · simp only [Except.ok.injEq] at h
        subst h
        simp [Cursor.remaining, Cursor.entriesSize, hsub]

namespace Cursor

variable {source : Source}

theorem entriesSize_cons (path : String) (depth : Nat) (key : String) (rest : List String) :
    entriesSize source path depth (key :: rest) =
      1 + treeSize source (maxDepth - depth) (Path.join path key) +
        entriesSize source path depth rest := by
  simp [entriesSize, sumOver]

theorem itemsSize_cons (path : String) (depth : Nat) (index : String) (rest : List String) :
    itemsSize source path depth (index :: rest) =
      treeSize source (maxDepth - depth) (Path.join path index) +
        itemsSize source path depth rest := by
  simp [itemsSize, sumOver]

/-- A child has as many events as its parent counts for it. -/
theorem remaining_child {path : String} {depth : Nat} {child : Cursor}
    (h : resolveAt source path (depth + 1) = .ok child) :
    child.remaining source = treeSize source (maxDepth - depth) path := by
  rw [remaining_of_resolveAt h]
  congr 1
  omega

theorem remaining_afterValue (path : String) (depth : Nat) (rest : List String) :
    (afterValue path depth rest).remaining source = 1 + entriesSize source path depth rest := by
  cases rest with
  | nil => simp [afterValue, remaining, entriesSize, sumOver]
  | cons key rest => rfl

/-- Outside of a child every step but the last uses up an event, and none adds one. -/
theorem remaining_nextHere (cursor : Cursor) :
    (cursor.nextHere source).2.remaining source ≤ cursor.remaining source ∧
      ∀ item, (cursor.nextHere source).1 = .ok item → item.event ≠ .endOfStream →
        (cursor.nextHere source).2.remaining source < cursor.remaining source := by
  fun_cases nextHere source cursor with
  | case5 path depth key rest child hchild =>
    simp only [remaining, entriesSize_cons, remaining_child hchild]
    exact ⟨by omega, fun _ _ _ => by omega⟩
  | case6 => exact ⟨Nat.le_refl _, fun _ h => absurd h (by simp)⟩
  | case9 path depth index rest child hchild =>
    simp only [remaining, itemsSize_cons, remaining_child hchild]
    exact ⟨by omega, fun _ _ _ => by omega⟩
  | case10 path depth index rest error herror =>
    simp only [remaining, itemsSize_cons]
    exact ⟨by omega, fun _ h => absurd h (by simp)⟩
  | _ => simp +arith [remaining]

/-- Every step before the end uses up an event, and none adds one. -/
theorem remaining_next (cursor : Cursor) :
    (cursor.next source).2.remaining source ≤ cursor.remaining source ∧
      ∀ item, (cursor.next source).1 = .ok item → item.event ≠ .endOfStream →
        (cursor.next source).2.remaining source < cursor.remaining source := by
  fun_induction next source cursor with
  | case1 path depth child rest r error herror ih =>
    have hle : r.2.remaining source ≤ child.remaining source := ih.1
    simp only [remaining]
    exact ⟨by omega, fun _ h => absurd h (by simp)⟩
  | case2 path depth child rest r item hitem hend ih =>
    have hle : r.2.remaining source ≤ child.remaining source := ih.1
    have h := @remaining_nextHere source (afterValue path depth rest)
    simp only [remaining, remaining_afterValue] at h ⊢
    refine ⟨by omega, fun item hnext hne => ?_⟩
    have := h.2 item hnext hne
    omega
  | case3 path depth child rest r item hitem hend ih =>
    have hle : r.2.remaining source ≤ child.remaining source := ih.1
    have hlt : r.2.remaining source < child.remaining source := ih.2 item hitem hend
    simp only [remaining]
    exact ⟨by omega, fun _ _ _ => by omega⟩
  | case4 path depth child rest r error herror ih =>
    have hle : r.2.remaining source ≤ child.remaining source := ih.1
    simp only [remaining]
    exact ⟨by omega, fun _ h => absurd h (by simp)⟩
  | case5 path depth child r item hitem hend ih =>
    have hle : r.2.remaining source ≤ child.remaining source := ih.1
    simp only [remaining]
    exact ⟨by omega, fun _ _ _ => by omega⟩
  | case6 path depth child r item hitem hend index rest error herror ih =>
    have hle : r.2.remaining source ≤ child.remaining source := ih.1
    simp only [remaining, itemsSize_cons]
    exact ⟨by omega, fun _ h => absurd h (by simp)⟩
  | case7 path depth child r item hitem hend index rest fresh hfresh r' ih =>
    have hle : r.2.remaining source ≤ child.remaining source := ih.1
    have h : r'.2.remaining source ≤ fresh.remaining source ∧
        ∀ item, r'.1 = .ok item → item.event ≠ .endOfStream →
          r'.2.remaining source < fresh.remaining source := remaining_nextHere fresh
    have hsize := remaining_child hfresh
    simp only [remaining, itemsSize_cons]
    refine ⟨by omega, fun item hnext hne => ?_⟩
    have := h.2 item hnext hne
    omega
  | case8 path depth child rest r item hitem hend ih =>
    have hle : r.2.remaining source ≤ child.remaining source := ih.1
    have hlt : r.2.remaining source < child.remaining source := ih.2 item hitem hend
    simp only [remaining]
    exact ⟨by omega, fun _ _ _ => by omega⟩
  | case9 cursor => exact remaining_nextHere cursor

/-- Peeking adds no events. -/
theorem remaining_peek (cursor : Cursor) :
    (cursor.peek source).2.remaining source ≤ cursor.remaining source := by
  fun_induction peek source cursor with
  | case1 path depth child rest r hend next ih =>
    have hle : r.2.remaining source ≤ child.remaining source := ih
    simp only [next, remaining, remaining_afterValue]
    omega
  | case2 path depth child rest r hend ih =>
    have hle : r.2.remaining source ≤ child.remaining source := ih
    simp only [remaining]
    omega
  | case3 path depth child r hend ih =>
    have hle : r.2.remaining source ≤ child.remaining source := ih
    simp only [remaining]
    omega
  | case4 path depth child r hend index rest fresh hfresh ih =>
    have hle : r.2.remaining source ≤ child.remaining source := ih
    have hsize := remaining_child hfresh
    simp only [remaining, itemsSize_cons]
    omega
  | case5 path depth child r hend index rest error herror ih =>
    have hle : r.2.remaining source ≤ child.remaining source := ih
    simp only [remaining, itemsSize_cons]
    omega
  | case6 path depth child rest r hend ih =>
    have hle : r.2.remaining source ≤ child.remaining source := ih
    simp only [remaining]
    omega
  | case7 cursor => exact Nat.le_refl _

end Cursor

end LayeredConfig.Resolution
