import LayeredConfig.Proofs.Path.Index
import LayeredConfig.Proofs.Resolution.Calls
import LayeredConfig.Proofs.Source.Index
import Mathlib.Logic.Function.Iterate

/-!
# Calls behind a failure

A call on a resolved path fails where a child lies too deep. What the calls behind it give depends
on the kind of node that the child belongs to. A map stays in front of the child, and every later
call fails like the first one. A list that cannot resolve its first item drops it: the next call
tries the item behind it, and once all items have been dropped, the list starts and ends as if it
had none.

* `Inside`: the positions that calls can bring about in the tree at a path. `Inside.next` is one
  call: it stays in the tree, and if it fails, it has stopped at a child that lies too deep.
* `Carries`: a cursor around another one carries its events and its failures outwards.
* `lasts_iff_not_allIndexes`: a failure lasts exactly if the children that it stopped at form no
  list, and otherwise the list fails once for each item that is left, and then starts and ends.
-/

namespace LayeredConfig.TokenStream

variable {σ : Type} [TokenStream σ]

/-- The state after `n` moves, whatever they give. -/
def advance (n : Nat) (s : σ) : σ := (fun s => (next s).2)^[n] s

/-- What `n` moves give, each token with its path. -/
def moves (s : σ) : Nat → List (Except Error (Token × String))
  | 0 => []
  | n + 1 => ((next s).1.map fun token => (token, currentPath (next s).2)) :: moves (next s).2 n

/-- Once a move fails, every later one fails with the same error. -/
def FailuresLast (s : σ) : Prop :=
  ∀ n error, (next (advance n s)).1 = .error error →
    ∀ m, moves (advance n s) m = List.replicate m (.error error)

theorem advance_succ (n : Nat) (s : σ) : advance (n + 1) s = (next (advance n s)).2 :=
  Function.iterate_succ_apply' _ n s

end LayeredConfig.TokenStream

namespace LayeredConfig.Resolution

variable {source : Source} {path parent : String} {depth : Nat} {cursor after : Cursor}
  {error : Error} {key : String} {rest : List String}

/-! ### Positions in a tree -/

/-- The cursor stands in the tree at the path, which lies `depth` levels below the root. -/
inductive Inside (source : Source) : String → Nat → Cursor → Prop
  | leaf (path : String) (depth : Nat) (scalar : Option Scalar) :
      Inside source path depth (.leaf path scalar)
  | done (path : String) (depth : Nat) : Inside source path depth (.done path)
  | mapStart {path : String} {depth : Nat} (hdepth : depth ≤ maxDepth)
      (hmap : ¬ AllIndexes (source.keys path)) :
      Inside source path depth (.mapStart path depth (source.keys path))
  | ownKey {path : String} {depth : Nat} (hdepth : depth ≤ maxDepth)
      (hmap : ¬ AllIndexes (source.keys path)) :
      Inside source path depth (.mapKey path depth .own (source.keys path))
  /-- The value of the entry that tells the path is a leaf that is no child. -/
  | ownValue {path place : String} {depth : Nat} {scalar : Option Scalar} {child : Cursor}
      (hdepth : depth ≤ maxDepth) (hmap : ¬ AllIndexes (source.keys path))
      (hchild : child = .leaf place scalar ∨ child = .done place) :
      Inside source path depth (.mapValue path depth child (source.keys path))
  | mapKey {path key : String} {depth : Nat} {rest : List String} (hdepth : depth ≤ maxDepth)
      (hmap : ¬ AllIndexes (source.keys path)) (hrest : key :: rest <:+ source.keys path) :
      Inside source path depth (.mapKey path depth (.child key) rest)
  | mapValue {path key : String} {depth : Nat} {child : Cursor} {rest : List String}
      (hdepth : depth ≤ maxDepth) (hmap : ¬ AllIndexes (source.keys path))
      (hkey : key ∈ source.keys path) (hrest : rest <:+ source.keys path)
      (hchild : Inside source (Path.join path key) (depth + 1) child) :
      Inside source path depth (.mapValue path depth child rest)
  | mapEnd (path : String) (depth : Nat) : Inside source path depth (.mapEnd path)
  | listStart {path : String} {depth : Nat} {ordered rest : List String} (hdepth : depth ≤ maxDepth)
      (hlist : AllIndexes (source.keys path)) (horder : IndexOrder (source.keys path) ordered)
      (hrest : rest <:+ ordered) : Inside source path depth (.listStart path depth rest)
  /-- An item has been resolved, so there is a level left for those behind it. -/
  | listItem {path key : String} {depth : Nat} {child : Cursor} {ordered rest : List String}
      (hdepth : depth < maxDepth) (hlist : AllIndexes (source.keys path))
      (horder : IndexOrder (source.keys path) ordered) (hkey : key ∈ source.keys path)
      (hrest : rest <:+ ordered) (hchild : Inside source (Path.join path key) (depth + 1) child) :
      Inside source path depth (.listItem path depth child rest)
  | listEnd (path : String) (depth : Nat) : Inside source path depth (.listEnd path)

/-- What a path resolves to stands at the start of its tree. -/
theorem inside_of_resolveAt (h : resolveAt source path depth = .ok cursor) :
    Inside source path depth cursor := by
  have hdepth := depth_le_of_resolveAt h
  by_cases hkeys : source.keys path = []
  · rw [resolveAt_of_keys_eq_nil hdepth hkeys, Except.ok.injEq] at h
    exact h ▸ .leaf path depth _
  · by_cases hall : AllIndexes (source.keys path)
    · obtain ⟨ordered, horder⟩ := hall.exists_indexOrder
      rw [resolveAt_of_indexOrder hdepth hkeys hall horder, Except.ok.injEq] at h
      exact h ▸ .listStart hdepth hall horder (List.suffix_refl ordered)
    · rw [resolveAt_of_not_allIndexes hdepth hkeys hall, Except.ok.injEq] at h
      exact h ▸ .mapStart hdepth hall

/-- A path fails to resolve only if it lies too deep. -/
theorem eq_of_resolveAt_error (h : resolveAt source path depth = .error error) :
    maxDepth < depth ∧ error = .depthExceeded path maxDepth := by
  by_cases hdepth : maxDepth < depth
  · rw [resolveAt_of_lt hdepth, Except.error.injEq] at h
    exact ⟨hdepth, h.symm⟩
  · obtain ⟨cursor, hcursor⟩ := exists_resolveAt source path (Nat.le_of_not_lt hdepth)
    exact absurd (h.symm.trans hcursor) (by simp)

/-- Behind the value of an entry the cursor is still in the map. -/
theorem Inside.afterValue (hdepth : depth ≤ maxDepth) (hmap : ¬ AllIndexes (source.keys path))
    (hrest : rest <:+ source.keys path) :
    Inside source path depth (Cursor.afterValue path depth rest) := by
  cases rest with
  | nil => exact .mapEnd path depth
  | cons key rest => exact .mapKey hdepth hmap hrest

/-- A call that does not go into a child stays in the tree. -/
theorem Inside.nextHere (h : Inside source path depth cursor) :
    Inside source path depth (cursor.nextHere source).2 := by
  cases h with
  | leaf _ _ scalar => cases scalar <;> exact .done path depth
  | done => exact .done path depth
  | mapStart hdepth hmap => exact .ownKey hdepth hmap
  | ownKey hdepth hmap => exact .ownValue hdepth hmap (.inl rfl)
  | ownValue hdepth hmap hchild => exact .ownValue hdepth hmap hchild
  | @mapKey _ key _ rest hdepth hmap hrest =>
    have hkey : key ∈ source.keys path := hrest.subset List.mem_cons_self
    rw [Cursor.nextHere]
    split
    next child hchild =>
      exact .mapValue hdepth hmap hkey ((List.suffix_cons key rest).trans hrest)
        (inside_of_resolveAt hchild)
    next => exact .mapKey hdepth hmap hrest
  | mapValue hdepth hmap hkey hrest hchild => exact .mapValue hdepth hmap hkey hrest hchild
  | mapEnd => exact .done path depth
  | @listStart _ _ ordered rest hdepth hlist horder hrest =>
    cases rest with
    | nil => exact .listEnd path depth
    | cons key rest =>
      have hkey : key ∈ source.keys path := horder.mem_iff.1 (hrest.subset List.mem_cons_self)
      have hmore := (List.suffix_cons key rest).trans hrest
      rw [Cursor.nextHere]
      split
      next child hchild =>
        exact .listItem (depth_le_of_resolveAt hchild) hlist horder hkey hmore
          (inside_of_resolveAt hchild)
      next => exact .listStart hdepth hlist horder hmore
  | listItem hdepth hlist horder hkey hrest hchild =>
    exact .listItem hdepth hlist horder hkey hrest hchild
  | listEnd => exact .done path depth

/-! ### Where a call fails -/

/-- A cursor around another one carries its calls outwards, except for its end. -/
structure Carries (source : Source) (wrap : Cursor → Cursor) : Prop where
  /-- The call on the cursor around is the one on the cursor inside. -/
  next : ∀ {inner after : Cursor} {result : Except Error Located},
    inner.next source = (result, after) →
    (∀ item, result = .ok item → item.event ≠ .endOfStream) →
    (wrap inner).next source = (result, wrap after)

namespace Carries

variable {wrap : Cursor → Cursor}

theorem refl (source : Source) : Carries source id := ⟨fun hnext _ => hnext⟩

theorem comp {outer : Cursor → Cursor} (h : Carries source outer) (h' : Carries source wrap) :
    Carries source (outer ∘ wrap) :=
  ⟨fun hnext hend => h.next (h'.next hnext hend) hend⟩

theorem mapValue (source : Source) (path : String) (depth : Nat) (rest : List String) :
    Carries source (.mapValue path depth · rest) := by
  refine ⟨fun {inner after result} hnext hend => ?_⟩
  cases result with
  | error error => exact Cursor.next_mapValue_error hnext
  | ok item => exact Cursor.next_mapValue hnext (hend item rfl)

theorem listItem (source : Source) (path : String) (depth : Nat) (rest : List String) :
    Carries source (.listItem path depth · rest) := by
  refine ⟨fun {inner after result} hnext hend => ?_⟩
  cases result with
  | error error => exact Cursor.next_listItem_error hnext
  | ok item => exact Cursor.next_listItem hnext (hend item rfl)

/-- The cursor around another one runs through what the one inside runs through. -/
theorem run (h : Carries source wrap) {items : List Located}
    (run : Run (Cursor.next source) cursor items after)
    (hitems : ∀ item ∈ items, item.event ≠ .endOfStream) :
    Run (Cursor.next source) (wrap cursor) items (wrap after) :=
  run.map wrap (fun _ _ _ hnext hne => h.next hnext fun _ heq => Except.ok.inj heq ▸ hne) hitems

end Carries

/-- The cursor that a failed call on a child of `parent` leaves: a map is still in front of the
child, and a list has dropped it. -/
inductive Stopped (source : Source) (parent key : String) : Cursor → Prop
  | map {rest : List String} (hmap : ¬ AllIndexes (source.keys parent))
      (hkey : key ∈ source.keys parent) :
      Stopped source parent key (.mapKey parent maxDepth (.child key) rest)
  | list {ordered rest : List String} (hlist : AllIndexes (source.keys parent))
      (horder : IndexOrder (source.keys parent) ordered) (hrest : key :: rest <:+ ordered) :
      Stopped source parent key (.listStart parent maxDepth rest)

/-- A call that does not go into a child fails on the last level only. -/
theorem Inside.stopped_of_nextHere (h : Inside source path depth cursor)
    (hfail : cursor.nextHere source = (.error error, after)) :
    depth = maxDepth ∧ ∃ key, error = .depthExceeded (Path.join path key) maxDepth ∧
      Stopped source path key after := by
  cases h with
  | @mapKey _ key _ rest hdepth hmap hrest =>
    rw [Cursor.nextHere] at hfail
    split at hfail
    next => exact absurd (congrArg Prod.fst hfail) (by simp)
    next error' hresolve =>
      obtain ⟨herror, rfl⟩ := Prod.mk.inj hfail
      obtain rfl := Except.error.inj herror
      obtain ⟨hlt, rfl⟩ := eq_of_resolveAt_error hresolve
      obtain rfl : depth = maxDepth := by omega
      exact ⟨rfl, key, rfl, .map hmap (hrest.subset List.mem_cons_self)⟩
  | @listStart _ _ ordered rest hdepth hlist horder hrest =>
    cases rest with
    | nil => exact absurd (congrArg Prod.fst hfail) (by simp [Cursor.nextHere])
    | cons key rest =>
      rw [Cursor.nextHere] at hfail
      split at hfail
      next => exact absurd (congrArg Prod.fst hfail) (by simp)
      next error' hresolve =>
        obtain ⟨herror, rfl⟩ := Prod.mk.inj hfail
        obtain rfl := Except.error.inj herror
        obtain ⟨hlt, rfl⟩ := eq_of_resolveAt_error hresolve
        obtain rfl : depth = maxDepth := by omega
        exact ⟨rfl, key, rfl, .list hlist horder hrest⟩
  | leaf _ _ scalar =>
    cases scalar <;> exact absurd (congrArg Prod.fst hfail) (by simp [Cursor.nextHere])
  | _ => exact absurd (congrArg Prod.fst hfail) (by simp [Cursor.nextHere])

/-- A failed call in the tree at a path has left the cursor at a child that lies too deep, inside
any number of nodes around it. -/
def StoppedInside (source : Source) (path : String) (depth : Nat) (error : Error)
    (after : Cursor) : Prop :=
  ∃ wrap inner parent key levels, Carries source wrap ∧ after = wrap inner ∧
    Chain source path levels parent ∧ depth + levels = maxDepth ∧
    error = .depthExceeded (Path.join parent key) maxDepth ∧ Stopped source parent key inner

/-- What has stopped in a child has stopped in the node around it. -/
theorem StoppedInside.of_child {wrap : Cursor → Cursor}
    (h : StoppedInside source (Path.join path key) (depth + 1) error after)
    (hkey : key ∈ source.keys path) (hcarries : Carries source wrap) :
    StoppedInside source path depth error (wrap after) := by
  obtain ⟨inside, inner, parent, deep, levels, hinside, rfl, hchain, hlevels, rfl, hstopped⟩ := h
  exact ⟨wrap ∘ inside, inner, parent, deep, levels + 1, hcarries.comp hinside, rfl,
    .child hkey hchain, by omega, rfl, hstopped⟩

/-- A call that does not go into a child stops right here. -/
theorem Inside.stoppedInside_of_nextHere (h : Inside source path depth cursor)
    (hfail : cursor.nextHere source = (.error error, after)) :
    StoppedInside source path depth error after := by
  obtain ⟨rfl, key, herror, hstopped⟩ := h.stopped_of_nextHere hfail
  exact ⟨id, after, path, key, 0, .refl source, rfl, .start path, rfl, herror, hstopped⟩

/-- What a call on a cursor in the tree gives: it leaves the cursor in the tree, and has stopped at
a child that lies too deep if it fails. -/
structure StaysInside (source : Source) (path : String) (depth : Nat)
    (call : Except Error Located × Cursor) : Prop where
  inside : Inside source path depth call.2
  stopped : ∀ {error : Error}, call.1 = .error error → StoppedInside source path depth error call.2

theorem StaysInside.of_ok {item : Located} (h : Inside source path depth after) :
    StaysInside source path depth (.ok item, after) :=
  ⟨h, fun herror => absurd herror (by simp)⟩

theorem Inside.staysInside_nextHere (h : Inside source path depth cursor) :
    StaysInside source path depth (cursor.nextHere source) :=
  ⟨h.nextHere, fun herror => h.stoppedInside_of_nextHere (Prod.ext herror rfl)⟩

/-- Every call stays in the tree, and fails only at a child that lies too deep. -/
theorem Inside.next (h : Inside source path depth cursor) :
    StaysInside source path depth (cursor.next source) := by
  induction h with
  | @mapValue path key depth child rest hdepth hmap hkey hrest _ ih =>
    have hafter := Inside.mapValue hdepth hmap hkey hrest ih.inside
    unfold Cursor.next
    simp only
    split
    next error' herror =>
      -- the child has failed, so the map around it is carried along
      exact ⟨hafter, fun h => (ih.stopped (herror.trans h)).of_child hkey
        (.mapValue source path depth rest)⟩
    next item hitem =>
      split
      next => exact (Inside.afterValue hdepth hmap hrest).staysInside_nextHere
      next => exact .of_ok hafter
  | @listItem path key depth child ordered rest hdepth hlist horder hkey hrest _ ih =>
    have hafter := Inside.listItem hdepth hlist horder hkey hrest ih.inside
    unfold Cursor.next
    simp only
    split
    next error' herror =>
      exact ⟨hafter, fun h => (ih.stopped (herror.trans h)).of_child hkey
        (.listItem source path depth rest)⟩
    next item hitem =>
      split
      next =>
        split
        next => exact .of_ok (.done path depth)
        next index more =>
          have hindex : index ∈ source.keys path :=
            horder.mem_iff.1 (hrest.subset List.mem_cons_self)
          have hmore := (List.suffix_cons index more).trans hrest
          split
          -- the items lie on one level, so the next one is not too deep
          next error' herror =>
            obtain ⟨hlt, -⟩ := eq_of_resolveAt_error herror
            exact absurd hlt (by omega)
          next fresh hfresh =>
            have hstays := (inside_of_resolveAt hfresh).staysInside_nextHere
            exact ⟨.listItem hdepth hlist horder hindex hmore hstays.inside, fun h =>
              (hstays.stopped h).of_child hindex (.listItem source path depth more)⟩
      next => exact .of_ok hafter
  | @ownValue path place depth scalar child hdepth hmap hchild =>
    -- the leaf has its scalar to give, or is at its end
    rcases hchild with rfl | rfl
    · have hdone : Cursor.done place = .leaf place none ∨ Cursor.done place = .done place :=
        .inr rfl
      cases scalar <;> exact .of_ok (.ownValue hdepth hmap hdone)
    · rw [Cursor.next_mapValue_done]
      exact (Inside.afterValue hdepth hmap (List.suffix_refl _)).staysInside_nextHere
  | leaf path depth scalar => exact (Inside.leaf path depth scalar).staysInside_nextHere
  | done path depth => exact (Inside.done path depth).staysInside_nextHere
  | mapStart hdepth hmap => exact (Inside.mapStart hdepth hmap).staysInside_nextHere
  | ownKey hdepth hmap => exact (Inside.ownKey hdepth hmap).staysInside_nextHere
  | mapKey hdepth hmap hrest => exact (Inside.mapKey hdepth hmap hrest).staysInside_nextHere
  | mapEnd path depth => exact (Inside.mapEnd path depth).staysInside_nextHere
  | listStart hdepth hlist horder hrest =>
    exact (Inside.listStart hdepth hlist horder hrest).staysInside_nextHere
  | listEnd path depth => exact (Inside.listEnd path depth).staysInside_nextHere

/-! ### The calls behind a failure -/

/-- The children of a node on the last level lie too deep. -/
theorem resolveAt_succ_maxDepth (source : Source) (path : String) :
    resolveAt source path (maxDepth + 1) = .error (.depthExceeded path maxDepth) :=
  resolveAt_of_lt (Nat.lt_succ_self maxDepth)

/-- A map that has stopped at a child does not move. -/
theorem next_of_stopped_map (source : Source) (parent key : String) (rest : List String) :
    (Cursor.mapKey parent maxDepth (.child key) rest).next source =
      (.error (.depthExceeded (Path.join parent key) maxDepth),
        .mapKey parent maxDepth (.child key) rest) := by
  simp only [Cursor.next, Cursor.nextHere, resolveAt_succ_maxDepth]

/-- A list that has stopped tries the item behind, and drops it too. -/
theorem next_of_stopped_list (source : Source) (parent key : String) (rest : List String) :
    (Cursor.listStart parent maxDepth (key :: rest)).next source =
      (.error (.depthExceeded (Path.join parent key) maxDepth),
        .listStart parent maxDepth rest) := by
  simp only [Cursor.next, Cursor.nextHere, resolveAt_succ_maxDepth]

open TokenStream

namespace Node

variable {wrap : Cursor → Cursor} (kind : NodeKind) (slot : Slot)

/-- A failed move of a reader is one of its cursor. -/
theorem next_reader_error (h : cursor.next source = (.error error, after)) :
    TokenStream.next (⟨⟨source, kind, cursor⟩, slot⟩ : Reader Node) =
      (.error error, ⟨⟨source, kind, after⟩, slot⟩) :=
  next_of_events_error (next_eq kind h) slot

/-- A move of a reader is one of its cursor, and fills the slot. -/
theorem next_reader {item : Located} (h : cursor.next source = (.ok item, after)) :
    TokenStream.next (⟨⟨source, kind, cursor⟩, slot⟩ : Reader Node) =
      (.ok item.event.token, ⟨⟨source, kind, after⟩, .ofLocated item⟩) :=
  next_of_events (next_eq kind h) slot

/-- Behind a map that has stopped at a child all moves fail. -/
theorem moves_of_stopped_map (hcarries : Carries source wrap) (n : Nat) :
    moves (⟨⟨source, kind, wrap (.mapKey parent maxDepth (.child key) rest)⟩, slot⟩ : Reader Node)
        n = List.replicate n (.error (.depthExceeded (Path.join parent key) maxDepth)) := by
  have hnext := next_reader_error kind slot
    (hcarries.next (next_of_stopped_map source parent key rest) (by simp))
  induction n with
  | zero => rfl
  | succ n ih =>
    rw [moves, hnext, List.replicate_succ]
    exact congrArg _ ih

/-- Behind a list that has stopped, one move fails for each item that is left. Then the list starts
and ends. -/
theorem moves_of_stopped_list (hcarries : Carries source wrap) :
    moves (⟨⟨source, kind, wrap (.listStart parent maxDepth rest)⟩, slot⟩ : Reader Node)
        (rest.length + 2) =
      rest.map (fun key => .error (.depthExceeded (Path.join parent key) maxDepth)) ++
        [.ok (.listStart, parent), .ok (.listEnd, parent)] := by
  induction rest with
  | nil =>
    have hstart : (Cursor.listStart parent maxDepth []).next source =
        (.ok ⟨.listStart, parent⟩, .listEnd parent) := rfl
    have hend : (Cursor.listEnd parent).next source =
        (.ok ⟨.listEnd, parent⟩, .done parent) := rfl
    have hstart' := next_reader kind slot (hcarries.next hstart (by simp))
    have hend' := next_reader kind (.ofLocated ⟨.listStart, parent⟩) (hcarries.next hend (by simp))
    simp only [List.length_nil, moves, hstart', hend']
    rfl
  | cons key rest ih =>
    have hnext := next_reader_error kind slot
      (hcarries.next (next_of_stopped_list source parent key rest) (by simp))
    rw [List.length_cons, Nat.succ_add, moves, hnext, List.map_cons, List.cons_append]
    exact congrArg _ ih

/-- All states of a resolved node are in the tree at its path. -/
theorem exists_inside_advance {reader : Reader Node}
    (h : Node.resolve source path = .ok reader) (n : Nat) :
    ∃ kind cursor slot, advance n reader = ⟨⟨source, kind, cursor⟩, slot⟩ ∧
      Inside source path 0 cursor := by
  induction n with
  | zero =>
    cases hcursor : resolveAt source path 0 with
    | error error =>
      rw [Node.resolve, Resolution.resolve, hcursor] at h
      exact absurd h (by simp [Except.map])
    | ok cursor =>
      rw [resolve_of_resolveAt hcursor, Except.ok.injEq] at h
      exact ⟨_, cursor, _, h.symm, inside_of_resolveAt hcursor⟩
  | succ n ih =>
    obtain ⟨kind, cursor, slot, hadvance, hinside⟩ := ih
    have hafter := hinside.next.inside
    rw [advance_succ, hadvance]
    cases hnext : cursor.next source with
    | mk result after =>
      rw [hnext] at hafter
      cases result with
      | error error =>
        rw [next_reader_error kind slot hnext]
        exact ⟨kind, after, slot, rfl, hafter⟩
      | ok item =>
        rw [next_reader kind slot hnext]
        exact ⟨kind, after, _, rfl, hafter⟩

end Node

/-- Every failure in a resolved tree is that of a child one level too deep. It lasts exactly if the
children that it is one of form no list. In a list the items behind the child fail one after the
other, each with its own path, and then the list starts and ends as if it were empty. -/
theorem lasts_iff_not_allIndexes {reader : Reader Node} {n : Nat}
    (hreader : Node.resolve source path = .ok reader)
    (herror : (next (advance n reader)).1 = .error error) :
    ∃ parent key, Chain source path maxDepth parent ∧ key ∈ source.keys parent ∧
      error = .depthExceeded (Path.join parent key) maxDepth ∧
      ((∀ m, moves (advance n reader) m = List.replicate m (.error error)) ↔
        ¬ AllIndexes (source.keys parent)) ∧
      (AllIndexes (source.keys parent) → ∃ before rest,
        IndexOrder (source.keys parent) (before ++ key :: rest) ∧
        moves (advance (n + 1) reader) (rest.length + 2) =
          rest.map (fun key => .error (.depthExceeded (Path.join parent key) maxDepth)) ++
            [.ok (.listStart, parent), .ok (.listEnd, parent)]) := by
  obtain ⟨kind, cursor, slot, hadvance, hinside⟩ := Node.exists_inside_advance hreader n
  obtain ⟨result, after, hnext⟩ : ∃ result after, cursor.next source = (result, after) :=
    ⟨_, _, rfl⟩
  cases result with
  | ok item =>
    rw [hadvance, Node.next_reader kind slot hnext] at herror
    exact absurd herror (by simp)
  | error error' =>
    have hmove := Node.next_reader_error kind slot hnext
    rw [← hadvance] at hmove
    obtain rfl : error' = error := by simpa [hmove] using herror
    obtain ⟨wrap, inner, parent, key, levels, hcarries, rfl, hchain, hlevels, rfl, hstopped⟩ :=
      (hnext ▸ hinside.next).stopped rfl
    obtain rfl : levels = maxDepth := by omega
    have hbehind : advance (n + 1) reader = ⟨⟨source, kind, wrap inner⟩, slot⟩ := by
      rw [advance_succ, hmove]
    -- the failed call itself comes before what its state gives
    have hmoves : ∀ m, moves (advance n reader) (m + 1) =
        .error (.depthExceeded (Path.join parent key) maxDepth) ::
          moves (advance (n + 1) reader) m := by
      intro m
      rw [moves, advance_succ, hmove]
      rfl
    cases hstopped with
    | @map rest hmap hkey =>
      refine ⟨parent, key, hchain, hkey, rfl, iff_of_true (fun m => ?_) hmap,
        fun hlist => absurd hlist hmap⟩
      cases m with
      | zero => rfl
      | succ m =>
        rw [hmoves, hbehind, Node.moves_of_stopped_map kind slot hcarries, List.replicate_succ]
    | @list ordered rest hlist horder hrest =>
      obtain ⟨before, rfl⟩ := hrest
      have hlater : moves (advance (n + 1) reader) (rest.length + 2) = _ :=
        hbehind ▸ Node.moves_of_stopped_list kind slot hcarries
      have hkey : key ∈ source.keys parent := horder.mem_iff.1 (by simp)
      refine ⟨parent, key, hchain, hkey, rfl, iff_of_false (fun hlasts => ?_) (not_not.2 hlist),
        fun _ => ⟨before, rest, horder, hlater⟩⟩
      -- the start of the list is no failure
      have hstart : (.ok (.listStart, parent) : Except Error (Token × String)) ∈
          moves (advance n reader) (rest.length + 2 + 1) := by
        rw [hmoves, hlater]
        simp
      rw [hlasts] at hstart
      exact absurd (List.eq_of_mem_replicate hstart) (by simp)

/-! ### A list one level too deep -/

/-- The path of `n` zeros. -/
def zeros (n : Nat) : String := Path.ofSegments (List.replicate n "0")

/-- A map with a single scalar, below one more list than there are levels. -/
def deepSource : Source := (Store.ofMap [(zeros (maxDepth + 1), .integer 1)]).toSource "map"

/-- The reader of all of the map. -/
def deepReader : Reader Node := ⟨⟨deepSource, .list, .listStart "" 0 ["0"]⟩, .initial ""⟩

theorem zeros_succ (n : Nat) : zeros (n + 1) = Path.join (zeros n) "0" := by
  rw [zeros, List.replicate_succ', Path.ofSegments_append_singleton, zeros]

/-- Below the beginnings of a path of equal segments is that segment. -/
theorem keys_replicate {segment : String} (hname : Path.IsName segment) (scalar : Scalar)
    (name : String) {n m : Nat} (h : n < m) :
    ((Store.ofMap [(Path.ofSegments (List.replicate m segment), scalar)]).toSource name).keys
      (Path.ofSegments (List.replicate n segment)) = [segment] := by
  obtain ⟨k, rfl⟩ := Nat.exists_eq_add_of_lt h
  have hsegments : List.replicate (n + k + 1) segment =
      List.replicate n segment ++ segment :: List.replicate k segment := by
    rw [← List.replicate_succ, List.replicate_append_replicate, Nat.add_assoc]
  have hnames := Path.isName_of_mem_replicate hname (n + k + 1)
  rw [hsegments] at hnames ⊢
  exact Store.keys_singleton hnames scalar name

theorem keys_deepSource {n : Nat} (h : n ≤ maxDepth) : deepSource.keys (zeros n) = ["0"] :=
  keys_replicate ⟨by decide, by decide⟩ _ _ (Nat.lt_succ_of_le h)

theorem allIndexes_deepSource {n : Nat} (h : n ≤ maxDepth) :
    AllIndexes (deepSource.keys (zeros n)) := by
  have hnumbers : AllIndexes (Path.numbers 1) := Path.allIndexes_numbers_iff.2 (by decide)
  rw [keys_deepSource h]
  exact hnumbers

/-- Every level of the map is a list of one item. -/
theorem resolveAt_deepSource {n : Nat} (h : n ≤ maxDepth) :
    resolveAt deepSource (zeros n) n = .ok (.listStart (zeros n) n ["0"]) := by
  refine resolveAt_of_indexOrder h (by simp [keys_deepSource h]) (allIndexes_deepSource h) ?_
  rw [keys_deepSource h]
  exact Path.indexOrder_numbers 1

theorem resolve_deepSource : Node.resolve deepSource "" = .ok deepReader :=
  resolve_of_resolveAt (resolveAt_deepSource (Nat.zero_le maxDepth))

/-- Behind `n` moves the reader stands before the list on level `n`. -/
theorem advance_deepReader {n : Nat} (h : n ≤ maxDepth) :
    ∃ wrap slot, Carries deepSource wrap ∧
      advance n deepReader = ⟨⟨deepSource, .list, wrap (.listStart (zeros n) n ["0"])⟩, slot⟩ := by
  induction n with
  | zero => exact ⟨id, _, .refl deepSource, rfl⟩
  | succ n ih =>
    obtain ⟨wrap, slot, hcarries, hadvance⟩ := ih (Nat.le_of_succ_le h)
    have hchild := resolveAt_deepSource h
    rw [zeros_succ] at hchild
    have hstart : (Cursor.listStart (zeros n) n ["0"]).next deepSource = (.ok ⟨.listStart, zeros n⟩,
        .listItem (zeros n) n (.listStart (zeros (n + 1)) (n + 1) ["0"]) []) := by
      simp only [Cursor.next, Cursor.nextHere, hchild, zeros_succ]
    have hinside := hcarries.comp (.listItem deepSource (zeros n) n [])
    refine ⟨_, .ofLocated ⟨.listStart, zeros n⟩, hinside, ?_⟩
    rw [advance_succ, hadvance, Node.next_reader .list slot (hcarries.next hstart (by simp))]
    rfl

/-- The move behind the last list that resolves fails. -/
theorem next_advance_deepReader : (next (advance maxDepth deepReader)).1 =
    .error (.depthExceeded (zeros (maxDepth + 1)) maxDepth) := by
  obtain ⟨wrap, slot, hcarries, hadvance⟩ := advance_deepReader (Nat.le_refl maxDepth)
  have hnext := next_of_stopped_list deepSource (zeros maxDepth) "0" []
  rw [← zeros_succ] at hnext
  rw [hadvance, Node.next_reader_error .list slot (hcarries.next hnext (by simp))]

theorem lasts_iff_not_allIndexes_deepReader :
    ∃ parent key, Chain deepSource "" maxDepth parent ∧ key ∈ deepSource.keys parent ∧
      Error.depthExceeded (zeros (maxDepth + 1)) maxDepth =
        .depthExceeded (Path.join parent key) maxDepth ∧
      ((∀ m, moves (advance maxDepth deepReader) m =
          List.replicate m (.error (.depthExceeded (zeros (maxDepth + 1)) maxDepth))) ↔
        ¬ AllIndexes (deepSource.keys parent)) := by
  obtain ⟨parent, key, hchain, hkey, herror, hlasts, -⟩ :=
    lasts_iff_not_allIndexes resolve_deepSource next_advance_deepReader
  exact ⟨parent, key, hchain, hkey, herror, hlasts⟩

/-- Behind the failure the list that could not resolve its only item starts as if it were empty. -/
theorem not_failuresLast_deepReader :
    Node.resolve deepSource "" = .ok deepReader ∧ ¬ FailuresLast deepReader := by
  refine ⟨resolve_deepSource, fun hlast => ?_⟩
  have hmoves := hlast maxDepth _ next_advance_deepReader 2
  obtain ⟨wrap, slot, hcarries, hadvance⟩ := advance_deepReader (Nat.le_refl maxDepth)
  have hnext := next_of_stopped_list deepSource (zeros maxDepth) "0" []
  have hstart : (Cursor.listStart (zeros maxDepth) maxDepth []).next deepSource =
      (.ok ⟨.listStart, zeros maxDepth⟩, .listEnd (zeros maxDepth)) := rfl
  rw [hadvance, moves, Node.next_reader_error .list slot (hcarries.next hnext (by simp)), moves,
    Node.next_reader .list slot (hcarries.next hstart (by simp))] at hmoves
  simp [Except.map, List.replicate] at hmoves

end LayeredConfig.Resolution
