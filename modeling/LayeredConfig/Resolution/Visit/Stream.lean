import LayeredConfig.Resolution.Visit

/-!
# Visits as streams

A visit and its source are a stream of tokens (`VisitStream`). The bound on the tokens to come is
read off the fields in every state, whether or not they are consistent: what is to come is counted
by the tree below it, and a child by its own fields (`Visit.remaining`).

* `Visit.remaining_next`, `Visit.remaining_peek`: a step takes a token before the end, and no step
  adds one.
-/

namespace LayeredConfig.Resolution.Visit

variable {source : Source} {path : String} {depth : Nat} {visit child : Visit}

/-! ### The tokens to come -/

/-- A bound on the tokens of an entry. -/
def entrySize (source : Source) (path : String) (depth : Nat) : Entry → Nat
  | .own => 2
  | .child key => 1 + treeSize source (maxDepth - depth) (Path.join path key)

/-- A bound on the tokens of entries. -/
def entriesSize (source : Source) (path : String) (depth : Nat) (entries : List Entry) : Nat :=
  entries.foldr (fun entry total => entrySize source path depth entry + total) 0

/-- A bound on the number of tokens to come. -/
def remaining (source : Source) : Visit → Nat
  | map ⟨path, depth, entries, current, child, phase, _⟩ =>
    match phase with
    | .start => 2 + entriesSize source path depth entries
    | .key => 1 + entriesSize source path depth (current.toList ++ entries)
    | .value =>
      match child with
      | some child => 1 + remaining source child + entriesSize source path depth entries
      | none => 1 + entriesSize source path depth entries
    | .finish => 1
    | .done => 0
  | list ⟨path, depth, indexes, child, phase, _⟩ =>
    match phase with
    | .start => 2 + Cursor.itemsSize source path depth indexes
    | .value =>
      match child with
      | some child => 1 + remaining source child + Cursor.itemsSize source path depth indexes
      | none => 1 + Cursor.itemsSize source path depth indexes
    | .finish => 1
    | .done => 0
  | leaf l => if l.emitted then 0 else 1

theorem remaining_map (m : MapVisit Visit) : (map m).remaining source =
    match m.phase with
    | .start => 2 + entriesSize source m.path m.depth m.entries
    | .key => 1 + entriesSize source m.path m.depth (m.current.toList ++ m.entries)
    | .value => 1 + m.child.elim 0 (remaining source) + entriesSize source m.path m.depth m.entries
    | .finish => 1
    | .done => 0 := by
  obtain ⟨_, _, _, _, child, phase, _⟩ := m
  cases phase <;> cases child <;> rfl

theorem remaining_list (l : ListVisit Visit) : (list l).remaining source =
    match l.phase with
    | .start => 2 + Cursor.itemsSize source l.path l.depth l.indexes
    | .value =>
      1 + l.child.elim 0 (remaining source) + Cursor.itemsSize source l.path l.depth l.indexes
    | .finish => 1
    | .done => 0 := by
  obtain ⟨_, _, _, child, phase, _⟩ := l
  cases phase <;> cases child <;> rfl

theorem remaining_leaf (l : LeafVisit) :
    (leaf l).remaining source = if l.emitted then 0 else 1 := rfl

@[simp]
theorem remaining_withSlot (slot : Slot) (visit : Visit) :
    (visit.withSlot slot).remaining source = visit.remaining source := by
  cases visit with
  | map m => rw [withSlot, remaining_map, remaining_map]
  | list l => rw [withSlot, remaining_list, remaining_list]
  | leaf l => rfl

/-- Moving a scalar into another slot takes no token. -/
theorem remaining_of_relay {token : Token} {result : Except Error Slot}
    (h : child.relay token = (result, visit)) :
    visit.remaining source = child.remaining source := by
  obtain rfl : (child.relay token).2 = visit := congrArg Prod.snd h
  unfold relay
  split
  · exact remaining_withSlot _ _
  · rfl

@[simp]
theorem entriesSize_nil (path : String) (depth : Nat) : entriesSize source path depth [] = 0 := rfl

theorem entriesSize_cons (path : String) (depth : Nat) (entry : Entry) (rest : List Entry) :
    entriesSize source path depth (entry :: rest) =
      entrySize source path depth entry + entriesSize source path depth rest := rfl

/-- The children of a map have as many tokens to come as in the tree. -/
theorem entriesSize_children (path : String) (depth : Nat) (keys : List String) :
    entriesSize source path depth (keys.map .child) =
      Cursor.entriesSize source path depth keys := by
  induction keys with
  | nil => rfl
  | cons key keys ih => rw [List.map_cons, entriesSize_cons, ih, entrySize, Cursor.entriesSize_cons]

/-- A visit that is ready to be read has the tokens of its tree to come. -/
theorem remaining_of_resolveAt (h : resolveAt source path depth = .ok visit) :
    visit.remaining source = treeSize source (maxDepth + 1 - depth) path := by
  unfold resolveAt at h
  split at h
  next => exact absurd h (by simp)
  next hdepth =>
    obtain ⟨levels, hlevels⟩ : ∃ levels, maxDepth + 1 - depth = levels + 1 :=
      ⟨maxDepth - depth, by omega⟩
    have hsub : maxDepth - depth = levels := by omega
    rw [hlevels, treeSize]
    cases hkeys : source.keys path with
    | nil =>
      simp only [hkeys] at h
      obtain rfl := Except.ok.inj h
      rfl
    | cons key keys =>
      simp only [hkeys] at h
      cases hindexes : listIndexes? (key :: keys) with
      | some indexes =>
        simp only [hindexes] at h ⊢
        obtain rfl := Except.ok.inj h
        simp only [ofList, remaining_list, Cursor.itemsSize, hsub]
      | none =>
        simp only [hindexes] at h ⊢
        obtain rfl := Except.ok.inj h
        -- the own entry is counted together with the start and the end
        simp only [ofMap, remaining_map, entriesSize_cons, entrySize, entriesSize_children,
          Cursor.entriesSize, hsub]
        omega

/-- A child has as many tokens to come as the visit around it counts for it. -/
theorem remaining_child (h : resolveAt source path (depth + 1) = .ok child) :
    child.remaining source = treeSize source (maxDepth - depth) path := by
  rw [remaining_of_resolveAt h]
  congr 1
  omega

/-- Going on with the next entry adds no tokens to those of the entries. -/
theorem remaining_advance_map (m : MapVisit Visit) : (map m.advance).remaining source =
    1 + entriesSize source m.path m.depth m.entries := by
  unfold MapVisit.advance
  split
  next hentries => simp only [remaining_map, hentries, entriesSize_nil]
  next hentries => simp only [remaining_map, hentries, Option.toList_some, List.singleton_append]

/-- Opening the current entry takes a token more than its value has. -/
theorem remaining_openEntry {m after : MapVisit Visit} {result : Except Error (String × String)}
    (hkey : m.phase = .key) (h : m.openEntry source = (result, after)) :
    (map after).remaining source ≤ (map m).remaining source ∧
      ∀ names, result = .ok names → ∀ slot,
        (map { after with phase := .value, slot }).remaining source < (map m).remaining source := by
  unfold MapVisit.openEntry at h
  split at h
  next =>
    obtain ⟨rfl, rfl⟩ := Prod.mk.inj h
    exact ⟨Nat.le_refl _, fun _ h => absurd h (by simp)⟩
  next hcurrent =>
    obtain ⟨rfl, rfl⟩ := Prod.mk.inj h
    -- the own entry has a name and a leaf
    simp only [remaining_map, hkey, hcurrent, Option.toList_some, List.singleton_append,
      entriesSize_cons, entrySize, ofLeaf, Option.elim, remaining_leaf]
    exact ⟨Nat.le_refl _, fun _ _ _ => by simp +arith⟩
  next key hcurrent =>
    dsimp only at h
    split at h
    next =>
      obtain ⟨rfl, rfl⟩ := Prod.mk.inj h
      exact ⟨Nat.le_refl _, fun _ h => absurd h (by simp)⟩
    next child hchild =>
      obtain ⟨rfl, rfl⟩ := Prod.mk.inj h
      simp only [remaining_map, hkey, hcurrent, Option.toList_some, List.singleton_append,
        entriesSize_cons, entrySize, Option.elim, remaining_child hchild]
      exact ⟨Nat.le_refl _, fun _ _ _ => by omega⟩

/-- Going on with the next item adds no tokens to those of the items. -/
theorem remaining_advance_list {l after : ListVisit Visit} {result : Except Error Unit}
    (h : l.advance source = (result, after)) :
    (∀ done, result = .ok done →
      (list after).remaining source = 1 + Cursor.itemsSize source l.path l.depth l.indexes) ∧
    ∀ error, result = .error error → (list after).remaining source ≤ (list l).remaining source := by
  unfold ListVisit.advance at h
  split at h
  next hindexes =>
    obtain ⟨rfl, rfl⟩ := Prod.mk.inj h
    refine ⟨fun _ _ => ?_, fun _ h => absurd h (by simp)⟩
    simp only [remaining_list, hindexes]
    rfl
  next index rest hindexes =>
    split at h
    next =>
      obtain ⟨rfl, rfl⟩ := Prod.mk.inj h
      refine ⟨fun _ h => absurd h (by simp), fun _ _ => ?_⟩
      simp only [remaining_list, hindexes, Cursor.itemsSize_cons, Option.elim_none]
      split <;> omega
    next child hchild =>
      obtain ⟨rfl, rfl⟩ := Prod.mk.inj h
      refine ⟨fun _ _ => ?_, fun _ h => absurd h (by simp)⟩
      simp only [remaining_list, hindexes, Cursor.itemsSize_cons, Option.elim_some,
        remaining_child hchild]
      omega

/-- Every step before the end takes a token, and none adds one. -/
theorem remaining_next (visit : Visit) :
    (visit.next source).2.remaining source ≤ visit.remaining source ∧
      ∀ token, (visit.next source).1 = .ok token → token ≠ .endOfStream →
        (visit.next source).2.remaining source < visit.remaining source := by
  fun_induction next source visit with
  | case1 m hphase =>
    have hsize : (map { m.advance with slot := .cleared m.path .objectStart }).remaining source =
        1 + entriesSize source m.path m.depth m.entries :=
      (remaining_withSlot _ (map m.advance)).trans (remaining_advance_map m)
    have hlt : (map { m.advance with slot := .cleared m.path .objectStart }).remaining source <
        (map m).remaining source := by
      simp only [hsize, remaining_map, hphase]
      omega
    exact ⟨Nat.le_of_lt hlt, fun _ _ _ => hlt⟩
  | case2 m hphase error after hopen =>
    exact ⟨(remaining_openEntry hphase hopen).1, fun _ h => absurd h (by simp)⟩
  | case3 m hphase key place after hopen =>
    have hlt := (remaining_openEntry hphase hopen).2 _ rfl (.filled place (.string key))
    exact ⟨Nat.le_of_lt hlt, fun _ _ _ => hlt⟩
  | case4 m hphase hchild => exact ⟨Nat.le_refl _, fun _ h => absurd h (by simp)⟩
  | case5 m hphase child hchild r error herror ih =>
    have hle : r.2.remaining source ≤ child.remaining source := ih.1
    refine ⟨?_, fun _ h => absurd h (by simp)⟩
    simp only [remaining_map, hphase, hchild, Option.elim_some]
    omega
  | case6 m hphase child hchild r hend ih ih' =>
    have hsize := @remaining_advance_map source m
    have hvalue : 1 + entriesSize source m.path m.depth m.entries ≤ (map m).remaining source := by
      simp only [remaining_map, hphase]
      omega
    refine ⟨by omega, fun token htoken hne => ?_⟩
    have := ih'.2 token htoken hne
    omega
  | case7 m hphase child hchild r token htoken hne error after hrelay ih =>
    have hle : r.2.remaining source ≤ child.remaining source := ih.1
    have hafter : after.remaining source = r.2.remaining source := remaining_of_relay hrelay
    refine ⟨?_, fun _ h => absurd h (by simp)⟩
    simp only [remaining_map, hphase, hchild, Option.elim_some]
    omega
  | case8 m hphase child hchild r token htoken hne slot after hrelay ih =>
    have hlt : r.2.remaining source < child.remaining source := ih.2 token htoken hne
    have hafter : after.remaining source = r.2.remaining source := remaining_of_relay hrelay
    simp only [remaining_map, hphase, hchild, Option.elim_some]
    exact ⟨by omega, fun _ _ _ => by omega⟩
  | case9 m hphase =>
    simp only [remaining_map, hphase]
    exact ⟨by omega, fun _ _ _ => by omega⟩
  | case10 m hphase =>
    simp only [remaining_map, hphase]
    exact ⟨Nat.le_refl _, fun _ h hne => absurd (Except.ok.inj h).symm hne⟩
  | case11 l hphase error after hadvance =>
    exact ⟨(remaining_advance_list hadvance).2 _ rfl, fun _ h => absurd h (by simp)⟩
  | case12 l hphase done after hadvance =>
    have hsize : (list { after with slot := .cleared after.path .listStart }).remaining source =
        1 + Cursor.itemsSize source l.path l.depth l.indexes :=
      (remaining_withSlot _ (list after)).trans ((remaining_advance_list hadvance).1 _ rfl)
    have hlt : (list { after with slot := .cleared after.path .listStart }).remaining source <
        (list l).remaining source := by
      simp only [hsize, remaining_list l, hphase]
      omega
    exact ⟨Nat.le_of_lt hlt, fun _ _ _ => hlt⟩
  | case13 l hphase hchild => exact ⟨Nat.le_refl _, fun _ h => absurd h (by simp)⟩
  | case14 l hphase child hchild r error herror ih =>
    have hle : r.2.remaining source ≤ child.remaining source := ih.1
    refine ⟨?_, fun _ h => absurd h (by simp)⟩
    simp only [remaining_list, hphase, hchild, Option.elim_some]
    omega
  | case15 l hphase child hchild r error after hadvance hend ih =>
    exact ⟨(remaining_advance_list hadvance).2 _ rfl, fun _ h => absurd h (by simp)⟩
  | case16 l hphase child hchild r done after hadvance hend ih ih' =>
    have hsize := (remaining_advance_list hadvance).1 _ rfl
    have hvalue : 1 + Cursor.itemsSize source l.path l.depth l.indexes ≤
        (list l).remaining source := by
      simp only [remaining_list, hphase]
      omega
    refine ⟨by omega, fun token htoken hne => ?_⟩
    have := ih'.2 token htoken hne
    omega
  | case17 l hphase child hchild r token htoken hne error after hrelay ih =>
    have hle : r.2.remaining source ≤ child.remaining source := ih.1
    have hafter : after.remaining source = r.2.remaining source := remaining_of_relay hrelay
    refine ⟨?_, fun _ h => absurd h (by simp)⟩
    simp only [remaining_list, hphase, hchild, Option.elim_some]
    omega
  | case18 l hphase child hchild r token htoken hne slot after hrelay ih =>
    have hlt : r.2.remaining source < child.remaining source := ih.2 token htoken hne
    have hafter : after.remaining source = r.2.remaining source := remaining_of_relay hrelay
    simp only [remaining_list, hphase, hchild, Option.elim_some]
    exact ⟨by omega, fun _ _ _ => by omega⟩
  | case19 l hphase =>
    simp only [remaining_list, hphase]
    exact ⟨by omega, fun _ _ _ => by omega⟩
  | case20 l hphase =>
    simp only [remaining_list, hphase]
    exact ⟨Nat.le_refl _, fun _ h hne => absurd (Except.ok.inj h).symm hne⟩
  | case21 l hemitted =>
    simp only [remaining_leaf, hemitted]
    exact ⟨Nat.le_refl _, fun _ h hne => absurd (Except.ok.inj h).symm hne⟩
  | case22 l hemitted | case23 l hemitted =>
    simp only [remaining_leaf, hemitted]
    exact ⟨Nat.zero_le _, fun _ _ _ => Nat.zero_lt_one⟩

/-- Looking ahead adds no tokens. -/
theorem remaining_peek (visit : Visit) :
    (visit.peek source).2.remaining source ≤ visit.remaining source := by
  fun_induction peek source visit with
  | case4 m hphase child hchild r _ _ ih | case6 m hphase child hchild r _ _ _ ih =>
    have hle : r.2.remaining source ≤ child.remaining source := ih
    simp only [remaining_map, hphase, hchild, Option.elim_some]
    omega
  | case5 m hphase child hchild r hend ih ih' =>
    have hsize := @remaining_advance_map source m
    have hvalue : 1 + entriesSize source m.path m.depth m.entries ≤ (map m).remaining source := by
      simp only [remaining_map, hphase]
      omega
    omega
  | case11 l hphase child hchild r _ _ ih | case14 l hphase child hchild r _ _ _ ih =>
    have hle : r.2.remaining source ≤ child.remaining source := ih
    simp only [remaining_list, hphase, hchild, Option.elim_some]
    omega
  | case12 l hphase child hchild r error after hadvance hend ih =>
    exact (remaining_advance_list hadvance).2 _ rfl
  | case13 l hphase child hchild r done after hadvance hend ih ih' =>
    have hsize := (remaining_advance_list hadvance).1 _ rfl
    have hvalue : 1 + Cursor.itemsSize source l.path l.depth l.indexes ≤
        (list l).remaining source := by
      simp only [remaining_list, hphase]
      omega
    omega
  | _ => exact Nat.le_refl _

end LayeredConfig.Resolution.Visit

namespace LayeredConfig.Resolution

/-- The tokens of a visit. -/
structure VisitStream where
  /-- The source. -/
  source : Source
  /-- The visit. -/
  visit : Visit

namespace VisitStream

instance : TokenStream VisitStream where
  peek s := ((s.visit.peek s.source).1, { s with visit := (s.visit.peek s.source).2 })
  next s := ((s.visit.next s.source).1, { s with visit := (s.visit.next s.source).2 })
  readScalar s := (s.visit.readScalar.1, { s with visit := s.visit.readScalar.2 })
  currentPath s := s.visit.slot.path
  remaining s := s.visit.remaining s.source
  remaining_peek s := s.visit.remaining_peek
  remaining_readScalar s := Nat.le_of_eq (Visit.remaining_withSlot _ s.visit)
  remaining_next s := s.visit.remaining_next.1
  remaining_next_lt s _ h hne := s.visit.remaining_next.2 _ h hne

/-- The tokens of what a path of a source holds. -/
def resolve (source : Source) (path : String) : Except Error VisitStream :=
  (Visit.resolveAt source path 0).map fun visit => ⟨source, visit⟩

end VisitStream

end LayeredConfig.Resolution
