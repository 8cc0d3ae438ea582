import LayeredConfig.Proofs.Path.Index
import LayeredConfig.Proofs.Value.Events
import Mathlib.Data.List.Nodup

/-!
# The scalars of a tree

`Value.scalars path value` are the scalars of a tree at a path, with their paths. A tree is
`Storable` if these paths tell all of it: its names can be segments and are different in each
object, and it has no nulls. Then the scalars are stored under different paths
(`Storable.nodup_scalars`), which go on from the path of the tree with names
(`Storable.split_scalars`).
-/

namespace LayeredConfig.Value

/-- The trees directly below a tree, with the segments that lead to them. -/
def children : Value → List (String × Value)
  | .sequence items => items.mapIdx fun index item => (toString index, item)
  | .mapping entries => entries
  | _ => []

/-- The scalar that an event gives, with its path. -/
def scalarOf? (item : Located) : Option (String × Scalar) :=
  match item.event with
  | .value leaf => some (item.path, leaf)
  | _ => none

/-- The scalars of a tree at a path, with their paths. -/
def scalars (path : String) (value : Value) : OrderedMap Scalar :=
  (events path value).filterMap scalarOf?

/-- The scalars of the tree can be stored by their paths. The items of a list are numbered, which
gives each a name of its own. -/
inductive Storable : Value → Prop
  | leaf (leaf : Scalar) : Storable (.scalar leaf)
  | node {value : Value} (hcontainer : value.IsContainer)
      (hnodup : (OrderedMap.keys value.children).Nodup)
      (hnames : ∀ key ∈ OrderedMap.keys value.children, Path.IsName key ∧ key ≠ pathKey)
      (hchildren : ∀ child ∈ value.children, Storable child.2) : Storable value

/-! ### Children -/

theorem keys_children_sequence (items : List Value) :
    OrderedMap.keys (children (.sequence items)) = Path.numbers items.length := by
  rw [children, OrderedMap.keys, Path.numbers]
  refine List.ext_getElem (by simp) fun index h h' => ?_
  simp

theorem nodup_children_sequence (items : List Value) :
    (OrderedMap.keys (children (.sequence items))).Nodup := by
  rw [keys_children_sequence]
  exact Path.nodup_numbers _

/-- The numbers of a list are segments like names. -/
theorem name_of_mem_children_sequence (items : List Value) :
    ∀ key ∈ OrderedMap.keys (children (.sequence items)), Path.IsName key ∧ key ≠ pathKey := by
  intro key hkey
  rw [keys_children_sequence] at hkey
  refine ⟨Path.isName_of_mem_numbers hkey, ?_⟩
  rintro rfl
  exact Path.pathKey_notMem_numbers _ hkey

theorem map_snd_children_sequence (items : List Value) :
    (children (.sequence items)).map Prod.snd = items := by
  rw [children]
  refine List.ext_getElem (by simp) fun index h h' => ?_
  simp

/-- The items of a list are its children. -/
theorem exists_child_of_mem {items : List Value} {item : Value} (h : item ∈ items) :
    ∃ key, (key, item) ∈ children (.sequence items) := by
  rw [← map_snd_children_sequence items] at h
  obtain ⟨⟨key, _⟩, hchild, rfl⟩ := List.mem_map.1 h
  exact ⟨key, hchild⟩

theorem snd_mem_of_mem_children_sequence {items : List Value} {child : String × Value}
    (h : child ∈ children (.sequence items)) : child.2 ∈ items := by
  rw [← map_snd_children_sequence items]
  exact List.mem_map_of_mem h

/-! ### Scalars -/

@[simp]
theorem scalars_scalar (path : String) (leaf : Scalar) :
    scalars path (.scalar leaf) = [(path, leaf)] := by
  rw [scalars, events]
  rfl

/-- The scalars of a list or an object are those of its children. -/
theorem scalars_of_isContainer {value : Value} (h : value.IsContainer) (path : String) :
    scalars path value =
      value.children.flatMap fun child => scalars (Path.join path child.1) child.2 := by
  obtain ⟨items, rfl⟩ | ⟨entries, rfl⟩ := h
  · rw [scalars, events, itemEvents_eq_flatMap, List.cons_append, List.filterMap_cons_none rfl,
      List.filterMap_append, List.filterMap_flatMap]
    simp only [Nat.zero_add]
    exact List.append_nil _
  · rw [scalars, events, entryEvents_eq_flatMap, List.cons_append, List.filterMap_cons_none rfl,
      List.filterMap_append, List.filterMap_flatMap]
    exact List.append_nil _

/-- The scalars of an object are those of two parts of it. -/
theorem scalars_append (path : String) (entries more : List (String × Value)) :
    scalars path (.mapping (entries ++ more)) =
      scalars path (.mapping entries) ++ scalars path (.mapping more) := by
  have hcontainer : ∀ entries, IsContainer (.mapping entries) := fun entries => .inr ⟨entries, rfl⟩
  rw [scalars_of_isContainer (hcontainer _), scalars_of_isContainer (hcontainer _),
    scalars_of_isContainer (hcontainer _)]
  exact List.flatMap_append

/-- The events of a list or an object are its bounds, names and the events of its children. -/
theorem event_of_mem_events {value : Value} (h : value.IsContainer) {path : String} {item : Located}
    (hitem : item ∈ events path value) : (item.event ≠ .null ∧ item.event ≠ .endOfStream) ∨
      ∃ child ∈ value.children, item ∈ events (Path.join path child.1) child.2 := by
  obtain ⟨items, rfl⟩ | ⟨entries, rfl⟩ := h
  · rw [events, itemEvents_eq_flatMap, List.cons_append, List.mem_cons, List.mem_append,
      List.mem_flatMap, List.mem_singleton] at hitem
    simp only [Nat.zero_add] at hitem
    rcases hitem with rfl | hchild | rfl
    · exact .inl (by simp)
    · exact .inr hchild
    · exact .inl (by simp)
  · rw [events, entryEvents_eq_flatMap, List.cons_append, List.mem_cons, List.mem_append,
      List.mem_flatMap, List.mem_singleton] at hitem
    rcases hitem with rfl | ⟨child, hchild, hitem⟩ | rfl
    · exact .inl (by simp)
    · rcases List.mem_cons.1 hitem with rfl | hitem
      · exact .inl (by simp)
      · exact .inr ⟨child, hchild, hitem⟩
    · exact .inl (by simp)

/-! ### Trees that can be stored -/

namespace Storable

variable {value : Value} {segments : List String}

/-- A list of trees that can be stored is one. -/
theorem sequence {items : List Value} (hitems : ∀ item ∈ items, Storable item) :
    Storable (.sequence items) := by
  refine .node (.inl ⟨items, rfl⟩) (nodup_children_sequence items)
    (name_of_mem_children_sequence items) ?_
  exact fun child hchild => hitems child.2 (snd_mem_of_mem_children_sequence hchild)

/-- An object of trees that can be stored is one, if its names are different segments. -/
theorem mapping {entries : OrderedMap Value} (hnodup : (OrderedMap.keys entries).Nodup)
    (hnames : ∀ key ∈ OrderedMap.keys entries, Path.IsName key ∧ key ≠ pathKey)
    (hentries : ∀ entry ∈ entries, Storable entry.2) : Storable (.mapping entries) :=
  .node (.inr ⟨entries, rfl⟩) hnodup hnames hentries

theorem nodup_children (h : Storable value) : (OrderedMap.keys value.children).Nodup := by
  cases h with
  | leaf => exact List.nodup_nil
  | node _ hnodup => exact hnodup

theorem isName_of_mem_children (h : Storable value) {child : String × Value}
    (hchild : child ∈ value.children) : Path.IsName child.1 := by
  cases h with
  | leaf => exact absurd hchild (by simp [children])
  | node _ _ hnames => exact (hnames child.1 (List.mem_map_of_mem hchild)).1

theorem pathKey_notMem (h : Storable value) : pathKey ∉ OrderedMap.keys value.children := by
  cases h with
  | leaf => simp [children, OrderedMap.keys]
  | node _ _ hnames => exact fun hmem => (hnames pathKey hmem).2 rfl

theorem of_mem_children (h : Storable value) {child : String × Value}
    (hchild : child ∈ value.children) : Storable child.2 := by
  cases h with
  | leaf => exact absurd hchild (by simp [children])
  | node _ _ _ hchildren => exact hchildren child hchild

theorem of_mem_items {items : List Value} (h : Storable (.sequence items)) :
    ∀ item ∈ items, Storable item := by
  intro item hitem
  obtain ⟨key, hchild⟩ := exists_child_of_mem hitem
  exact h.of_mem_children hchild

/-- Reading keeps all entries of an object that can be stored. -/
theorem collect_eq_self {entries : List (String × Value)} (h : Storable (.mapping entries)) :
    collect entries = entries :=
  Value.collect_eq_self h.nodup_children h.pathKey_notMem

/-- An object that can be stored has two parts that can be stored. -/
theorem of_append {entries more : List (String × Value)}
    (h : Storable (.mapping (entries ++ more))) :
    Storable (.mapping entries) ∧ Storable (.mapping more) := by
  cases h with
  | node _ hnodup hnames hchildren =>
    rw [children, OrderedMap.keys, List.map_append] at hnodup hnames
    have hparts := List.nodup_append.1 hnodup
    constructor
    · exact .mapping hparts.1 (fun key hkey => hnames key (List.mem_append_left _ hkey))
        fun entry hentry => hchildren entry (List.mem_append_left _ hentry)
    · exact .mapping hparts.2.1 (fun key hkey => hnames key (List.mem_append_right _ hkey))
        fun entry hentry => hchildren entry (List.mem_append_right _ hentry)

/-- The events of a tree that can be stored give no null and do not end the stream. -/
theorem event_ne (h : Storable value) (path : String) :
    ∀ item ∈ events path value, item.event ≠ .null ∧ item.event ≠ .endOfStream := by
  induction h generalizing path with
  | leaf =>
    intro item hitem
    rw [events, List.mem_singleton] at hitem
    subst hitem
    simp
  | node hcontainer _ _ _ ih =>
    intro item hitem
    rcases event_of_mem_events hcontainer hitem with hne | ⟨child, hchild, hitem⟩
    · exact hne
    · exact ih child hchild _ item hitem

/-- The paths of the scalars go on from the path of the tree. -/
theorem split_scalars (h : Storable value) (hnames : ∀ segment ∈ segments, Path.IsName segment)
    (hne : segments ≠ []) : ∀ entry ∈ scalars (Path.ofSegments segments) value,
      Path.isIndexable entry.1 ∧ ∃ more, Path.split entry.1 = segments ++ more := by
  induction h generalizing segments with
  | leaf =>
    intro entry hentry
    rw [scalars_scalar, List.mem_singleton] at hentry
    subst hentry
    refine ⟨Path.isIndexable_ofSegments hnames hne, [], ?_⟩
    rw [List.append_nil, Path.split_ofSegments hnames hne]
  | node hcontainer _ hkeys _ ih =>
    intro entry hentry
    rw [scalars_of_isContainer hcontainer, List.mem_flatMap] at hentry
    obtain ⟨child, hchild, hentry⟩ := hentry
    rw [← Path.ofSegments_append_singleton] at hentry
    have hchildNames := Path.isName_append hnames (hkeys child.1 (List.mem_map_of_mem hchild)).1
    obtain ⟨hindexable, more, hsplit⟩ := ih child hchild hchildNames (by simp) entry hentry
    exact ⟨hindexable, child.1 :: more, by simp [hsplit]⟩

/-- The paths of the scalars of a child go on with its segment. -/
theorem split_scalars_child (h : Storable value)
    (hnames : ∀ segment ∈ segments, Path.IsName segment) {child : String × Value}
    (hchild : child ∈ value.children) :
    ∀ entry ∈ scalars (Path.join (Path.ofSegments segments) child.1) child.2,
      Path.isIndexable entry.1 ∧ ∃ more, Path.split entry.1 = segments ++ child.1 :: more := by
  have hchildNames := Path.isName_append hnames (h.isName_of_mem_children hchild)
  intro entry hentry
  rw [← Path.ofSegments_append_singleton] at hentry
  obtain ⟨hindexable, more, hsplit⟩ :=
    (h.of_mem_children hchild).split_scalars hchildNames (by simp) entry hentry
  exact ⟨hindexable, more, by simp [hsplit]⟩

/-- No two scalars of a tree that can be stored have the same path. -/
theorem nodup_scalars (h : Storable value) (hnames : ∀ segment ∈ segments, Path.IsName segment) :
    (OrderedMap.keys (scalars (Path.ofSegments segments) value)).Nodup := by
  have hstorable := h
  induction h generalizing segments with
  | leaf => simp [OrderedMap.keys]
  | node hcontainer hnodup hkeys hchildren ih =>
    -- the scalars of each child are different, and those of two children lie apart
    rw [scalars_of_isContainer hcontainer, OrderedMap.keys, List.map_flatMap, List.nodup_flatMap]
    constructor
    · intro child hchild
      rw [← Path.ofSegments_append_singleton]
      exact ih child hchild (Path.isName_append hnames
        (hkeys child.1 (List.mem_map_of_mem hchild)).1) (hchildren child hchild)
    · rw [OrderedMap.keys, List.Nodup, List.pairwise_map] at hnodup
      refine hnodup.imp_of_mem fun {child other} hchild hother hne => ?_
      -- a path goes on with the segment of one child only
      intro path hpath hpath'
      obtain ⟨entry, hentry, rfl⟩ := List.mem_map.1 hpath
      obtain ⟨entry', hentry', heq⟩ := List.mem_map.1 hpath'
      obtain ⟨-, more, hsplit⟩ := hstorable.split_scalars_child hnames hchild entry hentry
      obtain ⟨-, more', hsplit'⟩ :=
        hstorable.split_scalars_child hnames hother entry' hentry'
      rw [heq, hsplit] at hsplit'
      have hcons : child.1 = other.1 ∧ more = more' := by simpa using hsplit'
      exact hne hcons.1

/-- Whether a tree has scalars does not depend on its path. -/
theorem scalars_eq_nil_iff (h : Storable value) (path other : String) :
    scalars path value = [] ↔ scalars other value = [] := by
  induction h generalizing path other with
  | leaf => simp
  | node hcontainer _ _ _ ih =>
    rw [scalars_of_isContainer hcontainer, scalars_of_isContainer hcontainer,
      List.flatMap_eq_nil_iff, List.flatMap_eq_nil_iff]
    exact forall₂_congr fun child hchild => ih child hchild _ _

end Storable

end LayeredConfig.Value
