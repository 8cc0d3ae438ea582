import LayeredConfig.Proofs.Value.Scalars

/-!
# Trees that stored values can form

`Tidy depth value` describes the trees that the walk over stored values can find `depth` levels
below its root: every list and object has something in it, names can be segments of paths, an object
has a name that writes no index, and scalars are those of JSON.

* `Tidy.storable`, `Tidy.writable`: the scalars of a tidy tree can be stored, and it can be written.
* `Tidy.filterMap_childSegment?_self`, `Tidy.filterMap_childSegment?_child`: the segments that the
  paths of its scalars have below the tree and below a child.
-/

namespace LayeredConfig.Value

open Resolution

/-- The tree is one that stored values form `depth` levels below the root of a walk. -/
inductive Tidy : Nat → Value → Prop
  | leaf {depth : Nat} (hdepth : depth ≤ maxDepth) {leaf : Scalar}
      (hleaf : Document.IsPlain leaf) : Tidy depth (.scalar leaf)
  | node {depth : Nat} (hdepth : depth ≤ maxDepth) {value : Value}
      (hcontainer : value.IsContainer) (hne : value.children ≠ [])
      (hnodup : (OrderedMap.keys value.children).Nodup)
      (hnames : ∀ key ∈ OrderedMap.keys value.children, Path.IsName key ∧ key ≠ pathKey)
      (hlist : AllIndexes (OrderedMap.keys value.children) ↔ ∃ items, value = .sequence items)
      (hchildren : ∀ child ∈ value.children, Tidy (depth + 1) child.2) : Tidy depth value

/-- Every list in the tree has at most as many items as there are list indexes, which holds of all
lists in memory. -/
inductive Addressable : Value → Prop
  | null : Addressable .null
  | scalar (leaf : Scalar) : Addressable (.scalar leaf)
  | sequence {items : List Value} (hlength : items.length ≤ Path.indexBound)
      (hitems : ∀ item ∈ items, Addressable item) : Addressable (.sequence items)
  | mapping {entries : List (String × Value)} (hentries : ∀ entry ∈ entries, Addressable entry.2) :
      Addressable (.mapping entries)

/-! ### Children -/

theorem Addressable.of_sequence {items : List Value} (h : Addressable (.sequence items)) :
    items.length ≤ Path.indexBound ∧ ∀ item ∈ items, Addressable item := by
  cases h with
  | sequence hlength hitems => exact ⟨hlength, hitems⟩

theorem Addressable.of_mapping {entries : List (String × Value)}
    (h : Addressable (.mapping entries)) : ∀ entry ∈ entries, Addressable entry.2 := by
  cases h with
  | mapping hentries => exact hentries

/-- A list of tidy trees is tidy, if it has items and its numbers are indexes. -/
theorem Tidy.sequence {depth : Nat} (hdepth : depth ≤ maxDepth) {items : List Value}
    (hne : items ≠ []) (hlength : items.length ≤ Path.indexBound)
    (hitems : ∀ item ∈ items, Tidy (depth + 1) item) : Tidy depth (.sequence items) := by
  refine .node hdepth (.inl ⟨items, rfl⟩) ?_ (nodup_children_sequence items)
    (name_of_mem_children_sequence items) ?_ ?_
  · simpa [children] using hne
  · rw [keys_children_sequence, Path.allIndexes_numbers_iff]
    exact ⟨fun _ => ⟨items, rfl⟩, fun _ => hlength⟩
  · exact fun child hchild => hitems child.2 (snd_mem_of_mem_children_sequence hchild)

/-- An object of tidy trees is tidy, if its names can be segments and one of them is no index. -/
theorem Tidy.mapping {depth : Nat} (hdepth : depth ≤ maxDepth) {entries : OrderedMap Value}
    (hnodup : (OrderedMap.keys entries).Nodup)
    (hnames : ∀ key ∈ OrderedMap.keys entries, Path.IsName key ∧ key ≠ pathKey)
    (hall : ¬ AllIndexes (OrderedMap.keys entries))
    (hentries : ∀ entry ∈ entries, Tidy (depth + 1) entry.2) : Tidy depth (.mapping entries) := by
  refine .node hdepth (.inr ⟨entries, rfl⟩) ?_ hnodup hnames ?_ hentries
  · -- no names at all would be indexes
    rintro rfl
    exact hall fun key hkey => absurd hkey List.not_mem_nil
  · constructor
    · intro hindexes
      exact absurd hindexes hall
    · rintro ⟨items, heq⟩
      exact absurd heq (by simp)

/-- Tidy trees can be written. -/
theorem Tidy.writable {depth : Nat} {value : Value} (h : Tidy depth value) :
    Writable depth value := by
  induction h with
  | leaf hdepth hleaf => exact .scalar hdepth hleaf
  | @node depth hdepth value hcontainer hne hnodup hnames hlist hchildren ih =>
    obtain ⟨items, rfl⟩ | ⟨entries, rfl⟩ := hcontainer
    · refine .sequence hdepth fun item hitem => ?_
      obtain ⟨key, hchild⟩ := exists_child_of_mem hitem
      exact ih _ hchild
    · exact .mapping hdepth hnodup (fun hmem => (hnames pathKey hmem).2 rfl) ih

namespace Tidy

variable {depth : Nat} {value : Value} {segments : List String}

theorem storable (h : Tidy depth value) : Storable value := by
  induction h with
  | leaf => exact .leaf _
  | node _ hcontainer _ hnodup hnames _ _ ih => exact .node hcontainer hnodup hnames ih

theorem children_ne_nil (h : Tidy depth value) (hcontainer : value.IsContainer) :
    value.children ≠ [] := by
  cases h with
  | leaf => rcases hcontainer with ⟨_, heq⟩ | ⟨_, heq⟩ <;> exact absurd heq (by simp)
  | node _ _ hne => exact hne

/-- The segments of the children of a list or an object are all indexes if it is a list. -/
theorem allIndexes_iff (h : Tidy depth value) (hcontainer : value.IsContainer) :
    AllIndexes (OrderedMap.keys value.children) ↔ ∃ items, value = .sequence items := by
  cases h with
  | leaf => rcases hcontainer with ⟨_, heq⟩ | ⟨_, heq⟩ <;> exact absurd heq (by simp)
  | node _ _ _ _ _ hlist => exact hlist

theorem of_mem_children (h : Tidy depth value) {child : String × Value}
    (hchild : child ∈ value.children) : Tidy (depth + 1) child.2 := by
  cases h with
  | leaf => exact absurd hchild (by simp [children])
  | node _ _ _ _ _ _ hchildren => exact hchildren child hchild

/-- A tidy tree has a scalar. -/
theorem scalars_ne_nil (h : Tidy depth value) (path : String) : scalars path value ≠ [] := by
  induction h generalizing path with
  | leaf => simp
  | node _ hcontainer hne _ _ _ _ ih =>
    obtain ⟨child, hchild⟩ := List.exists_mem_of_ne_nil _ hne
    rw [scalars_of_isContainer hcontainer]
    -- a child has a scalar, and it is one of those of the tree
    intro hnil
    exact ih child hchild _ (List.flatMap_eq_nil_iff.1 hnil child hchild)

/-! ### The index of the scalars -/

/-- Below the path of a tidy tree stand the segments of its children, each as often as the child has
scalars. -/
theorem filterMap_childSegment?_self (h : Tidy depth value) (hcontainer : value.IsContainer)
    (hnames : ∀ segment ∈ segments, Path.IsName segment) :
    (OrderedMap.keys (scalars (Path.ofSegments segments) value)).filterMap
        (Path.childSegment? · (Path.ofSegments segments)) =
      value.children.flatMap fun child => List.replicate
        (scalars (Path.join (Path.ofSegments segments) child.1) child.2).length child.1 := by
  rw [scalars_of_isContainer hcontainer, OrderedMap.keys, List.map_flatMap, List.filterMap_flatMap]
  refine List.flatMap_congr fun child hchild => ?_
  -- each scalar of a child lies below the path in the segment of the child
  have hsome : ∀ entry ∈ scalars (Path.join (Path.ofSegments segments) child.1) child.2,
      ((Path.childSegment? · (Path.ofSegments segments)) ∘ Prod.fst) entry = some child.1 := by
    intro entry hentry
    obtain ⟨hindexable, more, hsplit⟩ := h.storable.split_scalars_child hnames hchild entry hentry
    exact (Path.childSegment?_eq_some_iff hindexable).2 ⟨segments, more, rfl, hsplit⟩
  rw [List.filterMap_map, List.filterMap_congr hsome]
  simp

/-- Below the path of a child or further down stand the segments from that child only. -/
theorem filterMap_childSegment?_child (h : Tidy depth value) (hcontainer : value.IsContainer)
    (hnames : ∀ segment ∈ segments, Path.IsName segment) {child : String × Value}
    (hchild : child ∈ value.children) {more : List String}
    (hmore : ∀ segment ∈ segments ++ child.1 :: more, Path.IsName segment) :
    (OrderedMap.keys (scalars (Path.ofSegments segments) value)).filterMap
        (Path.childSegment? · (Path.ofSegments (segments ++ child.1 :: more))) =
      (OrderedMap.keys (scalars (Path.join (Path.ofSegments segments) child.1) child.2)).filterMap
        (Path.childSegment? · (Path.ofSegments (segments ++ child.1 :: more))) := by
  rw [scalars_of_isContainer hcontainer, OrderedMap.keys, List.map_flatMap, List.filterMap_flatMap]
  refine OrderedMap.flatMap_eq_of_mem h.storable.nodup_children hchild fun other hother hne => ?_
  rw [List.filterMap_map, List.filterMap_eq_nil_iff]
  intro entry hentry
  obtain ⟨hindexable, rest, hsplit⟩ := h.storable.split_scalars_child hnames hother entry hentry
  rw [Function.comp_apply, Option.eq_none_iff_forall_ne_some]
  intro segment hsegment
  obtain ⟨before, after, hbefore, hsplit'⟩ :=
    (Path.childSegment?_eq_some_iff hindexable).1 hsegment
  -- a scalar of another child does not go on with the segment of this one
  have hbeforeNames : ∀ name ∈ before, Path.IsName name := fun name hname =>
    Path.isName_of_isIndexable hindexable name (by simp [hsplit', hname])
  obtain rfl := Path.ofSegments_inj hmore hbeforeNames hbefore
  rw [hsplit] at hsplit'
  have hcons : other.1 = child.1 ∧ rest = more ++ segment :: after := by simpa using hsplit'
  exact hne hcons.1

end Tidy

end LayeredConfig.Value
