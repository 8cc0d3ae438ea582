import LayeredConfig.Proofs.Source.Index
import LayeredConfig.Proofs.Value.Tidy

/-!
# Sources that store a tree

A source stores a tree at the path of some segments if it answers there and below from the scalars
of the tree (`StoresTree`). A stored tree goes down to its children (`StoresTree.child`), so the
path of a tidy tree that is stored holds this tree, with no chain of children too long
(`StoresTree.holds`).
-/

namespace LayeredConfig

open Resolution Value

/-- At and below the path of the segments the source answers from the scalars of the tree. -/
structure StoresTree (source : Source) (segments : List String) (value : Value) : Prop where
  /-- The scalars of the tree are stored. -/
  value?_eq : ∀ entry ∈ scalars (Path.ofSegments segments) value,
    source.value? entry.1 = some entry.2
  /-- The segments below are those of the paths of the scalars. -/
  keys_eq : ∀ more, (∀ segment ∈ segments ++ more, Path.IsName segment) →
    source.keys (Path.ofSegments (segments ++ more)) = OrderedMap.distinct
      ((OrderedMap.keys (scalars (Path.ofSegments segments) value)).filterMap
        (Path.childSegment? · (Path.ofSegments (segments ++ more))))

namespace StoresTree

variable {source : Source} {segments : List String} {value : Value} {depth : Nat}

/-- A scalar that is stored has nothing below it. -/
theorem keys_scalar {leaf : Scalar} (h : StoresTree source segments (.scalar leaf))
    (hnames : ∀ segment ∈ segments, Path.IsName segment) :
    source.keys (Path.ofSegments segments) = [] := by
  have hkeys := h.keys_eq [] (by simpa using hnames)
  rw [List.append_nil] at hkeys
  rw [hkeys, scalars_scalar]
  simp [OrderedMap.keys, Path.childSegment?_self, OrderedMap.distinct]

/-- Below a list or an object that is stored come its children in their order. -/
theorem keys_eq_keys_children (h : StoresTree source segments value) (htidy : Tidy depth value)
    (hcontainer : value.IsContainer) (hnames : ∀ segment ∈ segments, Path.IsName segment) :
    source.keys (Path.ofSegments segments) = OrderedMap.keys value.children := by
  have hkeys := h.keys_eq [] (by simpa using hnames)
  rw [List.append_nil, htidy.filterMap_childSegment?_self hcontainer hnames] at hkeys
  -- the segment of a child is listed once for each of its scalars, and it has one
  rw [hkeys, OrderedMap.distinct_flatMap_replicate htidy.storable.nodup_children]
  intro child hchild
  rw [ne_eq, List.length_eq_zero_iff]
  exact (htidy.of_mem_children hchild).scalars_ne_nil _

/-- The children of a list or an object that is stored are stored. -/
theorem child (h : StoresTree source segments value) (htidy : Tidy depth value)
    (hcontainer : value.IsContainer) (hnames : ∀ segment ∈ segments, Path.IsName segment)
    {child : String × Value} (hchild : child ∈ value.children) :
    StoresTree source (segments ++ [child.1]) child.2 where
  value?_eq := by
    intro entry hentry
    refine h.value?_eq entry ?_
    rw [scalars_of_isContainer hcontainer, List.mem_flatMap]
    rw [Path.ofSegments_append_singleton] at hentry
    exact ⟨child, hchild, hentry⟩
  keys_eq := by
    intro more hmore
    rw [List.append_assoc] at hmore ⊢
    rw [h.keys_eq _ hmore, Path.ofSegments_append_singleton]
    congr 1
    exact htidy.filterMap_childSegment?_child hcontainer hnames hchild hmore

/-- The tree of a list or an object is made of the trees of its children. -/
theorem holds_of_children (htidy : Tidy depth value) (hcontainer : value.IsContainer)
    {path : String} (hkeys : source.keys path = OrderedMap.keys value.children)
    (hholds : ∀ child ∈ value.children, Holds source (Path.join path child.1) child.2) :
    Holds source path value := by
  have htrees : ∀ key ∈ source.keys path, Holds source (Path.join path key)
      ((OrderedMap.get? value.children key).getD .null) := by
    intro key hkey
    rw [hkeys] at hkey
    obtain ⟨child, hchild, rfl⟩ := List.mem_map.1 hkey
    rw [(OrderedMap.get?_eq_some_iff htidy.storable.nodup_children).2 hchild]
    exact hholds child hchild
  have hentries := OrderedMap.map_get?_keys htidy.storable.nodup_children .null
  have hne : source.keys path ≠ [] := by
    rw [hkeys]
    simpa [OrderedMap.keys] using htidy.children_ne_nil hcontainer
  by_cases hall : AllIndexes (source.keys path)
  -- the segments of a list are the numbers of its items, which are in order
  · obtain ⟨items, rfl⟩ := (htidy.allIndexes_iff hcontainer).1 (hkeys ▸ hall)
    have horder : IndexOrder (source.keys path) (source.keys path) := by
      rw [hkeys, keys_children_sequence]
      exact Path.indexOrder_numbers _
    have hsequence := Holds.sequence hne hall horder htrees
    have hitems := congrArg (List.map Prod.snd) hentries
    rw [List.map_map, map_snd_children_sequence, ← hkeys] at hitems
    rwa [show ((source.keys path).map fun key => (OrderedMap.get? _ key).getD .null) = items from
      hitems] at hsequence
  · obtain ⟨items, rfl⟩ | ⟨entries, rfl⟩ := hcontainer
    · exact absurd ((htidy.allIndexes_iff (.inl ⟨items, rfl⟩)).2 ⟨items, rfl⟩) (hkeys ▸ hall)
    have hmapping := Holds.mapping hne hall htrees
    rw [hkeys, hentries] at hmapping
    rwa [collect_eq_self htidy.storable.nodup_children htidy.storable.pathKey_notMem]
      at hmapping

/-- A stored tidy tree is the tree that its path holds, with no chain of children too long. -/
theorem holds (h : StoresTree source segments value) (htidy : Tidy depth value)
    (hnames : ∀ segment ∈ segments, Path.IsName segment) :
    Holds source (Path.ofSegments segments) value ∧
      ∀ n last, Chain source (Path.ofSegments segments) n last → depth + n ≤ maxDepth := by
  have htree := htidy
  induction htidy generalizing segments with
  | @leaf depth hdepth leaf _ =>
    have hkeys := h.keys_scalar hnames
    constructor
    · exact .scalar hkeys (h.value?_eq (Path.ofSegments segments, leaf) (by simp))
    · intro n last hchain
      have hzero := Chain.forall_le_of_keys_eq_nil hkeys 0 n last hchain
      omega
  | @node depth hdepth value hcontainer _ _ hkeyNames _ hchildren ih =>
    have hkeys := h.keys_eq_keys_children htree hcontainer hnames
    -- one level deeper, at the path of each child
    have hbelow : ∀ child ∈ value.children,
        Holds source (Path.join (Path.ofSegments segments) child.1) child.2 ∧
          ∀ n last, Chain source (Path.join (Path.ofSegments segments) child.1) n last →
            depth + 1 + n ≤ maxDepth := by
      intro child hchild
      rw [← Path.ofSegments_append_singleton]
      have hchildNames := Path.isName_append hnames (hkeyNames _ (List.mem_map_of_mem hchild)).1
      exact ih child hchild (h.child htree hcontainer hnames hchild) hchildNames
        (hchildren child hchild)
    constructor
    · exact holds_of_children htree hcontainer hkeys fun child hchild => (hbelow child hchild).1
    · intro n last hchain
      cases n with
      | zero => exact hdepth
      | succ n =>
        obtain ⟨key, hkey, tail⟩ := hchain.exists_child
        rw [hkeys] at hkey
        obtain ⟨child, hchild, rfl⟩ := List.mem_map.1 hkey
        have hle := (hbelow child hchild).2 n last tail
        omega

end StoresTree

end LayeredConfig
