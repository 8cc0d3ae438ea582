import LayeredConfig.Proofs.Config.Tree
import LayeredConfig.Proofs.Resolution.Lookup
import LayeredConfig.Proofs.Source.Index
import LayeredConfig.Proofs.Source.Leaves

/-!
# Queries and the whole tree

A query resolves its path from the start, while `Value.getPath?` goes down in a tree that has been
read already. `Config.get?_eq_getPath?` says that both find the same: the tree at the path if a
stored path begins with it, and nothing otherwise.

They go together down the path. Where a stored path goes on with the next segment, both find the
child that it leads to (`Holds.exists_descend?`), and at the first segment with which no stored path
goes on both stop (`Holds.descend?_eq_none`).
-/

namespace LayeredConfig

open Resolution

section Descend

variable {sources : List Source} (h : ∀ source ∈ sources, IsStored source)
  (hnumbered : ∀ path, IsNumbered (Source.merge sources) path) {tree : Value}
  {before segments : List String}

include h hnumbered

/-- From the tree at a path, the segments of a stored path lead to the tree that is held at their
end, where chains of children are as short as above. -/
theorem Resolution.Holds.exists_descend?
    (hholds : Holds (Source.merge sources) (Path.ofSegments before) tree)
    (hchain : ∀ n last, Chain (Source.merge sources) (Path.ofSegments before) n last → n ≤ maxDepth)
    (hsegments : ∀ segment ∈ segments, segment ≠ pathKey ∧ ¬ Path.HasLeadingZero segment)
    (hreached : Reached sources (before ++ segments)) :
    ∃ child, tree.descend? segments = some child ∧
      Holds (Source.merge sources) (Path.ofSegments (before ++ segments)) child ∧
      ∀ n last, Chain (Source.merge sources) (Path.ofSegments (before ++ segments)) n last →
        n ≤ maxDepth := by
  induction segments generalizing before tree with
  | nil =>
    rw [List.append_nil]
    exact ⟨tree, rfl, hholds, hchain⟩
  | cons segment rest ih =>
    rw [← List.singleton_append, ← List.append_assoc] at hreached
    obtain ⟨hkey, hzero⟩ := hsegments segment (by simp)
    have hmem : segment ∈ (Source.merge sources).keys (Path.ofSegments before) :=
      (mem_keys_merge_iff h hreached.of_append.of_append.isName).2 hreached.of_append
    obtain ⟨child, hchild, hholds'⟩ := (hholds.child?_cases (hnumbered _) hkey hzero).1 hmem
    -- a chain below the child is one shorter than the chain that goes on to it
    rw [← Path.ofSegments_append_singleton] at hholds'
    obtain ⟨tree', htree', hrest⟩ := ih hholds'
      (fun n last hn => by
        rw [Path.ofSegments_append_singleton] at hn
        exact Nat.le_of_succ_le (hchain (n + 1) last (.child hmem hn)))
      (fun segment hmem => hsegments segment (List.mem_cons_of_mem _ hmem)) hreached
    rw [List.append_assoc, List.singleton_append] at hrest
    refine ⟨tree', ?_, hrest⟩
    rw [Value.descend?, hchild]
    exact htree'

/-- From the tree at a path, segments with which no stored path goes on lead nowhere. -/
theorem Resolution.Holds.descend?_eq_none
    (hholds : Holds (Source.merge sources) (Path.ofSegments before) tree)
    (hnames : ∀ segment ∈ before ++ segments, Path.IsName segment)
    (hsegments : ∀ segment ∈ segments, segment ≠ pathKey ∧ ¬ Path.HasLeadingZero segment)
    (hne : segments ≠ []) (hreached : ¬ Reached sources (before ++ segments)) :
    tree.descend? segments = none := by
  induction segments generalizing before tree with
  | nil => exact absurd rfl hne
  | cons segment rest ih =>
    rw [← List.singleton_append, ← List.append_assoc] at hreached hnames
    obtain ⟨hkey, hzero⟩ := hsegments segment (by simp)
    have hbefore : ∀ segment ∈ before, Path.IsName segment := fun segment hmem =>
      hnames segment (by simp [hmem])
    have hchild := hholds.child?_cases (hnumbered _) hkey hzero
    by_cases hmem : segment ∈ (Source.merge sources).keys (Path.ofSegments before)
    · obtain ⟨child, hsome, hholds'⟩ := hchild.1 hmem
      rw [← Path.ofSegments_append_singleton] at hholds'
      -- the first segment is reached, so the rest is not and has a segment
      have hrest : rest ≠ [] := by
        rintro rfl
        rw [List.append_nil] at hreached
        exact hreached ((mem_keys_merge_iff h hbefore).1 hmem)
      rw [Value.descend?, hsome]
      exact ih hholds' hnames
        (fun segment hmem => hsegments segment (List.mem_cons_of_mem _ hmem)) hrest hreached
    · rw [Value.descend?, hchild.2 hmem]
      rfl

end Descend

namespace Config

variable {config : Config} {path : String} {tree value : Value}

/-- A query gives the tree at its path, and nothing in the place of a null. -/
theorem get?_of_holds (hholds : Holds config.source (config.fullPath path) tree)
    (hchain : ∀ n last, Chain config.source (config.fullPath path) n last → n ≤ maxDepth) :
    config.get? path = .ok (if tree.isNull then none else some tree) := by
  obtain ⟨reader, hreader, hread⟩ := read_resolve_eq_ok_iff.2 ⟨hholds, hchain⟩
  obtain ⟨other, hother, hkind⟩ := exists_resolve config.source (config.fullPath path)
  obtain rfl : reader = other := Except.ok.inj (hreader.symm.trans hother)
  rw [get?_of_resolve hreader]
  by_cases hnull : reader.events.kind = .null
  · rw [if_pos hnull, hholds.unique (hkind.1 hnull)]
    rfl
  · have hisNull : tree.isNull = false := by
      cases tree with
      | null => exact absurd (hkind.2 hholds) hnull
      | _ => rfl
    rw [if_neg hnull, hread, hisNull]
    rfl

/-- A path that stored paths begin with does not hold a null. -/
theorem isNull_of_reached {sources : List Source} (h : ∀ source ∈ sources, IsStored source)
    {segments : List String} (hreached : Reached sources segments)
    (hholds : Holds (Source.merge sources) (Path.ofSegments segments) tree) :
    tree.isNull = false := by
  cases hholds with
  | null hkeys hvalue =>
    -- without children a scalar would be stored there
    have hstored := storedIn_iff.1 (hreached.storedIn h hkeys)
    exact absurd hstored (by simp [hvalue])
  | _ => rfl

/-- A path that no stored path begins with holds a null. -/
theorem holds_null_of_not_reached {sources : List Source}
    (h : ∀ source ∈ sources, IsStored source) {path : String} (hpath : Path.isIndexable path)
    (hreached : ¬ Reached sources (Path.split path)) : Holds (Source.merge sources) path .null := by
  have hnames := Path.isName_of_isIndexable hpath
  rw [← Path.ofSegments_split hpath]
  refine .null ?_ ?_
  · rw [List.eq_nil_iff_forall_not_mem]
    intro key hkey
    exact hreached ((mem_keys_merge_iff h hnames).1 hkey).of_append
  · rw [← Option.not_isSome_iff_eq_none, ← storedIn_iff, Path.ofSegments_split hpath]
    exact fun hstored => hreached ⟨path, [], hpath, hstored, by simp⟩

/-- Everything in a configuration of stored values and a query agree: if the lists of the
configuration have the numbers from zero on as their children, then a path of names, none of which
tells a path or is a number with zeros in front, has the tree to which it leads in the whole
tree. -/
theorem get?_eq_getPath? (h : ∀ source ∈ config.sources, IsStored source)
    (hscope : config.scopePath = "") (hnumbered : ∀ path, IsNumbered config.source path)
    (hvalue : config.toValue = .ok value) (hpath : Path.isIndexable path)
    (hsegments : ∀ segment ∈ Path.split path, segment ≠ pathKey ∧ ¬ Path.HasLeadingZero segment) :
    config.get? path = .ok (value.getPath? path) := by
  obtain ⟨tree, hholds, hchain, rfl⟩ := toValue_eq_ok_iff.1 hvalue
  rw [hscope, ← Path.ofSegments_nil] at hholds hchain
  have hne : Path.split path ≠ [] := Path.split_ne_nil path
  have hfull : config.fullPath path = path := by
    rw [fullPath, hscope, if_neg (Path.ne_empty_of_isIndexable hpath)]
    rfl
  -- an empty mapping in the place of a null has no children either
  have htree : (if tree.isNull then .mapping [] else tree).getPath? path =
      tree.descend? (Path.split path) := by
    rw [Value.getPath?, Path.segments_eq_split hpath]
    obtain ⟨segment, rest, hcons⟩ := List.exists_cons_of_ne_nil hne
    rw [hcons]
    cases tree <;> rfl
  rw [htree]
  -- both find a tree if a stored path begins with the path, and else both stop
  by_cases hreached : Reached config.sources (Path.split path)
  · obtain ⟨child, hchild, hholds', hchain'⟩ :=
      hholds.exists_descend? h hnumbered hchain hsegments hreached
    rw [List.nil_append, Path.ofSegments_split hpath] at hholds' hchain'
    rw [get?_of_holds (hfull.symm ▸ hholds') (hfull.symm ▸ hchain'), hchild,
      isNull_of_reached h hreached ((Path.ofSegments_split hpath).symm ▸ hholds')]
    rfl
  · have hnone : tree.descend? (Path.split path) = none :=
      hholds.descend?_eq_none h hnumbered (Path.isName_of_isIndexable hpath) hsegments hne hreached
    have hnull := holds_null_of_not_reached h hpath hreached
    have hkeys : config.source.keys path = [] := by
      cases hnull with
      | null hkeys => exact hkeys
    rw [get?_of_holds (hfull.symm ▸ hnull)
      (hfull.symm ▸ Chain.forall_le_of_keys_eq_nil hkeys maxDepth), hnone]
    rfl

/-- The segments below the paths of the two maps of hosts. -/
theorem keys_merge_hostSources (path : String) : (Source.merge hostSources).keys path =
    if path = "" then ["hosts"] else if path = "hosts" then ["0", "1"]
    else if path = "hosts.1" then ["port"] else [] := by
  show OrderedMap.distinct (hostSources.flatMap (·.keys path)) = _
  have hlocal : (Store.ofMap [("hosts.0", .string "a"), ("hosts.1", .string "b")]).children =
      [("", ["hosts"]), ("hosts", ["0", "1"])] := by decide
  have hsite : (Store.ofMap [("hosts.0", .string "c"), ("hosts.1.port", .integer 80)]).children =
      [("", ["hosts"]), ("hosts", ["0", "1"]), ("hosts.1", ["port"])] := by decide
  simp only [hostSources, List.flatMap_cons, List.flatMap_nil, List.append_nil, Store.toSource,
    hlocal, hsite, OrderedMap.get?_cons, OrderedMap.get?_nil]
  split
  · rfl
  · split
    · rfl
    · split <;> rfl

/-- The second host has become a map with its port. -/
theorem toValue_hostSources : ({ sources := hostSources } : Config).toValue =
    .ok (.mapping [("hosts", .sequence [.scalar (.string "a"),
      .mapping [("port", .scalar (.integer 80))]])]) := by
  have hkeys := keys_merge_hostSources
  have hport : Holds (Source.merge hostSources) "hosts.1.port" (.scalar (.integer 80)) :=
    .scalar (by rw [hkeys]; decide) (by decide)
  have hfirst : Holds (Source.merge hostSources) "hosts.0" (.scalar (.string "a")) :=
    .scalar (by rw [hkeys]; decide) (by decide)
  have hsecond : Holds (Source.merge hostSources) "hosts.1"
      (.mapping [("port", .scalar (.integer 80))]) := by
    have hmapping := @Holds.mapping (Source.merge hostSources) "hosts.1"
      fun _ => .scalar (.integer 80)
    rw [hkeys] at hmapping
    exact hmapping (by decide) (by decide) (List.forall_mem_singleton.2 hport)
  have hhosts : Holds (Source.merge hostSources) "hosts"
      (.sequence [.scalar (.string "a"), .mapping [("port", .scalar (.integer 80))]]) := by
    have hsequence := @Holds.sequence (Source.merge hostSources) "hosts" ["0", "1"]
      fun key => if key = "0" then .scalar (.string "a")
        else .mapping [("port", .scalar (.integer 80))]
    rw [hkeys] at hsequence
    refine hsequence (by decide) (by decide) (Path.indexOrder_numbers 2) ?_
    exact List.forall_mem_cons.2 ⟨hfirst, List.forall_mem_singleton.2 hsecond⟩
  refine toValue_eq_ok_iff.2 ⟨.mapping [("hosts", .sequence [.scalar (.string "a"),
      .mapping [("port", .scalar (.integer 80))]])], ?_, ?_, rfl⟩
  · have hmapping := @Holds.mapping (Source.merge hostSources) "" fun _ =>
      .sequence [.scalar (.string "a"), .mapping [("port", .scalar (.integer 80))]]
    rw [hkeys] at hmapping
    exact hmapping (by decide) (by decide) (List.forall_mem_singleton.2 hhosts)
  · -- the longest chain goes to the port
    show ∀ n last, Chain (Source.merge hostSources) "" n last → n ≤ 127 + 1
    rw [Chain.forall_le_succ_iff, hkeys]
    refine List.forall_mem_singleton.2 ?_
    show ∀ n last, Chain (Source.merge hostSources) "hosts" n last → n ≤ 126 + 1
    rw [Chain.forall_le_succ_iff, hkeys]
    refine List.forall_mem_cons.2
      ⟨Chain.forall_le_of_keys_eq_nil (hkeys "hosts.0") 126, List.forall_mem_singleton.2 ?_⟩
    show ∀ n last, Chain (Source.merge hostSources) "hosts.1" n last → n ≤ 125 + 1
    rw [Chain.forall_le_succ_iff, hkeys]
    exact List.forall_mem_singleton.2 (Chain.forall_le_of_keys_eq_nil (hkeys "hosts.1.port") 125)

theorem get?_eq_getPath?_hostSources : ({ sources := hostSources } : Config).get? "hosts.1.port" =
    .ok (some (.scalar (.integer 80))) := by
  refine (get?_eq_getPath? ?_ rfl ?_ toValue_hostSources (by decide) ?_).trans (by rfl)
  · intro source hsource
    rcases List.mem_pair.1 hsource with rfl | rfl
    · exact .map _ _
    · exact .map _ _
  · intro path hne hall
    have hkeys := keys_merge_hostSources path
    change ({ sources := hostSources } : Config).source.keys path = _ at hkeys
    rw [hkeys] at hall hne ⊢
    by_cases hroot : path = ""
    · subst hroot
      exact absurd hall (by decide)
    by_cases hhosts : path = "hosts"
    · subst hhosts
      exact ⟨2, List.Perm.refl _⟩
    by_cases hhost : path = "hosts.1"
    · subst hhost
      exact absurd hall (by decide)
    · exact absurd (by rw [if_neg hroot, if_neg hhosts, if_neg hhost]) hne
  · decide

end Config

end LayeredConfig
