import LayeredConfig.Proofs.Source.Index
import LayeredConfig.Proofs.Value.Tidy

/-!
# The tree of a stack of stored values

What a stack of stored values holds at a path of the walk is a tidy tree (`tidy_of_holds`), if its
scalars are those of JSON and no segment is the name of the entry that tells a path. A null cannot
be in it, as the walk only goes where values are stored.
-/

namespace LayeredConfig

open Resolution Value

section Stack

variable {sources : List Source} {segments : List String} {path : String} {value : Value}
  {depth : Nat}

/-- The segments below a reached path are reached, and none of them tells a path. -/
theorem Reached.child (h : ∀ source ∈ sources, IsStored source)
    (hpaths : ∀ path, Path.isIndexable path → StoredIn sources path → pathKey ∉ Path.split path)
    (hreached : Reached sources segments) {key : String}
    (hkey : key ∈ (Source.merge sources).keys (Path.ofSegments segments)) :
    Reached sources (segments ++ [key]) ∧ Path.IsName key ∧ key ≠ pathKey := by
  have hchild := (mem_keys_merge_iff h hreached.isName).1 hkey
  refine ⟨hchild, hchild.isName key (by simp), ?_⟩
  rintro rfl
  obtain ⟨path, rest, hindexable, hstored, hsplit⟩ := hchild
  exact hpaths path hindexable hstored (by simp [hsplit])

/-- The tree that a reached path of stored values holds is tidy. -/
theorem tidy_of_holds (h : ∀ source ∈ sources, IsStored source)
    (hplain : ∀ path leaf, (Source.merge sources).value? path = some leaf → Document.IsPlain leaf)
    (hpaths : ∀ path, Path.isIndexable path → StoredIn sources path → pathKey ∉ Path.split path)
    (hreached : Reached sources segments) (hpath : path = Path.ofSegments segments)
    (hholds : Holds (Source.merge sources) path value)
    (hchain : ∀ n last, Chain (Source.merge sources) path n last → depth + n ≤ maxDepth)
    (haddressable : value.Addressable) : Tidy depth value := by
  induction hholds generalizing segments depth with
  | @scalar path leaf _ hvalue =>
    exact .leaf (hchain 0 path (.start path)) (hplain path leaf hvalue)
  | null hkeys hvalue =>
    -- the walk only goes where a value is stored
    subst hpath
    have hsome := storedIn_iff.1 (hreached.storedIn h hkeys)
    exact absurd hvalue (Option.isSome_iff_ne_none.1 hsome)
  | @sequence path ordered trees hkeys hall horder htrees ih =>
    subst hpath
    obtain ⟨hlength, hitems⟩ := haddressable.of_sequence
    have hordered : ordered ≠ [] := by
      obtain ⟨key, hkey⟩ := List.exists_mem_of_ne_nil _ hkeys
      exact List.ne_nil_of_mem (horder.mem_iff.2 hkey)
    refine .sequence (hchain 0 _ (.start _)) (by simpa using hordered) hlength ?_
    intro item hitem
    obtain ⟨key, hkey, rfl⟩ := List.mem_map.1 hitem
    have hmem := horder.mem_iff.1 hkey
    exact ih key hmem (hreached.child h hpaths hmem).1
      (Path.ofSegments_append_singleton segments key).symm (Chain.add_le_of_child hchain hmem)
      (hitems _ hitem)
  | @mapping path trees hkeys hall htrees ih =>
    subst hpath
    generalize hnames : (Source.merge sources).keys (Path.ofSegments segments) = names at *
    have hchild := fun key (hkey : key ∈ names) => hreached.child h hpaths (hnames ▸ hkey)
    have hentries : OrderedMap.keys (names.map fun key => (key, trees key)) = names := by
      simp [OrderedMap.keys, Function.comp_def]
    have hnodup : names.Nodup := hnames ▸ nodup_keys_merge sources _
    -- reading keeps all entries, as the segments are different and none tells a path
    have hcollect : collect (names.map fun key => (key, trees key)) =
        names.map fun key => (key, trees key) := by
      refine collect_eq_self (hentries.symm ▸ hnodup) ?_
      rw [hentries]
      exact fun hmem => (hchild pathKey hmem).2.2 rfl
    rw [hcollect] at haddressable ⊢
    refine .mapping (hchain 0 _ (.start _)) (hentries.symm ▸ hnodup) ?_ (hentries.symm ▸ hall) ?_
    · rw [hentries]
      exact fun key hkey => (hchild key hkey).2
    · intro entry hentry
      obtain ⟨key, hkey, rfl⟩ := List.mem_map.1 hentry
      exact ih key hkey (hchild key hkey).1 (Path.ofSegments_append_singleton segments key).symm
        (Chain.add_le_of_child hchain (hnames ▸ hkey)) (haddressable.of_mapping _ hentry)

end Stack

end LayeredConfig
