import LayeredConfig.Proofs.Path.Index
import LayeredConfig.Proofs.Resolution.Expansion

/-!
# Children of the tree at a path

The tree that a path holds is made of the trees that its children hold. Looking a child up in it by
the segment gives the tree of that child, or nothing for a segment that leads to no child
(`Holds.child?_cases`).

An item of a list is looked up by its position and a child of a path by its segment. The two agree
where the children of the path are the numbers of a list, and the segment is not one of these
numbers with zeros in front.
-/

namespace LayeredConfig

/-- The entries that reading makes of a map are those of its children. -/
theorem Value.get?_collect_map (keys : List String) (trees : String → Value) {key : String}
    (hkey : key ≠ pathKey) :
    OrderedMap.get? (collect (keys.map fun key => (key, trees key))) key =
      if key ∈ keys then some (trees key) else none := by
  induction keys using List.reverseRecOn with
  | nil => rfl
  | append_singleton keys last ih =>
    rw [List.map_append, List.map_singleton, collect_append, addEntry]
    -- the entry that tells a path is left out, and of two with one name the later one counts
    by_cases hlast : last = pathKey
    · rw [if_pos hlast, ih]
      simp [hlast, hkey]
    · rw [if_neg hlast, OrderedMap.get?_insert, ih]
      by_cases heq : key = last
      · simp [heq]
      · simp [heq]

/-- The item of a list at the position that a segment writes is that of the segment. -/
theorem Value.child?_sequence_numbers {count : Nat} (hcount : count ≤ Path.indexBound)
    (trees : String → Value) {key : String} (hzero : ¬ Path.HasLeadingZero key) :
    (sequence ((Path.numbers count).map trees)).child? key =
      if key ∈ Path.numbers count then some (trees key) else none := by
  show (Path.parseIndex? key).bind (((Path.numbers count).map trees)[·]?) = _
  have hmem : ∀ n, toString n ∈ Path.numbers count ↔ n < count := by
    intro n
    rw [Path.numbers, List.mem_map_of_injective fun _ _ => Path.toString_nat_inj, List.mem_range]
  cases hindex : Path.parseIndex? key with
  | none =>
    -- a segment that writes no index is none of the numbers
    rw [Option.bind_none, if_neg]
    intro hkey
    obtain ⟨index, hsome⟩ := Path.allIndexes_numbers_iff.2 hcount key hkey
    exact absurd (hindex.symm.trans hsome) (by simp)
  | some index =>
    obtain rfl := Path.eq_toString_of_parseIndex? hindex hzero
    rw [Option.bind_some, List.getElem?_map]
    by_cases hlt : index < count
    · rw [if_pos ((hmem index).2 hlt), Path.numbers, List.getElem?_map,
        List.getElem?_range hlt]
      rfl
    · have hlength : (Path.numbers count).length ≤ index := by simpa [Path.numbers] using hlt
      rw [if_neg fun h => hlt ((hmem index).1 h), List.getElem?_eq_none hlength]
      rfl

namespace Resolution

variable {source : Source} {path : String} {tree : Value}

/-- If the children of the path form a list, they are its numbers. -/
def IsNumbered (source : Source) (path : String) : Prop :=
  source.keys path ≠ [] → AllIndexes (source.keys path) →
    ∃ count, (source.keys path).Perm (Path.numbers count)

/-- Looking up a segment in the tree at a path gives the tree of the child that it leads to, or
nothing if there is no such child. -/
theorem Holds.child?_cases (h : Holds source path tree) (hnumbered : IsNumbered source path)
    {key : String} (hkey : key ≠ pathKey) (hzero : ¬ Path.HasLeadingZero key) :
    (key ∈ source.keys path →
      ∃ child, tree.child? key = some child ∧ Holds source (Path.join path key) child) ∧
    (key ∉ source.keys path → tree.child? key = none) := by
  cases h with
  | scalar hkeys | null hkeys =>
    rw [hkeys]
    exact ⟨fun hmem => absurd hmem List.not_mem_nil, fun _ => rfl⟩
  | @sequence _ ordered trees hkeys hall horder htrees =>
    -- in their order the children are the numbers themselves, each at its own position
    obtain ⟨count, hperm⟩ := hnumbered hkeys hall
    have hcount : count ≤ Path.indexBound :=
      Path.allIndexes_numbers_iff.1 fun key hkey => hall key (hperm.mem_iff.2 hkey)
    rw [Path.eq_numbers_of_indexOrder horder hall hperm,
      Value.child?_sequence_numbers hcount trees hzero]
    constructor
    · intro hmem
      exact ⟨trees key, if_pos (hperm.mem_iff.1 hmem), htrees key hmem⟩
    · intro hmem
      exact if_neg fun hnumber => hmem (hperm.mem_iff.2 hnumber)
  | @mapping _ trees hkeys hall htrees =>
    show (_ → ∃ child, OrderedMap.get? _ key = _ ∧ _) ∧ (_ → OrderedMap.get? _ key = _)
    rw [Value.get?_collect_map _ trees hkey]
    exact ⟨fun hmem => ⟨trees key, if_pos hmem, htrees key hmem⟩, fun hmem => if_neg hmem⟩

end Resolution

end LayeredConfig
