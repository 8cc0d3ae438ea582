import LayeredConfig.Resolution.Cursor
import Mathlib.Data.List.Basic

/-!
# The order of list elements

The children of a path form a list if every one of them writes an index. `IndexOrder keys ordered`
says in which order the elements come: by ascending index, and those of one index, such as `7` and
`007`, in the order in which they were given.

* `listIndexes?_eq_none_iff`: the children do not form a list exactly if one of them writes no
  index.
* `listIndexes?_eq_some_iff`: otherwise the elements come in the index order, which is unique.
-/

namespace LayeredConfig.Resolution

/-- Every segment writes a list index. -/
def AllIndexes (keys : List String) : Prop :=
  ∀ key ∈ keys, ∃ index, Path.parseIndex? key = some index

instance : DecidablePred AllIndexes := fun keys =>
  decidable_of_iff (∀ key ∈ keys, (Path.parseIndex? key).isSome)
    (by simp only [AllIndexes, Option.isSome_iff_exists])

/-- The segments `ordered` are the segments `keys` in ascending order of their indexes, and those of
one index in the given order. -/
structure IndexOrder (keys ordered : List String) : Prop where
  /-- No segment stands behind one of a larger index. -/
  ascending : ordered.Pairwise fun a b =>
    ∀ i j, Path.parseIndex? a = some i → Path.parseIndex? b = some j → i ≤ j
  /-- The segments of one index are those given, in the given order. -/
  stable : ∀ index, ordered.filter (Path.parseIndex? · = index) =
    keys.filter (Path.parseIndex? · = index)

/-- The members of a list that are all at most each other keep their order under a stable sort. -/
theorem filter_mergeSort {α : Type} {le : α → α → Bool} {p : α → Bool} (l : List α)
    (trans : ∀ a b c, le a b → le b c → le a c) (total : ∀ a b, le a b || le b a)
    (hp : ∀ a b, p a → p b → le a b) : (l.mergeSort le).filter p = l.filter p := by
  have hpairwise : (l.filter p).Pairwise fun a b => le a b :=
    List.pairwise_of_forall_mem_list fun a ha b hb =>
      hp a b (List.mem_filter.1 ha).2 (List.mem_filter.1 hb).2
  -- a sublist that is sorted already is not reordered, and no member gets lost
  have hsublist : (l.filter p).Sublist (l.mergeSort le) :=
    List.sublist_mergeSort trans total hpairwise List.filter_sublist
  have hfilter : (l.filter p).Sublist ((l.mergeSort le).filter p) := by
    simpa using hsublist.filter p
  have hlength : ((l.mergeSort le).filter p).length = (l.filter p).length :=
    ((List.mergeSort_perm l le).filter p).length_eq
  exact (hfilter.eq_of_length hlength.symm).symm

namespace IndexOrder

variable {keys ordered other : List String}

theorem perm (h : IndexOrder keys ordered) : ordered.Perm keys := by
  rw [List.perm_iff_count]
  intro key
  -- a segment occurs only among those of its own index, which the order keeps
  have hclass : ∀ l : List String,
      l.count key = (l.filter (Path.parseIndex? · = Path.parseIndex? key)).count key := by
    intro l
    rw [List.count_filter (by simp)]
  rw [hclass, h.stable, ← hclass]

theorem mem_iff (h : IndexOrder keys ordered) {key : String} : key ∈ ordered ↔ key ∈ keys :=
  h.perm.mem_iff

/-- The index order of segments that all write an index is unique. -/
theorem unique (hkeys : AllIndexes keys) (h : IndexOrder keys ordered)
    (h' : IndexOrder keys other) : ordered = other := by
  have hindex : AllIndexes ordered := fun key hkey => hkeys key (h.mem_iff.1 hkey)
  have hindex' : AllIndexes other := fun key hkey => hkeys key (h'.mem_iff.1 hkey)
  have hfilter := fun index => (h.stable index).trans (h'.stable index).symm
  have hperm : ordered.Perm other := h.perm.trans h'.perm.symm
  have hascending := h.ascending
  have hascending' := h'.ascending
  clear h h' hkeys
  -- both lists begin with a segment of the least index, and with the first one of that index
  induction ordered generalizing other with
  | nil => exact (List.nil_perm.1 hperm).symm
  | cons a rest ih =>
    cases other with
    | nil => exact absurd hperm.length_eq (by simp)
    | cons b rest' =>
      obtain ⟨i, hi⟩ := hindex a (by simp)
      obtain ⟨j, hj⟩ := hindex' b (by simp)
      have hle : i ≤ j := by
        rcases List.mem_cons.1 (hperm.mem_iff.2 (List.mem_cons_self (a := b))) with rfl | hb
        · rw [hi] at hj
          exact Nat.le_of_eq (Option.some.inj hj)
        · exact List.rel_of_pairwise_cons hascending hb i j hi hj
      have hge : j ≤ i := by
        rcases List.mem_cons.1 (hperm.mem_iff.1 (List.mem_cons_self (a := a))) with rfl | ha
        · rw [hi] at hj
          exact Nat.le_of_eq (Option.some.inj hj).symm
        · exact List.rel_of_pairwise_cons hascending' ha j i hj hi
      obtain rfl : i = j := Nat.le_antisymm hle hge
      have hhead := hfilter (some i)
      rw [List.filter_cons_of_pos (by simpa using hi), List.filter_cons_of_pos (by simpa using hj)]
        at hhead
      obtain rfl : a = b := (List.cons.inj hhead).1
      rw [ih (fun key hkey => hindex key (List.mem_cons_of_mem _ hkey))
        (fun key hkey => hindex' key (List.mem_cons_of_mem _ hkey)) (fun index => ?_)
        (List.perm_cons a |>.1 hperm) (List.pairwise_cons.1 hascending).2
        (List.pairwise_cons.1 hascending').2]
      have htail := hfilter index
      simp only [List.filter_cons] at htail
      split at htail
      · exact (List.cons.inj htail).2
      · exact htail

end IndexOrder

/-- The index of a segment that writes one. -/
private def indexOf (key : String) : Nat := (Path.parseIndex? key).getD 0

private theorem listIndexes?_of_allIndexes {keys : List String} (h : AllIndexes keys) :
    listIndexes? keys = some (keys.mergeSort fun a b => indexOf a ≤ indexOf b) := by
  have hmapM : (keys.mapM fun key => (Path.parseIndex? key).map fun index => (index, key)) =
      some (keys.map fun key => (indexOf key, key)) := by
    induction keys with
    | nil => rfl
    | cons key rest ih =>
      obtain ⟨index, hindex⟩ := h key (by simp)
      rw [List.mapM_cons, ih fun key hkey => h key (List.mem_cons_of_mem _ hkey)]
      simp [hindex, indexOf]
  simp only [listIndexes?, hmapM, Option.bind_eq_bind, Option.bind_some, Option.some.injEq]
  -- the pairs are sorted by their indexes, and so are the segments in them
  rw [List.map_mergeSort (s := fun a b => indexOf a ≤ indexOf b)]
  · simp [Function.comp_def]
  · intro a ha b hb
    obtain ⟨key, -, rfl⟩ := List.mem_map.1 ha
    obtain ⟨key', -, rfl⟩ := List.mem_map.1 hb
    rfl

private theorem indexOrder_mergeSort (keys : List String) :
    IndexOrder keys (keys.mergeSort fun a b => indexOf a ≤ indexOf b) := by
  have trans : ∀ a b c, decide (indexOf a ≤ indexOf b) → decide (indexOf b ≤ indexOf c) →
      decide (indexOf a ≤ indexOf c) := by
    simp only [decide_eq_true_eq]
    exact fun a b c => Nat.le_trans
  have total : ∀ a b, decide (indexOf a ≤ indexOf b) || decide (indexOf b ≤ indexOf a) := by
    simp only [Bool.or_eq_true, decide_eq_true_eq]
    exact fun a b => Nat.le_total _ _
  refine ⟨(List.pairwise_mergeSort trans total keys).imp fun hle i j hi hj => ?_, fun index => ?_⟩
  · simpa [indexOf, hi, hj] using hle
  -- segments of one index are equal for the sort, which is stable
  · refine filter_mergeSort keys trans total fun a b ha hb => ?_
    simp only [decide_eq_true_eq] at ha hb ⊢
    have heq : indexOf a = indexOf b := by rw [indexOf, indexOf, ha, hb]
    exact Nat.le_of_eq heq

/-- The children of a path form no list exactly if one of them writes no index. -/
theorem listIndexes?_eq_none_iff {keys : List String} :
    listIndexes? keys = none ↔ ¬ AllIndexes keys := by
  constructor
  · intro hnone hall
    rw [listIndexes?_of_allIndexes hall] at hnone
    exact absurd hnone (by simp)
  · intro hall
    have hmapM : (keys.mapM fun key => (Path.parseIndex? key).map fun index => (index, key)) =
        none := by
      induction keys with
      | nil => exact absurd (fun key hkey => by simp at hkey) hall
      | cons key rest ih =>
        rw [List.mapM_cons]
        cases hkey : Path.parseIndex? key with
        | none => rfl
        | some index =>
          rw [ih fun hrest => hall fun key' hkey' => ?_]
          · rfl
          rcases List.mem_cons.1 hkey' with rfl | hmem
          · exact ⟨index, hkey⟩
          · exact hrest key' hmem
    simp [listIndexes?, hmapM]

/-- The children of a path form a list exactly if all of them write an index, and then the elements
come in the index order. -/
theorem listIndexes?_eq_some_iff {keys ordered : List String} :
    listIndexes? keys = some ordered ↔ AllIndexes keys ∧ IndexOrder keys ordered := by
  constructor
  · intro h
    have hall : AllIndexes keys := by
      by_contra hnot
      rw [listIndexes?_eq_none_iff.2 hnot] at h
      exact absurd h (by simp)
    rw [listIndexes?_of_allIndexes hall, Option.some.injEq] at h
    exact ⟨hall, h ▸ indexOrder_mergeSort keys⟩
  · rintro ⟨hall, horder⟩
    rw [listIndexes?_of_allIndexes hall, (indexOrder_mergeSort keys).unique hall horder]

/-- Segments that all write an index have an index order. -/
theorem AllIndexes.exists_indexOrder {keys : List String} (h : AllIndexes keys) :
    ∃ ordered, IndexOrder keys ordered := by
  cases hindexes : listIndexes? keys with
  | none => exact absurd h (listIndexes?_eq_none_iff.1 hindexes)
  | some ordered => exact ⟨ordered, (listIndexes?_eq_some_iff.1 hindexes).2⟩

end LayeredConfig.Resolution
