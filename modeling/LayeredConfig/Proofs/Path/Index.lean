import LayeredConfig.Proofs.Number.Digits
import LayeredConfig.Proofs.Path.Segments
import LayeredConfig.Proofs.Resolution.IndexOrder

/-!
# Numbers as segments

The numbers of list elements, written as segments of paths. They are names, they are read back as
indexes, and in ascending order they are in index order.
-/

namespace LayeredConfig.Path

theorem toString_nat_inj {m n : Nat} (h : toString m = toString n) : m = n := by
  have hlist := congrArg (fun text : String => Number.digitsToNat text.toList) h
  simpa only [Number.toList_toString_nat, Number.digitsToNat_toDigits] using hlist

/-- The number of a list element is a name. -/
theorem isName_toString (n : Nat) : IsName (toString n) := by
  have hlist := Number.toList_toString_nat n
  constructor
  · intro hempty
    rw [hempty] at hlist
    exact Nat.toDigits_ne_nil hlist.symm
  · rw [hlist]
    intro hdot
    have hdigit : '.'.isDigit := Nat.isDigit_of_mem_toDigits (by decide) (by decide) hdot
    exact absurd hdigit (by decide)

/-- The number of a list element is read back as its index, up to the bound of indexes. -/
theorem parseIndex?_toString (n : Nat) :
    parseIndex? (toString n) = if n < indexBound then some n else none := by
  rw [parseIndex?, Number.toList_toString_nat, if_pos (Number.isDigits_toDigits n)]
  simp only [Number.digitsToNat_toDigits]

/-- The path of a list element is not that of an entry that tells a path: it ends with a digit. -/
theorem join_ne_join_pathKey {segment : String} {index : Nat}
    (h : parseIndex? segment = some index) (parent other : String) :
    join parent segment ≠ join other pathKey := by
  intro heq
  rw [parseIndex?] at h
  have hdigits := (Option.ite_none_right_eq_some.1 h).1
  rw [Number.isDigits, Bool.and_eq_true, List.all_eq_true] at hdigits
  have hne : segment ≠ "" := by
    rintro rfl
    exact absurd hdigits.1 (by decide)
  have hlast : segment.toList.getLast? = some 'h' := by
    rw [← getLast?_toList_join parent hne, heq, getLast?_toList_join other (by decide)]
    rfl
  exact absurd (hdigits.2 'h' (List.mem_of_getLast? hlast)) (by decide)

/-- The segment is a number with a superfluous zero in front. -/
def HasLeadingZero (segment : String) : Prop :=
  ∃ digits, Number.isDigits digits ∧ segment.toList = '0' :: digits

instance : DecidablePred HasLeadingZero := fun segment =>
  decidable_of_iff (Number.isDigits segment.toList.tail ∧ segment.toList.head? = some '0') <| by
    constructor
    · rintro ⟨hdigits, hhead⟩
      obtain ⟨digits, heq⟩ := List.head?_eq_some_iff.1 hhead
      exact ⟨digits, by simpa [heq] using hdigits, heq⟩
    · rintro ⟨digits, hdigits, heq⟩
      simpa [heq] using hdigits

/-- A segment that writes an index is the number of that index, but for zeros in front. -/
theorem eq_toString_of_parseIndex? {segment : String} {index : Nat}
    (h : parseIndex? segment = some index) (hzero : ¬ HasLeadingZero segment) :
    segment = toString index := by
  rw [parseIndex?] at h
  split at h
  next hdigits =>
    obtain rfl : Number.digitsToNat segment.toList = index := by
      simpa using (Option.ite_none_right_eq_some.1 h).2
    rw [← String.toList_inj, Number.toList_toString_nat]
    refine (Number.toDigits_digitsToNat hdigits fun more heq => ?_).symm
    -- digits behind a zero would make it superfluous
    by_contra hmore
    refine hzero ⟨more, ?_, heq⟩
    rw [heq, Number.isDigits, Bool.and_eq_true, List.all_cons, Bool.and_eq_true] at hdigits
    rw [Number.isDigits, hdigits.2.2, decide_eq_true hmore]
    rfl
  next => exact absurd h (by simp)

/-- The numbers of the elements of a list, as segments. -/
def numbers (count : Nat) : List String := (List.range count).map toString

theorem nodup_numbers (count : Nat) : (numbers count).Nodup := by
  rw [numbers, List.Nodup, List.pairwise_map]
  exact List.nodup_range.imp fun hne heq => hne (toString_nat_inj heq)

theorem isName_of_mem_numbers {count : Nat} {segment : String} (h : segment ∈ numbers count) :
    IsName segment := by
  obtain ⟨n, -, rfl⟩ := List.mem_map.1 h
  exact isName_toString n

/-- A number is not the name of the entry that tells a path. -/
theorem pathKey_notMem_numbers (count : Nat) : pathKey ∉ numbers count := by
  intro hmem
  obtain ⟨n, -, heq⟩ := List.mem_map.1 hmem
  have hlist := Number.toList_toString_nat n
  rw [heq] at hlist
  -- the name has a colon, and numbers are made of digits
  have hcolon : ':' ∈ Nat.toDigits 10 n := by
    rw [← hlist]
    decide
  have hdigit : ':'.isDigit := Nat.isDigit_of_mem_toDigits (by decide) (by decide) hcolon
  exact absurd hdigit (by decide)

open Resolution

/-- All numbers of a list are indexes if there are not more of them than indexes. -/
theorem allIndexes_numbers_iff {count : Nat} : AllIndexes (numbers count) ↔ count ≤ indexBound := by
  constructor
  · intro hall
    by_contra hcount
    -- the number at the bound would be among them
    have hmem : toString indexBound ∈ numbers count :=
      List.mem_map_of_mem (List.mem_range.2 (Nat.lt_of_not_le hcount))
    obtain ⟨index, hindex⟩ := hall _ hmem
    rw [parseIndex?_toString, if_neg (Nat.lt_irrefl indexBound)] at hindex
    exact absurd hindex (by simp)
  · intro hcount segment hsegment
    obtain ⟨n, hn, rfl⟩ := List.mem_map.1 hsegment
    have hlt := Nat.lt_of_lt_of_le (List.mem_range.1 hn) hcount
    exact ⟨n, by rw [parseIndex?_toString, if_pos hlt]⟩

/-- The numbers come in their index order. -/
theorem indexOrder_numbers (count : Nat) : IndexOrder (numbers count) (numbers count) where
  ascending := by
    rw [numbers, List.pairwise_map]
    refine List.pairwise_lt_range.imp fun {m n} hlt i j hi hj => ?_
    rw [parseIndex?_toString, Option.ite_none_right_eq_some] at hi hj
    have hm := Option.some.inj hi.2
    have hn := Option.some.inj hj.2
    omega
  stable _ := rfl

/-- Segments that are the numbers of a list in any order come in the order of the numbers. -/
theorem eq_numbers_of_indexOrder {keys ordered : List String} {count : Nat}
    (horder : IndexOrder keys ordered) (hall : AllIndexes keys)
    (hperm : keys.Perm (numbers count)) : ordered = numbers count := by
  have hcount : count ≤ indexBound :=
    allIndexes_numbers_iff.1 fun key hkey => hall key (hperm.mem_iff.2 hkey)
  refine List.Perm.eq_of_pairwise ?_ horder.ascending (indexOrder_numbers count).ascending
    (horder.perm.trans hperm)
  intro a b ha hb hab hba
  obtain ⟨m, hm, rfl⟩ := List.mem_map.1 ((horder.perm.trans hperm).mem_iff.1 ha)
  obtain ⟨n, hn, rfl⟩ := List.mem_map.1 hb
  have hm' := parseIndex?_toString m
  have hn' := parseIndex?_toString n
  rw [if_pos (Nat.lt_of_lt_of_le (List.mem_range.1 hm) hcount)] at hm'
  rw [if_pos (Nat.lt_of_lt_of_le (List.mem_range.1 hn) hcount)] at hn'
  rw [Nat.le_antisymm (hab m n hm' hn') (hba n m hn' hm')]

end LayeredConfig.Path
