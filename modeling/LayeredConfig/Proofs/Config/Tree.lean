import LayeredConfig.Config
import LayeredConfig.Proofs.Resolution.Walk

/-!
# The tree of a configuration

`toValue_eq_ok_iff`: everything in the scope of a configuration is the tree that the path of the
scope holds, where an empty mapping stands for a null. It cannot be given if more than `maxDepth`
children follow each other from there on.
-/

namespace LayeredConfig

open Resolution

/-- A path always resolves, to a null exactly if it has no children and no scalar. -/
theorem Resolution.exists_resolve (source : Source) (path : String) :
    ∃ reader, Node.resolve source path = .ok reader ∧
      (reader.events.kind = .null ↔ Holds source path .null) := by
  have hnull : Holds source path .null ↔ source.keys path = [] ∧ source.value? path = none := by
    constructor
    · intro h
      cases h with
      | null hkeys hvalue => exact ⟨hkeys, hvalue⟩
    · rintro ⟨hkeys, hvalue⟩
      exact .null hkeys hvalue
  by_cases hkeys : source.keys path = []
  · refine ⟨_, resolve_of_resolveAt (resolveAt_of_keys_eq_nil (Nat.zero_le _) hkeys), ?_⟩
    rw [hnull]
    cases hvalue : source.value? path <;> simp [hkeys, Cursor.kind]
  · by_cases hall : AllIndexes (source.keys path)
    · obtain ⟨ordered, horder⟩ := hall.exists_indexOrder
      have hresolve := resolveAt_of_indexOrder (Nat.zero_le _) hkeys hall horder
      exact ⟨_, resolve_of_resolveAt hresolve, by simp [hnull, hkeys, Cursor.kind]⟩
    · have hresolve := resolveAt_of_not_allIndexes (Nat.zero_le _) hkeys hall
      exact ⟨_, resolve_of_resolveAt hresolve, by simp [hnull, hkeys, Cursor.kind]⟩

namespace Config

variable {config : Config} {value : Value}

/-- The tree at a path is read from what the path resolves to, unless this is a null. -/
theorem get?_of_resolve {path : String} {reader : Reader Node}
    (h : Node.resolve config.source (config.fullPath path) = .ok reader) :
    config.get? path = if reader.events.kind = .null then .ok none
      else (Value.read reader).1.map some := by
  rw [get?, stream, h]
  rfl

/-- Everything in a scope that holds nothing is an empty mapping. -/
theorem toValue_of_holds_null (h : Holds config.source config.scopePath .null) :
    config.toValue = .ok (.mapping []) := by
  obtain ⟨reader, hresolve, hkind⟩ := exists_resolve config.source config.scopePath
  have hget := get?_of_resolve (show Node.resolve _ (config.fullPath "") = _ from hresolve)
  rw [toValue, hget, if_pos (hkind.2 h)]
  rfl

/-- Everything in any other scope is what reading the path of the scope gives. -/
theorem toValue_eq_ok_iff_of_not_holds_null (h : ¬ Holds config.source config.scopePath .null) :
    config.toValue = .ok value ↔ Holds config.source config.scopePath value ∧
      ∀ n last, Chain config.source config.scopePath n last → n ≤ maxDepth := by
  obtain ⟨reader, hresolve, hkind⟩ := exists_resolve config.source config.scopePath
  have htoValue : config.toValue = (Value.read reader).1 := by
    have hget := get?_of_resolve (show Node.resolve _ (config.fullPath "") = _ from hresolve)
    rw [toValue, hget, if_neg fun hnull => h (hkind.1 hnull)]
    cases (Value.read reader).1 <;> rfl
  rw [← read_resolve_eq_ok_iff, htoValue]
  constructor
  · intro hread
    exact ⟨reader, hresolve, hread⟩
  · rintro ⟨other, hother, hread⟩
    rw [hresolve, Except.ok.injEq] at hother
    rwa [hother]

/-- Everything in the scope can be given exactly if no chain of children is too long, and then it is
the tree that the path of the scope holds, or an empty mapping for a null. -/
theorem toValue_eq_ok_iff : config.toValue = .ok value ↔
    ∃ tree, Holds config.source config.scopePath tree ∧
      (∀ n last, Chain config.source config.scopePath n last → n ≤ maxDepth) ∧
        value = if tree.isNull then .mapping [] else tree := by
  by_cases hnull : Holds config.source config.scopePath .null
  · rw [toValue_of_holds_null hnull, Except.ok.injEq]
    constructor
    · rintro rfl
      cases hnull with
      | null hkeys hvalue =>
        exact ⟨_, .null hkeys hvalue, Chain.forall_le_of_keys_eq_nil hkeys maxDepth, rfl⟩
    · rintro ⟨tree, hholds, -, rfl⟩
      rw [hholds.unique hnull]
      rfl
  · rw [toValue_eq_ok_iff_of_not_holds_null hnull]
    -- a tree other than a null is given as it is
    have htree : ∀ tree, Holds config.source config.scopePath tree →
        (if tree.isNull then .mapping [] else tree) = tree := by
      intro tree hholds
      cases tree with
      | null => exact absurd hholds hnull
      | _ => rfl
    constructor
    · rintro ⟨hholds, hchain⟩
      exact ⟨value, hholds, hchain, (htree value hholds).symm⟩
    · rintro ⟨tree, hholds, hchain, rfl⟩
      rw [htree tree hholds]
      exact ⟨hholds, hchain⟩

end Config

end LayeredConfig
