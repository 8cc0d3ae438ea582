import LayeredConfig.Proofs.Path.Segments
import Mathlib.Data.List.Infix
import Mathlib.Data.List.TakeWhile

/-!
# The tree of all paths

A path can have empty segments, at its ends and in the middle, and a segment can go on where
another one ends. What lies below what is told by whole segments all the same.

* `splitList_prefix_iff`: the pieces of a text begin with those of another one exactly if the text
  goes on behind the other one with a separator.
* `segments_decide_tree`: a path lies at or below another one if its segments begin with those of
  the other one, and the segment directly below a parent is the one that leads to a child at or
  above the path.
-/

namespace LayeredConfig

namespace Text

variable {α : Type} [DecidableEq α] {separator : α} {items more piece : List α}

/-- The pieces of a text begin with those of another one exactly if both are the same text, or if
the separator follows in it behind the other one. -/
theorem splitList_prefix_iff : splitList separator items <+: splitList separator more ↔
    more = items ∨ ∃ rest, more = items ++ separator :: rest := by
  constructor
  · rintro ⟨later, hlater⟩
    obtain ⟨pieces, hpieces⟩ := exists_splitList_eq_cons separator items
    have hitems := eq_of_splitList_eq_cons hpieces
    -- the pieces with the separators between them give back both texts
    rw [hpieces, List.cons_append] at hlater
    have hmore := eq_of_splitList_eq_cons hlater.symm
    rw [List.flatMap_append, ← List.append_assoc, ← hitems] at hmore
    cases later with
    | nil =>
      left
      simpa using hmore
    | cons next later =>
      right
      exact ⟨next ++ later.flatMap (separator :: ·), by simpa using hmore⟩
  · rintro (rfl | ⟨rest, rfl⟩)
    · exact List.prefix_rfl
    · rw [splitList_append]
      exact List.prefix_append _ _

/-- A piece reaches up to the first separator exactly if the text ends behind it or goes on with the
separator. -/
theorem takeWhile_eq_iff (hpiece : separator ∉ piece) : items.takeWhile (· ≠ separator) = piece ↔
    items = piece ∨ ∃ rest, items = piece ++ separator :: rest := by
  have hwhole : piece.takeWhile (· ≠ separator) = piece := by
    apply List.takeWhile_eq_self_iff.2
    intro a ha
    simpa using fun heq : a = separator => hpiece (heq ▸ ha)
  constructor
  · intro h
    have happend : items = piece ++ items.dropWhile (· ≠ separator) := by
      rw [← h, List.takeWhile_append_dropWhile]
    cases hdrop : items.dropWhile (· ≠ separator) with
    | nil =>
      left
      rwa [hdrop, List.append_nil] at happend
    | cons a rest =>
      -- what stops the piece is a separator
      have ha := List.head?_dropWhile_not (· ≠ separator) items
      rw [hdrop] at ha
      obtain rfl : a = separator := by simpa using ha
      right
      exact ⟨rest, hdrop ▸ happend⟩
  · rintro (rfl | ⟨rest, rfl⟩)
    · exact hwhole
    · rw [List.takeWhile_append_of_pos (List.takeWhile_eq_self_iff.1 hwhole)]
      simp

end Text

namespace Path

variable {path parent ancestor segment : String}

/-- A path lies at or below another one exactly if the other one is the root, or the segments of
the path begin with those of the other one. -/
theorem isWithin_iff_split_prefix :
    isWithin path ancestor ↔ ancestor = "" ∨ split ancestor <+: split path := by
  by_cases hroot : ancestor = ""
  · simp [isWithin, hroot]
  · have hsplit : split ancestor <+: split path ↔
        Text.splitList '.' ancestor.toList <+: Text.splitList '.' path.toList :=
      List.prefix_map_iff_of_injective fun _ _ => String.ofList_injective
    rw [isWithin_iff_append hroot, or_iff_right hroot, hsplit, Text.splitList_prefix_iff]

/-- The text of a path of which a child is known begins with the text of the child. -/
theorem isWithin_join_iff (hsegment : segment ≠ "") : isWithin path (join parent segment) ↔
    ∃ chars, below? path parent = some chars ∧
      (chars = segment.toList ∨ ∃ rest, chars = segment.toList ++ '.' :: rest) := by
  by_cases hparent : parent = ""
  -- below the root the child is the segment itself
  · subst hparent
    rw [join, if_pos rfl, isWithin_iff_append hsegment, below?, if_pos rfl]
    simp
  · rw [isWithin_iff_append (join_ne_empty hparent segment), toList_join hparent]
    simp only [below?_eq_some_iff, if_neg hparent]
    constructor
    · rintro (heq | ⟨rest, heq⟩)
      · exact ⟨segment.toList, heq, .inl rfl⟩
      · exact ⟨segment.toList ++ '.' :: rest, by simpa using heq, .inr ⟨rest, rfl⟩⟩
    · rintro ⟨chars, heq, rfl | ⟨rest, rfl⟩⟩
      · exact .inl heq
      · exact .inr ⟨rest, by simpa using heq⟩

/-- The tree of paths is that of their segments, empty ones included: the segment directly below a
parent is the name with which the parent has a child at or above the path, and lying at or below a
path other than the root is beginning with its segments. -/
theorem segments_decide_tree (path : String) :
    (∀ parent segment, childSegment? path parent = some segment ↔
      segment ≠ "" ∧ '.' ∉ segment.toList ∧ isWithin path (join parent segment)) ∧
    ∀ ancestor, isWithin path ancestor ↔ ancestor = "" ∨ split ancestor <+: split path := by
  refine ⟨fun parent segment => ?_, fun ancestor => isWithin_iff_split_prefix⟩
  rw [childSegment?_eq_some_iff_takeWhile]
  apply and_congr_right
  intro hsegment
  rw [isWithin_join_iff hsegment]
  constructor
  · rintro ⟨chars, hbelow, hchars⟩
    -- a part that reaches up to a separator holds none
    have hname : '.' ∉ segment.toList := by
      rw [← hchars]
      intro hmem
      simpa using List.mem_takeWhile_imp hmem
    exact ⟨hname, chars, hbelow, (Text.takeWhile_eq_iff hname).1 hchars⟩
  · rintro ⟨hname, chars, hbelow, hchars⟩
    exact ⟨chars, hbelow, (Text.takeWhile_eq_iff hname).2 hchars⟩

end Path

end LayeredConfig
