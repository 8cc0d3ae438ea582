import LayeredConfig.Proofs.Path.Segments
import Mathlib.Data.List.TakeWhile

/-!
# Paths with empty segments

Enumeration follows a path only up to its first empty segment. The segments in front of it are the
`lead` of the path, which for an indexable path are all of its segments (`lead_eq_split`).

* `childSegment?_ofSegments_eq_some_iff`: the segments that a path has below others are those of its
  lead.
-/

namespace LayeredConfig

/-- Pieces are mapped one by one if only separators are mapped to separators. -/
theorem Text.splitList_map {α β : Type} [DecidableEq α] [DecidableEq β] {a : α} {b : β} {f : α → β}
    {items : List α} (h : ∀ item ∈ items, f item = b ↔ item = a) :
    splitList b (items.map f) = (splitList a items).map (·.map f) := by
  induction items with
  | nil => rfl
  | cons item rest ih =>
    have hitem := h item (by simp)
    rw [List.map_cons, splitList, splitList, ih fun other hmem => h other (by simp [hmem])]
    by_cases heq : item = a
    · rw [if_pos heq, if_pos (hitem.2 heq)]
      rfl
    · rw [if_neg heq, if_neg fun hb => heq (hitem.1 hb)]
      -- there is a first piece, which the item joins on both sides
      obtain ⟨piece, pieces, hcons⟩ := List.exists_cons_of_ne_nil (splitList_ne_nil a rest)
      rw [hcons]
      rfl

namespace Path

variable {path segment : String} {before : List String}

/-- The segments of a path in front of the first empty one. -/
def lead (path : String) : List String := (split path).takeWhile (· ≠ "")

theorem isName_of_mem_lead (h : segment ∈ lead path) : IsName segment := by
  apply isName_of_mem_split ((List.takeWhile_prefix _).subset h)
  simpa using List.mem_takeWhile_imp h

theorem lead_eq_split (h : isIndexable path) : lead path = split path := by
  rw [isIndexable, List.all_eq_true] at h
  exact List.takeWhile_eq_self_iff.2 h

/-- A path that begins with an empty segment has no lead. -/
theorem lead_eq_nil (h : (split path).head? = some "") : lead path = [] := by
  obtain ⟨rest, hcons⟩ := List.head?_eq_some_iff.1 h
  rw [lead, hcons, List.takeWhile_cons_of_neg (by simp)]

/-- The lead of a path goes on behind some names with a segment if the path does. -/
theorem append_singleton_prefix_lead_iff (hbefore : ∀ name ∈ before, IsName name) :
    before ++ [segment] <+: lead path ↔
      segment ≠ "" ∧ ∃ after, split path = before ++ segment :: after := by
  constructor
  · rintro ⟨rest, hrest⟩
    have hmem : segment ∈ lead path := by simp [← hrest]
    obtain ⟨more, hmore⟩ : lead path <+: split path := List.takeWhile_prefix _
    refine ⟨(isName_of_mem_lead hmem).1, rest ++ more, ?_⟩
    rw [← hmore, ← hrest]
    simp
  · rintro ⟨hsegment, after, hsplit⟩
    refine ⟨after.takeWhile (· ≠ ""), ?_⟩
    rw [lead, hsplit, List.takeWhile_append_of_pos fun name hname => by
      simpa using (hbefore name hname).1, List.takeWhile_cons_of_pos (by simpa using hsegment)]
    simp

/-- A segment of a path lies directly below some names if the lead of the path goes on with it. -/
theorem childSegment?_ofSegments_eq_some_iff (hbefore : ∀ name ∈ before, IsName name) :
    childSegment? path (ofSegments before) = some segment ↔ before ++ [segment] <+: lead path := by
  rw [append_singleton_prefix_lead_iff hbefore]
  constructor
  · intro h
    obtain ⟨chars, after, hchars, hsegment, hcons⟩ := exists_below?_of_childSegment? h
    refine ⟨hsegment, after, ?_⟩
    cases before with
    | nil =>
      rw [below?, if_pos ofSegments_nil] at hchars
      obtain rfl := Option.some.inj hchars
      simpa using hcons
    | cons name rest =>
      rw [split_append_of_below? (ofSegments_ne_empty hbefore (by simp)) hchars,
        split_ofSegments hbefore (by simp), hcons]
  · rintro ⟨hsegment, after, hsplit⟩
    exact childSegment?_of_split hbefore hsegment hsplit

end Path

end LayeredConfig
