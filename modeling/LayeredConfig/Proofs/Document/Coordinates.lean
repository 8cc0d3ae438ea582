import LayeredConfig.Proofs.Document.Progress
import Mathlib.Data.List.DropRight

/-!
# Lines and columns of a text

The parser reports a place in its text by a line and a column (`Parser.endOfText`). `IsAt` says what
they mean without a computation: whole lines and some characters of the current one stand in front
of the place. The computation gives such a line and column (`isAt_locate`), and no two places have
the same ones (`IsAt.unique`), so an error can be traced back to one place.
-/

namespace LayeredConfig.Document

/-- The boundary `o` of the text is in the line and at the column, both counted from one. In front
of it stand the earlier lines with their line feeds, and characters of the current line. -/
def IsAt (text : String) (line column : Nat) (o : String.Pos.Raw) : Prop :=
  ∃ lines current after : List Char, text.toList = lines ++ current ++ after ∧
    o = (String.ofList (lines ++ current)).rawEndPos ∧
    (∀ c ∈ lines.getLast?, c = '\n') ∧ '\n' ∉ current ∧
    line = lines.count '\n' + 1 ∧ column = current.length + 1

namespace Parser

variable {front more lines current : List Char} {text : String}

/-! ### Reading off the end of a text -/

/-- The column is counted behind the last line feed. -/
theorem takeWhile_reverse_append (hlines : ∀ c ∈ lines.getLast?, c = '\n')
    (hcurrent : '\n' ∉ current) :
    (lines ++ current).reverse.takeWhile (· ≠ '\n') = current.reverse := by
  have hkeep : ∀ c ∈ current.reverse, decide (c ≠ '\n') = true := by
    intro c hc
    exact decide_eq_true fun heq => hcurrent (heq ▸ List.mem_reverse.1 hc)
  rw [List.reverse_append, List.takeWhile_append_of_pos hkeep]
  rcases List.eq_nil_or_concat lines with rfl | ⟨earlier, c, rfl⟩
  · simp
  -- in reverse, the earlier lines begin with their last line feed
  · obtain rfl : c = '\n' := hlines c (by simp)
    simp

theorem endOfText_append (hlines : ∀ c ∈ lines.getLast?, c = '\n') (hcurrent : '\n' ∉ current) :
    endOfText (lines ++ current) = (lines.count '\n' + 1, current.length + 1) := by
  rw [endOfText, takeWhile_reverse_append hlines hcurrent, List.count_append,
    List.count_eq_zero.2 hcurrent, List.length_reverse, Nat.add_zero]

/-- Every text is whole lines and the characters of the line behind them. -/
theorem exists_lines (front : List Char) : ∃ lines current, front = lines ++ current ∧
    (∀ c ∈ lines.getLast?, c = '\n') ∧ '\n' ∉ current := by
  refine ⟨front.rdropWhile (· ≠ '\n'), front.rtakeWhile (· ≠ '\n'), ?_, ?_, ?_⟩
  · rw [List.rdropWhile_append_rtakeWhile]
  · intro c hc
    obtain ⟨hne, rfl⟩ := List.mem_getLast?_eq_getLast hc
    simpa using List.rdropWhile_last_not _ _ hne
  · intro hmem
    simpa using List.mem_rtakeWhile_imp hmem

/-- More text behind a text is seen in its line or in its column. -/
theorem eq_nil_of_endOfText_append (h : endOfText (front ++ more) = endOfText front) :
    more = [] := by
  obtain ⟨lines, current, rfl, hlines, hcurrent⟩ := exists_lines front
  have hline := congrArg Prod.fst h
  simp only [endOfText, List.count_append, Nat.add_right_cancel_iff] at hline
  -- in the same line, so the characters of the current one go on
  have hmore : '\n' ∉ more := List.count_eq_zero.1 (Nat.left_eq_add.1 hline.symm)
  rw [List.append_assoc, endOfText_append hlines hcurrent,
    endOfText_append hlines (List.not_mem_append hcurrent hmore)] at h
  have hcolumn := congrArg Prod.snd h
  simpa using hcolumn

/-! ### Places -/

/-- A boundary has the line and the column that the text in front of it ends in. -/
theorem isAt_iff {line column : Nat} {o : String.Pos.Raw} : IsAt text line column o ↔
    ∃ front after, text.toList = front ++ after ∧ o = (String.ofList front).rawEndPos ∧
      (line, column) = endOfText front := by
  constructor
  · rintro ⟨lines, current, after, htext, ho, hlines, hcurrent, rfl, rfl⟩
    exact ⟨lines ++ current, after, htext, ho, (endOfText_append hlines hcurrent).symm⟩
  · rintro ⟨front, after, htext, ho, hend⟩
    obtain ⟨lines, current, rfl, hlines, hcurrent⟩ := exists_lines front
    rw [endOfText_append hlines hcurrent] at hend
    obtain ⟨rfl, rfl⟩ := Prod.mk.inj hend
    exact ⟨lines, current, after, htext, ho, hlines, hcurrent, rfl, rfl⟩

/-- Two texts in front of places of one text, with the same line and column, are the same. -/
theorem eq_of_endOfText_eq (h : endOfText front = endOfText lines) (hfront : front <+: current)
    (hlines : lines <+: current) : front = lines := by
  rcases List.prefix_or_prefix_of_prefix hfront hlines with ⟨more, rfl⟩ | ⟨more, rfl⟩
  · rw [eq_nil_of_endOfText_append h.symm, List.append_nil]
  · rw [eq_nil_of_endOfText_append h, List.append_nil]

end Parser

/-- No two places of a text have the same line and column. -/
theorem IsAt.unique {text : String} {line column : Nat} {o o' : String.Pos.Raw}
    (h : IsAt text line column o) (h' : IsAt text line column o') : o = o' := by
  obtain ⟨front, after, htext, rfl, hend⟩ := Parser.isAt_iff.1 h
  obtain ⟨front', after', htext', rfl, hend'⟩ := Parser.isAt_iff.1 h'
  rw [Parser.eq_of_endOfText_eq (hend.symm.trans hend') ⟨after, htext.symm⟩ ⟨after', htext'.symm⟩]

/-- A place is not beyond the end of the text. -/
theorem IsAt.le_rawEndPos {text : String} {line column : Nat} {o : String.Pos.Raw}
    (h : IsAt text line column o) : o ≤ text.rawEndPos := by
  obtain ⟨front, after, htext, rfl, -⟩ := Parser.isAt_iff.1 h
  rw [String.Pos.Raw.le_iff, ← String.ofList_toList (s := text), htext]
  show Parser.byteSize front ≤ Parser.byteSize (front ++ after)
  rw [Parser.byteSize_append]
  exact Nat.le_add_right _ _

/-- The parser reports a place of its text by the line and the column of that place. -/
theorem Parser.isAt_locate {p : Parser} {text : String} {place : List Char}
    (htext : p.text = text.toList) (hplace : place <:+ p.text) :
    IsAt text (p.locate place).1 (p.locate place).2 (position { p with rest := place }) := by
  obtain ⟨front, hfront, hposition⟩ := exists_position_eq (p := { p with rest := place }) hplace
  have hchars : p.text = front.toList ++ place := by
    simpa using congrArg String.toList hfront
  refine isAt_iff.2 ⟨front.toList, place, htext ▸ hchars, ?_, ?_⟩
  · rw [String.ofList_toList]
    exact hposition
  · rw [locate, hchars, List.length_append, Nat.add_sub_cancel, List.take_left]

end LayeredConfig.Document
