import LayeredConfig.Proofs.Json.Run

/-!
# Reading written documents back

A list or an object that is written as a document is read back as the same tree, in both styles
(`readDocument_json`). The tree may hold nulls, truth values, integers, strings, lists and objects
with different names; names and strings are any texts at all.
-/

namespace LayeredConfig.Json

open Document Document.Parser

variable {style : Style} {value : Value}

/-- The parser runs through a written document up to its end. -/
theorem run_write (hstyle : style.Separates) (h : Value.Writable 0 value)
    (hroot : value.IsContainer) :
    Run Parser.next (.ofText (write style value)) (Value.events "" value)
      ⟨valueChars style 0 value, [], .object none, [], false⟩ := by
  have htext : (write style value).toList = valueChars style 0 value := by
    rw [write, String.toList_ofList]
  have hrest : skipSeparators (Parser.ofText (write style value)).rest =
      valueChars style 0 value ++ [] := by
    rw [ofText, htext, ← hstyle.skipSeparators_valueChars h, List.append_nil]
  have hbehind : (Parser.ofText (write style value)).behind [] =
      ⟨valueChars style 0 value, [], .object none, [], false⟩ := by
    rw [behind, ofText, htext]
    rfl
  rw [← hbehind]
  obtain ⟨items, rfl⟩ | ⟨entries, rfl⟩ := hroot
  · cases h with
    | sequence _ hitems =>
      exact run_sequence hstyle hitems
        (fun item hitem => run_valueChars hstyle (hitems item hitem) 1) hrest
  · cases h with
    | mapping _ _ _ hentries =>
      exact run_mapping hstyle hentries
        (fun entry hentry => run_valueChars hstyle (hentries entry hentry) 1) hrest

/-- A document written in any style that separates is read back. -/
theorem readDocument_write (hstyle : style.Separates) (h : Value.Writable 0 value)
    (hroot : value.IsContainer) :
    (Value.readDocument (Parser.reader (write style value))).1 = .ok value :=
  (h.spells "").spellsDocument.readParts_eq ⟨_, rfl, run_write hstyle h hroot⟩
    (next_end (p := ⟨valueChars style 0 value, [], .object none, [], false⟩) rfl rfl) (.initial "")

/-- A written document is read back, whether it is written on one line or with one item a line. -/
theorem readDocument_json (h : Value.Writable 0 value) (hroot : value.IsContainer) :
    (Value.readDocument (Parser.reader (compact value))).1 = .ok value ∧
      (Value.readDocument (Parser.reader (pretty value))).1 = .ok value :=
  ⟨readDocument_write separates_compact h hroot, readDocument_write separates_pretty h hroot⟩

/-- An object with a dotted, an empty and a quoted name, and a string that reads like a null. -/
def oddTree : Value :=
  .mapping [("a.b", .sequence [.null, .scalar (.bool true), .scalar (.string "null")]),
    ("", .mapping []), ("\"[:\n", .scalar (.integer (-12)))]

/-- The odd tree is read back. -/
theorem readDocument_json_oddTree :
    (Value.readDocument (Parser.reader (compact oddTree))).1 = .ok oddTree ∧
      (Value.readDocument (Parser.reader (pretty oddTree))).1 = .ok oddTree := by
  refine readDocument_json (.mapping (by decide) (by decide) (by decide) ?_) (.inr ⟨_, rfl⟩)
  have hitems : ∀ item ∈ [Value.null, .scalar (.bool true), .scalar (.string "null")],
      Value.Writable 2 item := by
    intro item hitem
    simp only [List.mem_cons, List.not_mem_nil, or_false] at hitem
    rcases hitem with rfl | rfl | rfl
    · exact .null (by decide)
    · exact .scalar (by decide) (.bool true)
    · exact .scalar (by decide) (.string "null")
  intro entry hentry
  simp only [List.mem_cons, List.not_mem_nil, or_false] at hentry
  rcases hentry with rfl | rfl | rfl
  · exact .sequence (by decide) hitems
  · exact .mapping (by decide) (by decide) (by decide) (by simp)
  · exact .scalar (by decide) (.integer (-12))

end LayeredConfig.Json
