import LayeredConfig.Proofs.Document.Closers
import LayeredConfig.Proofs.Source.Assign
import Mathlib.Data.List.DropRight

/-!
# Documents of plain lines

A document can be a list of lines `name = value` with unquoted names and values. If no name has a
character with a meaning of its own and no value one that ends it, the parser takes every name as it
stands and every value without the white space around it.

* `scanName_of_isPlainChar`, `exists_rest_of_isPlainValue`: how a plain name and a plain value are
  scanned.
* `exists_run_lines`: the parser gives the name and the value of every line.
* `parse_lines`: the document stores the values by the names, as one map of both.
-/

namespace LayeredConfig

namespace Text

variable {chars trail : List Char}

/-- White space at the end does not change what is left without it. -/
theorem trimEndChars_append (chars : List Char) (h : ∀ c ∈ trail, isBlank c) :
    trimEndChars (chars ++ trail) = trimEndChars chars := by
  rw [trimEndChars, List.reverse_append, List.dropWhile_append_of_pos fun c hc =>
    h c (List.mem_reverse.1 hc), trimEndChars]

theorem trimEndChars_trimEndChars (chars : List Char) :
    trimEndChars (trimEndChars chars) = trimEndChars chars := by
  rw [trimEndChars, trimEndChars, List.reverse_reverse, List.dropWhile_idempotent]

/-- A text is what is left of it and the white space at its end. -/
theorem exists_trimEndChars (chars : List Char) :
    ∃ trail, chars = trimEndChars chars ++ trail ∧ ∀ c ∈ trail, isBlank c := by
  refine ⟨(chars.reverse.takeWhile isBlank).reverse, ?_, fun c hc => ?_⟩
  · rw [trimEndChars, ← List.reverse_append, List.takeWhile_append_dropWhile, List.reverse_reverse]
  · exact List.mem_takeWhile_imp (List.mem_reverse.1 hc)

/-- A text is what is left of it between the white space at its ends. -/
theorem exists_trimChars (chars : List Char) :
    ∃ lead trail, chars = lead ++ (trimChars chars ++ trail) ∧ (∀ c ∈ lead, isBlank c) ∧
      ∀ c ∈ trail, isBlank c := by
  obtain ⟨trail, htrail, hblank⟩ := exists_trimEndChars (chars.dropWhile isBlank)
  refine ⟨chars.takeWhile isBlank, trail, ?_, fun c hc => List.mem_takeWhile_imp hc, hblank⟩
  rw [trimChars, ← htrail, List.takeWhile_append_dropWhile]

/-- What is left of a text does not begin with white space. -/
theorem isBlank_of_trimChars_eq_cons {c : Char} {rest : List Char}
    (h : trimChars chars = c :: rest) : isBlank c = false := by
  obtain ⟨trail, htrail, -⟩ := exists_trimEndChars (chars.dropWhile isBlank)
  rw [show trimEndChars (chars.dropWhile isBlank) = c :: rest from h, List.cons_append] at htrail
  have hhead := List.head?_dropWhile_not isBlank chars
  rw [htrail] at hhead
  simpa using hhead

/-- Trimming what is left of a text, with other white space behind it, gives the same. -/
theorem trimChars_trimChars_append (chars : List Char) (h : ∀ c ∈ trail, isBlank c) :
    trimChars (trimChars chars ++ trail) = trimChars chars := by
  cases htrim : trimChars chars with
  | nil =>
    have hdrop : trail.dropWhile isBlank = [] := List.dropWhile_eq_nil_iff.2 h
    rw [List.nil_append, trimChars, hdrop]
    rfl
  | cons c rest =>
    have hkeep : trimEndChars (c :: rest) = c :: rest := by
      rw [← htrim, trimChars, trimEndChars_trimEndChars]
    rw [trimChars, List.cons_append,
      List.dropWhile_cons_of_neg (by simp [isBlank_of_trimChars_eq_cons htrim]), ← List.cons_append,
      trimEndChars_append _ h, hkeep]

end Text

namespace Document

/-! ### Plain names and values -/

/-- The character is part of a name as it stands. -/
def IsPlainChar (c : Char) : Prop :=
  Text.isBlank c = false ∧ c ∉ [',', '"', '\\', '#', ':', '=', '{', '}', '[', ']']

instance (c : Char) : Decidable (IsPlainChar c) := inferInstanceAs (Decidable (_ ∧ _))

/-- The text is an unquoted name as it stands. -/
structure IsPlainName (name : String) : Prop where
  ne_empty : name ≠ ""
  isPlainChar : ∀ c ∈ name.toList, IsPlainChar c

/-- Without the white space around it, the text is an unquoted value other than null as it
stands. -/
structure IsPlainValue (value : String) : Prop where
  ne_empty : Text.trim value ≠ ""
  notEnd : ∀ c ∈ (Text.trim value).toList, c ∉ ['}', ']', ',', ':', '=', '\n', '\r']
  notSpecial : ∀ c ∈ (Text.trim value).toList.head?, c ∉ ['"', '{', '[', '#']
  ne_null : Text.trim value ≠ "null"

instance (name : String) : Decidable (IsPlainName name) :=
  decidable_of_iff (name ≠ "" ∧ name.toList.all (IsPlainChar ·) = true) <| by
    simp only [List.all_eq_true, decide_eq_true_eq]
    exact ⟨fun h => ⟨h.1, h.2⟩, fun h => ⟨h.1, h.2⟩⟩

instance (value : String) : Decidable (IsPlainValue value) :=
  decidable_of_iff (Text.trim value ≠ "" ∧
      (Text.trim value).toList.all (· ∉ ['}', ']', ',', ':', '=', '\n', '\r']) = true ∧
      (Text.trim value).toList.head?.all (· ∉ ['"', '{', '[', '#']) = true ∧
      Text.trim value ≠ "null") <| by
    simp only [List.all_eq_true, Option.all_eq_true, decide_eq_true_eq, ← Option.mem_def]
    exact ⟨fun h => ⟨h.1, h.2.1, h.2.2.1, h.2.2.2⟩, fun h => ⟨h.1, h.2, h.3, h.4⟩⟩

variable {c : Char} {rest : List Char}

theorem IsPlainChar.ne (h : IsPlainChar c) {d : Char}
    (hd : d ∈ [',', '"', '\\', '#', ':', '=', '{', '}', '[', ']']) : c ≠ d :=
  fun heq => h.2 (heq ▸ hd)

theorem IsPlainChar.isStart (h : IsPlainChar c) : IsStart c := by
  refine ⟨h.ne (by simp), ?_⟩
  rintro (hblank | hcomma)
  · exact absurd hblank (by simp [h.1])
  · exact h.ne (by simp) hcomma

/-- A plain character goes on with a name. -/
theorem scanName_of_isPlainChar_cons (h : IsPlainChar c) {text : List Char} {d : Char}
    (hskip : skipSeparators text = d :: rest) (hd : ¬ (d = '{' ∨ d = '[')) (read : List Char) :
    scanName read c text = scanName (c :: read) d rest := by
  have hend : ¬ (c = ':' ∨ c = '=') := not_or.2 ⟨h.ne (by simp), h.ne (by simp)⟩
  have hextend := extendName_of_isStart h.isStart (h.ne (by simp)) read text
  rw [scanName_of_skipSeparators hend hextend hskip, if_neg hd]

/-- A plain name ends at the separator behind it. -/
theorem scanName_of_isPlainChar {name : List Char} (hc : IsPlainChar c)
    (hname : ∀ d ∈ name, IsPlainChar d) (read rest : List Char) :
    scanName read c (name ++ ' ' :: '=' :: rest) = .ok (read.reverse ++ c :: name, rest) := by
  induction name generalizing c read with
  | nil =>
    have hskip : skipSeparators (' ' :: '=' :: rest) = '=' :: rest := by
      rw [skipSeparators_cons (.inl (by decide)) (by decide), skipSeparators_of_isStart]
      exact ⟨by decide, by rw [IsSeparator]; decide⟩
    rw [List.nil_append, scanName_of_isPlainChar_cons hc hskip (by decide), scanName,
      if_pos (.inr rfl), List.reverse_cons]
  | cons d name ih =>
    obtain ⟨hd, hname⟩ := List.forall_mem_cons.1 hname
    have hskip := skipSeparators_of_isStart hd.isStart (name ++ ' ' :: '=' :: rest)
    have hbracket : ¬ (d = '{' ∨ d = '[') := not_or.2 ⟨hd.ne (by simp), hd.ne (by simp)⟩
    rw [List.cons_append, scanName_of_isPlainChar_cons hc hskip hbracket, ih hd hname,
      List.reverse_cons, List.append_assoc, List.singleton_append]

/-- A plain name is scanned as it stands. -/
theorem scanKey_of_isPlainName {name : String} (h : IsPlainName name) (rest : List Char) :
    scanKey (name.toList ++ ' ' :: '=' :: rest) = .ok (name, rest) := by
  cases hname : name.toList with
  | nil => exact absurd (String.toList_eq_nil_iff.1 hname) h.ne_empty
  | cons c chars =>
    obtain ⟨hc, hchars⟩ := List.forall_mem_cons.1 (hname ▸ h.isPlainChar)
    rw [List.cons_append, scanKey, if_neg (hc.ne (by simp)), scanName_of_isPlainChar hc hchars,
      List.reverse_nil, List.nil_append, ← hname]
    simp [Except.map]

theorem isSeparator_of_isBlank (h : Text.isBlank c) : IsSeparator c ∧ c ≠ '#' := by
  refine ⟨.inl h, ?_⟩
  rintro rfl
  exact absurd h (by decide)

/-- An unquoted value goes on up to the first character behind it that ends it. -/
theorem exists_splitUnquoted_eq {core : List Char} (hne : core ≠ [])
    (hcore : ∀ c ∈ core, endsUnquoted c = false) (hrest : EndsUnquoted rest) (trail : List Char) :
    ∃ front back, trail = front ++ back ∧
      splitUnquoted (core ++ (trail ++ rest)) = (core ++ front, back ++ rest) := by
  refine ⟨trail.takeWhile (!endsUnquoted ·), trail.dropWhile (!endsUnquoted ·),
    List.takeWhile_append_dropWhile.symm, ?_⟩
  have hliteral : ∀ c ∈ core ++ trail.takeWhile (!endsUnquoted ·), endsUnquoted c = false := by
    refine List.forall_mem_append.2 ⟨hcore, fun c hc => ?_⟩
    simpa using List.mem_takeWhile_imp hc
  have hback : EndsUnquoted (trail.dropWhile (!endsUnquoted ·) ++ rest) := by
    cases hdrop : trail.dropWhile (!endsUnquoted ·) with
    | nil => exact hrest
    | cons d back =>
      have hhead := List.head?_dropWhile_not (!endsUnquoted ·) trail
      rw [hdrop] at hhead
      rintro c more heq
      rw [← (List.cons.inj heq).1]
      simpa using hhead
  conv_lhs => rw [← List.takeWhile_append_dropWhile (p := (!endsUnquoted ·)) (l := trail)]
  rw [List.append_assoc, ← List.append_assoc, splitUnquoted_append (by simp [hne]) hliteral hback]

/-- A plain value is an unquoted text with white space around it. -/
theorem IsPlainValue.exists_core {value : String} (h : IsPlainValue value) :
    ∃ c core lead trail, Text.trimChars value.toList = c :: core ∧
      value.toList = lead ++ (c :: core ++ trail) ∧ (∀ d ∈ lead, Text.isBlank d) ∧
      (∀ d ∈ trail, Text.isBlank d) ∧ IsStart c ∧ c ∉ ['"', '{', '}', '[', ']'] ∧
      (∀ d ∈ c :: core, endsUnquoted d = false) ∧ c :: core ≠ ['n', 'u', 'l', 'l'] := by
  obtain ⟨hempty, hnotEnd, hnotSpecial, hnull⟩ := h
  obtain ⟨lead, trail, hvalue, hlead, htrail⟩ := Text.exists_trimChars value.toList
  rw [Text.trim] at hempty hnotEnd hnotSpecial hnull
  rw [String.toList_ofList] at hnotEnd hnotSpecial
  cases htrim : Text.trimChars value.toList with
  | nil => exact absurd (congrArg String.ofList htrim) hempty
  | cons c core =>
    rw [htrim] at hvalue hnotEnd hnotSpecial hnull
    obtain ⟨hend, -⟩ := List.forall_mem_cons.1 hnotEnd
    have hspecial := hnotSpecial c rfl
    simp only [List.mem_cons, List.not_mem_nil, or_false, not_or] at hend hspecial
    refine ⟨c, core, lead, trail, rfl, hvalue, hlead, htrail, ⟨hspecial.2.2.2, ?_⟩, ?_, ?_, ?_⟩
    · rintro (hblank | hcomma)
      · exact absurd hblank (by simp [Text.isBlank_of_trimChars_eq_cons htrim])
      · exact hend.2.2.1 hcomma
    · simp [hend, hspecial]
    · intro d hd
      have hne := hnotEnd d hd
      simp only [List.mem_cons, List.not_mem_nil, or_false, not_or] at hne
      simp [endsUnquoted, hne]
    · exact fun heq => hnull (congrArg String.ofList heq)

/-- A plain value is scanned without the white space around it, and behind it comes what follows. -/
theorem exists_rest_of_isPlainValue {value : String} (h : IsPlainValue value)
    (hrest : EndsUnquoted rest) : ∃ c more rest',
      skipSeparators (' ' :: (value.toList ++ rest)) = c :: more ∧ c ∉ ['{', '}', '[', ']'] ∧
      Text.trimChars (splitUnquoted (c :: more)).1 ≠ ['n', 'u', 'l', 'l'] ∧
      Parser.scanValue (c :: more) = .ok (.ofLiteral (Text.trim value), rest') ∧
      skipSeparators rest' = skipSeparators rest := by
  obtain ⟨c, core, lead, trail, htrim, hvalue, hlead, htrail, hstart, hc, hliteral, hnull⟩ :=
    h.exists_core
  rw [List.mem_cons, not_or] at hc
  -- some of the white space may belong to the text that is read, and is trimmed off
  obtain ⟨front, back, rfl, hsplit⟩ :=
    exists_splitUnquoted_eq (List.cons_ne_nil c core) hliteral hrest trail
  obtain ⟨hfront, hback⟩ := List.forall_mem_append.1 htrail
  have hread : Text.trimChars (c :: core ++ front) = c :: core := by
    rw [← htrim, Text.trimChars_trimChars_append _ hfront]
  refine ⟨c, core ++ (front ++ back ++ rest), back ++ rest, ?_, hc.2, ?_, ?_, ?_⟩
  · rw [skipSeparators_cons (.inl (by decide)) (by decide), hvalue, List.append_assoc,
      skipSeparators_append fun d hd => isSeparator_of_isBlank (hlead d hd), List.append_assoc,
      List.cons_append, skipSeparators_of_isStart hstart]
  · rwa [← List.cons_append, hsplit, hread]
  · unfold Parser.scanValue
    split
    next heq => exact absurd (List.cons.inj heq).1 hc.1
    next =>
      rw [← List.cons_append, hsplit, Text.trim, htrim]
      simp only [hread]
  · exact skipSeparators_append (fun d hd => isSeparator_of_isBlank (hback d hd)) rest

/-! ### Documents -/

/-- The line that declares a name with a value. -/
def line (entry : String × String) : String := entry.1 ++ " = " ++ entry.2

/-- The document with a line for each entry. -/
def linesText (entries : List (String × String)) : String := "\n".intercalate (entries.map line)

/-- The events of a line. -/
def lineEvents (entry : String × String) : List Located :=
  [⟨.key entry.1, entry.1⟩, ⟨.value (.ofLiteral (Text.trim entry.2)), entry.1⟩]

/-- A line is followed by the end of the document or by the next line. -/
theorem exists_linesText_eq (entry : String × String) (entries : List (String × String)) :
    ∃ rest, (linesText (entry :: entries)).toList =
        entry.1.toList ++ ' ' :: '=' :: ' ' :: (entry.2.toList ++ rest) ∧
      EndsUnquoted rest ∧ skipSeparators rest = skipSeparators (linesText entries).toList := by
  have hline : (line entry).toList = entry.1.toList ++ ' ' :: '=' :: ' ' :: entry.2.toList := by
    simp [line]
  rw [linesText, String.toList_intercalate]
  cases entries with
  | nil =>
    refine ⟨[], by simp [hline], fun c rest heq => absurd heq (by simp), ?_⟩
    rw [linesText, List.map_nil]
    rfl
  | cons next entries =>
    refine ⟨'\n' :: (linesText (next :: entries)).toList, ?_, ?_, ?_⟩
    · rw [linesText, String.toList_intercalate, List.map_cons, List.map_cons, List.map_cons,
        List.map_cons, List.intercalate_cons_cons, hline]
      simp
    · rintro c rest heq
      rw [← (List.cons.inj heq).1]
      rfl
    · exact skipSeparators_cons (.inl (by decide)) (by decide) _

namespace Parser

variable {p : Parser} {key : Option String} {entry : String × String}
  {entries : List (String × String)}

/-- The parser gives the name and the value of a line. -/
theorem exists_run_line (hname : IsPlainName entry.1) (hvalue : IsPlainValue entry.2)
    (hahead : skipSeparators p.rest =
      skipSeparators (entry.1.toList ++ ' ' :: '=' :: ' ' :: (entry.2.toList ++ rest)))
    (hrest : EndsUnquoted rest) (hframe : p.frame = .object key) (henclosing : p.enclosing = [])
    (hafter : p.afterKey = false) : ∃ rest', skipSeparators rest' = skipSeparators rest ∧
      Run Parser.next p (lineEvents entry) ⟨p.text, rest', .object (some entry.1), [], false⟩ := by
  obtain ⟨text, start, frame, enclosing, afterKey⟩ := p
  dsimp only at hahead hframe henclosing hafter
  subst hframe henclosing hafter
  have hscan := scanKey_of_isPlainName hname (' ' :: (entry.2.toList ++ rest))
  cases hchars : entry.1.toList with
  | nil => exact absurd (String.toList_eq_nil_iff.1 hchars) hname.ne_empty
  | cons c chars =>
    have hc : IsPlainChar c := hname.isPlainChar c (by simp [hchars])
    rw [hchars, List.cons_append] at hahead hscan
    rw [skipSeparators_of_isStart hc.isStart] at hahead
    have hbracket : c ∉ brackets := fun hmem => hc.2 (by
      simp only [brackets, List.mem_cons, List.not_mem_nil, or_false] at hmem ⊢
      tauto)
    have hkey := next_of_transition
      (.key (p := ⟨text, start, .object key, [], false⟩) hahead hbracket rfl rfl hscan)
    obtain ⟨d, more, rest', hskip, hd, hnull, hread, hbehind⟩ :=
      exists_rest_of_isPlainValue hvalue hrest
    refine ⟨rest', hbehind, .cons hkey (.single ?_)⟩
    exact next_value (.inl rfl) hskip hd hnull hread

/-- The parser gives the names and the values of the lines, up to the end of the document. -/
theorem exists_run_lines (hentries : ∀ entry ∈ entries, IsPlainName entry.1 ∧ IsPlainValue entry.2)
    (hahead : skipSeparators p.rest = skipSeparators (linesText entries).toList)
    (hframe : p.frame = .object key) (henclosing : p.enclosing = [])
    (hafter : p.afterKey = false) : ∃ p', skipSeparators p'.rest = [] ∧ p'.enclosing = [] ∧
      Run Parser.next p (entries.flatMap lineEvents) p' := by
  induction entries generalizing p key with
  | nil => exact ⟨p, hahead, henclosing, .nil p⟩
  | cons entry entries ih =>
    obtain ⟨⟨hname, hvalue⟩, hmore⟩ := List.forall_mem_cons.1 hentries
    obtain ⟨rest, hline, hrest, hbehind⟩ := exists_linesText_eq entry entries
    rw [hline] at hahead
    obtain ⟨rest', hrest', run⟩ :=
      exists_run_line hname hvalue hahead hrest hframe henclosing hafter
    -- behind the line the parser stands in front of the next one
    obtain ⟨p', hend, hnone, runs⟩ := ih hmore
      (p := ⟨p.text, rest', .object (some entry.1), [], false⟩) (hrest'.trans hbehind) rfl rfl rfl
    exact ⟨p', hend, hnone, run.append runs⟩

end Parser

end Document

namespace DocumentSource

open Document

/-- The scalar that a value of a line stands for, with the name of the line. -/
def ofLine (entry : String × String) : String × Scalar :=
  (entry.1, .ofLiteral (Text.trim entry.2))

/-- The document that stores the values of lines by their names, one after the other. -/
def ofLines (name : String) (entries : List (String × String)) : DocumentSource :=
  ⟨name, .ofMap (OrderedMap.ofList (entries.map ofLine))⟩

/-- The text of plain lines is read as the document of their values. -/
theorem parse_lines {entries : List (String × String)}
    (hentries : ∀ entry ∈ entries, IsPlainName entry.1 ∧ IsPlainValue entry.2) (name : String) :
    parse name (linesText entries) = .ok (ofLines name entries) := by
  obtain ⟨p, hend, henclosing, run⟩ :=
    Parser.exists_run_lines (p := .ofText (linesText entries)) hentries rfl rfl rfl rfl
  have hevents : ∀ item ∈ entries.flatMap lineEvents,
      item.event ≠ .null ∧ item.event ≠ .endOfStream := by
    intro item hitem
    obtain ⟨entry, -, hitem⟩ := List.mem_flatMap.1 hitem
    simp only [lineEvents, List.mem_cons, List.not_mem_nil, or_false] at hitem
    rcases hitem with rfl | rfl <;> simp
  have hscalars : (entries.flatMap lineEvents).filterMap Value.scalarOf? = entries.map ofLine := by
    rw [List.filterMap_flatMap, List.map_eq_flatMap]
    rfl
  have hassign : assignAll [] (.ofText (linesText entries)) =
      .ok (OrderedMap.ofList (entries.map ofLine)) := by
    rw [assignAll_of_run run fun item hitem => (hevents item hitem).2,
      foldl_assign fun item hitem => (hevents item hitem).1, hscalars]
    exact assignAll_of_next_end (Parser.next_end hend henclosing) _
  rw [parse, hassign]
  rfl

end DocumentSource

end LayeredConfig
