import LayeredConfig.Proofs.Document.Separators

/-!
# Closing brackets in names

A closing bracket ends an unquoted value, and in front of a token it ends an object or a list. An
unquoted name goes on behind one: it ends at `:`, `=` or an open bracket only.

* `nameText`: the characters of the unquoted name at the start of a text.
* `closersStructural_iff`: in a document without quotes and escapes the scalars of values have no
  closing brackets, every name is the text up to its end, and so a scalar has a closing bracket
  exactly if one stands in the text of a name.
* `not_closersStructural_strayCloser`: a document with a closing bracket in a name is drained
  without an error.
-/

namespace LayeredConfig.Document

variable {text rest : List Char} {c : Char}

/-! ### The text of a name -/

/-- The characters of a text other than white space, commas and comments; `inComment` tells whether
it starts inside a comment. -/
def significantFrom (inComment : Bool) : List Char → List Char
  | [] => []
  | c :: rest =>
    if inComment then
      significantFrom (c ≠ '\n' ∧ c ≠ '\r') rest
    else if c = '#' then
      significantFrom true rest
    else if Text.isBlank c ∨ c = ',' then
      significantFrom false rest
    else
      c :: significantFrom false rest

/-- The characters of a text other than white space, commas and comments. -/
def significant (text : List Char) : List Char := significantFrom false text

/-- The character ends an unquoted name. -/
def endsName (c : Char) : Bool := c = ':' || c = '=' || c = '{' || c = '['

/-- The characters of the unquoted name at the start of a text without escapes. -/
def nameText (text : List Char) : List Char := (significant text).takeWhile (!endsName ·)

/-- Characters that are passed over are not significant. -/
theorem significantFrom_skipFrom (inComment : Bool) (text : List Char) :
    significant (skipFrom inComment text) = significantFrom inComment text := by
  induction text generalizing inComment with
  | nil => rfl
  | cons c rest ih =>
    unfold skipFrom significantFrom
    split
    next => exact ih _
    next =>
    split
    next => exact ih _
    next hcomment =>
    split
    next => exact ih _
    next hseparator =>
      rw [significant, significantFrom, if_neg (by simp), if_neg hcomment, if_neg hseparator]

theorem significant_skipSeparators (text : List Char) :
    significant (skipSeparators text) = significant text :=
  significantFrom_skipFrom false text

theorem significant_cons (h : IsStart c) (rest : List Char) :
    significant (c :: rest) = c :: significant rest := by
  rw [significant, significantFrom, if_neg (by simp), if_neg h.1,
    if_neg (show ¬ (Text.isBlank c ∨ c = ',') from h.2)]
  rfl

/-- What starts behind the separators is the first significant character. -/
theorem significant_of_skipSeparators (h : skipSeparators text = c :: rest) :
    significant text = c :: significant rest := by
  rw [← significant_skipSeparators, h, significant_cons (isStart_of_skipSeparators h)]

theorem mem_of_mem_skipSeparators (h : skipSeparators text = c :: rest) {d : Char}
    (hd : d ∈ c :: rest) : d ∈ text := by
  obtain ⟨front, rfl, -⟩ := exists_front_of_skipSeparators h
  exact List.mem_append_right front hd

/-- What starts behind the separators belongs to a name as it is, if it is no escape. -/
theorem extendName_of_isStart (h : IsStart c) (hbackslash : c ≠ '\\') (read text : List Char) :
    extendName read c text = .ok (c :: read, text) := by
  have hblank : Text.isBlank c = false := by
    simpa using fun hblank => h.2 (.inl hblank)
  simp [extendName, hbackslash, hblank]

/-- Without escapes, a name goes on with the significant characters up to the one that ends it. -/
theorem eq_of_scanName {read chars : List Char} (h : scanName read c text = .ok (chars, rest))
    (hc : IsStart c) (hopen : ¬ (c = '{' ∨ c = '[')) (hbackslash : '\\' ∉ c :: text) :
    chars = read.reverse ++ (c :: significant text).takeWhile (!endsName ·) := by
  fun_induction scanName read c text with
  | case1 read c text hend =>
    obtain ⟨rfl, -⟩ := Prod.mk.inj (Except.ok.inj h)
    rcases hend with rfl | rfl <;> simp [endsName]
  | case2 => exact absurd h (by simp)
  | case3 => exact absurd h (by simp)
  | case4 read c text hend read' behind hextend next rest' hskip hbracket =>
    obtain ⟨rfl, -⟩ := Prod.mk.inj (Except.ok.inj h)
    have hne : c ≠ '\\' := (List.ne_of_not_mem_cons hbackslash).symm
    have hname : endsName c = false := by simp_all [endsName]
    obtain ⟨rfl, rfl⟩ := Prod.mk.inj (Except.ok.inj
      (hextend.symm.trans (extendName_of_isStart hc hne read text)))
    -- the open bracket ends the name
    have hnext : endsName next = true := by rcases hbracket with rfl | rfl <;> rfl
    simp [significant_of_skipSeparators hskip, hname, hnext]
  | case5 read c text hend read' behind hextend next rest' hskip hbracket ih =>
    have hne : c ≠ '\\' := (List.ne_of_not_mem_cons hbackslash).symm
    have hname : endsName c = false := by simp_all [endsName]
    obtain ⟨rfl, rfl⟩ := Prod.mk.inj (Except.ok.inj
      (hextend.symm.trans (extendName_of_isStart hc hne read text)))
    rw [ih h (isStart_of_skipSeparators hskip) hbracket
      fun hmem => hbackslash (List.mem_cons_of_mem c (mem_of_mem_skipSeparators hskip hmem))]
    simp [significant_of_skipSeparators hskip, hname]

/-- Without quotes and escapes, a name is the text of a name. -/
theorem eq_of_scanKey {name : String} (h : scanKey (c :: text) = .ok (name, rest)) (hc : IsStart c)
    (hopen : ¬ (c = '{' ∨ c = '[')) (hquote : '"' ∉ c :: text) (hbackslash : '\\' ∉ c :: text) :
    name = String.ofList (nameText (c :: text)) := by
  rw [scanKey, if_neg (List.ne_of_not_mem_cons hquote).symm] at h
  obtain ⟨chars, behind, hscan, heq⟩ := exists_scan_of_map_eq_ok h
  obtain ⟨rfl, -⟩ := Prod.mk.inj heq
  rw [eq_of_scanName hscan hc hopen hbackslash, nameText, significant_cons hc]
  rfl

/-! ### The text of a value -/

/-- The character is a closing bracket. -/
def IsCloser (c : Char) : Prop := c = '}' ∨ c = ']'

theorem mem_of_mem_trimChars {chars : List Char} (h : c ∈ Text.trimChars chars) : c ∈ chars := by
  rw [Text.trimChars, Text.trimEndChars, List.mem_reverse] at h
  have hmem := List.mem_reverse.1 ((List.dropWhile_suffix _).subset h)
  exact (List.dropWhile_suffix _).subset hmem

/-- A literal that stands for a text stands for itself. -/
theorem eq_of_ofLiteral {literal text : String} (h : Scalar.ofLiteral literal = .string text) :
    text = literal := by
  unfold Scalar.ofLiteral at h
  split at h
  next => exact absurd h (by simp)
  split at h
  next => exact absurd h (by simp)
  split at h
  next => exact absurd h (by simp)
  split at h
  next => exact absurd h (by simp)
  next => exact (Scalar.string.inj h).symm

/-- Closing brackets end unquoted values. -/
theorem not_isCloser_of_scanValue {value : String}
    (h : Parser.scanValue (c :: text) = .ok (.string value, rest)) (hc : ¬ IsCloser c)
    (hquote : c ≠ '"') : ∀ d ∈ value.toList, ¬ IsCloser d := by
  unfold Parser.scanValue at h
  split at h
  next heq => exact absurd (List.cons.inj heq).1 hquote
  next =>
    intro d hd hcloser
    have hliteral := eq_of_ofLiteral (Prod.mk.inj (Except.ok.inj h)).1
    rw [hliteral, String.toList_ofList] at hd
    -- the first character is no closing bracket, and the others do not end the value
    rcases List.mem_cons.1 (mem_of_mem_trimChars hd) with rfl | hmem
    · exact hc hcloser
    · have hend := List.mem_takeWhile_imp hmem
      rcases hcloser with rfl | rfl <;> simp [endsUnquoted] at hend

/-! ### Documents without quotes and escapes -/

/-- No scalar of the events has a closing bracket. -/
def ClosersStructural (items : List Located) : Prop :=
  ∀ item ∈ items, ∀ text, item.event.scalar? = some (.string text) →
    ∀ c ∈ text.toList, ¬ IsCloser c

namespace Parser

variable {p p' q : Parser} {item : Located} {items : List Located}

/-- What is ahead of a run belongs to the text. -/
theorem suffix_of_run (run : Run Parser.next p items q) : q.rest <:+ p.rest := by
  induction run with
  | nil => exact List.suffix_rfl
  | cons head _ ih =>
    obtain ⟨front, htaken⟩ := (transition_of_next head).exists_front
    exact ih.trans ⟨front, htaken.rest_eq.symm⟩

/-- Without quotes and escapes, the name that comes is the text of a name ahead. -/
theorem Transition.name_eq {name path : String} (transition : Transition p ⟨.key name, path⟩ p')
    (hquote : '"' ∉ p.rest) (hbackslash : '\\' ∉ p.rest) :
    name = String.ofList (nameText p.rest) := by
  cases transition with
  | @key c more _ _ _ hahead hc _ _ hscan =>
    have hmem : ∀ d ∈ c :: more, d ∈ p.rest := fun d => mem_of_mem_skipSeparators hahead
    have hopen : ¬ (c = '{' ∨ c = '[') := by
      rintro (rfl | rfl) <;> exact hc (by decide)
    rw [eq_of_scanKey hscan (isStart_of_skipSeparators hahead) hopen (hquote ∘ hmem _)
      (hbackslash ∘ hmem _), nameText, nameText, significant_of_skipSeparators hahead,
      significant_cons (isStart_of_skipSeparators hahead)]

/-- Without quotes, no closing bracket is in the value that comes. -/
theorem Transition.not_isCloser {value path : String}
    (transition : Transition p ⟨.value (.string value), path⟩ p') (hquote : '"' ∉ p.rest) :
    ∀ c ∈ value.toList, ¬ IsCloser c := by
  cases transition with
  | @value c _ _ _ hahead hc _ _ hscan =>
    refine not_isCloser_of_scanValue hscan ?_ ?_
    · rintro (rfl | rfl) <;> exact hc (by decide)
    · rintro rfl
      exact hquote (mem_of_mem_skipSeparators hahead List.mem_cons_self)

end Parser

/-- In a document without quotes and escapes that is drained without an error, no closing bracket is
in the scalar of a value, and every name is the text from where it starts to its separator or to an
open bracket. A closing bracket is in no scalar exactly if none is in the text of a name. -/
theorem closersStructural_iff {text : String} {items : List Located} (hquote : '"' ∉ text.toList)
    (hbackslash : '\\' ∉ text.toList) (h : Drains text items) :
    (∀ value path, ⟨.value (.string value), path⟩ ∈ items → ∀ c ∈ value.toList, ¬ IsCloser c) ∧
      (∀ earlier name path q, earlier ++ [⟨.key name, path⟩] <+: items →
        Run Parser.next (.ofText text) earlier q → name = String.ofList (nameText q.rest)) ∧
      (ClosersStructural items ↔ ∀ earlier name path q, earlier ++ [⟨.key name, path⟩] <+: items →
        Run Parser.next (.ofText text) earlier q → ∀ c ∈ nameText q.rest, ¬ IsCloser c) := by
  -- what is ahead anywhere in the document has no quotes and escapes either
  have hrest : ∀ {earlier q c}, Run Parser.next (.ofText text) earlier q → c ∉ text.toList →
      c ∉ q.rest := fun run hc hmem => hc ((Parser.suffix_of_run run).subset hmem)
  have hvalues : ∀ value path, ⟨.value (.string value), path⟩ ∈ items →
      ∀ c ∈ value.toList, ¬ IsCloser c := by
    intro value path hmem
    obtain ⟨earlier, later, rfl⟩ := List.append_of_mem hmem
    obtain ⟨q, _, run, transition⟩ := h.exists_transition
    exact transition.not_isCloser (hrest run hquote)
  have hnames : ∀ earlier name path q, earlier ++ [⟨.key name, path⟩] <+: items →
      Run Parser.next (.ofText text) earlier q → name = String.ofList (nameText q.rest) := by
    rintro earlier name path q ⟨later, rfl⟩ run
    rw [List.append_assoc] at h
    obtain ⟨q', _, run', transition⟩ := Drains.exists_transition h
    obtain rfl := run.unique run'
    exact transition.name_eq (hrest run hquote) (hrest run hbackslash)
  refine ⟨hvalues, hnames, ?_, ?_⟩
  · intro hitems earlier name path q hbegins run c hc
    have hmem : ⟨.key name, path⟩ ∈ items :=
      hbegins.subset (List.mem_append_right earlier List.mem_cons_self)
    refine hitems _ hmem name rfl c ?_
    rwa [hnames earlier name path q hbegins run, String.toList_ofList]
  · rintro htexts ⟨event, path⟩ hitem value hscalar
    cases event with
    | key name =>
      obtain rfl : name = value := Scalar.string.inj (Option.some.inj hscalar)
      obtain ⟨earlier, later, rfl⟩ := List.append_of_mem hitem
      obtain ⟨q, _, run, -⟩ := h.exists_transition
      have hbegins : earlier ++ [⟨.key name, path⟩] <+: earlier ++ ⟨.key name, path⟩ :: later :=
        ⟨later, by simp⟩
      rw [hnames earlier name path q hbegins run, String.toList_ofList]
      exact htexts earlier name path q hbegins run
    | value scalar =>
      obtain rfl : scalar = .string value := Option.some.inj hscalar
      exact hvalues value path hitem
    | _ => exact absurd hscalar (by simp [Event.scalar?])

/-- The events of a document with a list, and with an object behind a name of two words. -/
def listAndObject : List Located :=
  [⟨.key "a", "a"⟩, ⟨.listStart, "a"⟩, ⟨.value (.string "b"), "a.0"⟩, ⟨.listEnd, "a"⟩,
    ⟨.key "cd", "cd"⟩, ⟨.objectStart, "cd"⟩, ⟨.objectEnd, "cd"⟩]

theorem closersStructural_iff_listAndObject :
    (∀ value path, ⟨.value (.string value), path⟩ ∈ listAndObject ++ [⟨.endOfStream, ""⟩] →
      ∀ c ∈ value.toList, ¬ IsCloser c) ∧
      "cd" = String.ofList (nameText ", c d {} # ]".toList) := by
  have hdrains : Drains "a: [b], c d {} # ]" (listAndObject ++ [⟨.endOfStream, ""⟩]) :=
    drains_iff.2 ⟨listAndObject,
      ⟨"a: [b], c d {} # ]".toList, [], .object (some "cd"), [], false⟩, rfl, by decide,
      by decide +kernel⟩
  obtain ⟨hvalues, hnames, -⟩ := closersStructural_iff (by decide) (by decide) hdrains
  refine ⟨hvalues, hnames (listAndObject.take 4) "cd" "cd"
    ⟨"a: [b], c d {} # ]".toList, ", c d {} # ]".toList, .object (some "a"), [], false⟩
    ⟨_, rfl⟩ ?_⟩
  decide +kernel

/-- The events of a document with a closing bracket in a name. -/
def strayCloser : List Located := [⟨.key "a\x7d", "a\x7d"⟩, ⟨.value (.integer 1), "a\x7d"⟩]

/-- A closing bracket behind a name is taken for a part of it. -/
theorem not_closersStructural_strayCloser :
    ('"' ∉ "a\x7d: 1".toList ∧ '\\' ∉ "a\x7d: 1".toList) ∧
      Drains "a\x7d: 1" (strayCloser ++ [⟨.endOfStream, ""⟩]) ∧
      ¬ ClosersStructural (strayCloser ++ [⟨.endOfStream, ""⟩]) := by
  have hdrains : Drains "a\x7d: 1" (strayCloser ++ [⟨.endOfStream, ""⟩]) :=
    drains_iff.2 ⟨strayCloser, ⟨"a\x7d: 1".toList, [], .object (some "a\x7d"), [], false⟩, rfl,
      by decide, by decide +kernel⟩
  refine ⟨by decide, hdrains, fun h => ?_⟩
  exact h ⟨.key "a\x7d", "a\x7d"⟩ (by decide) "a\x7d" rfl '}' (by decide) (.inl rfl)

end LayeredConfig.Document
