import LayeredConfig.Proofs.Document.Steps
import LayeredConfig.Proofs.Value.Events

/-!
# The parser on written trees

The parser runs through the events of a tree when it meets the written tree, whatever the style and
whatever follows, as long as that ends an unquoted value (`run_valueChars`). From the inside of a
list or an object it runs up to the closing bracket (`run_items`, `run_entries`).
-/

namespace LayeredConfig.Json

open Document Document.Parser

/-- The text is passed over as a whole. -/
def AllSeparators (text : List Char) : Prop := ∀ c ∈ text, IsSeparator c ∧ c ≠ '#'

/-- The blank parts of a style are passed over, and a line break ends unquoted values. -/
structure Style.Separates (style : Style) : Prop where
  lineBreak : ∀ level, AllSeparators (style.lineBreak level)
  lineBreakEnds : ∀ level, EndsUnquoted (style.lineBreak level)
  afterColon : AllSeparators style.afterColon

theorem separates_compact : Style.compact.Separates where
  lineBreak level c hc := absurd hc (by simp [Style.compact])
  lineBreakEnds level c rest h := absurd h (by simp [Style.compact])
  afterColon c hc := absurd hc (by simp [Style.compact])

theorem separates_pretty : Style.pretty.Separates where
  lineBreak := by
    intro level c hc
    rcases List.mem_cons.1 hc with rfl | hc
    · exact ⟨.inl (by decide), by decide⟩
    · rw [List.eq_of_mem_replicate hc]
      exact ⟨.inl (by decide), by decide⟩
  lineBreakEnds := by
    intro level c rest h
    obtain ⟨rfl, -⟩ := List.cons.inj h
    decide
  afterColon := by
    intro c hc
    rw [List.mem_singleton.1 hc]
    exact ⟨.inl (by decide), by decide⟩

variable {style : Style} {level depth : Nat}

/-! ### Where written trees start and end -/

theorem isStart_of_mem {c : Char} (h : c ∈ ['{', '}', '[', ']', '"', 'n', 't', 'f', '-', ':']) :
    IsStart c := by
  unfold IsStart IsSeparator
  revert c
  simp only [List.forall_mem_cons, List.not_mem_nil, false_implies, implies_true, and_true]
  decide

/-- A written scalar starts behind the separators. -/
theorem exists_scalarChars_eq_cons {leaf : Scalar} (h : IsPlain leaf) :
    ∃ c rest, scalarChars leaf = c :: rest ∧ IsStart c := by
  cases h with
  | bool value => cases value <;> exact ⟨_, _, rfl, isStart_of_mem (by decide)⟩
  | integer value =>
    -- digits and the minus are neither separators nor the start of a comment
    have hliteral := isLiteral_integer value
    obtain ⟨c, rest, hcons⟩ := List.exists_cons_of_ne_nil hliteral.ne_nil
    have hc := hliteral.isLiteralChar c (by simp [hcons])
    have hend := hc.notEnd
    have hspecial := hc.notSpecial
    refine ⟨c, rest, hcons, ?_, ?_⟩
    · rintro rfl
      exact hspecial (by decide)
    · rintro (hblank | rfl)
      · exact absurd hblank (by simp [hc.notBlank])
      · exact absurd hend (by decide)
  | string text => exact ⟨'"', _, rfl, isStart_of_mem (by decide)⟩

/-- The items of a list from some item on, and its end, without the separators in front. -/
def listChars (style : Style) (level : Nat) : List Value → List Char
  | [] => [']']
  | item :: rest => valueChars style (level + 1) item ++ itemsChars style level rest

/-- The entries of an object from some entry on, and its end, without the separators in front. -/
def objectChars (style : Style) (level : Nat) : List (String × Value) → List Char
  | [] => ['}']
  | (key, value) :: rest =>
    stringChars key ++ ':' :: style.afterColon ++ valueChars style (level + 1) value ++
      entriesChars style level rest

namespace Style.Separates

variable (hstyle : style.Separates)

include hstyle

/-- Between the opening bracket and the first item or the end there are only separators. -/
theorem valueChars_sequence (level : Nat) (items : List Value) : ∃ separators,
    AllSeparators separators ∧ valueChars style level (.sequence items) =
      '[' :: (separators ++ listChars style level items) := by
  cases items with
  | nil => exact ⟨[], by simp [AllSeparators], by rw [valueChars]; rfl⟩
  | cons item rest => exact ⟨_, hstyle.lineBreak (level + 1), by simp [valueChars, listChars]⟩

/-- Between the opening brace and the first entry or the end there are only separators. -/
theorem valueChars_mapping (level : Nat) (entries : List (String × Value)) : ∃ separators,
    AllSeparators separators ∧ valueChars style level (.mapping entries) =
      '{' :: (separators ++ objectChars style level entries) := by
  cases entries with
  | nil => exact ⟨[], by simp [AllSeparators], by rw [valueChars]; rfl⟩
  | cons entry rest => exact ⟨_, hstyle.lineBreak (level + 1), by simp [valueChars, objectChars]⟩

/-- Between two items, or behind the last one, there are only separators. -/
theorem itemsChars_eq (level : Nat) (items : List Value) : ∃ separators, AllSeparators separators ∧
    itemsChars style level items = separators ++ listChars style level items := by
  cases items with
  | nil => exact ⟨_, hstyle.lineBreak level, by rw [itemsChars, listChars]⟩
  | cons item rest =>
    refine ⟨',' :: style.lineBreak (level + 1), ?_, by simp [itemsChars, listChars]⟩
    exact List.forall_mem_cons.2 ⟨⟨.inr rfl, by decide⟩, hstyle.lineBreak (level + 1)⟩

/-- Between two entries, or behind the last one, there are only separators. -/
theorem entriesChars_eq (level : Nat) (entries : List (String × Value)) : ∃ separators,
    AllSeparators separators ∧
      entriesChars style level entries = separators ++ objectChars style level entries := by
  cases entries with
  | nil => exact ⟨_, hstyle.lineBreak level, by rw [entriesChars, objectChars]⟩
  | cons entry rest =>
    refine ⟨',' :: style.lineBreak (level + 1), ?_, by simp [entriesChars, objectChars]⟩
    exact List.forall_mem_cons.2 ⟨⟨.inr rfl, by decide⟩, hstyle.lineBreak (level + 1)⟩

/-- A written tree starts behind the separators. -/
theorem skipSeparators_valueChars {value : Value} (h : Value.Writable depth value)
    (rest : List Char) :
    skipSeparators (valueChars style level value ++ rest) =
      valueChars style level value ++ rest := by
  -- every tree starts with a bracket, a quote or a literal
  have hstart : ∃ c more, valueChars style level value = c :: more ∧ IsStart c := by
    cases h with
    | null => exact ⟨'n', _, by rw [valueChars], isStart_of_mem (by decide)⟩
    | scalar _ hleaf =>
      rw [valueChars]
      exact exists_scalarChars_eq_cons hleaf
    | @sequence _ _ items =>
      obtain ⟨separators, -, hchars⟩ := hstyle.valueChars_sequence level items
      exact ⟨'[', _, hchars, isStart_of_mem (by decide)⟩
    | @mapping _ _ entries =>
      obtain ⟨separators, -, hchars⟩ := hstyle.valueChars_mapping level entries
      exact ⟨'{', _, hchars, isStart_of_mem (by decide)⟩
  obtain ⟨c, more, hcons, hc⟩ := hstart
  rw [hcons, List.cons_append, skipSeparators_of_isStart hc]

theorem skipSeparators_listChars {items : List Value}
    (hitems : ∀ item ∈ items, Value.Writable depth item) {separators : List Char}
    (hseparators : AllSeparators separators) (rest : List Char) :
    skipSeparators (separators ++ listChars style level items ++ rest) =
      listChars style level items ++ rest := by
  rw [List.append_assoc, skipSeparators_append hseparators]
  cases items with
  | nil => exact skipSeparators_of_isStart (isStart_of_mem (by decide)) rest
  | cons item items =>
    rw [listChars, List.append_assoc, hstyle.skipSeparators_valueChars (hitems item (by simp))]

omit hstyle in
theorem skipSeparators_objectChars (entries : List (String × Value)) {separators : List Char}
    (hseparators : AllSeparators separators) (rest : List Char) :
    skipSeparators (separators ++ objectChars style level entries ++ rest) =
      objectChars style level entries ++ rest := by
  rw [List.append_assoc, skipSeparators_append hseparators]
  cases entries with
  | nil => exact skipSeparators_of_isStart (isStart_of_mem (by decide)) rest
  | cons entry entries => exact skipSeparators_of_isStart (isStart_of_mem (by decide)) _

/-- A line break with a closing bracket behind it ends unquoted values. -/
theorem endsUnquoted_lineBreak_append {c : Char} (hc : endsUnquoted c) (level : Nat)
    (rest : List Char) : EndsUnquoted (style.lineBreak level ++ c :: rest) := by
  intro d more h
  cases hbreak : style.lineBreak level with
  | nil =>
    rw [hbreak] at h
    exact (List.cons.inj h).1 ▸ hc
  | cons first separators =>
    rw [hbreak] at h
    exact (List.cons.inj h).1 ▸ hstyle.lineBreakEnds level first separators hbreak

/-- What stands behind an item ends unquoted values. -/
theorem endsUnquoted_itemsChars (level : Nat) (items : List Value) (rest : List Char) :
    EndsUnquoted (itemsChars style level items ++ rest) := by
  cases items with
  | nil =>
    rw [itemsChars, List.append_assoc]
    exact hstyle.endsUnquoted_lineBreak_append (by decide) level rest
  | cons item items =>
    intro c more h
    rw [itemsChars] at h
    exact (List.cons.inj h).1 ▸ by decide

/-- What stands behind an entry ends unquoted values. -/
theorem endsUnquoted_entriesChars (level : Nat) (entries : List (String × Value))
    (rest : List Char) : EndsUnquoted (entriesChars style level entries ++ rest) := by
  cases entries with
  | nil =>
    rw [entriesChars, List.append_assoc]
    exact hstyle.endsUnquoted_lineBreak_append (by decide) level rest
  | cons entry entries =>
    intro c more h
    rw [entriesChars] at h
    exact (List.cons.inj h).1 ▸ by decide

end Style.Separates

/-! ### Runs -/

/-- From in front of the tree the parser runs through its events, whatever ends it. -/
def RunsThrough (style : Style) (level : Nat) (value : Value) : Prop :=
  ∀ {p : Parser} {rest : List Char}, p.ExpectsValue → EndsUnquoted rest →
    skipSeparators p.rest = valueChars style level value ++ rest →
      Run Parser.next p (Value.events p.beginElement.path value) (p.behind rest)

variable (hstyle : style.Separates)

include hstyle

/-- From the inside of a list the parser runs through the items that are left, and the end. -/
theorem run_items {items : List Value} (hitems : ∀ item ∈ items, Value.Writable depth item)
    (hruns : ∀ item ∈ items, RunsThrough style (level + 1) item) {p : Parser} {begun : Nat}
    {outer : Frame} {enclosing : List Frame} {rest : List Char} (hframe : p.frame = .list begun)
    (henclosing : p.enclosing = outer :: enclosing)
    (hrest : skipSeparators p.rest = listChars style level items ++ rest) :
    Run Parser.next p
      (Value.itemEvents (framePath p.enclosing) begun items ++ [⟨.listEnd, framePath p.enclosing⟩])
      ⟨p.text, rest, outer, enclosing, false⟩ := by
  induction items generalizing p begun with
  | nil => exact .single (next_closeBracket hrest hframe henclosing)
  | cons item items ih =>
    rw [listChars, List.append_assoc] at hrest
    have hexpects : p.ExpectsValue := .inr (by rw [hframe]; rfl)
    -- the item is followed by a separator or the closing bracket, which end a literal
    have hitem := hruns item (by simp) hexpects
      (hstyle.endsUnquoted_itemsChars level items rest) hrest
    have hpath : p.beginElement.path = Path.join (framePath p.enclosing) (toString begun) := by
      simp only [path, beginElement, framePath, hframe, Frame.beginElement, Frame.extend]
    have hmore := fun item hmem => hitems item (List.mem_cons_of_mem _ hmem)
    obtain ⟨separators, hseparators, hchars⟩ := hstyle.itemsChars_eq level items
    -- behind the item the parser stands before the separators of the next one
    have hitemsRun := ih hmore (fun item hmem => hruns item (List.mem_cons_of_mem _ hmem))
      (p := p.behind _) (by rw [behind, hframe]; rfl) henclosing
      (hchars ▸ hstyle.skipSeparators_listChars hmore hseparators rest)
    rw [hpath] at hitem
    rw [Value.itemEvents, List.append_assoc]
    exact hitem.append hitemsRun

/-- From the inside of an object the parser runs through the entries that are left, and the end. -/
theorem run_entries {entries : List (String × Value)}
    (hentries : ∀ entry ∈ entries, Value.Writable depth entry.2)
    (hruns : ∀ entry ∈ entries, RunsThrough style (level + 1) entry.2) {p : Parser}
    {key : Option String} {outer : Frame} {enclosing : List Frame} {rest : List Char}
    (hframe : p.frame = .object key) (hafter : p.afterKey = false)
    (henclosing : p.enclosing = outer :: enclosing)
    (hrest : skipSeparators p.rest = objectChars style level entries ++ rest) :
    Run Parser.next p
      (Value.entryEvents (framePath p.enclosing) entries ++ [⟨.objectEnd, framePath p.enclosing⟩])
      ⟨p.text, rest, outer, enclosing, false⟩ := by
  induction entries generalizing p key with
  | nil => exact .single (next_closeBrace hrest hframe henclosing)
  | cons entry entries ih =>
    obtain ⟨name, value⟩ := entry
    rw [objectChars] at hrest
    simp only [List.cons_append, List.append_assoc] at hrest
    have hname := next_key hrest hframe hafter
    -- behind the name and the blanks stands the value
    have hvalue := hruns (name, value) (by simp)
      (p := ⟨p.text, _, .object (some name), p.enclosing, true⟩)
      (.inl rfl) (hstyle.endsUnquoted_entriesChars level entries rest)
      ((skipSeparators_append hstyle.afterColon _).trans
        (hstyle.skipSeparators_valueChars (hentries (name, value) (by simp)) _))
    obtain ⟨separators, hseparators, hchars⟩ := hstyle.entriesChars_eq level entries
    have hentriesRun := ih (fun entry hmem => hentries entry (List.mem_cons_of_mem _ hmem))
      (fun entry hmem => hruns entry (List.mem_cons_of_mem _ hmem))
      (p := ⟨p.text, _, .object (some name), p.enclosing, false⟩) rfl rfl henclosing
      (hchars ▸ Style.Separates.skipSeparators_objectChars entries hseparators rest)
    rw [Value.entryEvents]
    simp only [List.cons_append, List.append_assoc]
    exact .cons hname (hvalue.append hentriesRun)

/-- The parser runs through a written list from in front of it. -/
theorem run_sequence {items : List Value} (hitems : ∀ item ∈ items, Value.Writable depth item)
    (hruns : ∀ item ∈ items, RunsThrough style (level + 1) item) {p : Parser} {rest : List Char}
    (hrest : skipSeparators p.rest = valueChars style level (.sequence items) ++ rest) :
    Run Parser.next p (Value.events p.beginElement.path (.sequence items)) (p.behind rest) := by
  obtain ⟨separators, hseparators, hchars⟩ := hstyle.valueChars_sequence level items
  rw [hchars, List.cons_append] at hrest
  exact .cons (next_openBracket hrest) (run_items hstyle hitems hruns rfl rfl
    (hstyle.skipSeparators_listChars hitems hseparators rest))

/-- The parser runs through a written object from in front of it. -/
theorem run_mapping {entries : List (String × Value)}
    (hentries : ∀ entry ∈ entries, Value.Writable depth entry.2)
    (hruns : ∀ entry ∈ entries, RunsThrough style (level + 1) entry.2) {p : Parser}
    {rest : List Char}
    (hrest : skipSeparators p.rest = valueChars style level (.mapping entries) ++ rest) :
    Run Parser.next p (Value.events p.beginElement.path (.mapping entries)) (p.behind rest) := by
  obtain ⟨separators, hseparators, hchars⟩ := hstyle.valueChars_mapping level entries
  rw [hchars, List.cons_append] at hrest
  exact .cons (next_openBrace hrest) (run_entries hstyle hentries hruns rfl rfl rfl
    (Style.Separates.skipSeparators_objectChars entries hseparators rest))

/-- The parser runs through every written tree from in front of it. -/
theorem run_valueChars {value : Value} (h : Value.Writable depth value) (level : Nat) :
    RunsThrough style level value := by
  induction h generalizing level with
  | null =>
    intro p rest hexpects hends hrest
    rw [valueChars] at hrest
    rw [Value.events]
    exact .single (next_null hexpects hrest hends)
  | scalar _ hleaf =>
    intro p rest hexpects hends hrest
    rw [valueChars] at hrest
    rw [Value.events]
    exact .single (next_scalarChars hexpects hleaf hrest hends)
  | sequence _ hitems ih =>
    intro p rest _ _ hrest
    exact run_sequence hstyle hitems (fun item hitem => ih item hitem (level + 1)) hrest
  | mapping _ _ _ hentries ih =>
    intro p rest _ _ hrest
    exact run_mapping hstyle hentries (fun entry hentry => ih entry hentry (level + 1)) hrest

end LayeredConfig.Json
