import LayeredConfig.Proofs.OrderedMap
import LayeredConfig.Proofs.Source.Environment
import Mathlib.Data.Bool.AllAny

/-!
# What environment variables answer

For names that are made of ASCII letters, digits and underscores, the spellings and the two steps of
a lookup come down to one rule: the variable for a path is named like the path in uppercase, with
underscores for everything but letters and digits (`Environment.variableName`).

* `Environment.value?_eq_getLast?`: a path has the last value given to its variable.
* `Environment.answers_of_nameChars`: so it is, and a name with single underscores can be walked
  down word by word, in uppercase and in lowercase.
-/

namespace LayeredConfig.Environment

variable {entries : List (String × String)} {name form path : String}

/-! ### Values -/

/-- The name of the variable for a path: the path in uppercase, with underscores for everything but
letters and digits. -/
def variableName (path : String) : String := String.ofList (mask (path.toList.map Char.toUpper))

theorem toList_toUppercase_of_ascii (hpath : ∀ c ∈ path.toList, c.toNat < 128) :
    (Text.toUppercase path).toList = path.toList.map Char.toUpper := by
  rw [Text.toUppercase, String.toList_ofList, List.map_eq_flatMap]
  exact List.flatMap_congr fun c hc => by rw [Text.uppercaseChar, if_pos (hpath c hc)]

/-- A name of plain characters in uppercase has nothing to replace. -/
theorem mask_toUppercase (hname : ∀ c ∈ name.toList, IsNameChar c) :
    mask (Text.toUppercase name).toList = (Text.toUppercase name).toList := by
  rw [toList_toUppercase hname, mask, List.map_map]
  exact List.map_congr_left fun c hc => (List.cons.inj (mask_singleton_toUpper (hname c hc))).1

theorem get?_values_ofList (entries : List (String × String)) (name : String) :
    OrderedMap.get? (ofList entries).values name =
      ((entries.filter (Text.toUppercase ·.1 = name)).getLast?).map (·.2) := by
  rw [ofList, OrderedMap.get?_ofList, List.filter_map, List.getLast?_map, Option.map_map]
  rfl

/-- A path has the last value given to its variable. -/
theorem value?_eq_getLast? (hentries : ∀ entry ∈ entries, ∀ c ∈ entry.1.toList, IsNameChar c)
    (hpath : ∀ c ∈ path.toList, c.toNat < 128) : (ofList entries).value? path =
      ((entries.filter (Text.toUppercase ·.1 = variableName path)).getLast?).map (.string ·.2) := by
  have hname : String.ofList (mask (Text.toUppercase path).toList) = variableName path := by
    rw [variableName, toList_toUppercase_of_ascii hpath]
  -- a variable named like the path in uppercase is also named like the masked path
  have hfirst : ∀ value, OrderedMap.get? (ofList entries).values (Text.toUppercase path) =
      some value → Text.toUppercase path = variableName path := by
    intro value hvalue
    have hmem := OrderedMap.isSome_get?_iff.1 (Option.isSome_of_eq_some hvalue)
    have hkey := OrderedMap.mem_keys_ofList.1 hmem
    rw [OrderedMap.keys, List.map_map, List.mem_map] at hkey
    obtain ⟨entry, hentry, heq⟩ := hkey
    rw [← hname, ← show Text.toUppercase entry.1 = Text.toUppercase path from heq,
      mask_toUppercase (hentries entry hentry), String.ofList_toList]
  have hlookup : (ofList entries).value? path =
      (OrderedMap.get? (ofList entries).values (variableName path)).map .string := by
    rw [value?, hname]
    cases hvalue : OrderedMap.get? (ofList entries).values (Text.toUppercase path) with
    | none => rfl
    | some value =>
      rw [← hfirst value hvalue, hvalue]
      rfl
  rw [hlookup, get?_values_ofList, Option.map_map]
  rfl

/-! ### Words -/

/-- An underscore stands only between other characters. -/
structure HasSingleUnderscores (name : String) : Prop where
  notLeading : name.toList.head? ≠ some '_'
  notTrailing : name.toList.getLast? ≠ some '_'
  notDoubled : ¬ ['_', '_'] <:+: name.toList

/-- The words of a name are not empty. -/
theorem HasSingleUnderscores.ne_empty_of_mem_split (h : HasSingleUnderscores name)
    (hne : name ≠ "") : ∀ word ∈ Text.split '_' name, word ≠ "" := by
  intro word hword
  obtain ⟨chars, hchars, rfl⟩ := List.mem_map.1 hword
  have hnil : chars ≠ [] := by
    rintro rfl
    exact Text.nil_notMem_splitList (by simpa using hne) h.notLeading h.notTrailing h.notDoubled
      hchars
  simpa using hnil

/-- The form is that of a name in uppercase or in lowercase, character by character. -/
theorem exists_form_eq_map (hname : ∀ c ∈ name.toList, IsNameChar c)
    (hform : form ∈ [Text.toUppercase name, name.toLower]) :
    ∃ f : Char → Char, form.toList = name.toList.map f ∧
      (∀ c, IsNameChar c → (f c = '_' ↔ c = '_') ∧ f c ≠ '.') ∧
      String.ofList (dotted form.toList) ∈ spellingsOf (Text.toUppercase name) := by
  rw [spellingsOf, trimChars_toUppercase hname]
  simp only [List.mem_cons, List.not_mem_nil, or_false] at hform
  rcases hform with rfl | rfl
  · refine ⟨Char.toUpper, toList_toUppercase hname, forall_isNameChar_iff.2 (by decide), ?_⟩
    rw [toList_toUppercase hname]
    simp
  · have hlower : name.toLower.toList = name.toList.map Char.toLower := String.toList_map
    refine ⟨Char.toLower, hlower, forall_isNameChar_iff.2 (by decide), ?_⟩
    -- the last spelling is the lowercase form with points
    have hchar : ∀ c, IsNameChar c →
        (dotted (mask [c.toUpper])).map Char.toLower = dotted [c.toLower] :=
      forall_isNameChar_iff.2 (by decide)
    have hlast : dotted name.toLower.toList =
        (dotted (mask (name.toList.map Char.toUpper))).map Char.toLower := by
      rw [hlower]
      simp only [dotted, mask, List.map_map]
      exact List.map_congr_left fun c hc => (List.cons.inj (hchar c (hname c hc))).1.symm
    rw [hlast]
    simp

/-- The words of a form of a name are the segments of one of its spellings. -/
theorem exists_spelling (hname : ∀ c ∈ name.toList, IsNameChar c)
    (hform : form ∈ [Text.toUppercase name, name.toLower])
    (hwords : ∀ word ∈ Text.split '_' name, word ≠ "") :
    ∃ spelling ∈ spellingsOf (Text.toUppercase name),
      Path.isIndexable spelling ∧ Path.split spelling = Text.split '_' form := by
  obtain ⟨f, hmap, hchars, hspelling⟩ := exists_form_eq_map hname hform
  have hformChar : ∀ c ∈ form.toList, c ≠ '.' := by
    rw [hmap]
    intro c hc
    obtain ⟨d, hd, rfl⟩ := List.mem_map.1 hc
    exact (hchars d (hname d hd)).2
  have hsplit : Path.split (String.ofList (dotted form.toList)) = Text.split '_' form := by
    have hpointed : ∀ c ∈ form.toList, pointed c = '.' ↔ c = '_' := by
      intro c hc
      by_cases heq : c = '_'
      · simp [pointed, heq]
      · simp [pointed, heq, hformChar c hc]
    rw [Path.split, Text.split, Text.split, String.toList_ofList,
      show dotted form.toList = form.toList.map pointed from rfl, Text.splitList_map hpointed,
      List.map_map]
    -- a word has no underscore, so nothing in it is replaced
    refine List.map_congr_left fun word hword => ?_
    have hnone := Text.separator_notMem_of_mem_splitList hword
    have hword' : word.map pointed = word :=
      (List.map_congr_left fun c hc => if_neg fun heq : c = '_' => hnone (heq ▸ hc)).trans
        (List.map_id word)
    rw [Function.comp_apply, hword']
  refine ⟨_, hspelling, ?_, hsplit⟩
  rw [Path.isIndexable, hsplit, Text.split, hmap,
    Text.splitList_map fun c hc => (hchars c (hname c hc)).1, List.all_eq_true]
  intro word hword
  rw [List.map_map, List.mem_map] at hword
  obtain ⟨chars, hmem, rfl⟩ := hword
  have hne := hwords (String.ofList chars) (List.mem_map_of_mem hmem)
  simpa using hne

/-- The segments of a spelling up to an empty one can be walked down. -/
theorem mem_keys_of_split {spelling segment : String} {before after : List String}
    (hentry : name ∈ entries.map Prod.fst) (h : spelling ∈ spellingsOf (Text.toUppercase name))
    (hindexable : Path.isIndexable spelling)
    (hsplit : Path.split spelling = before ++ segment :: after) :
    segment ∈ (ofList entries).keys (Path.ofSegments before) := by
  have hnames := Path.isName_of_isIndexable hindexable
  rw [hsplit] at hnames
  have hlisted : spelling ∈ (ofList entries).spellings := by
    rw [ofList, OrderedMap.mem_distinct, List.mem_flatMap]
    refine ⟨Text.toUppercase name, OrderedMap.mem_keys_ofList.2 ?_, h⟩
    obtain ⟨entry, hmem, rfl⟩ := List.mem_map.1 hentry
    rw [OrderedMap.keys, List.map_map]
    exact List.mem_map.2 ⟨entry, hmem, rfl⟩
  rw [keys, OrderedMap.mem_distinct, List.mem_filterMap]
  refine ⟨spelling, hlisted, ?_⟩
  rw [Path.childSegment?_ofSegments_eq_some_iff fun before hbefore =>
    hnames before (List.mem_append_left _ hbefore), Path.lead_eq_split hindexable, hsplit]
  simp

/-- With names of ASCII letters, digits and underscores, a path has the last value given to its
variable, and the words of a name with single underscores, in uppercase or in lowercase, lie below
each other. -/
theorem answers_of_nameChars
    (hentries : ∀ entry ∈ entries, entry.1 ≠ "" ∧ ∀ c ∈ entry.1.toList, IsNameChar c) :
    (∀ path : String, (∀ c ∈ path.toList, c.toNat < 128) → (ofList entries).value? path =
      ((entries.filter (Text.toUppercase ·.1 = variableName path)).getLast?).map (.string ·.2)) ∧
    ∀ entry ∈ entries, HasSingleUnderscores entry.1 →
      ∀ form ∈ [Text.toUppercase entry.1, entry.1.toLower], ∀ before segment after,
        Text.split '_' form = before ++ segment :: after →
          segment ∈ (ofList entries).keys (Path.ofSegments before) := by
  constructor
  · exact fun path hpath => value?_eq_getLast? (fun entry hentry => (hentries entry hentry).2) hpath
  · intro entry hentry hsingle form hform before segment after hsplit
    obtain ⟨hne, hchars⟩ := hentries entry hentry
    obtain ⟨spelling, hspelling, hindexable, hwords⟩ :=
      exists_spelling hchars hform (hsingle.ne_empty_of_mem_split hne)
    exact mem_keys_of_split (List.mem_map_of_mem hentry) hspelling hindexable (hwords.trans hsplit)

/-- Two spellings of one name, and a name with a doubled underscore. -/
def hostEntries : List (String × String) :=
  [("Db_Host_0", "first"), ("DB_HOST_0", "second"), ("A__B", "third")]

theorem answers_of_nameChars_hostEntries :
    (ofList hostEntries).value? "db.host-0" = some (.string "second") ∧
      (ofList hostEntries).value? "db.host" = none ∧
      "HOST" ∈ (ofList hostEntries).keys "DB" ∧ "0" ∈ (ofList hostEntries).keys "db.host" := by
  have hnames : ∀ entry ∈ hostEntries, entry.1 ≠ "" ∧ entry.1.toList.all (IsNameChar ·) := by
    decide +kernel
  have hentries : ∀ entry ∈ hostEntries, entry.1 ≠ "" ∧ ∀ c ∈ entry.1.toList, IsNameChar c :=
    fun entry hentry => (hnames entry hentry).imp_right List.all_iff_forall_prop.1
  obtain ⟨hvalue, hkeys⟩ := answers_of_nameChars hentries
  have hsingle : HasSingleUnderscores "Db_Host_0" := ⟨by decide, by decide, by decide +kernel⟩
  refine ⟨?_, ?_, ?_, ?_⟩
  · exact (hvalue "db.host-0" (List.all_iff_forall_prop.1 (by decide))).trans (by decide +kernel)
  · exact (hvalue "db.host" (List.all_iff_forall_prop.1 (by decide))).trans (by decide +kernel)
  · exact hkeys ("Db_Host_0", "first") (by decide) hsingle "DB_HOST_0" (by decide +kernel)
      ["DB"] "HOST" ["0"] (by decide)
  · exact hkeys ("Db_Host_0", "first") (by decide) hsingle "db_host_0" (by decide +kernel)
      ["db", "host"] "0" [] (by decide)

end LayeredConfig.Environment
