import LayeredConfig.Proofs.Document.Scan
import LayeredConfig.Proofs.Source.Phantoms
import LayeredConfig.Source.Environment

/-!
# The children of environment variables

An environment lists the segments of all spellings of its names, while a lookup only knows two forms
of a path. `Environment.noPhantoms_spellings` says when both sides fit together, in the environment
alone and in a stack with stored values: if there is something at the path up to the first empty
segment of every spelling. For names that are made of letters, digits and single underscores
between them (`IsRegular`), every spelling leads back to its variable. A name such as `A-B` breaks
the rule: it is listed as the segment `b` below `a`, but the lookup for `a.b` does not find it.
-/

namespace LayeredConfig

open Resolution

namespace Environment

variable {environment : Environment} {entries : List (String × String)} {source : Source}
  {name spelling path : String}

/-! ### Regular names -/

/-- The character is an ASCII letter or digit or an underscore. -/
def IsNameChar (c : Char) : Prop := isPlain c ∨ c = '_'

instance : DecidablePred IsNameChar := fun _ => inferInstanceAs (Decidable (_ ∨ _))

/-- A name of ASCII letters and digits with single underscores between them. A name that is empty or
begins with an underscore may have more underscores. -/
structure IsRegular (name : String) : Prop where
  isNameChar : ∀ c ∈ name.toList, IsNameChar c
  pieces : (Text.split '_' name).head? = some "" ∨ ∀ piece ∈ Text.split '_' name, piece ≠ ""

instance : DecidablePred IsRegular := fun name =>
  decidable_of_iff (name.toList.all (IsNameChar ·) ∧
      ((Text.split '_' name).head? = some "" ∨ (Text.split '_' name).all (· ≠ "")))
    ⟨fun ⟨hchars, hpieces⟩ => ⟨by simpa using hchars, by simpa using hpieces⟩,
      fun ⟨hchars, hpieces⟩ => ⟨by simpa using hchars, by simpa using hpieces⟩⟩

theorem IsNameChar.toNat_lt {c : Char} (h : IsNameChar c) : c.toNat < 128 := by
  rcases h with h | rfl
  · change ((decide (65 ≤ c.val ∧ c.val ≤ 90) || (decide (97 ≤ c.val) && decide (c.val ≤ 122))) ||
      (decide (48 ≤ c.val) && decide (c.val ≤ 57))) = true at h
    simp only [Bool.or_eq_true, Bool.and_eq_true, decide_eq_true_eq, UInt32.le_iff_toNat_le] at h
    change ((65 ≤ c.toNat ∧ c.toNat ≤ 90) ∨ (97 ≤ c.toNat ∧ c.toNat ≤ 122)) ∨
      (48 ≤ c.toNat ∧ c.toNat ≤ 57) at h
    omega
  · decide

/-- What holds for the characters of names among the first 128 holds for all of them. -/
theorem forall_isNameChar_iff {p : Char → Prop} : (∀ c, IsNameChar c → p c) ↔
    ∀ n : Fin 128, IsNameChar (Char.ofNat n) → p (Char.ofNat n) := by
  constructor
  · exact fun h n hn => h _ hn
  · intro h c hc
    have hn := h ⟨c.toNat, hc.toNat_lt⟩
    rw [Char.ofNat_toNat] at hn
    exact hn hc

/-- The character of a point in the place of an underscore. -/
def pointed (c : Char) : Char := if c = '_' then '.' else c

/-- A spelling writes the characters of a name one by one, as characters that a lookup takes back to
them, and has points everywhere in the place of underscores or nowhere. -/
structure Writes (form : Char → Char) : Prop where
  mask_uppercase : ∀ c, IsNameChar c → mask (Text.uppercaseChar (form c)) = [c.toUpper]
  points : (∀ c, IsNameChar c → form c ≠ '.') ∨ ∀ c, IsNameChar c → (form c = '.' ↔ c = '_')

theorem writes_toUpper : Writes Char.toUpper where
  mask_uppercase := forall_isNameChar_iff.2 (by decide)
  points := .inl (forall_isNameChar_iff.2 (by decide))

theorem writes_toLower : Writes fun c => c.toUpper.toLower where
  mask_uppercase := forall_isNameChar_iff.2 (by decide)
  points := .inl (forall_isNameChar_iff.2 (by decide))

theorem writes_pointed : Writes fun c => pointed c.toUpper where
  mask_uppercase := forall_isNameChar_iff.2 (by decide)
  points := .inr (forall_isNameChar_iff.2 (by decide))

theorem writes_pointed_toLower : Writes fun c => (pointed c.toUpper).toLower where
  mask_uppercase := forall_isNameChar_iff.2 (by decide)
  points := .inr (forall_isNameChar_iff.2 (by decide))

theorem toList_toUppercase (hname : ∀ c ∈ name.toList, IsNameChar c) :
    (Text.toUppercase name).toList = name.toList.map Char.toUpper := by
  have hchar : ∀ c, IsNameChar c → Text.uppercaseChar c = [c.toUpper] :=
    forall_isNameChar_iff.2 (by decide)
  rw [Text.toUppercase, String.toList_ofList, List.map_eq_flatMap]
  exact List.flatMap_congr fun c hc => hchar c (hname c hc)

/-- A name of plain characters in uppercase has no white space to trim. -/
theorem trimChars_toUppercase (hname : ∀ c ∈ name.toList, IsNameChar c) :
    Text.trimChars (Text.toUppercase name).toList = name.toList.map Char.toUpper := by
  have hblank : ∀ c, IsNameChar c → Text.isBlank c.toUpper = false :=
    forall_isNameChar_iff.2 (by decide)
  rw [toList_toUppercase hname]
  apply Document.trimChars_of_not_isBlank
  simpa using fun c hc => hblank c (hname c hc)

theorem mask_singleton_toUpper {c : Char} (h : IsNameChar c) : mask [c.toUpper] = [c.toUpper] :=
  (forall_isNameChar_iff (p := fun c => mask [c.toUpper] = [c.toUpper])).2 (by decide) c h

/-- Every spelling of a name of plain characters writes them one by one. -/
theorem exists_writes (hname : ∀ c ∈ name.toList, IsNameChar c)
    (h : spelling ∈ spellingsOf (Text.toUppercase name)) :
    ∃ form, Writes form ∧ spelling.toList = name.toList.map form := by
  have hlower : ∀ c, IsNameChar c → maskedLowercase c.toUpper = [c.toUpper.toLower] :=
    forall_isNameChar_iff.2 (by decide)
  rw [spellingsOf, trimChars_toUppercase hname] at h
  simp only [List.map_cons, List.map_nil, List.mem_cons, List.not_mem_nil, or_false] at h
  rcases h with rfl | rfl | rfl | rfl
  · exact ⟨_, writes_toUpper, by simp⟩
  · refine ⟨_, writes_toLower, ?_⟩
    rw [String.toList_ofList, List.flatMap_map, List.map_eq_flatMap]
    exact List.flatMap_congr fun c hc => hlower c (hname c hc)
  · refine ⟨_, writes_pointed, ?_⟩
    rw [String.toList_ofList, dotted, List.map_map]
    rfl
  · refine ⟨_, writes_pointed_toLower, ?_⟩
    rw [String.toList_ofList, dotted, mask, List.map_map, List.map_map, List.map_map]
    refine List.map_congr_left fun c hc => ?_
    have hplain := List.cons.inj (mask_singleton_toUpper (hname c hc))
    simp only [Function.comp_apply, hplain.1]
    rfl

/-- The path up to the first empty segment of a spelling of a regular name is the whole spelling, or
there is none. -/
theorem lead_eq_nil_or_isIndexable (hname : IsRegular name)
    (h : spelling ∈ spellingsOf (Text.toUppercase name)) :
    Path.lead spelling = [] ∨ Path.isIndexable spelling := by
  obtain ⟨form, hform, hspelling⟩ := exists_writes hname.isNameChar h
  rcases hform.points with hnone | hpoints
  · -- a spelling without points is a single segment
    have hsplit : Path.split spelling = [spelling] := by
      rw [Path.split, Text.split, Text.splitList_of_notMem]
      · simp
      · rw [hspelling, List.mem_map]
        rintro ⟨c, hc, heq⟩
        exact hnone c (hname.isNameChar c hc) heq
    by_cases hempty : spelling = ""
    · exact .inl (Path.lead_eq_nil (by rw [hsplit, hempty]; rfl))
    · exact .inr (by simp [Path.isIndexable, hsplit, hempty])
  · -- the segments are the pieces of the name between underscores
    have hsplit : Path.split spelling =
        (Text.split '_' name).map fun piece => String.ofList (piece.toList.map form) := by
      rw [Path.split, Text.split, Text.split, hspelling,
        Text.splitList_map fun c hc => hpoints c (hname.isNameChar c hc)]
      simp [Function.comp_def]
    rcases hname.pieces with hhead | hpieces
    · exact .inl (Path.lead_eq_nil (by rw [hsplit, List.head?_map, hhead]; rfl))
    · refine .inr ?_
      rw [Path.isIndexable, hsplit, List.all_eq_true]
      intro segment hsegment
      obtain ⟨piece, hpiece, rfl⟩ := List.mem_map.1 hsegment
      simpa using hpieces piece hpiece

/-- A lookup for a spelling of a name of plain characters finds its variable. -/
theorem isSome_value? (hname : ∀ c ∈ name.toList, IsNameChar c)
    (h : spelling ∈ spellingsOf (Text.toUppercase name))
    (hmem : Text.toUppercase name ∈ OrderedMap.keys environment.values) :
    (environment.value? spelling).isSome := by
  obtain ⟨form, hform, hspelling⟩ := exists_writes hname h
  have hmask : String.ofList (mask (Text.toUppercase spelling).toList) = Text.toUppercase name := by
    rw [← String.toList_inj, String.toList_ofList, toList_toUppercase hname, Text.toUppercase,
      String.toList_ofList, hspelling, List.flatMap_map, mask, List.map_flatMap,
      List.map_eq_flatMap]
    exact List.flatMap_congr fun c hc => hform.mask_uppercase c (hname c hc)
  have hsome := OrderedMap.isSome_get?_iff.2 hmem
  rw [value?, hmask, Option.isSome_map]
  cases OrderedMap.get? environment.values (Text.toUppercase spelling) with
  | none => exact hsome
  | some value => rfl

/-! ### The walk through an environment -/

/-- The environment lists its spellings up to their first empty segments. -/
theorem lists (environment : Environment) : environment.toSource.Lists
    fun line => ∃ spelling ∈ environment.spellings, line = Path.lead spelling where
  isName := by
    rintro _ ⟨spelling, -, rfl⟩ segment hsegment
    exact Path.isName_of_mem_lead hsegment
  mem_keys_iff before key hbefore := by
    show key ∈ OrderedMap.distinct _ ↔ _
    rw [OrderedMap.mem_distinct, List.mem_filterMap]
    constructor
    · rintro ⟨spelling, hspelling, hchild⟩
      exact ⟨_, ⟨spelling, hspelling, rfl⟩,
        (Path.childSegment?_ofSegments_eq_some_iff hbefore).1 hchild⟩
    · rintro ⟨_, ⟨spelling, hspelling, rfl⟩, hbegins⟩
      exact ⟨spelling, hspelling, (Path.childSegment?_ofSegments_eq_some_iff hbefore).2 hbegins⟩

/-- The source is the environment, alone or in a stack with stored values. -/
inductive IsAmong (environment : Environment) : Source → Prop
  | alone : environment.IsAmong environment.toSource
  | stacked {higher lower : List Source} (h : ∀ source ∈ higher ++ lower, IsStored source) :
      environment.IsAmong (.merge (higher ++ environment.toSource :: lower))

/-- A stack lists the segments of stored paths next to the spellings. -/
theorem lists_merge {higher lower : List Source} (h : ∀ source ∈ higher ++ lower, IsStored source) :
    (Source.merge (higher ++ environment.toSource :: lower)).Lists fun line =>
      (∃ spelling ∈ environment.spellings, line = Path.lead spelling) ∨
        ∃ path, Path.isIndexable path ∧ StoredIn (higher ++ lower) path ∧
          line = Path.split path where
  isName := by
    rintro _ (hline | ⟨path, hpath, -, rfl⟩) segment hsegment
    · exact environment.lists.isName _ hline segment hsegment
    · exact Path.isName_of_isIndexable hpath segment hsegment
  mem_keys_iff before key hbefore := by
    have hsources : key ∈ (Source.merge (higher ++ environment.toSource :: lower)).keys
          (Path.ofSegments before) ↔ key ∈ environment.toSource.keys (Path.ofSegments before) ∨
        key ∈ (Source.merge (higher ++ lower)).keys (Path.ofSegments before) := by
      simp only [mem_keys_merge, List.mem_append, List.mem_cons]
      grind
    rw [hsources, environment.lists.mem_keys_iff before key hbefore, mem_keys_merge_iff h hbefore]
    constructor
    · rintro (⟨line, hline, hbegins⟩ | ⟨path, rest, hpath, hstored, hsplit⟩)
      · exact ⟨line, .inl hline, hbegins⟩
      · exact ⟨_, .inr ⟨path, hpath, hstored, rfl⟩, rest, hsplit.symm⟩
    · rintro ⟨line, hline | ⟨path, hpath, hstored, rfl⟩, hbegins⟩
      · exact .inl ⟨line, hline, hbegins⟩
      · obtain ⟨rest, hsplit⟩ := hbegins
        exact .inr ⟨path, rest, hpath, hstored, hsplit.symm⟩

namespace IsAmong

/-- What the environment stores is stored in the stack. -/
theorem contains_of_isSome (h : environment.IsAmong source)
    (hsome : (environment.value? path).isSome) : source.contains path := by
  rw [Source.contains_iff]
  refine .inr ?_
  cases h with
  | alone => exact hsome
  | stacked => exact storedIn_iff.1 ⟨environment.toSource, by simp, hsome⟩

/-- No child is missing exactly if there is something at the path up to the first empty segment of
every spelling. -/
theorem noPhantoms_iff_spellings (h : environment.IsAmong source) : NoPhantoms source "" ↔
    ∀ spelling ∈ environment.spellings, Path.lead spelling ≠ [] →
      source.contains (Path.ofSegments (Path.lead spelling)) := by
  cases h with
  | alone =>
    rw [environment.lists.noPhantoms_iff]
    constructor
    · exact fun hends spelling hmem => hends _ ⟨spelling, hmem, rfl⟩
    · rintro hends _ ⟨spelling, hmem, rfl⟩
      exact hends spelling hmem
  | @stacked higher lower hstored =>
    rw [(lists_merge hstored).noPhantoms_iff]
    constructor
    · exact fun hends spelling hmem => hends _ (.inl ⟨spelling, hmem, rfl⟩)
    · rintro hends _ (⟨spelling, hmem, rfl⟩ | ⟨path, hpath, ⟨stored, hmem, hsome⟩, rfl⟩) hne
      · exact hends spelling hmem hne
      · -- a stored path ends where a scalar is stored
        have hmem' : stored ∈ higher ++ environment.toSource :: lower := by
          simp only [List.mem_append, List.mem_cons] at hmem ⊢
          tauto
        rw [Path.ofSegments_split hpath, Source.contains_iff]
        exact .inr (storedIn_iff.1 ⟨stored, hmem', hsome⟩)

end IsAmong

/-- In the environment, alone or in a stack with stored values, no child is missing exactly if there
is something at the path up to the first empty segment of every spelling. This is so if all names
are regular, and then no null comes up in the tree. -/
theorem noPhantoms_spellings (h : (ofList entries).IsAmong source) :
    (NoPhantoms source "" ↔ ∀ spelling ∈ (ofList entries).spellings, Path.lead spelling ≠ [] →
      source.contains (Path.ofSegments (Path.lead spelling))) ∧
    ((∀ entry ∈ entries, IsRegular entry.1) → NoPhantoms source "") ∧
    (NoPhantoms source "" → source.contains "" → ∀ items, Expansion source "" items →
      ∀ item ∈ items, item.event ≠ .null) := by
  refine ⟨h.noPhantoms_iff_spellings, fun hregular => ?_, fun hnone hcontains items hitems =>
    hnone.event_ne hcontains hitems⟩
  rw [h.noPhantoms_iff_spellings]
  intro spelling hspelling hne
  -- the spelling is one of a name in uppercase
  rw [ofList, OrderedMap.mem_distinct, List.mem_flatMap] at hspelling
  obtain ⟨name, hname, hspelling⟩ := hspelling
  have hentries := OrderedMap.mem_keys_ofList.1 hname
  rw [OrderedMap.keys, List.map_map, List.mem_map] at hentries
  obtain ⟨entry, hentry, rfl⟩ := hentries
  have hentry' := hregular entry hentry
  have hindexable := (lead_eq_nil_or_isIndexable hentry' hspelling).resolve_left hne
  rw [Path.lead_eq_split hindexable, Path.ofSegments_split hindexable]
  exact h.contains_of_isSome (isSome_value? hentry'.isNameChar hspelling hname)

/-- A host in the environment above a stored port. -/
def siteSources : List Source :=
  [(ofList [("DB_HOST", "db1")]).toSource,
    (Store.ofMap [("db.port", .integer 5432)]).toSource "map"]

/-- The host and the port are both there. -/
theorem noPhantoms_spellings_siteSources : NoPhantoms (.merge siteSources) "" ∧
    ∀ items, Expansion (.merge siteSources) "" items → ∀ item ∈ items, item.event ≠ .null := by
  have hstored : ∀ source ∈ [] ++ [(Store.ofMap [("db.port", .integer 5432)]).toSource "map"],
      IsStored source := List.forall_mem_singleton.2 (.map _ _)
  have hamong : (ofList [("DB_HOST", "db1")]).IsAmong (.merge siteSources) := .stacked hstored
  obtain ⟨-, hregular, hitems⟩ := noPhantoms_spellings hamong
  have hnone := hregular (List.forall_mem_singleton.2 (by decide))
  exact ⟨hnone, hitems hnone (by decide)⟩

/-- A variable whose name is not regular, above a stored scalar. -/
def dashedSources : List Source :=
  [(ofList [("A-B", "1")]).toSource, (Store.ofMap [("a", .integer 5)]).toSource "map"]

/-- The stored scalar has become a map with a null for a child that is not there. -/
theorem not_noPhantoms_dashedSources :
    (Source.merge dashedSources).value? "a" = some (.integer 5) ∧
      (Source.merge dashedSources).keys "a" = ["b"] ∧
      (Source.merge dashedSources).contains "a.b" = false ∧
      Holds (.merge dashedSources) "a" (.mapping [("b", .null)]) ∧
      ¬ NoPhantoms (.merge dashedSources) "" ∧
      ¬ NoPhantoms (ofList [("A-B", "1")]).toSource "" := by
  have hkeys : (Source.merge dashedSources).keys "a" = ["b"] := by decide
  refine ⟨by decide, hkeys, by decide, ?_, ?_, ?_⟩
  · have hmapping := @Holds.mapping (.merge dashedSources) "a" fun _ => .null
    rw [hkeys] at hmapping
    exact hmapping (by decide) (by decide)
      (List.forall_mem_singleton.2 (.null (by decide) (by decide)))
  · intro hnone
    have hchain : Chain (.merge dashedSources) "" 1 "a" :=
      .child (show "a" ∈ _ by decide) (.start _)
    exact absurd (hnone 1 "a" hchain "b" (by decide)) (by decide)
  · intro hnone
    have hchain : Chain (ofList [("A-B", "1")]).toSource "" 1 "a" :=
      .child (show "a" ∈ _ by decide) (.start _)
    exact absurd (hnone 1 "a" hchain "b" (by decide)) (by decide)

end Environment

end LayeredConfig
