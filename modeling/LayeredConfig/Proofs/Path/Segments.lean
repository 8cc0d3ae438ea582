import LayeredConfig.Path
import Mathlib.Data.List.Basic

/-!
# Paths and their segments

The path of a list of names (`ofSegments`) is the text that the walk over a source builds up child
by child. On indexable paths, cutting a path into segments and building it up again are inverse
(`ofSegments_split`, `split_ofSegments`), so the tree of paths is the tree of prefixes of the lists
of their segments:

* `below?_eq_some_iff`, `isWithin_iff_append`: what the tree says about the texts of any paths.
* `childSegment?_eq_some_iff`: the segment of a path directly below another one.
* `isWithin_iff`: lying at or below another path.
-/

namespace LayeredConfig

namespace Text

variable {α : Type} [DecidableEq α] {separator : α}

/-- Both sides of a separator are cut on their own. -/
theorem splitList_append (items more : List α) :
    splitList separator (items ++ separator :: more) =
      splitList separator items ++ splitList separator more := by
  induction items with
  | nil => simp [splitList]
  | cons a rest ih =>
    rw [List.cons_append, splitList, splitList]
    split
    · rw [ih, List.cons_append]
    -- the first piece gets one more item, and there is a first piece
    · rw [ih]
      cases hrest : splitList separator rest with
      | nil => exact absurd hrest (splitList_ne_nil separator rest)
      | cons piece pieces => rfl

/-- Items without a separator are their only piece. -/
theorem splitList_of_notMem {items : List α} (h : separator ∉ items) :
    splitList separator items = [items] := by
  induction items with
  | nil => rfl
  | cons a rest ih =>
    rw [List.mem_cons, not_or] at h
    rw [splitList, if_neg (Ne.symm h.1), ih h.2]

/-- The first piece reaches up to the first separator. -/
theorem exists_splitList_eq_cons (separator : α) (items : List α) :
    ∃ pieces, splitList separator items = items.takeWhile (· ≠ separator) :: pieces := by
  induction items with
  | nil => exact ⟨[], rfl⟩
  | cons a rest ih =>
    obtain ⟨pieces, hpieces⟩ := ih
    rw [splitList]
    by_cases ha : a = separator
    · exact ⟨splitList separator rest, by simp [ha]⟩
    · exact ⟨pieces, by simp [ha, hpieces]⟩

/-- No piece holds a separator. -/
theorem separator_notMem_of_mem_splitList {items piece : List α}
    (h : piece ∈ splitList separator items) : separator ∉ piece := by
  induction items generalizing piece with
  | nil =>
    rw [splitList, List.mem_singleton] at h
    simp [h]
  | cons a rest ih =>
    rw [splitList] at h
    split at h
    next =>
      rcases List.mem_cons.1 h with rfl | h
      · simp
      · exact ih h
    next hne =>
      split at h
      next hnil => exact absurd hnil (splitList_ne_nil separator rest)
      next first pieces hcons =>
        rcases List.mem_cons.1 h with rfl | h
        · have hfirst : separator ∉ first := ih (by rw [hcons]; simp)
          simpa [hfirst] using Ne.symm hne
        · exact ih (by rw [hcons]; exact List.mem_cons_of_mem _ h)

/-- The pieces with the separators between them are the items that were cut. -/
theorem eq_of_splitList_eq_cons {items piece : List α} {pieces : List (List α)}
    (h : splitList separator items = piece :: pieces) :
    items = piece ++ pieces.flatMap (separator :: ·) := by
  induction items generalizing piece pieces with
  | nil =>
    obtain ⟨rfl, rfl⟩ := List.cons.inj h
    rfl
  | cons a rest ih =>
    rw [splitList] at h
    split at h
    next heq =>
      obtain ⟨rfl, rfl⟩ := List.cons.inj h
      obtain ⟨more, hmore⟩ := exists_splitList_eq_cons separator rest
      rw [hmore, List.nil_append, List.flatMap_cons, List.cons_append, ← ih hmore, heq]
    next =>
      split at h
      next hnil => exact absurd hnil (splitList_ne_nil separator rest)
      next first more hcons =>
        obtain ⟨rfl, rfl⟩ := List.cons.inj h
        rw [List.cons_append, ← ih hcons]

/-- Items with single separators between others have no empty piece. -/
theorem nil_notMem_splitList : {items : List α} → items ≠ [] → items.head? ≠ some separator →
    items.getLast? ≠ some separator → ¬ [separator, separator] <:+: items →
      [] ∉ splitList separator items
  | [], hne, _, _, _ => absurd rfl hne
  | [a], _, hhead, _, _ => by
    have ha : a ≠ separator := by simpa using hhead
    simp [splitList, if_neg ha]
  | a :: b :: rest, _, hhead, hlast, hdoubled => by
    have ha : a ≠ separator := by simpa using hhead
    have hlast' : (b :: rest).getLast? ≠ some separator := by simpa using hlast
    have hdoubled' : ¬ [separator, separator] <:+: b :: rest :=
      fun h => hdoubled (h.trans (List.suffix_cons a _).isInfix)
    by_cases hb : b = separator
    · -- behind the separator something else follows
      have hrest : rest ≠ [] := by
        rintro rfl
        simp [hb] at hlast'
      have hhead' : rest.head? ≠ some separator := by
        intro h
        obtain ⟨more, rfl⟩ := List.head?_eq_some_iff.1 h
        exact hdoubled' (hb ▸ (List.prefix_append [b, separator] more).isInfix)
      have hpieces := nil_notMem_splitList hrest hhead'
        (by rwa [List.getLast?_cons_of_ne_nil hrest] at hlast')
        fun h => hdoubled' (h.trans (List.suffix_cons b _).isInfix)
      simp [splitList, if_neg ha, hb, hpieces]
    · have hpieces := nil_notMem_splitList (List.cons_ne_nil b rest) (by simpa using hb) hlast'
        hdoubled'
      rw [splitList, if_neg ha]
      -- the first piece gets one more item, and the others stay as they are
      cases hcons : splitList separator (b :: rest) with
      | nil => simp
      | cons piece pieces =>
        rw [hcons, List.mem_cons, not_or] at hpieces
        simpa using hpieces.2

end Text

namespace Path

/-- A text that can stand between the separators of a path that takes part in the tree. -/
def IsName (segment : String) : Prop := segment ≠ "" ∧ '.' ∉ segment.toList

/-- The path with the given segments. -/
def ofSegments (segments : List String) : String := segments.foldl join ""

variable {path parent ancestor segment : String} {segments other : List String}
  {chars : List Char}

@[simp]
theorem ofSegments_nil : ofSegments [] = "" := rfl

theorem ofSegments_append_singleton (segments : List String) (segment : String) :
    ofSegments (segments ++ [segment]) = join (ofSegments segments) segment := by
  rw [ofSegments, ofSegments, List.foldl_append]
  rfl

theorem isName_of_mem_replicate (h : IsName segment) (n : Nat) :
    ∀ name ∈ List.replicate n segment, IsName name :=
  fun _ hname => List.eq_of_mem_replicate hname ▸ h

theorem isName_append (hnames : ∀ segment ∈ segments, IsName segment) (h : IsName segment) :
    ∀ name ∈ segments ++ [segment], IsName name := by
  intro name hname
  rcases List.mem_append.1 hname with hname | hname
  · exact hnames name hname
  · rwa [List.mem_singleton.1 hname]

/-! ### The text of a path -/

theorem join_ne_empty (h : parent ≠ "") (segment : String) : join parent segment ≠ "" := by
  rw [join, if_neg h]
  intro heq
  have hlist := congrArg String.toList heq
  simp at hlist

theorem toList_join (h : parent ≠ "") (segment : String) :
    (join parent segment).toList = parent.toList ++ '.' :: segment.toList := by
  rw [join, if_neg h]
  simp

/-- A path ends like its last segment. -/
theorem getLast?_toList_join (parent : String) (h : segment ≠ "") :
    (join parent segment).toList.getLast? = segment.toList.getLast? := by
  by_cases hparent : parent = ""
  · rw [join, if_pos hparent]
  · obtain ⟨c, rest, hcons⟩ := List.exists_cons_of_ne_nil (mt String.toList_eq_nil_iff.1 h)
    rw [toList_join hparent, hcons, List.getLast?_append_cons, List.getLast?_cons_cons]

theorem toList_foldl_join (h : parent ≠ "") (segments : List String) :
    (segments.foldl join parent).toList =
      parent.toList ++ segments.flatMap fun segment => '.' :: segment.toList := by
  induction segments generalizing parent with
  | nil => simp
  | cons segment rest ih =>
    rw [List.foldl_cons, ih (join_ne_empty h segment), toList_join h]
    simp

/-- The text of a path is that of its segments with separators between them. -/
theorem toList_ofSegments_cons (h : segment ≠ "") (rest : List String) :
    (ofSegments (segment :: rest)).toList =
      segment.toList ++ rest.flatMap fun segment => '.' :: segment.toList := by
  rw [ofSegments, List.foldl_cons, join, if_pos rfl, toList_foldl_join h]

theorem ofSegments_ne_empty (hnames : ∀ segment ∈ segments, IsName segment) (hne : segments ≠ []) :
    ofSegments segments ≠ "" := by
  obtain ⟨segment, rest, rfl⟩ := List.exists_cons_of_ne_nil hne
  intro heq
  have hlist := congrArg String.toList heq
  rw [toList_ofSegments_cons (hnames segment (by simp)).1] at hlist
  exact (hnames segment (by simp)).1 (by simpa using (List.append_eq_nil_iff.1 hlist).1)

/-- A path goes on behind any of its beginnings with a separator. -/
theorem toList_ofSegments_append (hnames : ∀ segment ∈ segments, IsName segment)
    (hne : segments ≠ []) (more : List String) :
    (ofSegments (segments ++ more)).toList =
      (ofSegments segments).toList ++ more.flatMap fun segment => '.' :: segment.toList := by
  rw [ofSegments, List.foldl_append]
  exact toList_foldl_join (ofSegments_ne_empty hnames hne) more

/-! ### Cutting and building up -/

/-- Building up a path of names and cutting it gives the names back. -/
theorem split_ofSegments (hnames : ∀ segment ∈ segments, IsName segment) (hne : segments ≠ []) :
    split (ofSegments segments) = segments := by
  -- the next piece begins behind each separator, since no name holds one
  have hcut : ∀ (segment : String) (rest : List String), '.' ∉ segment.toList →
      (∀ segment ∈ rest, IsName segment) →
      Text.splitList '.' (segment.toList ++ rest.flatMap fun segment => '.' :: segment.toList) =
        segment.toList :: rest.map String.toList := by
    intro segment rest hsegment hrest
    induction rest generalizing segment with
    | nil => simpa using Text.splitList_of_notMem hsegment
    | cons next rest ih =>
      rw [List.flatMap_cons, List.cons_append, Text.splitList_append,
        Text.splitList_of_notMem hsegment, ih next (hrest next (by simp)).2
          fun segment hmem => hrest segment (List.mem_cons_of_mem _ hmem)]
      rfl
  obtain ⟨segment, rest, rfl⟩ := List.exists_cons_of_ne_nil hne
  have hsegment := hnames segment (by simp)
  rw [split, Text.split, toList_ofSegments_cons hsegment.1,
    hcut segment rest hsegment.2 fun segment hmem => hnames segment (List.mem_cons_of_mem _ hmem)]
  simp [Function.comp_def]

/-- A segment is a name if it is not empty. -/
theorem isName_of_mem_split (hmem : segment ∈ split path) (hne : segment ≠ "") :
    IsName segment := by
  refine ⟨hne, ?_⟩
  rw [split, Text.split] at hmem
  obtain ⟨piece, hpiece, rfl⟩ := List.mem_map.1 hmem
  simpa using Text.separator_notMem_of_mem_splitList hpiece

/-- The segments of an indexable path are names. -/
theorem isName_of_isIndexable (h : isIndexable path) : ∀ segment ∈ split path, IsName segment :=
  fun segment hmem => isName_of_mem_split hmem (by simpa using List.all_eq_true.1 h segment hmem)

/-- An indexable path has no empty segments to pass over. -/
theorem segments_eq_split (h : isIndexable path) : Path.segments path = split path := by
  rw [isIndexable, List.all_eq_true] at h
  exact List.filter_eq_self.2 h

theorem split_ne_nil (path : String) : split path ≠ [] := by
  rw [split, Text.split, Ne, List.map_eq_nil_iff]
  exact Text.splitList_ne_nil _ _

/-- The root has a single segment, which is empty. -/
theorem ne_empty_of_isIndexable (h : isIndexable path) : path ≠ "" := by
  rintro rfl
  exact absurd h (by decide)

/-- Cutting a path that does not begin with a separator and building it up gives it back. -/
theorem ofSegments_split_of_cons {first : String} {rest : List String}
    (h : split path = first :: rest) (hfirst : first ≠ "") : ofSegments (split path) = path := by
  obtain ⟨piece, pieces, hcons⟩ :=
    List.exists_cons_of_ne_nil (Text.splitList_ne_nil '.' path.toList)
  have hsplit : split path = String.ofList piece :: pieces.map String.ofList := by
    rw [split, Text.split, hcons, List.map_cons]
  obtain rfl := (List.cons.inj (hsplit.symm.trans h)).1
  rw [hsplit, ← String.toList_inj, toList_ofSegments_cons hfirst,
    Text.eq_of_splitList_eq_cons hcons]
  simp [List.flatMap_map]

/-- Cutting an indexable path and building it up gives it back. -/
theorem ofSegments_split (h : isIndexable path) : ofSegments (split path) = path := by
  obtain ⟨first, rest, hcons⟩ := List.exists_cons_of_ne_nil (split_ne_nil path)
  exact ofSegments_split_of_cons hcons (isName_of_isIndexable h first (by simp [hcons])).1

theorem isIndexable_ofSegments (hnames : ∀ segment ∈ segments, IsName segment)
    (hne : segments ≠ []) : isIndexable (ofSegments segments) := by
  rw [isIndexable, split_ofSegments hnames hne, List.all_eq_true]
  intro segment hmem
  simpa using (hnames segment hmem).1

/-- A path of names has only one list of segments. -/
theorem ofSegments_inj (hnames : ∀ segment ∈ segments, IsName segment)
    (hother : ∀ segment ∈ other, IsName segment) (h : ofSegments segments = ofSegments other) :
    segments = other := by
  by_cases hne : segments = []
  -- only the empty list of names has the empty path
  · by_contra hne'
    exact ofSegments_ne_empty hother (fun heq => hne' (hne.trans heq.symm)) (by rw [← h, hne]; rfl)
  · have hne' : other ≠ [] := by
      intro heq
      exact ofSegments_ne_empty hnames hne (by rw [h, heq]; rfl)
    rw [← split_ofSegments hnames hne, h, split_ofSegments hother hne']

/-! ### The tree of paths -/

theorem isPrefixOf?_append (parent rest : List Char) :
    parent.isPrefixOf? (parent ++ rest) = some rest := by
  induction parent with
  | nil => rfl
  | cons c parent ih => simp [List.isPrefixOf?, ih]

theorem eq_append_of_isPrefixOf? {parent chars rest : List Char}
    (h : parent.isPrefixOf? chars = some rest) : chars = parent ++ rest := by
  induction parent generalizing chars with
  | nil =>
    cases chars <;> simp_all [List.isPrefixOf?]
  | cons c parent ih =>
    cases chars with
    | nil => simp [List.isPrefixOf?] at h
    | cons d chars =>
      rw [List.isPrefixOf?] at h
      split at h
      next heq =>
        rw [eq_of_beq heq, ih h, List.cons_append]
      next => simp at h

/-- A path lies at or below another one that is not the root exactly if it is the same, or goes on
behind it with a separator. -/
theorem isWithin_iff_append (h : ancestor ≠ "") : isWithin path ancestor ↔
    path.toList = ancestor.toList ∨ ∃ rest, path.toList = ancestor.toList ++ '.' :: rest := by
  rw [isWithin, decide_eq_false h, Bool.false_or]
  constructor
  · intro hwithin
    split at hwithin
    next heq =>
      left
      simpa using eq_append_of_isPrefixOf? heq
    next c rest heq =>
      obtain rfl : c = '.' := by simpa using hwithin
      right
      exact ⟨rest, eq_append_of_isPrefixOf? heq⟩
    next => exact absurd hwithin (by simp)
  · rintro (heq | ⟨rest, heq⟩)
    · have hself := isPrefixOf?_append ancestor.toList []
      rw [List.append_nil] at hself
      rw [heq, hself]
    · rw [heq, isPrefixOf?_append]
      simp

/-- What lies below a parent follows it and a separator, and below the root it is all of the
path. -/
theorem below?_eq_some_iff : below? path parent = some chars ↔
    path.toList = if parent = "" then chars else parent.toList ++ '.' :: chars := by
  rw [below?]
  by_cases hparent : parent = ""
  · rw [if_pos hparent, if_pos hparent, Option.some.injEq]
  · rw [if_neg hparent, if_neg hparent]
    constructor
    · intro h
      split at h
      next rest heq =>
        obtain rfl := Option.some.inj h
        exact eq_append_of_isPrefixOf? heq
      next => exact absurd h (by simp)
    · intro heq
      rw [heq, isPrefixOf?_append]
      rfl

/-- The segment directly below a parent is the part of what lies below it that reaches up to the
next separator, if this part is not empty. -/
theorem childSegment?_eq_some_iff_takeWhile : childSegment? path parent = some segment ↔
    segment ≠ "" ∧ ∃ chars, below? path parent = some chars ∧
      chars.takeWhile (· ≠ '.') = segment.toList := by
  rw [childSegment?, Option.bind_eq_bind, Option.bind_eq_some_iff]
  constructor
  · rintro ⟨chars, hbelow, h⟩
    dsimp only at h
    split at h
    next => exact absurd h (by simp)
    next hne =>
      obtain rfl := Option.some.inj h
      exact ⟨by simpa using hne, chars, hbelow, by rw [String.toList_ofList]⟩
  · rintro ⟨hsegment, chars, hbelow, hchars⟩
    refine ⟨chars, hbelow, ?_⟩
    dsimp only
    rw [hchars, if_neg (mt String.toList_eq_nil_iff.1 hsegment), String.ofList_toList]

/-- What follows a proper ancestor in a path of names. -/
theorem below?_ofSegments {before rest : List String}
    (hbefore : ∀ segment ∈ before, IsName segment) (hsegment : segment ≠ "") :
    below? (ofSegments (before ++ segment :: rest)) (ofSegments before) =
      some (segment.toList ++ rest.flatMap fun segment => '.' :: segment.toList) := by
  by_cases hne : before = []
  · subst hne
    rw [below?, if_pos ofSegments_nil, List.nil_append, toList_ofSegments_cons hsegment]
  · rw [below?, if_neg (ofSegments_ne_empty hbefore hne),
      toList_ofSegments_append hbefore hne, isPrefixOf?_append]
    rfl

theorem takeWhile_segment (hsegment : IsName segment) (rest : List String) :
    (segment.toList ++ rest.flatMap fun segment => '.' :: segment.toList).takeWhile (· ≠ '.') =
      segment.toList := by
  rw [List.takeWhile_append_of_pos fun c hc => by
    simpa using fun heq : c = '.' => hsegment.2 (heq ▸ hc)]
  cases rest <;> simp

/-- The separator behind a path divides what lies below it. -/
theorem split_append_of_below? (hparent : parent ≠ "")
    (h : below? path parent = some chars) :
    split path = split parent ++ split (String.ofList chars) := by
  rw [below?_eq_some_iff, if_neg hparent] at h
  rw [split, split, split, Text.split, Text.split, Text.split, h, Text.splitList_append,
    List.map_append, String.toList_ofList]

/-- What lies below a path is cut behind the segments of the path. -/
theorem split_of_below? (hpath : isIndexable path)
    (h : below? path parent = some chars) : ∃ before, parent = ofSegments before ∧
      split path = before ++ split (String.ofList chars) := by
  by_cases hparent : parent = ""
  · rw [below?, if_pos hparent] at h
    obtain rfl := Option.some.inj h
    exact ⟨[], hparent, by simp⟩
  · have hsplit := split_append_of_below? hparent h
    have hindexable : isIndexable parent := by
      rw [isIndexable, hsplit, List.all_append, Bool.and_eq_true] at hpath
      exact hpath.1
    exact ⟨split parent, (ofSegments_split hindexable).symm, hsplit⟩

/-- The segment directly below a path is the first one of what lies below it. -/
theorem exists_below?_of_childSegment? (h : childSegment? path parent = some segment) :
    ∃ chars after, below? path parent = some chars ∧ segment ≠ "" ∧
      split (String.ofList chars) = segment :: after := by
  obtain ⟨hsegment, chars, hchars, htake⟩ := childSegment?_eq_some_iff_takeWhile.1 h
  -- the segment reaches up to the next separator, as the first piece does
  obtain ⟨pieces, hpieces⟩ := Text.exists_splitList_eq_cons '.' chars
  refine ⟨chars, pieces.map String.ofList, hchars, hsegment, ?_⟩
  rw [split, Text.split, String.toList_ofList, hpieces, List.map_cons, htake, String.ofList_toList]

/-- The segment behind a path of names lies directly below it. -/
theorem childSegment?_of_split {before after : List String}
    (hbefore : ∀ name ∈ before, IsName name) (hsegment : segment ≠ "")
    (hsplit : split path = before ++ segment :: after) :
    childSegment? path (ofSegments before) = some segment := by
  have hpath : ofSegments (split path) = path := by
    cases before with
    | nil => exact ofSegments_split_of_cons hsplit hsegment
    | cons name before => exact ofSegments_split_of_cons hsplit (hbefore name (by simp)).1
  have hmem : segment ∈ split path := by simp [hsplit]
  rw [← hpath, hsplit, childSegment?_eq_some_iff_takeWhile]
  exact ⟨hsegment, _, below?_ofSegments hbefore hsegment,
    takeWhile_segment (isName_of_mem_split hmem hsegment) after⟩

/-- The segment of a path directly below another one is the one behind the segments of the other. -/
theorem childSegment?_eq_some_iff (hpath : isIndexable path) :
    childSegment? path parent = some segment ↔
      ∃ before after, parent = ofSegments before ∧ split path = before ++ segment :: after := by
  constructor
  · intro h
    obtain ⟨chars, after, hchars, -, hcons⟩ := exists_below?_of_childSegment? h
    obtain ⟨before, hparent, hsplit⟩ := split_of_below? hpath hchars
    exact ⟨before, after, hparent, by rw [hsplit, hcons]⟩
  · rintro ⟨before, after, rfl, hsplit⟩
    have hnames := isName_of_isIndexable hpath
    exact childSegment?_of_split (fun name hname => hnames name (by simp [hsplit, hname]))
      (hnames segment (by simp [hsplit])).1 hsplit

/-- No segment of a path lies directly below the path itself. -/
theorem childSegment?_self (path : String) : childSegment? path path = none := by
  rw [Option.eq_none_iff_forall_ne_some]
  intro segment h
  obtain ⟨hsegment, chars, hbelow, htake⟩ := childSegment?_eq_some_iff_takeWhile.1 h
  -- only the root lies below itself, and nothing follows it
  rw [below?_eq_some_iff] at hbelow
  split at hbelow
  next hroot =>
    subst hroot
    obtain rfl : [] = chars := hbelow
    exact hsegment (String.toList_eq_nil_iff.1 htake.symm)
  next => simpa using congrArg List.length hbelow

/-- A path lies at or below another one if its segments go on behind those of the other. -/
theorem isWithin_iff (hpath : isIndexable path) :
    isWithin path parent ↔
      ∃ before after, parent = ofSegments before ∧ split path = before ++ after := by
  constructor
  · intro h
    -- everything lies at or below the root
    by_cases hparent : parent = ""
    · exact ⟨[], split path, hparent, rfl⟩
    rcases (isWithin_iff_append hparent).1 h with heq | ⟨rest, heq⟩
    · rw [String.toList_inj] at heq
      exact ⟨split path, [], by rw [ofSegments_split hpath, heq], by simp⟩
    · have hbelow : below? path parent = some rest :=
        below?_eq_some_iff.2 (by rw [if_neg hparent, heq])
      obtain ⟨before, hbefore, hsplit⟩ := split_of_below? hpath hbelow
      exact ⟨before, _, hbefore, hsplit⟩
  · rintro ⟨before, after, rfl, hsplit⟩
    have hnames := isName_of_isIndexable hpath
    by_cases hne : before = []
    · subst hne
      simp [isWithin]
    have hbefore : ∀ name ∈ before, IsName name := fun name hname =>
      hnames name (by simp [hsplit, hname])
    rw [← ofSegments_split hpath, hsplit, isWithin_iff_append (ofSegments_ne_empty hbefore hne),
      toList_ofSegments_append hbefore hne]
    cases after with
    | nil => exact .inl (by simp)
    | cons segment after => exact .inr ⟨_, rfl⟩

end Path

end LayeredConfig
