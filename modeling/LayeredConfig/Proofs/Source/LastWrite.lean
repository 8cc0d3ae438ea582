import LayeredConfig.Proofs.Document.Transition
import LayeredConfig.Proofs.OrderedMap
import LayeredConfig.Proofs.Source.Assign

/-!
# The values that a document leaves

A document is loaded event by event: a scalar is stored at its path, and a null erases what is
stored at its path and below. At the end a path has the value of its last write, unless a null
behind it erases the path, and the paths are in the order of their first writes behind the nulls
that erase them. `ReflectsWrites` says so for the events so far; every event preserves it
(`ReflectsWrites.concat`).

* `IsLastWrite`, `IsFirstWrite`: the writes that decide the value of a path and its place.
* `parse_of_drains`: the values and the paths of a document that is drained without an error.
-/

namespace LayeredConfig.DocumentSource

open OrderedMap (get? keys)

variable {items before before' : List Located} {item : Located} {values : OrderedMap Scalar}
  {path : String} {scalar : Scalar}

/-! ### Writes -/

/-- The event is a scalar at the path. -/
def IsWrite (item : Located) (path : String) : Prop := ∃ scalar, item = ⟨.value scalar, path⟩

/-- The event is a null that erases the path. -/
def IsErasure (item : Located) (path : String) : Prop :=
  item.event = .null ∧ Path.isWithin path item.path

instance (item : Located) (path : String) : Decidable (IsErasure item path) :=
  inferInstanceAs (Decidable (_ ∧ _))

/-- The last write at the path has the scalar, and no null behind it erases the path. -/
def IsLastWrite (items : List Located) (path : String) (scalar : Scalar) : Prop :=
  ∃ before after, items = before ++ ⟨.value scalar, path⟩ :: after ∧
    (∀ item ∈ after, ¬ IsWrite item path) ∧ ∀ item ∈ after, ¬ IsErasure item path

/-- Behind the events `before` comes the first write at the path behind all nulls that erase it: no
null behind the write erases the path, and every earlier write is erased in front of it. -/
def IsFirstWrite (items : List Located) (path : String) (before : List Located) : Prop :=
  ∃ scalar after, items = before ++ ⟨.value scalar, path⟩ :: after ∧
    (∀ item ∈ after, ¬ IsErasure item path) ∧
    ∀ earlier write later, before = earlier ++ write :: later → IsWrite write path →
      ∃ item ∈ later, IsErasure item path

/-- A write does not erase. -/
theorem IsWrite.not_isErasure {other : String} (h : IsWrite item path) :
    ¬ IsErasure item other := by
  obtain ⟨scalar, rfl⟩ := h
  exact fun herasure => absurd herasure.1 (by simp)

/-- One more event is the last write at its path, or else leaves the last write as it was unless it
erases the path. -/
theorem isLastWrite_concat : IsLastWrite (items ++ [item]) path scalar ↔
    item = ⟨.value scalar, path⟩ ∨
      IsLastWrite items path scalar ∧ ¬ IsWrite item path ∧ ¬ IsErasure item path := by
  constructor
  · rintro ⟨before, after, heq, hwrites, herasures⟩
    cases after using List.reverseRecOn with
    | nil => exact .inl (List.singleton_inj.1 (List.append_inj' heq rfl).2)
    | append_singleton after last =>
      rw [← List.cons_append, ← List.append_assoc] at heq
      obtain ⟨rfl, hlast⟩ := List.append_inj' heq rfl
      obtain rfl := List.singleton_inj.1 hlast
      refine .inr ⟨⟨before, after, rfl, ?_, ?_⟩, hwrites item (by simp), herasures item (by simp)⟩
      · exact fun other hother => hwrites other (List.mem_append_left _ hother)
      · exact fun other hother => herasures other (List.mem_append_left _ hother)
  · rintro (rfl | ⟨⟨before, after, rfl, hwrites, herasures⟩, hwrite, herasure⟩)
    · exact ⟨items, [], rfl, by simp, by simp⟩
    · refine ⟨before, after ++ [item], by simp, ?_, ?_⟩
      · exact List.forall_mem_append.2 ⟨hwrites, by simpa using hwrite⟩
      · exact List.forall_mem_append.2 ⟨herasures, by simpa using herasure⟩

/-- Behind a write that is not erased there is a last one. -/
theorem exists_isLastWrite {write : Located} {after : List Located} (hwrite : IsWrite write path)
    (hafter : ∀ item ∈ after, ¬ IsErasure item path) :
    ∃ scalar, IsLastWrite (before ++ write :: after) path scalar := by
  induction after using List.reverseRecOn with
  | nil =>
    obtain ⟨scalar, rfl⟩ := hwrite
    exact ⟨scalar, isLastWrite_concat.2 (.inl rfl)⟩
  | append_singleton after item ih =>
    obtain ⟨hafter, hitem⟩ := List.forall_mem_append.1 hafter
    obtain ⟨scalar, hlast⟩ := ih hafter
    rw [← List.cons_append, ← List.append_assoc]
    by_cases hwrite : IsWrite item path
    · obtain ⟨scalar', rfl⟩ := hwrite
      exact ⟨scalar', isLastWrite_concat.2 (.inl rfl)⟩
    · exact ⟨scalar, isLastWrite_concat.2 (.inr ⟨hlast, hwrite, hitem item (by simp)⟩)⟩

/-- One more event that does not erase the path leaves its first write as it was. -/
theorem IsFirstWrite.concat (h : IsFirstWrite items path before) (hitem : ¬ IsErasure item path) :
    IsFirstWrite (items ++ [item]) path before := by
  obtain ⟨scalar, after, rfl, hafter, hbefore⟩ := h
  refine ⟨scalar, after ++ [item], by simp, ?_, hbefore⟩
  exact List.forall_mem_append.2 ⟨hafter, by simpa using hitem⟩

/-- A write at a path that has no value is its first write. -/
theorem isFirstWrite_concat (hnone : ∀ scalar, ¬ IsLastWrite items path scalar)
    (hitem : IsWrite item path) : IsFirstWrite (items ++ [item]) path items := by
  obtain ⟨scalar, rfl⟩ := hitem
  refine ⟨scalar, [], rfl, by simp, ?_⟩
  rintro earlier write later rfl hwrite
  by_contra hnever
  push Not at hnever
  obtain ⟨last, hlast⟩ : ∃ last, IsLastWrite (earlier ++ write :: later) path last :=
    exists_isLastWrite hwrite hnever
  exact hnone last hlast

/-- No first write comes behind another one, since the path would be erased in between. -/
theorem IsFirstWrite.eq_of_prefix (h : IsFirstWrite items path before)
    (h' : IsFirstWrite items path before') (hle : before <+: before') : before = before' := by
  obtain ⟨scalar, after, rfl, hafter, -⟩ := h
  obtain ⟨scalar', after', heq, -, hbefore'⟩ := h'
  obtain ⟨between, rfl⟩ := hle
  cases between with
  | nil => rw [List.append_nil]
  | cons write between =>
    rw [List.append_assoc] at heq
    obtain ⟨rfl, rfl⟩ := List.cons.inj (List.append_cancel_left heq)
    obtain ⟨item, hmem, herasure⟩ := hbefore' before _ between rfl ⟨scalar, rfl⟩
    exact absurd herasure (hafter item (List.mem_append_left _ hmem))

theorem IsFirstWrite.length_lt (h : IsFirstWrite items path before) :
    before.length < items.length := by
  obtain ⟨scalar, after, rfl, -⟩ := h
  simp

/-- A path has only one first write. -/
theorem IsFirstWrite.unique (h : IsFirstWrite items path before)
    (h' : IsFirstWrite items path before') : before = before' := by
  have hbegins : ∀ {before}, IsFirstWrite items path before → before <+: items := by
    rintro _ ⟨scalar, after, rfl, -⟩
    exact List.prefix_append _ _
  rcases List.prefix_or_prefix_of_prefix (hbegins h) (hbegins h') with hle | hle
  · exact h.eq_of_prefix h' hle
  · exact (h'.eq_of_prefix h hle).symm

/-! ### One event -/

theorem keys_erase (values : OrderedMap Scalar) (ancestor : String) :
    keys (erase values ancestor) = (keys values).filter (!Path.isWithin · ancestor) := by
  rw [keys, keys, erase, List.filter_map]
  rfl

theorem get?_erase (values : OrderedMap Scalar) (ancestor path : String) :
    get? (erase values ancestor) path =
      if Path.isWithin path ancestor then none else get? values path := by
  induction values with
  | nil => simp [erase]
  | cons entry rest ih =>
    obtain ⟨k, v⟩ := entry
    rw [erase] at ih ⊢
    by_cases hk : Path.isWithin k ancestor
    · rw [List.filter_cons_of_neg (by simp [hk]), ih, OrderedMap.get?_cons]
      by_cases hpath : path = k
      · rw [if_pos (hpath ▸ hk), if_pos (hpath ▸ hk)]
      · rw [if_neg hpath]
    · rw [List.filter_cons_of_pos (by simp [hk]), OrderedMap.get?_cons, OrderedMap.get?_cons, ih]
      by_cases hpath : path = k
      · rw [if_pos hpath, if_neg (hpath ▸ hk), if_pos hpath]
      · rw [if_neg hpath, if_neg hpath]

/-- An event stores its scalar, or else leaves the value of a path unless it erases it. -/
theorem get?_assign : get? (assign values item) path = some scalar ↔
    item = ⟨.value scalar, path⟩ ∨
      get? values path = some scalar ∧ ¬ IsWrite item path ∧ ¬ IsErasure item path := by
  obtain ⟨event, target⟩ := item
  cases event with
  | value written =>
    rw [assign, OrderedMap.get?_insert]
    by_cases hpath : path = target
    · subst hpath
      simp [IsWrite]
    · simp [IsWrite, IsErasure, hpath, Ne.symm hpath]
  | null =>
    rw [assign, get?_erase]
    by_cases hwithin : Path.isWithin path target <;> simp [IsWrite, IsErasure, hwithin]
  | _ => simp [assign, IsWrite, IsErasure]

/-- An event removes the paths that it erases, or else adds its own path at the end. -/
theorem keys_assign (values : OrderedMap Scalar) (item : Located) :
    (keys (assign values item) = (keys values).filter fun path => ¬ IsErasure item path) ∨
      ∃ path, IsWrite item path ∧ path ∉ keys values ∧
        keys (assign values item) = keys values ++ [path] := by
  obtain ⟨event, target⟩ := item
  cases event with
  | value written =>
    rw [assign, OrderedMap.keys_insert, OrderedMap.insertKey]
    by_cases hmem : target ∈ keys values
    · left
      simp [hmem, IsErasure]
    · exact .inr ⟨target, ⟨written, rfl⟩, hmem, if_neg hmem⟩
  | null =>
    left
    rw [assign, keys_erase]
    simp [IsErasure]
  | _ => simp [assign, IsErasure]

/-! ### All events -/

/-- The values are those that the events leave. -/
structure ReflectsWrites (items : List Located) (values : OrderedMap Scalar) : Prop where
  /-- The value of a path is that of its last write. -/
  get?_eq : ∀ path scalar, get? values path = some scalar ↔ IsLastWrite items path scalar
  /-- Every path has one place. -/
  nodup : (keys values).Nodup
  /-- Every path has a first write. -/
  isFirstWrite : ∀ path ∈ keys values, ∃ before, IsFirstWrite items path before
  /-- The paths are in the order of their first writes. -/
  ordered : (keys values).Pairwise fun path other => ∃ before before',
    IsFirstWrite items path before ∧ IsFirstWrite items other before' ∧
      before.length < before'.length

namespace ReflectsWrites

theorem nil : ReflectsWrites [] [] where
  get?_eq path scalar := by simp [IsLastWrite]
  nodup := List.nodup_nil
  isFirstWrite := by simp [keys]
  ordered := List.Pairwise.nil

/-- Every event is reflected when it is assigned. -/
theorem concat (h : ReflectsWrites items values) (item : Located) :
    ReflectsWrites (items ++ [item]) (assign values item) := by
  have hget : ∀ path scalar, get? (assign values item) path = some scalar ↔
      IsLastWrite (items ++ [item]) path scalar := fun path scalar => by
    rw [get?_assign, h.get?_eq, isLastWrite_concat]
  rcases keys_assign values item with hkeys | ⟨path, hwrite, hnew, hkeys⟩
  -- the paths that are not erased keep their places
  · have hkeep : ∀ path ∈ keys (assign values item),
        path ∈ keys values ∧ ¬ IsErasure item path := by
      intro path hpath
      rw [hkeys, List.mem_filter] at hpath
      simpa using hpath
    refine ⟨hget, hkeys ▸ h.nodup.filter _, fun path hpath => ?_, ?_⟩
    · obtain ⟨before, hbefore⟩ := h.isFirstWrite path (hkeep path hpath).1
      exact ⟨before, hbefore.concat (hkeep path hpath).2⟩
    · have hordered := h.ordered.filter fun path => ¬ IsErasure item path
      rw [← hkeys] at hordered
      refine hordered.imp_of_mem fun hpath hother => ?_
      rintro ⟨before, before', hbefore, hbefore', hlt⟩
      exact ⟨before, before', hbefore.concat (hkeep _ hpath).2, hbefore'.concat (hkeep _ hother).2,
        hlt⟩
  -- a new path comes last, and its first write is the last event
  · have hnone : ∀ scalar, ¬ IsLastWrite items path scalar := by
      intro scalar hlast
      refine hnew (OrderedMap.isSome_get?_iff.1 ?_)
      rw [(h.get?_eq path scalar).2 hlast]
      rfl
    have hfirst := isFirstWrite_concat hnone hwrite
    refine ⟨hget, ?_, ?_, ?_⟩
    · rw [hkeys, ← List.concat_eq_append]
      exact h.nodup.concat hnew
    · rw [hkeys]
      refine List.forall_mem_append.2 ⟨fun other hother => ?_, by simpa using ⟨items, hfirst⟩⟩
      obtain ⟨before, hbefore⟩ := h.isFirstWrite other hother
      exact ⟨before, hbefore.concat hwrite.not_isErasure⟩
    · rw [hkeys, List.pairwise_append]
      refine ⟨h.ordered.imp ?_, List.pairwise_singleton _ _, fun other hother last hlast => ?_⟩
      · rintro _ _ ⟨before, before', hbefore, hbefore', hlt⟩
        exact ⟨before, before', hbefore.concat hwrite.not_isErasure,
          hbefore'.concat hwrite.not_isErasure, hlt⟩
      · obtain rfl := List.mem_singleton.1 hlast
        obtain ⟨before, hbefore⟩ := h.isFirstWrite other hother
        exact ⟨before, items, hbefore.concat hwrite.not_isErasure, hfirst, hbefore.length_lt⟩

end ReflectsWrites

/-- Assigning events one after the other reflects them. -/
theorem reflectsWrites_foldl (items : List Located) :
    ReflectsWrites items (items.foldl assign []) := by
  induction items using List.reverseRecOn with
  | nil => exact .nil
  | append_singleton items item ih =>
    rw [List.foldl_append]
    exact ih.concat item

/-- A document that is drained without an error is loaded. A path has the value of its last write,
unless a null behind it erases the path. The paths with values are listed once each, in the order of
their first writes behind the last nulls that erase them. -/
theorem parse_of_drains {text : String} (h : Document.Drains text items) (name : String) :
    ∃ document, parse name text = .ok document ∧
      (∀ path scalar,
        document.toSource.value? path = some scalar ↔ IsLastWrite items path scalar) ∧
      document.store.paths.Nodup ∧
      (∀ path, path ∈ document.store.paths ↔ ∃ scalar, IsLastWrite items path scalar) ∧
      (∀ path ∈ document.store.paths, ∃ before, IsFirstWrite items path before) ∧
      document.store.paths.Pairwise fun path other => ∀ before before',
        IsFirstWrite items path before → IsFirstWrite items other before' →
          before.length < before'.length := by
  obtain ⟨front, _, rfl, hfront, run⟩ := Document.drains_iff.1 h
  obtain ⟨p, first, last⟩ := run.of_append
  have hassign : assignAll [] (.ofText text) = .ok (front.foldl assign []) := by
    cases last with
    | cons hend _ =>
      rw [assignAll_of_run first hfront]
      exact assignAll_of_next_end hend _
  -- the end of the document assigns nothing
  have hreflects : ReflectsWrites (front ++ [⟨.endOfStream, ""⟩]) (front.foldl assign []) :=
    (reflectsWrites_foldl front).concat _
  refine ⟨⟨name, .ofMap (front.foldl assign [])⟩, by rw [parse, hassign], hreflects.get?_eq,
    hreflects.nodup, fun path => ?_, hreflects.isFirstWrite, ?_⟩
  · have hvalue := exists_congr (hreflects.get?_eq path)
    exact OrderedMap.isSome_get?_iff.symm.trans (Option.isSome_iff_exists.trans hvalue)
  · refine hreflects.ordered.imp ?_
    rintro path other ⟨before, before', hbefore, hbefore', hlt⟩ first second hfirst hsecond
    rwa [hfirst.unique hbefore, hsecond.unique hbefore']

/-- The events of a document that erases an object and declares one of its entries anew. -/
def redeclared : List Located :=
  [⟨.key "b", "b"⟩, ⟨.objectStart, "b"⟩, ⟨.key "c", "b.c"⟩, ⟨.value (.integer 1), "b.c"⟩,
    ⟨.key "d", "b.d"⟩, ⟨.value (.integer 2), "b.d"⟩, ⟨.objectEnd, "b"⟩, ⟨.key "a", "a"⟩,
    ⟨.value (.integer 3), "a"⟩, ⟨.key "b", "b"⟩, ⟨.null, "b"⟩, ⟨.key "b", "b"⟩, ⟨.objectStart, "b"⟩,
    ⟨.key "d", "b.d"⟩, ⟨.value (.integer 4), "b.d"⟩, ⟨.objectEnd, "b"⟩, ⟨.key "a", "a"⟩,
    ⟨.value (.integer 5), "a"⟩]

theorem parse_of_drains_redeclared :
    ∃ document, parse "doc" "b: {c: 1, d: 2}, a: 3, b: null, b: {d: 4}, a: 5" = .ok document ∧
      document.toSource.value? "a" = some (.integer 5) ∧
      document.toSource.value? "b.d" = some (.integer 4) ∧ document.store.paths.Nodup := by
  have hdrains : Document.Drains "b: {c: 1, d: 2}, a: 3, b: null, b: {d: 4}, a: 5"
      (redeclared ++ [⟨.endOfStream, ""⟩]) :=
    Document.drains_iff.2 ⟨redeclared,
      ⟨"b: {c: 1, d: 2}, a: 3, b: null, b: {d: 4}, a: 5".toList, [], .object (some "a"), [], false⟩,
      rfl, by decide, by decide +kernel⟩
  obtain ⟨document, hparse, hvalue, hnodup, -⟩ := parse_of_drains hdrains "doc"
  refine ⟨document, hparse, (hvalue "a" (.integer 5)).2 ⟨redeclared.take 17, _, rfl, ?_⟩,
    (hvalue "b.d" (.integer 4)).2 ⟨redeclared.take 14, _, rfl, ?_⟩, hnodup⟩
  · simp [IsWrite, IsErasure]
  · simp [IsWrite, IsErasure]

end LayeredConfig.DocumentSource
