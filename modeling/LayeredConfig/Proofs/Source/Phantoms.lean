import LayeredConfig.Proofs.Path.Lead
import LayeredConfig.Proofs.Source.Index

/-!
# Children that are not there

A source answers which segments lie below a path and which scalar is stored at it from different
data, so a segment may be listed with nothing at or below it. `NoPhantoms source path` says that
this does not happen on the walk down from a path; then no null comes up in the tree below it
(`NoPhantoms.event_ne`).

The segments below a path are often those with which some lists of names go on, such as the
segments of stored paths. `Lists source lines` says so, and then only the ends of these lists have
to be looked at (`Source.Lists.noPhantoms_iff`).
-/

namespace LayeredConfig

open Resolution

/-- There is something at every child that the walk down from a path finds. -/
def Resolution.NoPhantoms (source : Source) (path : String) : Prop :=
  ∀ n last, Chain source path n last → ∀ key ∈ source.keys last,
    source.contains (Path.join last key)

theorem Source.contains_iff {source : Source} {path : String} :
    source.contains path ↔ source.keys path ≠ [] ∨ (source.value? path).isSome := by
  simp [contains]

namespace Resolution.NoPhantoms

variable {source : Source} {path : String}

theorem child (h : NoPhantoms source path) {key : String} (hkey : key ∈ source.keys path) :
    NoPhantoms source (Path.join path key) :=
  fun n last tail => h (n + 1) last (.child hkey tail)

/-- The tree below a path at which there is something has no null in it. -/
theorem event_ne (h : NoPhantoms source path) (hcontains : source.contains path)
    {items : List Located} (hitems : Expansion source path items) :
    ∀ item ∈ items, item.event ≠ .null := by
  induction hitems with
  | value => simp
  | null hkeys hvalue =>
    rw [Source.contains_iff, hkeys, hvalue] at hcontains
    exact absurd hcontains (by simp)
  | @list path ordered parts hkeys hall horder hparts ih =>
    have hchild : ∀ key ∈ ordered, ∀ item ∈ parts key, item.event ≠ .null := by
      intro key hkey
      have hmem := horder.mem_iff.1 hkey
      exact ih key hmem (h.child hmem) (h 0 path (.start path) key hmem)
    rw [List.forall_mem_append]
    exact ⟨event_ne_of_list (.inl rfl) hchild path, by simp⟩
  | @map path parts hkeys hall hparts ih =>
    have hchild : ∀ key ∈ source.keys path, ∀ item ∈ parts key, item.event ≠ .null := by
      intro key hkey
      exact ih key hkey (h.child hkey) (h 0 path (.start path) key hkey)
    rw [List.forall_mem_append]
    exact ⟨event_ne_of_map (.inl rfl) hchild path, by simp⟩

end Resolution.NoPhantoms

/-! ### Stored values -/

section Stored

variable {sources : List Source} (h : ∀ source ∈ sources, IsStored source)

include h

/-- In a stack of stored values there is something at the beginnings of stored paths, and at no
other path of names. -/
theorem contains_merge_iff {segments : List String}
    (hnames : ∀ segment ∈ segments, Path.IsName segment) (hne : segments ≠ []) :
    (Source.merge sources).contains (Path.ofSegments segments) ↔ Reached sources segments := by
  rw [Source.contains_iff, ← storedIn_iff]
  constructor
  · rintro (hkeys | hstored)
    · obtain ⟨key, hkey⟩ := List.exists_mem_of_ne_nil _ hkeys
      exact ((mem_keys_merge_iff h hnames).1 hkey).of_append
    · have hindexable := Path.isIndexable_ofSegments hnames hne
      exact ⟨_, [], hindexable, hstored, by rw [Path.split_ofSegments hnames hne, List.append_nil]⟩
  · intro hreached
    by_cases hkeys : (Source.merge sources).keys (Path.ofSegments segments) = []
    · exact .inr (hreached.storedIn h hkeys)
    · exact .inl hkeys

/-- No child is missing in a stack of stored values. -/
theorem Resolution.noPhantoms_merge (path : String) : NoPhantoms (Source.merge sources) path := by
  intro n last _ key hkey
  obtain ⟨segments, rfl, hreached⟩ := exists_reached_of_mem_keys h hkey
  have hchild := (mem_keys_merge_iff h hreached.isName).1 hkey
  rw [← Path.ofSegments_append_singleton]
  exact (contains_merge_iff h hchild.isName (by simp)).2 hchild

end Stored

/-! ### Lists of names -/

/-- The segments below a path of names are those with which some lists of names go on. -/
structure Source.Lists (source : Source) (lines : List String → Prop) : Prop where
  isName : ∀ line, lines line → ∀ segment ∈ line, Path.IsName segment
  mem_keys_iff : ∀ before key, (∀ name ∈ before, Path.IsName name) →
    (key ∈ source.keys (Path.ofSegments before) ↔ ∃ line, lines line ∧ before ++ [key] <+: line)

namespace Source.Lists

variable {source : Source} {lines : List String → Prop}

/-- The walk follows the beginnings of the lists. -/
theorem chain (h : source.Lists lines) {line : List String} (hline : lines line)
    (before more : List String) (hbegins : before ++ more <+: line) :
    Chain source (Path.ofSegments before) more.length (Path.ofSegments (before ++ more)) := by
  induction more generalizing before with
  | nil =>
    rw [List.append_nil]
    exact .start _
  | cons key rest ih =>
    have hfirst : before ++ [key] <+: line := by
      refine List.IsPrefix.trans ?_ hbegins
      simp
    have hbefore : ∀ name ∈ before, Path.IsName name := fun name hname =>
      h.isName line hline name (hfirst.subset (by simp [hname]))
    have htail := ih (before ++ [key]) (by simpa using hbegins)
    rw [List.append_assoc, List.singleton_append, Path.ofSegments_append_singleton] at htail
    exact .child ((h.mem_keys_iff before key hbefore).2 ⟨line, hline, hfirst⟩) htail

/-- The walk does not leave the paths of names. -/
theorem exists_segments_of_chain (h : source.Lists lines) (before : List String)
    (hbefore : ∀ name ∈ before, Path.IsName name) {n : Nat} {last : String}
    (hchain : Chain source (Path.ofSegments before) n last) :
    ∃ segments, (∀ name ∈ segments, Path.IsName name) ∧ last = Path.ofSegments segments := by
  induction n generalizing before with
  | zero => exact ⟨before, hbefore, hchain.zero⟩
  | succ n ih =>
    obtain ⟨key, hkey, tail⟩ := hchain.exists_child
    obtain ⟨line, hline, hbegins⟩ := (h.mem_keys_iff before key hbefore).1 hkey
    rw [← Path.ofSegments_append_singleton] at tail
    exact ih _ (fun name hname => h.isName line hline name (hbegins.subset hname)) tail

/-- No child is missing if there is something at the ends of all lists. -/
theorem noPhantoms_iff (h : source.Lists lines) : NoPhantoms source "" ↔
    ∀ line, lines line → line ≠ [] → source.contains (Path.ofSegments line) := by
  constructor
  · intro hnone line hline hne
    -- the last name of the list is a child of the names in front of it
    obtain ⟨front, key, rfl⟩ := (List.eq_nil_or_concat' line).resolve_left hne
    have hfront : ∀ name ∈ front, Path.IsName name := fun name hname =>
      h.isName _ hline name (by simp [hname])
    rw [Path.ofSegments_append_singleton]
    exact hnone _ _ (h.chain hline [] front (by simp)) key
      ((h.mem_keys_iff front key hfront).2 ⟨_, hline, List.prefix_rfl⟩)
  · intro hends n last hchain key hkey
    obtain ⟨segments, hsegments, rfl⟩ := h.exists_segments_of_chain [] (by simp) hchain
    obtain ⟨line, hline, rest, rfl⟩ := (h.mem_keys_iff segments key hsegments).1 hkey
    rw [← Path.ofSegments_append_singleton]
    cases rest with
    | nil =>
      rw [List.append_nil] at hline
      exact hends _ hline (by simp)
    | cons next rest =>
      -- the list goes on, so there is a child further down
      have hnext : next ∈ source.keys (Path.ofSegments (segments ++ [key])) :=
        (h.mem_keys_iff _ next fun name hname =>
          h.isName _ hline name (List.mem_append_left _ hname)).2 ⟨_, hline, by simp⟩
      exact Source.contains_iff.2 (.inl (List.ne_nil_of_mem hnext))

end Source.Lists

end LayeredConfig
