import LayeredConfig.Proofs.OrderedMap
import LayeredConfig.Proofs.Reading.Steps
import LayeredConfig.Proofs.Stream.ReadOnce
import LayeredConfig.Proofs.Stream.Run
import Mathlib.Data.List.Induction

/-!
# What the tree reader accepts

`Spells depth events value` is the grammar of trees: the events spell the tree `value`, which lies
`depth` levels below a root, and nothing in it lies too deep. `Unfinished depth events` says that
the events are the beginning of such a tree, broken off between two events.

The reader follows the grammar on every stream that can be looked into (`LawfulPeek`):

* `Spells.readTree_eq`: what spells a tree is read as that tree, and the stream is left behind it.
* `SpellsDocument.readParts_eq`: a document that is spelled in parts, entries and whole trees, is
  read as the tree that they are joined into.
* `Unfinished.readTree_eq_error`: where a stream fails before a tree is complete, the reader fails
  with the error of the stream, or at an entry that lies too deep.
-/

namespace LayeredConfig

/-- Looking ahead promises the event that comes and does not change it. -/
class LawfulPeek (σ : Type) [EventSource σ] : Prop where
  /-- An event to come is promised, and it still comes after the look ahead. -/
  peek_of_next {s s' : σ} {item : Located} (h : EventSource.next s = (.ok item, s')) :
    ∃ peeked, EventSource.peek s = (.ok item.event.token, peeked) ∧
      EventSource.next peeked = (.ok item, s')
  /-- An error to come is met by the look ahead or still comes after it. -/
  peek_of_next_error {s s' : σ} {error : Error} (h : EventSource.next s = (.error error, s')) :
    (∃ peeked, EventSource.peek s = (.error error, peeked)) ∨
      ∃ token peeked after, EventSource.peek s = (.ok token, peeked) ∧
        EventSource.next peeked = (.error error, after)

namespace Value

/-- The mapping that reading makes of entries: a repeated name keeps its first place and gets the
last tree, and the entries that tell a path are left out. -/
def collect (entries : List (String × Value)) : OrderedMap Value :=
  entries.foldl (fun map entry => addEntry map entry.1 entry.2) []

theorem collect_append (entries : List (String × Value)) (key : String) (value : Value) :
    collect (entries ++ [(key, value)]) = addEntry (collect entries) key value := by
  rw [collect, collect, List.foldl_append]
  rfl

/-- Reading keeps all entries of a mapping whose names are different from each other and from
`pathKey`, in their order. -/
theorem collect_eq_self {entries : OrderedMap Value} (hnodup : (OrderedMap.keys entries).Nodup)
    (hnames : pathKey ∉ OrderedMap.keys entries) : collect entries = entries := by
  induction entries using List.reverseRecOn with
  | nil => rfl
  | append_singleton entries entry ih =>
    obtain ⟨key, value⟩ := entry
    rw [OrderedMap.keys, List.map_append] at hnodup hnames
    rw [List.mem_append, not_or] at hnames
    have hrest := List.nodup_append.1 hnodup
    have hkey : key ∉ OrderedMap.keys entries := fun hmem =>
      hrest.2.2 key hmem key (by simp) rfl
    have hne : key ≠ pathKey := fun heq => hnames.2 (by simp [heq])
    -- the last name is new and no path, so its entry goes to the end
    rw [collect_append, ih hrest.1 hnames.1, addEntry, if_neg hne,
      OrderedMap.insert_of_notMem hkey]

/-- No name comes twice among those that reading keeps. -/
theorem nodup_keys_collect (entries : List (String × Value)) :
    (OrderedMap.keys (collect entries)).Nodup := by
  induction entries using List.reverseRecOn with
  | nil => exact List.nodup_nil
  | append_singleton entries entry ih =>
    rw [collect_append, addEntry]
    split
    · exact ih
    · rw [OrderedMap.keys_insert]
      exact OrderedMap.nodup_insertKey ih

/-- The events spell a tree `depth` levels below the root, in which nothing lies too deep. -/
inductive Spells : Nat → List Event → Value → Prop
  | null {depth : Nat} (hdepth : depth ≤ maxDepth) : Spells depth [.null] .null
  | scalar {depth : Nat} (hdepth : depth ≤ maxDepth) (leaf : Scalar) :
      Spells depth [.value leaf] (.scalar leaf)
  | sequence {depth : Nat} (hdepth : depth ≤ maxDepth) (parts : List (List Event × Value))
      (hparts : ∀ part ∈ parts, Spells (depth + 1) part.1 part.2) :
      Spells depth (.listStart :: parts.flatMap (·.1) ++ [.listEnd]) (.sequence (parts.map (·.2)))
  | mapping {depth : Nat} (hdepth : depth ≤ maxDepth) (parts : List (String × List Event × Value))
      (hparts : ∀ part ∈ parts, Spells (depth + 1) part.2.1 part.2.2) :
      Spells depth
        (.objectStart :: parts.flatMap (fun part => .key part.1 :: part.2.1) ++ [.objectEnd])
        (.mapping (collect (parts.map fun part => (part.1, part.2.2))))

/-- The events spell a document, with the entries of the parts before them: entries and whole
mappings, which are joined, or any other tree that stands alone. -/
inductive SpellsDocument : OrderedMap Value → List Event → Value → Prop
  | done (entries : OrderedMap Value) : SpellsDocument entries [] (.mapping entries)
  | entry {entries : OrderedMap Value} {name : String} {events more : List Event}
      {value document : Value} (hspells : Spells 1 events value)
      (hmore : SpellsDocument (addEntry entries name value) more document) :
      SpellsDocument entries (.key name :: events ++ more) document
  | object {entries part : OrderedMap Value} {events more : List Event} {document : Value}
      (hspells : Spells 0 events (.mapping part))
      (hmore : SpellsDocument (OrderedMap.insertAll entries part) more document) :
      SpellsDocument entries (events ++ more) document
  | alone {events : List Event} {value : Value} (hspells : Spells 0 events value)
      (hvalue : ∀ entries, value ≠ .mapping entries) : SpellsDocument [] events value

/-- The events are the beginning of a tree `depth` levels below the root, up to a place in it. -/
inductive Unfinished : Nat → List Event → Prop
  /-- Nothing of the tree has come. -/
  | start {depth : Nat} : Unfinished depth []
  /-- The tree is a list, broken off in an item. -/
  | item {depth : Nat} (hdepth : depth ≤ maxDepth) (parts : List (List Event × Value))
      (hparts : ∀ part ∈ parts, Spells (depth + 1) part.1 part.2) {rest : List Event}
      (hrest : Unfinished (depth + 1) rest) :
      Unfinished depth (.listStart :: parts.flatMap (·.1) ++ rest)
  /-- The tree is an object, broken off before a name. -/
  | key {depth : Nat} (hdepth : depth ≤ maxDepth) (parts : List (String × List Event × Value))
      (hparts : ∀ part ∈ parts, Spells (depth + 1) part.2.1 part.2.2) :
      Unfinished depth (.objectStart :: parts.flatMap fun part => .key part.1 :: part.2.1)
  /-- The tree is an object, broken off in the value of an entry. -/
  | value {depth : Nat} (hdepth : depth ≤ maxDepth) (parts : List (String × List Event × Value))
      (hparts : ∀ part ∈ parts, Spells (depth + 1) part.2.1 part.2.2) (name : String)
      {rest : List Event} (hrest : Unfinished (depth + 1) rest) :
      Unfinished depth
        ((.objectStart :: parts.flatMap fun part => .key part.1 :: part.2.1) ++ .key name :: rest)
  /-- The tree is an object whose first entry already lies too deep. -/
  | tooDeep {depth : Nat} (hdepth : depth = maxDepth) (name : String) (event : Event)
      (rest : List Event) : Unfinished depth (.objectStart :: .key name :: event :: rest)

/-- A tree begins with an event that ends nothing. -/
theorem Spells.exists_cons {depth : Nat} {events : List Event} {value : Value}
    (h : Spells depth events value) :
    ∃ event rest, events = event :: rest ∧ event.token ≠ .listEnd ∧ event.token ≠ .endOfStream ∧
      event.token ≠ .key := by
  cases h <;>
    exact ⟨_, _, rfl, by simp [Event.token], by simp [Event.token], by simp [Event.token]⟩

variable {σ : Type} [EventSource σ]

open TokenStream

/-- The look ahead of a reader is that of its events. -/
theorem peek_of_events {events peeked : σ} {token : Token}
    (h : EventSource.peek events = (.ok token, peeked)) (slot : Slot) :
    peek (⟨events, slot⟩ : Reader σ) = (.ok token, ⟨peeked, slot⟩) := by
  show Reader.peek _ = _
  rw [Reader.peek, h]

/-- The name of an entry is read right behind it. -/
theorem readString_key (events : σ) (name path : String) :
    ∃ slot, readString (⟨events, .ofLocated ⟨.key name, path⟩⟩ : Reader σ) =
      (.ok name, ⟨events, slot⟩) :=
  ⟨_, rfl⟩

/-- Reading from the start of any run through the events gives the tree. -/
def ReadsBack (σ : Type) [EventSource σ] (depth : Nat) (events : List Event) (value : Value) :
    Prop :=
  ∀ {s s' : σ}, Emits s events s' → ∀ slot, ∃ slot',
    readTree depth (⟨s, slot⟩ : Reader σ) = (.ok value, ⟨s', slot'⟩)

/-- Complete items are passed over one after the other. -/
theorem readItems_of_parts {depth : Nat} {parts : List (List Event × Value)}
    (hparts : ∀ part ∈ parts, Spells (depth + 1) part.1 part.2)
    (hread : ∀ part ∈ parts, ReadsBack σ (depth + 1) part.1 part.2) {s s' : σ}
    (run : Emits s (parts.flatMap (·.1)) s') (slot : Slot) :
    ∃ slot', (readItems depth (⟨s, slot⟩ : Reader σ)).toPair =
      ((readItems depth (⟨s', slot'⟩ : Reader σ)).toPair.1.map (parts.map (·.2) ++ ·),
        (readItems depth (⟨s', slot'⟩ : Reader σ)).toPair.2) := by
  induction parts generalizing s slot with
  | nil =>
    obtain rfl := run.of_nil
    refine ⟨slot, Prod.ext ?_ rfl⟩
    cases (readItems depth (⟨s', slot⟩ : Reader σ)).toPair.1 <;> simp [Except.map]
  | cons part parts ih =>
    obtain ⟨s₁, run₁, run₂⟩ := run.of_append
    obtain ⟨slot₁, hitem⟩ := hread part (by simp) run₁ slot
    obtain ⟨slot', hmore⟩ := ih (fun part hpart => hparts part (List.mem_cons_of_mem _ hpart))
      (fun part hpart => hread part (List.mem_cons_of_mem _ hpart)) run₂ slot₁
    refine ⟨slot', ?_⟩
    rw [readItems_item (fun token htoken => ?_) hitem, hmore]
    · refine Prod.ext ?_ rfl
      cases (readItems depth (⟨s', slot'⟩ : Reader σ)).toPair.1 <;> simp [Except.map]
    -- an item never starts with the event that ends the list
    obtain ⟨event, more, hevent, hlist, hend, -⟩ := (hparts part (by simp)).exists_cons
    replace run₁ : Emits s (event :: more) s₁ := hevent ▸ run₁
    obtain ⟨path, s₂, head, -⟩ := run₁.of_cons
    rw [next_of_events head slot, Except.ok.injEq] at htoken
    exact htoken ▸ ⟨hlist, hend⟩

/-- Complete entries are passed over one after the other. -/
theorem readEntries_of_parts [LawfulPeek σ] {depth : Nat}
    {parts : List (String × List Event × Value)}
    (hread : ∀ part ∈ parts, ReadsBack σ (depth + 1) part.2.1 part.2.2)
    (entries : OrderedMap Value) {s s' : σ}
    (run : Emits s (parts.flatMap fun part => .key part.1 :: part.2.1) s') (slot : Slot) :
    ∃ slot', (readEntries depth entries (⟨s, slot⟩ : Reader σ)).toPair =
      (readEntries depth (parts.foldl (fun map part => addEntry map part.1 part.2.2) entries)
        (⟨s', slot'⟩ : Reader σ)).toPair := by
  induction parts generalizing s slot entries with
  | nil =>
    obtain rfl := run.of_nil
    exact ⟨slot, rfl⟩
  | cons part parts ih =>
    obtain ⟨path, s₁, head, run⟩ := run.of_cons
    obtain ⟨s₂, run₁, run₂⟩ := Emits.of_append run
    -- looking for the end of the object shows the name and leaves it to come
    obtain ⟨peeked, hpeek, hnext⟩ := LawfulPeek.peek_of_next head
    obtain ⟨slot₁, hname⟩ := readString_key s₁ part.1 path
    obtain ⟨slot₂, hvalue⟩ := hread part (by simp) run₁ slot₁
    have hentry := readEntry_key depth entries (next_of_events hnext slot) hname
    rw [hvalue] at hentry
    obtain ⟨slot', hmore⟩ := ih (fun part hpart => hread part (List.mem_cons_of_mem _ hpart))
      (addEntry entries part.1 part.2.2) run₂ slot₂
    refine ⟨slot', ?_⟩
    rw [readEntries_entry (peek_of_events hpeek slot) (by simp [Event.token]) hentry, hmore]
    rfl

/-- Behind the start of a list and complete items the list goes on. -/
theorem readTree_of_items {depth : Nat} (hdepth : depth ≤ maxDepth)
    {parts : List (List Event × Value)}
    (hparts : ∀ part ∈ parts, Spells (depth + 1) part.1 part.2)
    (hread : ∀ part ∈ parts, ReadsBack σ (depth + 1) part.1 part.2) {s s' : σ}
    (run : Emits s (.listStart :: parts.flatMap (·.1)) s') (slot : Slot) :
    ∃ slot', readTree depth (⟨s, slot⟩ : Reader σ) =
      ((readItems depth (⟨s', slot'⟩ : Reader σ)).toPair.1.map fun items =>
        .sequence (parts.map (·.2) ++ items),
        (readItems depth (⟨s', slot'⟩ : Reader σ)).toPair.2) := by
  obtain ⟨path, s₁, head, run⟩ := run.of_cons
  obtain ⟨slot', hitems⟩ := readItems_of_parts hparts hread run (.ofLocated ⟨.listStart, path⟩)
  refine ⟨slot', ?_⟩
  rw [readTree_of_next (next_of_events head slot)]
  refine (readAfter_listStart hdepth _).trans ?_
  rw [hitems]
  cases (readItems depth (⟨s', slot'⟩ : Reader σ)).toPair.1 <;> rfl

/-- Behind the start of an object and complete entries the object goes on. -/
theorem readTree_of_entries [LawfulPeek σ] {depth : Nat} (hdepth : depth ≤ maxDepth)
    {parts : List (String × List Event × Value)}
    (hread : ∀ part ∈ parts, ReadsBack σ (depth + 1) part.2.1 part.2.2) {s s' : σ}
    (run : Emits s (.objectStart :: parts.flatMap fun part => .key part.1 :: part.2.1) s')
    (slot : Slot) : ∃ slot', readTree depth (⟨s, slot⟩ : Reader σ) =
      ((readEntries depth (collect (parts.map fun part => (part.1, part.2.2)))
        (⟨s', slot'⟩ : Reader σ)).toPair.1.map .mapping,
        (readEntries depth (collect (parts.map fun part => (part.1, part.2.2)))
          (⟨s', slot'⟩ : Reader σ)).toPair.2) := by
  obtain ⟨path, s₁, head, run⟩ := run.of_cons
  obtain ⟨slot', hentries⟩ := readEntries_of_parts hread [] run (.ofLocated ⟨.objectStart, path⟩)
  refine ⟨slot', ?_⟩
  rw [readTree_of_next (next_of_events head slot)]
  refine (readAfter_objectStart hdepth _).trans ?_
  rw [hentries, collect, List.foldl_map]

/-- What spells a tree is read as that tree, and the stream is left right behind it. -/
theorem Spells.readTree_eq [LawfulPeek σ] {depth : Nat} {events : List Event} {value : Value}
    (h : Spells depth events value) : ReadsBack σ depth events value := by
  induction h with
  | null hdepth =>
    intro s s' run slot
    obtain ⟨path, s₁, head, run⟩ := run.of_cons
    obtain rfl := run.of_nil
    exact ⟨_, (readTree_of_next (next_of_events head slot)).trans (readAfter_null hdepth _)⟩
  | scalar hdepth leaf =>
    intro s s' run slot
    obtain ⟨path, s₁, head, run⟩ := run.of_cons
    obtain rfl := run.of_nil
    exact ⟨⟨path, .taken⟩,
      (readTree_of_next (next_of_events head slot)).trans (readAfter_value hdepth _)⟩
  | sequence hdepth parts hparts ih =>
    intro s s' run slot
    obtain ⟨s₁, run₁, run₂⟩ := Emits.of_append run
    obtain ⟨path, s₂, hend, run₂⟩ := run₂.of_cons
    obtain rfl := run₂.of_nil
    obtain ⟨slot₁, hread⟩ := readTree_of_items hdepth hparts (fun part hpart => ih part hpart)
      run₁ slot
    refine ⟨.ofLocated ⟨.listEnd, path⟩, ?_⟩
    rw [hread, readItems_end (next_of_events hend slot₁)]
    simp [Except.map]
  | mapping hdepth parts hparts ih =>
    intro s s' run slot
    obtain ⟨s₁, run₁, run₂⟩ := Emits.of_append run
    obtain ⟨path, s₂, hend, run₂⟩ := run₂.of_cons
    obtain rfl := run₂.of_nil
    obtain ⟨slot₁, hread⟩ := readTree_of_entries hdepth (fun part hpart => ih part hpart) run₁ slot
    -- the end of the object is seen by the look ahead and then taken
    obtain ⟨peeked, hpeek, hnext⟩ := LawfulPeek.peek_of_next hend
    refine ⟨.ofLocated ⟨.objectEnd, path⟩, ?_⟩
    rw [hread, readEntries_end (peek_of_events hpeek slot₁), next_of_events hnext slot₁]
    rfl

/-- A tree is looked for in front of its first event, and is then read. -/
theorem Spells.exists_peek [LawfulPeek σ] {depth : Nat} {events : List Event} {value : Value}
    (h : Spells depth events value) {s s' : σ} (run : Emits s events s') (slot : Slot) :
    ∃ token peeked slot', EventSource.peek s = (.ok token, peeked) ∧ token ≠ .endOfStream ∧
      token ≠ .key ∧ readTree depth (⟨peeked, slot⟩ : Reader σ) = (.ok value, ⟨s', slot'⟩) := by
  obtain ⟨event, rest, rfl, -, hne, hkey⟩ := h.exists_cons
  obtain ⟨path, s₁, head, -⟩ := run.of_cons
  obtain ⟨peeked, hpeek, hnext⟩ := LawfulPeek.peek_of_next head
  obtain ⟨slot', hread⟩ := h.readTree_eq (run.of_next_eq (hnext.trans head.symm) (by simp)) slot
  exact ⟨_, peeked, slot', hpeek, hne, hkey, hread⟩

/-- A document that is spelled is read, with the entries of the parts before it. -/
theorem SpellsDocument.readParts_eq [LawfulPeek σ] {entries : OrderedMap Value}
    {events : List Event} {value : Value} (h : SpellsDocument entries events value)
    {s s' after : σ} {path : String} (run : Emits s events s')
    (hend : EventSource.next s' = (.ok ⟨.endOfStream, path⟩, after)) (slot : Slot) :
    (readParts entries (⟨s, slot⟩ : Reader σ)).1 = .ok value := by
  induction h generalizing s slot with
  | done entries =>
    obtain rfl := run.of_nil
    obtain ⟨ended, hpeek, -⟩ := LawfulPeek.peek_of_next hend
    rw [readParts_end (peek_of_events hpeek slot)]
  | @entry entries name _ _ _ _ hspells _ ih =>
    obtain ⟨place, s₁, head, run⟩ := run.of_cons
    obtain ⟨s₂, run₁, run₂⟩ := Emits.of_append run
    obtain ⟨peeked, hpeek, hnext⟩ := LawfulPeek.peek_of_next head
    obtain ⟨slot₁, hname⟩ := readString_key s₁ name place
    obtain ⟨slot₂, hvalue⟩ := hspells.readTree_eq run₁ slot₁
    have hentry := readEntry_key 0 entries (next_of_events hnext slot) hname
    rw [hvalue] at hentry
    rw [readParts_entry (peek_of_events hpeek slot) hentry]
    exact ih run₂ slot₂
  | object hspells _ ih =>
    obtain ⟨s₁, run₁, run₂⟩ := Emits.of_append run
    obtain ⟨token, peeked, slot', hpeek, hne, hkey, hread⟩ := hspells.exists_peek run₁ slot
    rw [readParts_mapping (peek_of_events hpeek slot) hne hkey hread]
    exact ih run₂ slot'
  | alone hspells hvalue =>
    obtain ⟨token, peeked, slot', hpeek, hne, hkey, hread⟩ := hspells.exists_peek run slot
    obtain ⟨ended, hpeekEnd, -⟩ := LawfulPeek.peek_of_next hend
    rw [readParts_value (peek_of_events hpeek slot) hne hkey hread hvalue
      (peek_of_events hpeekEnd slot')]

/-- A tree is a document of one part. -/
theorem Spells.spellsDocument {events : List Event} {value : Value} (h : Spells 0 events value) :
    SpellsDocument [] events value := by
  by_cases hmapping : ∃ entries, value = .mapping entries
  · obtain ⟨entries, rfl⟩ := hmapping
    have hnodup : (OrderedMap.keys entries).Nodup := by
      cases h with
      | mapping => exact nodup_keys_collect _
    have hdocument := SpellsDocument.object h (.done (OrderedMap.insertAll [] entries))
    rwa [List.append_nil, OrderedMap.insertAll_nil hnodup] at hdocument
  · exact .alone h fun entries heq => hmapping ⟨entries, heq⟩

/-- A broken off tree does not begin with an event that ends something. -/
theorem Unfinished.token_ne {depth : Nat} {events : List Event} (h : Unfinished depth events)
    {s s' after : σ} {error : Error} (run : Emits s events s')
    (herror : EventSource.next s' = (.error error, after)) (slot : Slot) {token : Token}
    (htoken : (next (⟨s, slot⟩ : Reader σ)).1 = .ok token) :
    token ≠ .listEnd ∧ token ≠ .endOfStream := by
  cases events with
  | nil =>
    obtain rfl := run.of_nil
    rw [next_of_events_error herror slot] at htoken
    exact absurd htoken (by simp)
  | cons event events =>
    obtain ⟨path, s₁, head, -⟩ := run.of_cons
    rw [next_of_events head slot, Except.ok.injEq] at htoken
    subst htoken
    cases h <;> simp [Event.token]

/-- A stream that fails in the place of a name fails the object. -/
theorem readEntries_error_of_next [LawfulPeek σ] {depth : Nat} {entries : OrderedMap Value}
    {s after : σ} {error : Error} (herror : EventSource.next s = (.error error, after))
    (slot : Slot) :
    (readEntries depth entries (⟨s, slot⟩ : Reader σ)).toPair.1 = .error error := by
  obtain ⟨peeked, hpeek⟩ | ⟨token, peeked, after', hpeek, hnext⟩ :=
    LawfulPeek.peek_of_next_error herror
  · have hpeek' : peek (⟨s, slot⟩ : Reader σ) = (.error error, ⟨peeked, slot⟩) := by
      show Reader.peek _ = _
      rw [Reader.peek, hpeek]
    rw [readEntries_peek_error hpeek']
  -- the look ahead has seen nothing of the error, and the call behind it meets it
  · have hfail := next_of_events_error hnext slot
    by_cases htoken : token = .objectEnd
    · subst htoken
      rw [readEntries_end (peek_of_events hpeek slot), hfail]
      rfl
    · rw [readEntries_entry_error (peek_of_events hpeek slot) htoken (readEntry_error hfail)]

/-- A list fails behind complete items with the item that fails. -/
theorem readTree_item_error [LawfulPeek σ] {depth : Nat} (hdepth : depth ≤ maxDepth)
    {parts : List (List Event × Value)}
    (hparts : ∀ part ∈ parts, Spells (depth + 1) part.1 part.2) {s s' : σ}
    (run : Emits s (.listStart :: parts.flatMap (·.1)) s')
    (hitem : ∀ slot token, (next (⟨s', slot⟩ : Reader σ)).1 = .ok token →
      token ≠ .listEnd ∧ token ≠ .endOfStream) (slot : Slot) :
    ∃ slot', ∀ error, (readTree (depth + 1) (⟨s', slot'⟩ : Reader σ)).1 = .error error →
      (readTree depth (⟨s, slot⟩ : Reader σ)).1 = .error error := by
  obtain ⟨slot', htree⟩ := readTree_of_items hdepth hparts
    (fun part hpart => (hparts part hpart).readTree_eq) run slot
  refine ⟨slot', fun error hread => ?_⟩
  rw [htree, readItems_item_error (hitem slot') (Prod.ext hread rfl)]
  rfl

/-- An object fails behind complete entries with the value that fails. -/
theorem readTree_value_error [LawfulPeek σ] {depth : Nat} (hdepth : depth ≤ maxDepth)
    {parts : List (String × List Event × Value)}
    (hparts : ∀ part ∈ parts, Spells (depth + 1) part.2.1 part.2.2) {s s₁ s₂ : σ}
    (run : Emits s (.objectStart :: parts.flatMap fun part => .key part.1 :: part.2.1) s₁)
    {name path : String} (hname : EventSource.next s₁ = (.ok ⟨.key name, path⟩, s₂)) (slot : Slot) :
    ∃ slot', ∀ error, (readTree (depth + 1) (⟨s₂, slot'⟩ : Reader σ)).1 = .error error →
      (readTree depth (⟨s, slot⟩ : Reader σ)).1 = .error error := by
  obtain ⟨slot₁, htree⟩ := readTree_of_entries hdepth
    (fun part hpart => (hparts part hpart).readTree_eq) run slot
  obtain ⟨peeked, hpeek, hnext⟩ := LawfulPeek.peek_of_next hname
  obtain ⟨slot₂, hstring⟩ := readString_key s₂ name path
  refine ⟨slot₂, fun error hread => ?_⟩
  -- the value fails, whatever entries have been read before it
  have hentry := readEntry_key depth (collect (parts.map fun part => (part.1, part.2.2)))
    (next_of_events hnext slot₁) hstring
  rw [hread] at hentry
  rw [htree, readEntries_entry_error (peek_of_events hpeek slot₁) (by simp [Event.token]) hentry]
  rfl

/-- An object on the last level fails with the value of its first entry. -/
theorem readTree_tooDeep [LawfulPeek σ] {s s₁ s₂ s₃ : σ} {place place' name path : String}
    {event : Event} (hstart : EventSource.next s = (.ok ⟨.objectStart, place⟩, s₁))
    (hname : EventSource.next s₁ = (.ok ⟨.key name, place'⟩, s₂))
    (hvalue : EventSource.next s₂ = (.ok ⟨event, path⟩, s₃)) (slot : Slot) :
    (readTree maxDepth (⟨s, slot⟩ : Reader σ)).1 = .error (.depthExceeded path maxDepth) := by
  have hrun : Emits s (.objectStart :: ([] : List (String × List Event × Value)).flatMap
      fun part => .key part.1 :: part.2.1) s₁ := ⟨[⟨.objectStart, place⟩], rfl, .single hstart⟩
  obtain ⟨slot', hfail⟩ := readTree_value_error (Nat.le_refl maxDepth) (by simp) hrun hname slot
  refine hfail _ ?_
  -- the token behind the name is taken before the depth is checked
  have hpath : currentPath (⟨s₃, .ofLocated ⟨event, path⟩⟩ : Reader σ) = path :=
    Slot.path_ofLocated _
  rw [readTree_of_next (next_of_events hvalue slot'),
    readAfter_tooDeep _ (Nat.lt_succ_self maxDepth), hpath]

/-- Where a stream fails before a tree is complete, reading the tree fails: with that error, or
because it has gone too deep before. -/
theorem Unfinished.readTree_eq_error [LawfulPeek σ] {depth : Nat} {events : List Event}
    (h : Unfinished depth events) {s s' after : σ} {error : Error} (run : Emits s events s')
    (herror : EventSource.next s' = (.error error, after)) (slot : Slot) :
    ∃ error', (error' = error ∨ ∃ path, error' = .depthExceeded path maxDepth) ∧
      (readTree depth (⟨s, slot⟩ : Reader σ)).1 = .error error' := by
  induction h generalizing s slot with
  | start =>
    obtain rfl := run.of_nil
    refine ⟨error, .inl rfl, ?_⟩
    rw [readTree_of_next_error (next_of_events_error herror slot)]
  | item hdepth parts hparts hrest ih =>
    obtain ⟨s₁, run₁, run₂⟩ := Emits.of_append run
    obtain ⟨slot₁, hfail⟩ := readTree_item_error hdepth hparts run₁
      (fun slot token htoken => hrest.token_ne run₂ herror slot htoken) slot
    obtain ⟨error', hcause, hread⟩ := ih run₂ slot₁
    exact ⟨error', hcause, hfail error' hread⟩
  | key hdepth parts hparts =>
    obtain ⟨slot₁, htree⟩ := readTree_of_entries hdepth
      (fun part hpart => (hparts part hpart).readTree_eq) run slot
    refine ⟨error, .inl rfl, ?_⟩
    rw [htree, readEntries_error_of_next herror slot₁]
    rfl
  | value hdepth parts hparts name hrest ih =>
    obtain ⟨s₁, run₁, run₂⟩ := Emits.of_append run
    obtain ⟨path, s₂, hkey, run₂⟩ := run₂.of_cons
    obtain ⟨slot₂, hfail⟩ := readTree_value_error hdepth hparts run₁ hkey slot
    obtain ⟨error', hcause, hread⟩ := ih run₂ slot₂
    exact ⟨error', hcause, hfail error' hread⟩
  | tooDeep hdepth name event rest =>
    obtain ⟨place, s₁, hstart, run⟩ := run.of_cons
    obtain ⟨place', s₂, hname, run⟩ := run.of_cons
    obtain ⟨path, s₃, hvalue, -⟩ := run.of_cons
    subst hdepth
    exact ⟨_, .inr ⟨path, rfl⟩, readTree_tooDeep hstart hname hvalue slot⟩

end Value

end LayeredConfig
