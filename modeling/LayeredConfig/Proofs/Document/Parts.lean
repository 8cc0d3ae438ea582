import LayeredConfig.Proofs.Document.Transition
import LayeredConfig.Proofs.Reading.Soundness
import LayeredConfig.Proofs.Value.Scalars
import LayeredConfig.Proofs.Value.Unique

/-!
# The parts of a document

A document that is read as a mapping is made of parts: entries, and objects in braces. The parser
gives the events of one part after the other (`documentEvents`). It does not close a part: behind an
entry it keeps the name of the entry, and an object in braces that comes later stands at the path of
that name.

* `exists_events_of_spells`: a run of the parser through events that spell a tree gives the events
  of the tree, as it is written, at the path where it begins.
* `exists_parts_of_readDocument`: a document that is read as a mapping has parts. If their names
  are different they are the entries of the mapping.
-/

namespace LayeredConfig.Document

/-- A part of a document. -/
inductive Part where
  /-- An entry without braces around it. -/
  | entry (key : String) (value : Value)
  /-- An object in braces. -/
  | object (entries : List (String × Value))

namespace Part

/-- The entries that a part adds to the document. -/
def entries : Part → List (String × Value)
  | entry key value => [(key, value)]
  | object entries => entries

/-- The part is an entry without braces. -/
def isEntry : Part → Bool
  | entry _ _ => true
  | object _ => false

/-- The last name of the document behind a part, which `last` is in front of it. -/
def lastName (last : Option String) : Part → Option String
  | entry key _ => some key
  | object _ => last

/-- The events of a part behind the last name of the document. -/
def events (last : Option String) : Part → List Located
  | entry key value => ⟨.key key, key⟩ :: value.events key
  | object entries => (Value.mapping entries).events (last.getD "")

end Part

/-- The events of the parts of a document behind its last name. -/
def documentEvents (last : Option String) : List Part → List Located
  | [] => []
  | part :: rest => part.events last ++ documentEvents (part.lastName last) rest

open Value (Spells SpellsDocument Storable)

namespace Parser

variable {p p' : Parser} {items : List Located} {event : Event} {events : List Event}
  {last : Option String}

/-! ### Trees -/

/-- A run begins with the call for its first event. -/
theorem exists_of_run_cons (run : Run Parser.next p items p')
    (hitems : items.map (·.event) = event :: events) :
    ∃ path q rest, items = ⟨event, path⟩ :: rest ∧ Transition p ⟨event, path⟩ q ∧
      Run Parser.next q rest p' ∧ rest.map (·.event) = events := by
  obtain ⟨⟨_, path⟩, rest, rfl, rfl, hrest⟩ := List.map_eq_cons_iff.1 hitems
  cases run with
  | cons head tail => exact ⟨path, _, rest, rfl, transition_of_next head, tail, hrest⟩

/-- A run through the events of two things passes through the state between them. -/
theorem exists_of_run_append {more : List Event} (run : Run Parser.next p items p')
    (hitems : items.map (·.event) = events ++ more) :
    ∃ first q second, items = first ++ second ∧ Run Parser.next p first q ∧
      first.map (·.event) = events ∧ Run Parser.next q second p' ∧
        second.map (·.event) = more := by
  obtain ⟨first, second, rfl, hfirst, hsecond⟩ := List.map_eq_append_iff.1 hitems
  obtain ⟨q, run₁, run₂⟩ := run.of_append
  exact ⟨first, q, second, rfl, run₁, hfirst, run₂, hsecond⟩

/-- A run through one event is the call for it. -/
theorem exists_of_run_singleton (run : Run Parser.next p items p')
    (hitems : items.map (·.event) = [event]) :
    ∃ path, items = [⟨event, path⟩] ∧ Transition p ⟨event, path⟩ p' := by
  obtain ⟨path, q, rest, rfl, transition, run, hrest⟩ := exists_of_run_cons run hitems
  obtain rfl := List.map_eq_nil_iff.1 hrest
  cases run
  exact ⟨path, rfl, transition⟩

/-- A run through events in brackets is a call for either bracket, with a run between them. -/
theorem exists_of_run_bracketed {close : Event} (run : Run Parser.next p items p')
    (hitems : items.map (·.event) = event :: (events ++ [close])) :
    ∃ path q inner q' path', items = ⟨event, path⟩ :: (inner ++ [⟨close, path'⟩]) ∧
      Transition p ⟨event, path⟩ q ∧ Run Parser.next q inner q' ∧
        inner.map (·.event) = events ∧ Transition q' ⟨close, path'⟩ p' := by
  obtain ⟨path, q, _, rfl, start, run, hrest⟩ := exists_of_run_cons run hitems
  obtain ⟨inner, q', _, rfl, run₁, hinner, run₂, hclose⟩ := exists_of_run_append run hrest
  obtain ⟨path', rfl, close⟩ := exists_of_run_singleton run₂ hclose
  exact ⟨path, q, inner, q', path', rfl, start, run₁, hinner, close⟩

/-- Every run of the parser through the events gives those of a tree at the path where it begins. If
the tree can be stored it is the given one. -/
def Writes (events : List Event) (value : Value) : Prop :=
  ∀ {p p' : Parser} {items : List Located}, Run Parser.next p items p' →
    items.map (·.event) = events → ∃ tree rest, items = Value.events p.beginElement.path tree ∧
      p' = p.behind rest ∧ (Storable tree → tree = value)

/-- The items of a list stand at the paths with their numbers. -/
theorem exists_events_of_items {parts : List (List Event × Value)}
    (hparts : ∀ part ∈ parts, Writes part.1 part.2) {begun : Nat} (hframe : p.frame = .list begun)
    (hafter : p.afterKey = false) (run : Run Parser.next p items p')
    (hitems : items.map (·.event) = parts.flatMap (·.1)) :
    ∃ trees rest, items = Value.itemEvents (framePath p.enclosing) begun trees ∧
      p' = { p with rest, frame := .list (begun + trees.length) } ∧
      ((∀ tree ∈ trees, Storable tree) → trees = parts.map (·.2)) := by
  induction parts generalizing p begun items with
  | nil =>
    obtain rfl : items = [] := by simpa using hitems
    cases run
    refine ⟨[], p'.rest, by rw [Value.itemEvents], ?_, fun _ => rfl⟩
    rw [List.length_nil, Nat.add_zero, ← hframe]
  | cons part parts ih =>
    obtain ⟨first, q, second, rfl, run₁, hfirst, run₂, hsecond⟩ :=
      exists_of_run_append run (by rw [hitems, List.flatMap_cons])
    obtain ⟨tree, rest, rfl, rfl, htree⟩ := hparts part (by simp) run₁ hfirst
    -- the item is counted, and the others go on behind it
    have hcounted : (p.behind rest).frame = .list (begun + 1) := by
      rw [behind, hframe]
      rfl
    obtain ⟨trees, rest', rfl, rfl, htrees⟩ :=
      ih (fun part hpart => hparts part (List.mem_cons_of_mem _ hpart)) hcounted rfl run₂ hsecond
    refine ⟨tree :: trees, rest', ?_, ?_, ?_⟩
    · rw [Value.itemEvents, path, beginElement, hframe]
      rfl
    · rw [behind, hafter, List.length_cons, Nat.add_right_comm, Nat.add_assoc]
    · intro hstorable
      obtain ⟨hhead, htail⟩ := List.forall_mem_cons.1 hstorable
      rw [htree hhead, htrees htail, List.map_cons]

/-- The entries of an object stand at the paths with their names. -/
theorem exists_events_of_entries {parts : List (String × List Event × Value)}
    (hparts : ∀ part ∈ parts, Writes part.2.1 part.2.2) (hframe : p.frame = .object last)
    (hafter : p.afterKey = false) (run : Run Parser.next p items p')
    (hitems : items.map (·.event) = parts.flatMap fun part => .key part.1 :: part.2.1) :
    ∃ entries rest last', items = Value.entryEvents (framePath p.enclosing) entries ∧
      p' = { p with rest, frame := .object last' } ∧
      ((∀ entry ∈ entries, Storable entry.2) →
        entries = parts.map fun part => (part.1, part.2.2)) := by
  induction parts generalizing p last items with
  | nil =>
    obtain rfl : items = [] := by simpa using hitems
    cases run
    refine ⟨[], p'.rest, last, by rw [Value.entryEvents], ?_, fun _ => rfl⟩
    rw [← hframe]
  | cons part parts ih =>
    obtain ⟨_, q, _, rfl, transition, run, hrest⟩ :=
      exists_of_run_cons run (by rw [hitems, List.flatMap_cons, List.cons_append])
    obtain ⟨first, q', second, rfl, run₁, hfirst, run₂, hsecond⟩ := exists_of_run_append run hrest
    cases transition with
    | key =>
      obtain ⟨tree, rest, rfl, rfl, htree⟩ := hparts part (by simp) run₁ hfirst
      -- the value stands at the path of its name, which stays the last one
      obtain ⟨entries, rest', last', rfl, rfl, hentries⟩ :=
        ih (fun part hpart => hparts part (List.mem_cons_of_mem _ hpart)) rfl rfl run₂ hsecond
      refine ⟨(part.1, tree) :: entries, rest', last', ?_, ?_, ?_⟩
      · rw [Value.entryEvents]
        rfl
      · rw [behind, hafter]
      · intro hstorable
        obtain ⟨hhead, htail⟩ := List.forall_mem_cons.1 hstorable
        rw [htree hhead, hentries htail, List.map_cons]

/-- A run through events that spell a tree gives the events of the tree as it is written, where a
name may come more than once. -/
theorem exists_events_of_spells {depth : Nat} {value : Value} (h : Spells depth events value) :
    Writes events value := by
  induction h with
  | null =>
    intro p p' items run hitems
    obtain ⟨path, rfl, transition⟩ := exists_of_run_singleton run hitems
    cases transition with
    | null => exact ⟨.null, _, by rw [Value.events], rfl, fun _ => rfl⟩
  | scalar hdepth leaf =>
    intro p p' items run hitems
    obtain ⟨path, rfl, transition⟩ := exists_of_run_singleton run hitems
    cases transition with
    | value => exact ⟨.scalar leaf, _, by rw [Value.events], rfl, fun _ => rfl⟩
  | sequence hdepth parts hparts ih =>
    intro p p' items run hitems
    obtain ⟨path, q, inner, q', path', rfl, start, run, hinner, close⟩ :=
      exists_of_run_bracketed run hitems
    cases start with
    | listStart =>
      obtain ⟨trees, rest, rfl, rfl, htrees⟩ := exists_events_of_items ih rfl rfl run hinner
      -- the end gives the frame around the list back
      cases close with
      | listEnd _ _ henclosing =>
        obtain ⟨rfl, rfl⟩ := List.cons.inj henclosing
        refine ⟨.sequence trees, _, ?_, rfl, ?_⟩
        · rw [Value.events, List.cons_append]
          rfl
        · intro hstorable
          rw [htrees hstorable.of_mem_items]
  | mapping hdepth parts hparts ih =>
    intro p p' items run hitems
    obtain ⟨path, q, inner, q', path', rfl, start, run, hinner, close⟩ :=
      exists_of_run_bracketed run hitems
    cases start with
    | objectStart =>
      obtain ⟨entries, rest, last, rfl, rfl, hentries⟩ :=
        exists_events_of_entries ih rfl rfl run hinner
      cases close with
      | objectEnd _ _ henclosing =>
        obtain ⟨rfl, rfl⟩ := List.cons.inj henclosing
        refine ⟨.mapping entries, _, ?_, rfl, ?_⟩
        · rw [Value.events, List.cons_append]
          rfl
        · -- reading leaves out no entry of an object that can be stored
          intro hstorable
          rw [← hentries fun entry hentry => hstorable.of_mem_children hentry,
            hstorable.collect_eq_self]

/-! ### Documents -/

/-- A tree is an object if its events spell one. -/
theorem exists_mapping_of_events {depth : Nat} {entries : OrderedMap Value}
    (h : Spells depth events (.mapping entries)) {path : String} {tree : Value}
    (hevents : (Value.events path tree).map (·.event) = events) :
    ∃ written, tree = .mapping written := by
  cases h with
  | mapping => cases tree with
    | mapping written => exact ⟨written, rfl⟩
    | _ => simp [Value.events] at hevents

/-- A run through events that spell a mapping at the top of a document gives the events of its
parts. -/
theorem exists_parts_of_spells {entries result : OrderedMap Value} {document : Value}
    (h : SpellsDocument entries events document) (hdocument : document = .mapping result)
    (hframe : p.frame = .object last) (henclosing : p.enclosing = []) (hafter : p.afterKey = false)
    (run : Run Parser.next p items p') (hitems : items.map (·.event) = events) :
    ∃ parts rest last', items = documentEvents last parts ∧
      p' = { p with rest, frame := .object last' } ∧
      (Storable (.mapping (parts.flatMap Part.entries)) →
        result = OrderedMap.insertAll entries (parts.flatMap Part.entries)) := by
  induction h generalizing p last items with
  | done entries =>
    obtain rfl := List.map_eq_nil_iff.1 hitems
    obtain rfl := Value.mapping.inj hdocument
    cases run
    refine ⟨[], p'.rest, last, rfl, ?_, fun _ => rfl⟩
    rw [← hframe]
  | @entry _ name _ _ _ _ hspells _ ih =>
    obtain ⟨_, q, _, rfl, transition, run, hrest⟩ :=
      exists_of_run_cons run (by rw [hitems, List.cons_append])
    obtain ⟨first, q', second, rfl, run₁, hfirst, run₂, hsecond⟩ := exists_of_run_append run hrest
    cases transition with
    | key =>
      obtain ⟨tree, rest, rfl, rfl, htree⟩ := exists_events_of_spells hspells run₁ hfirst
      obtain ⟨parts, rest', last', rfl, rfl, hresult⟩ :=
        ih hdocument rfl (by exact henclosing) rfl run₂ hsecond
      refine ⟨.entry name tree :: parts, rest', last', ?_, ?_, ?_⟩
      · rw [documentEvents, Part.events, henclosing]
        rfl
      · rw [behind, hafter]
      · intro hstorable
        obtain ⟨hhead, htail⟩ := Storable.of_append hstorable
        have hentry := hhead.of_mem_children (List.mem_singleton_self _)
        have hname : name ≠ pathKey := by
          rintro rfl
          exact hhead.pathKey_notMem (List.mem_singleton_self _)
        rw [hresult htail, ← htree hentry, Value.addEntry, if_neg hname]
        rfl
  | object hspells _ ih =>
    obtain ⟨first, q', second, rfl, run₁, hfirst, run₂, hsecond⟩ := exists_of_run_append run hitems
    obtain ⟨tree, rest, rfl, rfl, htree⟩ := exists_events_of_spells hspells run₁ hfirst
    obtain ⟨written, rfl⟩ := exists_mapping_of_events hspells hfirst
    -- the object leaves the last name as it is, whatever names it has inside
    have hbehind : p.behind rest = { p with rest } := by
      rw [behind, hframe, ← hafter]
      rfl
    rw [hbehind] at run₂
    obtain ⟨parts, rest', last', rfl, rfl, hresult⟩ :=
      ih hdocument (by exact hframe) (by exact henclosing) (by exact hafter) run₂ hsecond
    refine ⟨.object written :: parts, rest', last', ?_, rfl, ?_⟩
    · rw [documentEvents, Part.events, path, beginElement, hframe, henclosing]
      cases last <;> rfl
    · intro hstorable
      obtain ⟨hhead, htail⟩ := Storable.of_append hstorable
      obtain rfl := Value.mapping.inj (htree hhead)
      rw [hresult htail, OrderedMap.insertAll, OrderedMap.insertAll, OrderedMap.insertAll,
        ← List.foldl_append, List.flatMap_cons, Part.entries]
  | alone _ hvalue => exact absurd hdocument (hvalue result)

/-- A look ahead into a parser does not change what comes, and promises it. -/
instance : StablePeek (Reader Parser) where
  next_peek r := by
    show Reader.next ⟨r.events.skip, r.slot⟩ = Reader.next r
    simp only [Reader.next]
    rw [show EventSource.next r.events.skip = EventSource.next r.events from next_skip r.events]
  token_eq {r peeked token} hpeek hnext := by
    obtain ⟨item, hitem, rfl⟩ := Reader.next_eq_ok hnext
    exact (token_step hitem).trans (Except.ok.inj hpeek)

/-- The text of a document has the parts: the parser gives their events and then the end of the
document. -/
def HasParts (text : String) (parts : List Part) : Prop :=
  ∃ p, Run Parser.next (.ofText text) (documentEvents none parts ++ [⟨.endOfStream, ""⟩]) p

/-- The parts of a document can be told from its events. -/
theorem documentEvents_append_inj {parts others : List Part} {path : String}
    {more more' : List Located}
    (h : documentEvents last parts ++ ⟨.endOfStream, path⟩ :: more =
      documentEvents last others ++ ⟨.endOfStream, path⟩ :: more') : parts = others := by
  induction parts generalizing last others with
  | nil =>
    cases others with
    | nil => rfl
    | cons other rest => cases other <;> simp [documentEvents, Part.events, Value.events] at h
  | cons part rest ih =>
    cases others with
    | nil => cases part <;> simp [documentEvents, Part.events, Value.events] at h
    | cons other rest' =>
      rw [documentEvents, documentEvents, List.append_assoc, List.append_assoc] at h
      -- the first event tells the kind of a part: a name, or the start of an object
      cases part with
      | entry key value => cases other with
        | entry key' value' =>
          rw [Part.events, Part.events, List.cons_append, List.cons_append, List.cons.injEq,
            Located.mk.injEq, Event.key.injEq] at h
          obtain ⟨⟨rfl, -⟩, h⟩ := h
          obtain ⟨rfl, hrest⟩ := Value.events_append_inj _ value value' h
          rw [ih hrest]
        | object => simp [Part.events, Value.events] at h
      | object entries => cases other with
        | entry => simp [Part.events, Value.events] at h
        | object entries' =>
          obtain ⟨heq, hrest⟩ := Value.events_append_inj _ (.mapping entries) (.mapping entries') h
          rw [Value.mapping.inj heq, ih hrest]

/-- A document has at most one list of parts. -/
theorem HasParts.unique {text : String} {parts others : List Part} (h : HasParts text parts)
    (h' : HasParts text others) : parts = others := by
  obtain ⟨p, run⟩ := h
  obtain ⟨q, run'⟩ := h'
  -- one of the runs is the beginning of the other, and both end with the document
  rcases run.prefix_or_prefix run' with ⟨more, hmore⟩ | ⟨more, hmore⟩
  · rw [List.append_assoc] at hmore
    exact documentEvents_append_inj hmore
  · rw [List.append_assoc] at hmore
    exact (documentEvents_append_inj hmore).symm

/-- A document is read as the tree that its parts spell. -/
theorem HasParts.readDocument_eq {text : String} {parts : List Part} {value : Value}
    (h : HasParts text parts)
    (hspells : SpellsDocument [] ((documentEvents none parts).map (·.event)) value) :
    (Value.readDocument (Parser.reader text)).1 = .ok value := by
  obtain ⟨p, run⟩ := h
  obtain ⟨q, run, last⟩ := run.of_append
  cases last with
  | cons hend _ => exact hspells.readParts_eq ⟨_, rfl, run⟩ hend (.initial "")

/-- A document that is read as a mapping has parts. If their entries can be stored together, they
are those of the mapping. -/
theorem exists_parts_of_readDocument {text : String} {entries : OrderedMap Value}
    (h : (Value.readDocument (Parser.reader text)).1 = .ok (.mapping entries)) :
    ∃ parts, HasParts text parts ∧ (Storable (.mapping (parts.flatMap Part.entries)) →
      entries = parts.flatMap Part.entries) := by
  obtain ⟨events, r, hyields, hpeek, hspells⟩ := Value.exists_spells_of_readParts (Prod.ext h rfl)
  obtain ⟨items, hitems, run⟩ := hyields.emits
  obtain ⟨parts, rest, last, rfl, hp, hentries⟩ :=
    exists_parts_of_spells hspells rfl rfl rfl rfl run hitems
  -- behind the parts the text ends, and all brackets are closed
  have hrest : skipSeparators r.events.rest = [] :=
    (upcoming_eq_endOfStream_iff r.events.skip).1 (Except.ok.inj (congrArg Prod.fst hpeek))
  have henclosing : r.events.enclosing = [] := by
    rw [hp]
    rfl
  refine ⟨parts, ⟨_, run.append (.single (next_end hrest henclosing))⟩, ?_⟩
  intro hstorable
  exact (hentries hstorable).trans (OrderedMap.insertAll_nil hstorable.nodup_children)

end Parser

end LayeredConfig.Document
