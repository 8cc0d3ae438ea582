import LayeredConfig.Proofs.Reading.Script

/-!
# Whole documents in scripted streams

A document is read part by part. Entries and whole mappings join into one mapping, and the first
part that is anything else has to be the whole document. The reader remembers of the parts before it
only what they have joined into, so parts that leave no entry behind do not count: an object without
entries, and entries that tell a path.

* `Joins`: the events of such parts, with what they join into.
* `Script.readDocument_of_joinedBy`: what is read where a tree that is not a mapping comes behind
  them.
* `standsAlone_iff`: such a tree is read only where nothing else is written, unless parts without
  entries are written in front of it.
-/

namespace LayeredConfig

open TokenStream

namespace Value

variable {σ : Type} [TokenStream σ] {s s' : σ} {entries result : OrderedMap Value}
  {events : List Event} {value : Value} {depth : Nat}

/-- The events spell entries and whole mappings, which `result` joins to the entries before them. -/
inductive Joins : OrderedMap Value → List Event → OrderedMap Value → Prop
  | nil (entries : OrderedMap Value) : Joins entries [] entries
  | entry {entries result : OrderedMap Value} {name : String} {events more : List Event}
      {value : Value} (hspells : Spells 1 events value)
      (hmore : Joins (addEntry entries name value) more result) :
      Joins entries (.key name :: events ++ more) result
  | object {entries part result : OrderedMap Value} {events more : List Event}
      (hspells : Spells 0 events (.mapping part))
      (hmore : Joins (OrderedMap.insertAll entries part) more result) :
      Joins entries (events ++ more) result

/-- A document is a mapping that its parts join into, or parts without entries and a tree of another
kind behind them. -/
theorem SpellsDocument.exists_joins (h : SpellsDocument entries events value) :
    (∃ result, value = .mapping result ∧ Joins entries events result) ∨
      value.mapping? = none ∧ ∃ front word, events = front ++ word ∧ Joins entries front [] ∧
        Spells 0 word value := by
  induction h with
  | done entries => exact .inl ⟨entries, rfl, .nil entries⟩
  | entry hspells _ ih =>
    rcases ih with ⟨result, hvalue, hjoins⟩ | ⟨hvalue, front, word, rfl, hjoins, hword⟩
    · exact .inl ⟨result, hvalue, .entry hspells hjoins⟩
    · exact .inr ⟨hvalue, _, word, (List.append_assoc ..).symm, .entry hspells hjoins, hword⟩
  | object hspells _ ih =>
    rcases ih with ⟨result, hvalue, hjoins⟩ | ⟨hvalue, front, word, rfl, hjoins, hword⟩
    · exact .inl ⟨result, hvalue, .object hspells hjoins⟩
    · exact .inr ⟨hvalue, _, word, (List.append_assoc ..).symm, .object hspells hjoins, hword⟩
  | @alone events value hspells hvalue =>
    refine .inr ⟨?_, [], events, rfl, .nil [], hspells⟩
    cases value with
    | mapping entries => exact absurd rfl (hvalue entries)
    | _ => rfl

/-- No part goes beyond the end of the stream. -/
theorem Joins.event_ne (h : Joins entries events result) :
    ∀ event ∈ events, event ≠ .endOfStream := by
  induction h with
  | nil => simp
  | entry hspells _ ih =>
    intro event hevent
    rw [List.cons_append, List.mem_cons, List.mem_append] at hevent
    rcases hevent with rfl | hevent | hevent
    · simp
    · exact hspells.event_ne event hevent
    · exact ih event hevent
  | object hspells _ ih =>
    intro event hevent
    exact (List.mem_append.1 hevent).elim (hspells.event_ne event) (ih event)

theorem ne_mapping_of_mapping? (h : value.mapping? = none) (entries : OrderedMap Value) :
    value ≠ .mapping entries := by
  rintro rfl
  exact absurd h (by simp [mapping?])

section TotalPeek

variable [TotalPeek σ]

/-- A tree is looked for in front of its first event, and is then read. -/
theorem Spells.exists_peek_of_yields (h : Spells depth events value) (yields : Yields s events s') :
    ∃ token peeked, peek s = (.ok token, peeked) ∧ token ≠ .endOfStream ∧ token ≠ .key ∧
      readTree depth peeked = (.ok value, s') := by
  obtain ⟨event, rest, rfl, -, hne, hkey⟩ := h.exists_cons
  obtain ⟨s₁, head, -⟩ := yields.of_cons
  obtain ⟨s₂, hnext⟩ := head.exists_next_token
  obtain ⟨peeked, hpeek, hpeeked⟩ := TotalPeek.peek_of_next hnext
  refine ⟨_, peeked, hpeek, hne, hkey, ?_⟩
  rw [readTree_of_next_eq (hpeeked.trans hnext.symm)]
  exact h.readTree_of_yields yields

/-- Behind parts that are read the document goes on with what they join into. -/
theorem Joins.readParts_eq (h : Joins entries events result) (yields : Yields s events s') :
    readParts entries s = readParts result s' := by
  induction h generalizing s with
  | nil entries => rw [yields.of_nil]
  | @entry entries _ _ _ _ _ hspells _ ih =>
    rw [List.cons_append] at yields
    obtain ⟨s₁, head, tail⟩ := yields.of_cons
    obtain ⟨s₂, first, second⟩ := tail.of_append
    obtain ⟨s₃, hkey, hname⟩ := head.of_key
    obtain ⟨peeked, hpeek, hnext⟩ := TotalPeek.peek_of_next hkey
    have hentry := readEntry_key 0 entries hnext hname
    rw [hspells.readTree_of_yields first] at hentry
    rw [readParts_entry hpeek hentry]
    exact ih second
  | object hspells _ ih =>
    obtain ⟨s₁, first, second⟩ := yields.of_append
    obtain ⟨token, peeked, hpeek, hend, hkey, hread⟩ := hspells.exists_peek_of_yields first
    rw [readParts_mapping hpeek hend hkey hread]
    exact ih second

/-- A tree that is not a mapping is the document if no entries come before it and nothing comes
behind it, and fails the document otherwise. -/
theorem Spells.readParts_eq (h : Spells 0 events value) (hvalue : value.mapping? = none)
    (yields : Yields s events s') : (readParts entries s).1 =
      if entries = [] ∧ (peek s').1 = .ok .endOfStream then .ok value
      else .error (topLevelError value) := by
  obtain ⟨token, peeked, hpeek, hend, hkey, hread⟩ := h.exists_peek_of_yields yields
  obtain ⟨behind, hbehind⟩ := TotalPeek.exists_token s'
  rw [readParts_other hpeek hend hkey hread (ne_mapping_of_mapping? hvalue)]
  simp only [hbehind, Except.ok.injEq]
  by_cases hentries : entries = []
  · by_cases hstop : behind = .endOfStream <;> simp [Except.bind, hentries, hstop]
  · simp [hentries]

end TotalPeek

end Value

/-! ### Scripts -/

/-- The written tokens are the first parts of a document, which join into the entries. -/
def JoinedBy (front : List ScriptItem) (entries : OrderedMap Value) : Prop :=
  ∃ events : List Event, front.map ScriptItem.event? = events.map some ∧
    Value.Joins [] events entries

/-- The written tokens are at their end. -/
def AtEnd (items : List ScriptItem) : Prop :=
  ∀ item ∈ items.head?, item.token = .endOfStream

instance (items : List ScriptItem) : Decidable (AtEnd items) :=
  inferInstanceAs (Decidable (∀ item ∈ items.head?, item.token = .endOfStream))

/-- A tree that is not a mapping is read as the document only if it is all that is written, and any
part before it and anything behind it fails the document. -/
def StandsAlone (items : List ScriptItem) : Prop :=
  (∀ value, (Value.readDocument (Script.ofList items)).1 = .ok value → value.mapping? = none →
    ∃ word rest, items = word ++ rest ∧ SpelledBy word value ∧ AtEnd rest) ∧
  ∀ front word rest entries value, items = front ++ (word ++ rest) → JoinedBy front entries →
    SpelledBy word value → value.mapping? = none → (front ≠ [] ∨ ¬ AtEnd rest) →
    ∃ error, (Value.readDocument (Script.ofList items)).1 = .error error

namespace Script

variable {items front word rest : List ScriptItem} {entries : OrderedMap Value} {value : Value}

theorem peek_eq_endOfStream_iff {script : Script} :
    (TokenStream.peek script).1 = .ok .endOfStream ↔ AtEnd script.items := by
  obtain ⟨items, path, scalar⟩ := script
  cases items with
  | nil => simp [AtEnd, TokenStream.peek, Script.peek]
  | cons item rest => simp [AtEnd, TokenStream.peek, Script.peek]

/-- What is read where a tree that is not a mapping comes behind the first parts of a document. -/
theorem readDocument_of_joinedBy (hfront : JoinedBy front entries) (hword : SpelledBy word value)
    (hvalue : value.mapping? = none) (rest : List ScriptItem) :
    (Value.readDocument (ofList (front ++ (word ++ rest)))).1 =
      if entries = [] ∧ AtEnd rest then .ok value else .error (Value.topLevelError value) := by
  obtain ⟨events, hevents, hjoins⟩ := hfront
  obtain ⟨more, hmore, hspells⟩ := hword
  obtain ⟨behind, first, hbehind⟩ := (yields_iff hjoins.event_ne).2
    ⟨front, (rfl : (ofList (front ++ (word ++ rest))).items = _), hevents⟩
  obtain ⟨after, second, hafter⟩ := (yields_iff hspells.event_ne).2 ⟨word, hbehind, hmore⟩
  rw [Value.readDocument, hjoins.readParts_eq first, hspells.readParts_eq hvalue second]
  simp only [peek_eq_endOfStream_iff, hafter]

/-- A tree that is not a mapping is read only behind parts without entries and at the end. -/
theorem exists_of_readDocument_eq_ok (h : (Value.readDocument (ofList items)).1 = .ok value)
    (hvalue : value.mapping? = none) : ∃ front word rest, items = front ++ (word ++ rest) ∧
      JoinedBy front [] ∧ SpelledBy word value ∧ AtEnd rest := by
  obtain ⟨events, script, yields, hstop, hdocument⟩ :=
    Value.exists_spells_of_readParts (Prod.ext h rfl)
  obtain ⟨result, rfl, -⟩ | ⟨-, before, tree, rfl, hjoins, hspells⟩ := hdocument.exists_joins
  · exact absurd hvalue (by simp [Value.mapping?])
  obtain ⟨middle, first, second⟩ := yields.of_append
  obtain ⟨front, hitems, hfront⟩ := (yields_iff hjoins.event_ne).1 ⟨middle, first, rfl⟩
  obtain ⟨word, hmiddle, hword⟩ := (yields_iff hspells.event_ne).1 ⟨script, second, rfl⟩
  refine ⟨front, word, script.items, ?_, ⟨before, hfront, hjoins⟩, ⟨tree, hword, hspells⟩, ?_⟩
  · rw [← hmiddle]
    exact hitems
  · exact peek_eq_endOfStream_iff.1 (congrArg Prod.fst hstop)

end Script

/-- Any other tree than a mapping is read as a document exactly if it stands alone in it, unless
parts that leave no entry behind come in front of one at the end. Where it comes behind the first
parts of a document, it is read if there are no entries in these parts and nothing behind it, and
fails the document with its type otherwise. -/
theorem standsAlone_iff (items : List ScriptItem) :
    (StandsAlone items ↔ ¬ ∃ front word rest value, front ≠ [] ∧ items = front ++ (word ++ rest) ∧
      JoinedBy front [] ∧ SpelledBy word value ∧ value.mapping? = none ∧ AtEnd rest) ∧
    ∀ front word rest entries value, items = front ++ (word ++ rest) → JoinedBy front entries →
      SpelledBy word value → value.mapping? = none →
      (Value.readDocument (Script.ofList items)).1 =
        if entries = [] ∧ AtEnd rest then .ok value
        else .error (.parse ("Unexpected top-level " ++ value.typeName ++ " in document")) := by
  have hread : ∀ front word rest entries value, items = front ++ (word ++ rest) →
      JoinedBy front entries → SpelledBy word value → value.mapping? = none →
      (Value.readDocument (Script.ofList items)).1 =
        if entries = [] ∧ AtEnd rest then .ok value else .error (Value.topLevelError value) := by
    rintro front word rest entries value rfl hfront hword hvalue
    exact Script.readDocument_of_joinedBy hfront hword hvalue rest
  refine ⟨⟨?_, fun hnone => ⟨?_, ?_⟩⟩, hread⟩
  · rintro ⟨-, hfails⟩ ⟨front, word, rest, value, hne, hitems, hfront, hword, hvalue, hend⟩
    obtain ⟨error, herror⟩ := hfails front word rest [] value hitems hfront hword hvalue (.inl hne)
    rw [hread front word rest [] value hitems hfront hword hvalue, if_pos ⟨rfl, hend⟩] at herror
    exact absurd herror (by simp)
  · intro value hok hvalue
    obtain ⟨front, word, rest, hitems, hfront, hword, hend⟩ :=
      Script.exists_of_readDocument_eq_ok hok hvalue
    -- the parts in front are none, as no others without entries come there
    obtain rfl : front = [] := by
      by_contra hne
      exact hnone ⟨front, word, rest, value, hne, hitems, hfront, hword, hvalue, hend⟩
    exact ⟨word, rest, hitems, hword, hend⟩
  · intro front word rest entries value hitems hfront hword hvalue hmore
    refine ⟨Value.topLevelError value, ?_⟩
    rw [hread front word rest entries value hitems hfront hword hvalue, if_neg]
    rintro ⟨rfl, hend⟩
    have hne : front ≠ [] := hmore.resolve_right (not_not.2 hend)
    exact hnone ⟨front, word, rest, value, hne, hitems, hfront, hword, hvalue, hend⟩

/-- An object without entries, and a scalar behind it. -/
def emptyObjectFirst : List ScriptItem :=
  [⟨.objectStart, none, ""⟩, ⟨.objectEnd, none, ""⟩, ⟨.value, some (.integer 1), ""⟩]

/-- The scalar is read as the whole document. -/
theorem not_standsAlone_emptyObjectFirst :
    (∀ item ∈ emptyObjectFirst, item.event?.isSome) ∧ ¬ StandsAlone emptyObjectFirst := by
  have hfront : JoinedBy [⟨.objectStart, none, ""⟩, ⟨.objectEnd, none, ""⟩] [] :=
    ⟨[.objectStart, .objectEnd], rfl,
      .object (.mapping (Nat.zero_le _) [] (by simp)) (.nil _)⟩
  have hword : SpelledBy [⟨.value, some (.integer 1), ""⟩] (.scalar (.integer 1)) :=
    ⟨[.value (.integer 1)], rfl, .scalar (Nat.zero_le _) _⟩
  have hread := Script.readDocument_of_joinedBy hfront hword rfl
  refine ⟨by decide, fun halone => ?_⟩
  obtain ⟨error, herror⟩ := halone.2 _ _ [] [] _ rfl hfront hword rfl (.inl (by simp))
  -- the empty object has left nothing behind that would fail the document
  have hok := (hread []).symm.trans herror
  rw [if_pos ⟨rfl, by simp [AtEnd]⟩] at hok
  exact absurd hok (by simp)

end LayeredConfig
