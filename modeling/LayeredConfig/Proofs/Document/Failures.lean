import LayeredConfig.Proofs.Document.Coordinates
import LayeredConfig.Proofs.Document.Nesting
import LayeredConfig.Proofs.Source.Assign
import LayeredConfig.Proofs.Stream.ReadOnce

/-!
# Errors of a document

A call that fails says where the text is wrong: at a line and a column that only one boundary of the
text has, between the position of the call and the end. If a value was to be read, the error also
has the path of the value. The path can be told from the calls before: in a list it is the number of
the element, in an object the last name (`Bracket.valuePath`).

* `Follows`: the parser stands where the calls tell. A move preserves it, also one that fails
  (`Follows.next`), and so does any sequence of calls (`Follows.afterCalls`).
* `pointsAhead_of_failure`: what a failed call says.
* `locatesErrors`: the same for any calls on any text, and loading the text fails in the same place.
-/

namespace LayeredConfig

/-- The path of a value that begins inside brackets: its number in a list, and otherwise the path
of the last token, which is its name. -/
def Bracket.valuePath (brackets : List Bracket) (last : String) : String :=
  match brackets with
  | ⟨⟨.listStart, path⟩, begun⟩ :: _ => Path.join path (toString begun)
  | _ => last

namespace Document.Parser

variable {p p' : Parser} {item : Located} {items : List Located} {brackets : List Bracket}
  {error : Error} {r : Reader Parser} {text : String}

/-! ### What a failed call says -/

/-- A failure is reported at a place ahead. -/
theorem exists_place_of_failure (failure : Failure p error p') :
    ∃ place, place <:+ p.rest ∧ error.kind = .parse ∧
      error.location = some ⟨"<input>", some (p.locate place).1, some (p.locate place).2⟩ := by
  cases failure with
  | unopened hahead | mismatched hahead | unclosed hahead =>
    exact ⟨_, suffix_of_skipSeparators_eq hahead List.suffix_rfl, rfl, rfl⟩
  | key hahead _ _ hscan =>
    have hplace := (within_of_scanKey_error hscan).place_suffix
    exact ⟨_, suffix_of_skipSeparators_eq hahead hplace, rfl, rfl⟩
  | value hahead _ _ _ hscan =>
    have hplace := (within_of_scanValue_error hscan).place_suffix
    exact ⟨_, suffix_of_skipSeparators_eq hahead hplace, rfl, rfl⟩

/-- The error has the path of the value that was to be read, if one was. -/
theorem path_of_failure (failure : Failure p error p') :
    p.skip.upcoming = .value ∧ p.ExpectsValue ∧ p.rest ≠ [] ∧
        error.path = some p.beginElement.path ∨
      p.skip.upcoming ≠ .value ∧ error.path = none := by
  cases failure with
  | unopened hahead hc =>
    refine .inr ⟨?_, rfl⟩
    rcases hc with rfl | rfl <;> simp [skip, upcoming, hahead]
  | mismatched hahead hc =>
    refine .inr ⟨?_, rfl⟩
    rcases hc with ⟨rfl, -⟩ | ⟨rfl, -⟩ <;> simp [skip, upcoming, hahead]
  | key hahead hc hexpects =>
    exact .inr ⟨by simp [upcoming_of_not_expectsValue hahead hc hexpects], rfl⟩
  | value hahead hc hexpects hnull =>
    refine .inl ⟨?_, hexpects, ?_, rfl⟩
    · rw [upcoming_of_expectsValue (p := p.skip) hexpects hahead hc,
        show p.skip.rest = _ from hahead, if_neg hnull]
    · intro hnil
      rw [hnil] at hahead
      exact absurd hahead (by simp [skipSeparators, skipFrom])
  | unclosed hahead => exact .inr ⟨by simp [skip, upcoming, hahead], rfl⟩

/-! ### What the calls before it tell -/

/-- What an answer of the parser adds to the events. A value that could not be read, of which the
error has the path, has begun all the same and counts like a null. -/
def began : Except Error Located → List Located
  | .ok item => [item]
  | .error error => error.path.toList.map fun path => ⟨.null, path⟩

/-- The events that calls of a reader take, with the values that have begun and could not be
read. -/
def begunBy (r : Reader Parser) : List Call → List Located
  | [] => []
  | .next :: rest => began (EventSource.next r.events).1 ++ begunBy (Call.next.run r).2 rest
  | call :: rest => begunBy (call.run r).2 rest

/-- The reader stands behind the events: its frames stand around the brackets that the events have
opened, and behind a name it is at the path of the name. -/
structure Follows (items : List Located) (r : Reader Parser) : Prop where
  tracks : Tracks r.events.frame r.events.enclosing (openBrackets items)
  /-- Only with text ahead, as the end of the document may come behind a name and has no path. -/
  path_eq : r.events.afterKey = true → r.events.frame.isList = false → r.events.rest ≠ [] →
    r.events.path = TokenStream.currentPath r

/-- A failed call keeps the frames and the brackets together. -/
theorem tracks_of_failure (h : Tracks p.frame p.enclosing (openBrackets items))
    (failure : Failure p error p') :
    Tracks p'.frame p'.enclosing (openBrackets (items ++ began (.error error))) := by
  cases failure with
  | value =>
    -- the element has begun in the frame and, as a null, in the brackets
    show Tracks _ _ (openBrackets (items ++ [⟨.null, p.beginElement.path⟩]))
    rw [openBrackets_append_singleton]
    exact h.beginElement
  | unopened | mismatched | key | unclosed =>
    show Tracks p.frame p.enclosing (openBrackets (items ++ []))
    rwa [List.append_nil]

/-- Outside a list a failed call leaves the path as it is. -/
theorem path_eq_of_failure (failure : Failure p error p') (hlist : p'.frame.isList = false) :
    p'.afterKey = p.afterKey ∧ p.frame.isList = false ∧ p'.path = p.path := by
  cases failure with
  | unopened | mismatched | key | unclosed => exact ⟨rfl, hlist, rfl⟩
  | value =>
    have hobject : p.frame.isList = false := (isList_beginElement p.frame).symm.trans hlist
    refine ⟨rfl, hobject, ?_⟩
    show framePath (p.frame.beginElement :: p.enclosing) = framePath (p.frame :: p.enclosing)
    cases hframe : p.frame with
    | object key => rfl
    | list begun => simp [hframe, Frame.isList] at hobject

/-- Behind a name the parser is at the path of the name, until the text ends. -/
theorem path_eq_of_transition (transition : Transition p item p') (hafter : p'.afterKey = true)
    (hrest : p'.rest ≠ []) : p'.path = item.path := by
  cases transition with
  | key => rfl
  | endOfStream hahead => exact absurd hahead hrest
  | objectStart | listStart | objectEnd | listEnd | value | null =>
    exact absurd hafter (by simp [behind])

/-- Directly inside an object a value has the path of its name. -/
theorem Tracks.valuePath_of_object {key : Option String} {enclosing : List Frame}
    (h : Tracks (.object key) enclosing brackets) (last : String) :
    Bracket.valuePath brackets last = last := by
  cases h <;> rfl

namespace Follows

theorem ofText (text : String) : Follows [] (reader text) :=
  ⟨.document none, fun hafter => absurd hafter (by simp [reader, Parser.ofText])⟩

/-- A move follows the events, whether it gives one or fails. -/
theorem next (h : Follows items r) : Follows (items ++ began (EventSource.next r.events).1)
    (Call.next.run r).2 := by
  rcases hnext : EventSource.next r.events with ⟨error | item, p'⟩
  · have hrun : (Call.next.run r).2 = ⟨p', r.slot⟩ :=
      congrArg Prod.snd (TokenStream.next_of_events_error hnext r.slot)
    have failure := failure_of_next hnext
    rw [hrun]
    refine ⟨tracks_of_failure h.tracks failure, fun hafter hlist hrest => ?_⟩
    obtain ⟨hafter', hlist', hpath⟩ := path_eq_of_failure failure hlist
    -- there was text ahead before the call, as there still is some
    have hrest' : r.events.rest ≠ [] := by
      intro hnil
      have hread := (readOn_of_failure failure).1.rest_suffix
      rw [hnil] at hread
      exact hrest (List.suffix_nil.1 hread)
    exact hpath.trans (h.path_eq (hafter'.symm.trans hafter) hlist' hrest')
  · have hrun : (Call.next.run r).2 = ⟨p', .ofLocated item⟩ :=
      congrArg Prod.snd (TokenStream.next_of_events hnext r.slot)
    have transition := transition_of_next hnext
    rw [hrun]
    refine ⟨?_, fun hafter _ hrest => ?_⟩
    · show Tracks _ _ (openBrackets (items ++ [item]))
      rw [openBrackets_append_singleton]
      exact tracks_of_transition h.tracks transition
    · show p'.path = (Slot.ofLocated item).path
      rw [Slot.path_ofLocated]
      exact path_eq_of_transition transition hafter hrest

/-- Looking ahead takes only separators. -/
theorem peek (h : Follows items r) : Follows items (Call.peek.run r).2 := by
  refine ⟨h.tracks, fun hafter hlist hrest => h.path_eq hafter hlist fun hnil => hrest ?_⟩
  show skipSeparators r.events.rest = []
  rw [hnil]
  rfl

/-- Any calls of a reader follow the events that they take. -/
theorem afterCalls (h : Follows items r) (calls : List Call) :
    Follows (items ++ begunBy r calls) (TokenStream.afterCalls r calls) := by
  induction calls generalizing items r with
  | nil =>
    show Follows (items ++ []) r
    rwa [List.append_nil]
  | cons call rest ih =>
    cases call with
    | next =>
      have hrest := ih h.next
      rwa [List.append_assoc] at hrest
    | peek => exact ih h.peek
    | currentPath => exact ih h
    -- a reading takes the scalar, but neither the path nor anything of the parser
    | readScalar | readString | readBool | readInt64 | readFloat | readBytes =>
      refine ih ⟨h.tracks, fun hafter hlist hrest => ?_⟩
      exact (h.path_eq hafter hlist hrest).trans (Slot.path_take r.slot).symm

/-- The value ahead has the path that the events and the last path tell. -/
theorem valuePath_eq (h : Follows items r) (hexpects : r.events.ExpectsValue)
    (hrest : r.events.rest ≠ []) : r.events.beginElement.path =
      Bracket.valuePath (openBrackets items) (TokenStream.currentPath r) := by
  cases hframe : r.events.frame with
  | list begun =>
    have htracks := h.tracks
    rw [hframe] at htracks
    obtain ⟨outer, around, more, -, hbrackets, -⟩ := htracks.exists_eq_of_list
    rw [hbrackets]
    simp only [beginElement, path, hframe, Frame.beginElement, framePath, Frame.extend,
      Bracket.valuePath]
  | object key =>
    -- no list is innermost, and the value stands behind a name
    have hafter : r.events.afterKey = true := by
      simpa [ExpectsValue, hframe, Frame.isList] using hexpects
    have hpath : r.events.beginElement.path = r.events.path := by
      simp only [beginElement, path, hframe, Frame.beginElement]
    have htracks := h.tracks
    rw [hframe] at htracks
    rw [hpath, h.path_eq hafter (by simp [hframe, Frame.isList]) hrest, htracks.valuePath_of_object]

end Follows

/-! ### All errors -/

/-- What the error of a call says about the text, where the reader stands behind the events. -/
structure PointsAhead (text : String) (items : List Located) (r : Reader Parser) (error : Error) :
    Prop where
  kind : error.kind = .parse
  /-- The line and the column are those of one boundary only, which the reader has not passed. -/
  place : ∃ file line column, error.location = some ⟨file, some line, some column⟩ ∧
    ∃ o, (∀ o', IsAt text line column o' ↔ o' = o) ∧ r.events.position ≤ o ∧ o ≤ text.rawEndPos
  /-- If a value is ahead, the error has its path. -/
  path_value : (TokenStream.peek r).1 = .ok .value → error.path =
    some (Bracket.valuePath (openBrackets items) (TokenStream.currentPath r))
  /-- If anything else is ahead, the error has no path. -/
  path_other : (TokenStream.peek r).1 ≠ .ok .value → error.path = none

/-- Every error points ahead. -/
theorem pointsAhead_of_failure {tokens : List Token} (hinside : Inside text tokens r.events)
    (hfollows : Follows items r) (failure : Failure r.events error p') :
    PointsAhead text items r error := by
  obtain ⟨place, hplace, hkind, hlocation⟩ := exists_place_of_failure failure
  -- the place is the position of a parser that has it ahead, so it lies behind the reader's
  have hat := isAt_locate hinside.text_eq (hplace.trans hinside.rest_suffix)
  have hle : r.events.position ≤ position { r.events with rest := place } :=
    ReadOn.position_le ⟨rfl, hplace⟩
  have hpath := path_of_failure failure
  refine ⟨hkind, ⟨_, _, _, hlocation, _, fun o' => ⟨(·.unique hat), ?_⟩, hle, hat.le_rawEndPos⟩,
    ?_, ?_⟩
  · rintro rfl
    exact hat
  · intro hpeek
    have hupcoming : r.events.skip.upcoming = .value := Except.ok.inj hpeek
    obtain ⟨-, hexpects, hrest, hpath⟩ | ⟨hother, -⟩ := hpath
    · rw [hpath, hfollows.valuePath_eq hexpects hrest]
    · exact absurd hupcoming hother
  · intro hpeek
    obtain ⟨hupcoming, -⟩ | ⟨-, hpath⟩ := hpath
    · exact absurd (congrArg Except.ok hupcoming) hpeek
    · exact hpath

/-- A drain has no error and the text is loaded, or it has one error and loading fails with it. -/
theorem drain_and_parse (name text : String) :
    (∀ fault, .error fault ∉ (TokenStream.drain (reader text)).1) ∧
        (∃ document, DocumentSource.parse name text = .ok document) ∨
      ∃ p error p', Failure p error p' ∧
        (∀ fault, .error fault ∈ (TokenStream.drain (reader text)).1 ↔ fault = error) ∧
        DocumentSource.parse name text = .error (error.inFile name) := by
  -- draining and loading follow one run of the parser, and stop where it stops
  obtain ⟨items, p, run, hitems, ⟨path, after, hend⟩ | ⟨error, after, herror⟩⟩ :=
    TokenStream.exists_run (ofText text)
  · refine .inl ⟨fun fault => ?_, ?_⟩
    · rw [reader, TokenStream.drain_of_run_end run hitems hend]
      simp
    · have hvalues := DocumentSource.assignAll_of_run run hitems []
      rw [DocumentSource.assignAll_of_next_end hend] at hvalues
      rw [DocumentSource.parse, hvalues]
      exact ⟨_, rfl⟩
  · refine .inr ⟨p, error, after, failure_of_next herror, fun fault => ?_, ?_⟩
    · rw [reader, TokenStream.drain_of_run_error run hitems herror]
      simp
    · have hvalues := DocumentSource.assignAll_of_run run hitems []
      rw [DocumentSource.assignAll_of_next_error herror] at hvalues
      rw [DocumentSource.parse, hvalues]

/-- The errors that the text gives, token by token and as a whole. -/
structure LocatesErrors (text : String) : Prop where
  /-- Every error of a move points ahead, whatever has been called before. -/
  pointsAhead : ∀ calls error,
    (TokenStream.next (TokenStream.afterCalls (reader text) calls)).1 = .error error →
      PointsAhead text (begunBy (reader text) calls)
        (TokenStream.afterCalls (reader text) calls) error
  /-- Where a drain has an error, loading the text fails with the same error in the named file. -/
  parse_eq : ∀ name fault, .error fault ∈ (TokenStream.drain (reader text)).1 →
    ∃ file line column, fault.location = some ⟨file, some line, some column⟩ ∧
      DocumentSource.parse name text =
        .error (fault.withLocation ⟨name, some line, some column⟩)
  /-- Loading the text fails only where a drain has an error. -/
  exists_fault : ∀ name error, DocumentSource.parse name text = .error error →
    ∃ fault, .error fault ∈ (TokenStream.drain (reader text)).1

/-- Every text locates its errors. -/
theorem locatesErrors (text : String) : LocatesErrors text := by
  refine ⟨?pointsAhead, ?parse_eq, ?exists_fault⟩
  case pointsAhead =>
    intro calls error herror
    have hinside := (Inside.ofText text).afterCalls (r := reader text) calls
    obtain ⟨p', hnext⟩ := TokenStream.exists_next_of_error herror
    exact pointsAhead_of_failure hinside ((Follows.ofText text).afterCalls calls)
      (failure_of_next hnext)
  case parse_eq =>
    intro name fault hfault
    obtain ⟨hnone, -⟩ | ⟨p, error, p', failure, hdrain, hparse⟩ := drain_and_parse name text
    · exact absurd hfault (hnone fault)
    · obtain rfl := (hdrain fault).1 hfault
      obtain ⟨place, -, -, hlocation⟩ := exists_place_of_failure failure
      refine ⟨_, _, _, hlocation, ?_⟩
      rw [hparse, Error.inFile, hlocation]
      rfl
  case exists_fault =>
    intro name error herror
    obtain ⟨-, document, hparse⟩ | ⟨p, fault, p', -, hdrain, -⟩ := drain_and_parse name text
    · rw [hparse] at herror
      exact absurd herror (by simp)
    · exact ⟨fault, (hdrain fault).2 rfl⟩

/-- A quote that is never closed is the second element of its list, in the second line. -/
theorem locatesErrors_openQuote :
    (TokenStream.next (TokenStream.afterCalls (reader "l: [x,\n\"y") [.next, .next, .next])).1 =
        .error ((Error.parseAt "Unterminated quoted string" 2 1).withPath "l.1") ∧
      PointsAhead "l: [x,\n\"y" [⟨.key "l", "l"⟩, ⟨.listStart, "l"⟩, ⟨.value (.string "x"), "l.0"⟩]
        (TokenStream.afterCalls (reader "l: [x,\n\"y") [.next, .next, .next])
        ((Error.parseAt "Unterminated quoted string" 2 1).withPath "l.1") := by
  have hnext :
      (TokenStream.next (TokenStream.afterCalls (reader "l: [x,\n\"y") [.next, .next, .next])).1 =
        .error ((Error.parseAt "Unterminated quoted string" 2 1).withPath "l.1") := by
    decide +kernel
  have hbegun : begunBy (reader "l: [x,\n\"y") [.next, .next, .next] =
      [⟨.key "l", "l"⟩, ⟨.listStart, "l"⟩, ⟨.value (.string "x"), "l.0"⟩] := by
    decide +kernel
  refine ⟨hnext, ?_⟩
  rw [← hbegun]
  exact (locatesErrors _).pointsAhead _ _ hnext

end Document.Parser

end LayeredConfig
