import LayeredConfig.Proofs.Document.Transition

/-!
# Brackets and paths of a document

The brackets that are open behind some events of a stream can be read off the events alone
(`openBrackets`), without looking at the parser. `Fits before item` says how an event has to
continue the events before it: ends close what is open, names and values stand at the paths that
the open brackets give them.

* `Tracks`: the frames of the parser are the open brackets. One call preserves this
  (`tracks_of_transition`), and so does a run (`tracks_of_run`).
* `fits_of_run`: in every run from the start of a document, every event fits to those before it.
-/

namespace LayeredConfig

/-- The event begins a value: a scalar, a null, an object or a list. -/
def Event.startsValue : Event → Bool
  | .value _ | .null | .objectStart | .listStart => true
  | _ => false

/-- An open bracket of a stream. -/
structure Bracket where
  /-- The start that has not been closed. -/
  start : Located
  /-- The number of values that have begun directly inside it. -/
  begun : Nat

namespace Bracket

/-- The brackets when one more value begins inside the innermost one. -/
def beginValue : List Bracket → List Bracket
  | [] => []
  | bracket :: outer => { bracket with begun := bracket.begun + 1 } :: outer

/-- The brackets that are open behind one more event, innermost first. -/
def track (brackets : List Bracket) (item : Located) : List Bracket :=
  match item.event with
  | .objectStart | .listStart => ⟨item, 0⟩ :: beginValue brackets
  | .objectEnd | .listEnd => brackets.tail
  | .value _ | .null => beginValue brackets
  | .key _ | .endOfStream => brackets

/-- The path of the innermost bracket, which is the root if none is open. -/
def innermostPath : List Bracket → String
  | [] => ""
  | bracket :: _ => bracket.start.path

end Bracket

/-- The brackets that are open behind some events, innermost first. -/
def openBrackets (items : List Located) : List Bracket := items.foldl Bracket.track []

theorem openBrackets_append_singleton (items : List Located) (item : Located) :
    openBrackets (items ++ [item]) = Bracket.track (openBrackets items) item := by
  rw [openBrackets, List.foldl_append]
  rfl

/-- The event continues the events before it. -/
structure Fits (before : List Located) (item : Located) : Prop where
  /-- The end of an object closes the innermost open bracket, an object with the same path. -/
  objectEnd : item.event = .objectEnd →
    ∃ begun outer, openBrackets before = ⟨⟨.objectStart, item.path⟩, begun⟩ :: outer
  /-- The end of a list closes the innermost open bracket, a list with the same path. -/
  listEnd : item.event = .listEnd →
    ∃ begun outer, openBrackets before = ⟨⟨.listStart, item.path⟩, begun⟩ :: outer
  /-- The stream ends when no bracket is open. -/
  endOfStream : item.event = .endOfStream → openBrackets before = []
  /-- A name stands below the path of the innermost open bracket. -/
  key : ∀ name, item.event = .key name →
    item.path = Path.join (Bracket.innermostPath (openBrackets before)) name
  /-- A value right behind a name stands at the path of the name. -/
  afterKey : ∀ earlier name path, before = earlier ++ [⟨.key name, path⟩] →
    item.event.startsValue → item.path = path
  /-- A value in a list stands at the path with its number, counted from zero. -/
  element : ∀ bracket outer, openBrackets before = bracket :: outer →
    bracket.start.event = .listStart → item.event.startsValue →
      item.path = Path.join bracket.start.path (toString bracket.begun)

namespace Document.Parser

/-- The frames of a parser, from the innermost one on, stand around the open brackets. The document
itself is a frame without a bracket, and values in a list are counted in its frame. -/
inductive Tracks : Frame → List Frame → List Bracket → Prop
  | document (key : Option String) : Tracks (.object key) [] []
  | object {outer : Frame} {enclosing : List Frame} {brackets : List Bracket}
      (h : Tracks outer enclosing brackets) (key : Option String) (begun : Nat) :
      Tracks (.object key) (outer :: enclosing)
        (⟨⟨.objectStart, framePath (outer :: enclosing)⟩, begun⟩ :: brackets)
  | list {outer : Frame} {enclosing : List Frame} {brackets : List Bracket}
      (h : Tracks outer enclosing brackets) (begun : Nat) :
      Tracks (.list begun) (outer :: enclosing)
        (⟨⟨.listStart, framePath (outer :: enclosing)⟩, begun⟩ :: brackets)

namespace Tracks

variable {frame : Frame} {enclosing : List Frame} {brackets : List Bracket}

/-- The path of the innermost bracket is that of the frames around the innermost one. -/
theorem framePath_eq (h : Tracks frame enclosing brackets) :
    framePath enclosing = Bracket.innermostPath brackets := by
  cases h <;> rfl

/-- A value that begins is counted on both sides. -/
theorem beginElement (h : Tracks frame enclosing brackets) :
    Tracks frame.beginElement enclosing (Bracket.beginValue brackets) := by
  cases h with
  | document key => exact .document key
  | object h key begun => exact .object h key (begun + 1)
  | list h begun => exact .list h (begun + 1)

/-- The last name does not matter for the brackets. -/
theorem of_object {key : Option String} (h : Tracks (.object key) enclosing brackets)
    (other : Option String) : Tracks (.object other) enclosing brackets := by
  cases h with
  | document => exact .document other
  | object h _ begun => exact .object h other begun

/-- An object in brackets is the innermost of the open ones. -/
theorem exists_eq_of_object {key : Option String} {outer : Frame}
    (h : Tracks (.object key) (outer :: enclosing) brackets) : ∃ begun more,
      brackets = ⟨⟨.objectStart, framePath (outer :: enclosing)⟩, begun⟩ :: more ∧
        Tracks outer enclosing more := by
  cases h with
  | object h _ begun => exact ⟨begun, _, rfl, h⟩

/-- A list is the innermost of the open brackets. -/
theorem exists_eq_of_list {begun : Nat} (h : Tracks (.list begun) enclosing brackets) :
    ∃ outer around more, enclosing = outer :: around ∧
      brackets = ⟨⟨.listStart, framePath enclosing⟩, begun⟩ :: more ∧ Tracks outer around more := by
  cases h with
  | list h => exact ⟨_, _, _, rfl, rfl, h⟩

/-- Inside a list the innermost frame counts what the bracket counts, at the same path. -/
theorem eq_of_listStart {bracket : Bracket} {outer : List Bracket}
    (h : Tracks frame enclosing (bracket :: outer)) (hlist : bracket.start.event = .listStart) :
    frame = .list bracket.begun ∧ framePath enclosing = bracket.start.path := by
  cases h with
  | object => exact absurd hlist (by simp)
  | list => exact ⟨rfl, rfl⟩

/-- Without a frame around the innermost one no bracket is open. -/
theorem eq_nil (h : Tracks frame [] brackets) : brackets = [] := by
  cases h
  rfl

end Tracks

variable {p p' : Parser} {item : Located} {items : List Located} {brackets : List Bracket}

/-- One call keeps the frames and the open brackets together. -/
theorem tracks_of_transition (h : Tracks p.frame p.enclosing brackets)
    (transition : Transition p item p') :
    Tracks p'.frame p'.enclosing (Bracket.track brackets item) := by
  cases transition with
  | objectStart => exact .object h.beginElement none 0
  | listStart => exact .list h.beginElement 0
  -- an end gives up the innermost frame and the bracket that it stands in
  | objectEnd hahead hframe henclosing =>
    rw [hframe, henclosing] at h
    obtain ⟨begun, more, rfl, hmore⟩ := h.exists_eq_of_object
    exact hmore
  | listEnd hahead hframe henclosing =>
    rw [hframe] at h
    obtain ⟨outer, around, more, heq, rfl, hmore⟩ := h.exists_eq_of_list
    obtain ⟨rfl, rfl⟩ := List.cons.inj (henclosing.symm.trans heq)
    exact hmore
  | key _ _ hframe =>
    rw [hframe] at h
    exact h.of_object _
  | value => exact h.beginElement
  | null => exact h.beginElement
  | endOfStream => exact h

/-- A run keeps the frames and the open brackets together. -/
theorem tracks_of_run (h : Tracks p.frame p.enclosing brackets)
    (run : Run Parser.next p items p') :
    Tracks p'.frame p'.enclosing (items.foldl Bracket.track brackets) := by
  induction run generalizing brackets with
  | nil => exact h
  | cons head _ ih => exact ih (tracks_of_transition h (transition_of_next head))

/-- Behind a run from the start of a document the frames stand around the open brackets. -/
theorem tracks_openBrackets {text : String} (run : Run Parser.next (.ofText text) items p) :
    Tracks p.frame p.enclosing (openBrackets items) :=
  tracks_of_run (p := .ofText text) (.document none) run

/-! ### Ends -/

/-- The end of an object stands at the path of the innermost bracket, the start of an object. -/
theorem eq_cons_of_objectEnd (h : Tracks p.frame p.enclosing brackets) {path : String}
    (transition : Transition p ⟨.objectEnd, path⟩ p') :
    ∃ begun outer, brackets = ⟨⟨.objectStart, path⟩, begun⟩ :: outer := by
  cases transition with
  | objectEnd hahead hframe henclosing =>
    rw [hframe, henclosing] at h
    obtain ⟨begun, more, rfl, -⟩ := h.exists_eq_of_object
    exact ⟨begun, more, by rw [henclosing]⟩

/-- The end of a list stands at the path of the innermost bracket, the start of a list. -/
theorem eq_cons_of_listEnd (h : Tracks p.frame p.enclosing brackets) {path : String}
    (transition : Transition p ⟨.listEnd, path⟩ p') :
    ∃ begun outer, brackets = ⟨⟨.listStart, path⟩, begun⟩ :: outer := by
  cases transition with
  | @listEnd rest begun outer enclosing hahead hframe henclosing =>
    rw [hframe] at h
    obtain ⟨_, _, more, -, rfl, -⟩ := h.exists_eq_of_list
    exact ⟨begun, more, rfl⟩

/-- The document ends when no bracket is open. -/
theorem eq_nil_of_endOfStream (h : Tracks p.frame p.enclosing brackets) {path : String}
    (transition : Transition p ⟨.endOfStream, path⟩ p') : brackets = [] := by
  cases transition with
  | endOfStream hahead henclosing =>
    rw [henclosing] at h
    exact h.eq_nil

/-! ### Paths -/

/-- A value stands at the path of the next element of a list, or at that of the last name. -/
theorem path_of_startsValue (transition : Transition p item p') (h : item.event.startsValue) :
    item.path = p.beginElement.path := by
  cases transition with
  | objectStart | listStart | value | null => rfl
  | objectEnd | listEnd | key | endOfStream => simp [Event.startsValue] at h

/-- A name stands below the path of the innermost bracket. -/
theorem path_of_key (h : Tracks p.frame p.enclosing brackets) {name path : String}
    (transition : Transition p ⟨.key name, path⟩ p') :
    path = Path.join (Bracket.innermostPath brackets) name := by
  cases transition with
  | key => rw [h.framePath_eq]

/-- The value right behind a name stands at the path of the name. -/
theorem path_of_afterKey {name path : String} (before : Transition p ⟨.key name, path⟩ p')
    {p'' : Parser} (transition : Transition p' item p'') (h : item.event.startsValue) :
    item.path = path := by
  rw [path_of_startsValue transition h]
  cases before with
  | key => rfl

/-- A value in a list stands at the path with its number. -/
theorem path_of_element {bracket : Bracket} {outer : List Bracket}
    (h : Tracks p.frame p.enclosing (bracket :: outer)) (hlist : bracket.start.event = .listStart)
    (transition : Transition p item p') (hitem : item.event.startsValue) :
    item.path = Path.join bracket.start.path (toString bracket.begun) := by
  obtain ⟨hframe, hpath⟩ := h.eq_of_listStart hlist
  rw [path_of_startsValue transition hitem, ← hpath]
  simp only [beginElement, path, hframe, Frame.beginElement, framePath, Frame.extend]

/-- In every run from the start of a document, the last event fits to those before it. -/
theorem fits_of_run {text : String} (run : Run Parser.next (.ofText text) (items ++ [item]) p) :
    Fits items item := by
  obtain ⟨p₁, first, last⟩ := run.of_append
  -- the last call is made where the frames stand around the brackets that are open
  have tracks := tracks_openBrackets first
  cases last with
  | cons head _ =>
    have transition := transition_of_next head
    obtain ⟨event, path⟩ := item
    refine ⟨?objectEnd, ?listEnd, ?endOfStream, ?key, ?afterKey, ?element⟩
    case objectEnd =>
      rintro rfl
      exact eq_cons_of_objectEnd tracks transition
    case listEnd =>
      rintro rfl
      exact eq_cons_of_listEnd tracks transition
    case endOfStream =>
      rintro rfl
      exact eq_nil_of_endOfStream tracks transition
    case key =>
      rintro name rfl
      exact path_of_key tracks transition
    case afterKey =>
      rintro earlier name path rfl hstarts
      -- the call before the last one gave the name
      obtain ⟨p₀, -, second⟩ := first.of_append
      cases second with
      | cons hkey tail =>
        cases tail
        exact path_of_afterKey (transition_of_next hkey) transition hstarts
    case element =>
      intro bracket outer hbrackets hlist hstarts
      rw [hbrackets] at tracks
      exact path_of_element tracks hlist transition hstarts

/-- The beginning of a document with an object and a list in a list. -/
def nestedList : List Located :=
  [⟨.key "l", "l"⟩, ⟨.listStart, "l"⟩, ⟨.value (.string "a"), "l.0"⟩, ⟨.objectStart, "l.1"⟩,
    ⟨.key "b", "l.1.b"⟩, ⟨.value (.integer 1), "l.1.b"⟩, ⟨.objectEnd, "l.1"⟩, ⟨.listStart, "l.2"⟩]

theorem fits_of_run_nestedList : Fits nestedList ⟨.value (.string "c"), "l.2.0"⟩ := by
  have run : Run Parser.next (.ofText "l: [a, {b: 1}, [c")
      (nestedList ++ [⟨.value (.string "c"), "l.2.0"⟩])
      ⟨"l: [a, {b: 1}, [c".toList, [], .list 1, [.list 3, .object (some "l")], false⟩ := by
    decide +kernel
  exact fits_of_run run

end Document.Parser

end LayeredConfig
