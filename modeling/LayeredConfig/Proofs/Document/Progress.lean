import LayeredConfig.Proofs.Document.Closers
import LayeredConfig.Proofs.Stream.Calls

/-!
# Safety and progress of the document parser

Whatever is asked of a parser, and also behind calls that failed, what it has ahead is the end of
its text (`ReadOn`), and the frames are those of the brackets that the tokens have opened and not
closed. `Inside` says so for one state; every call preserves it (`Inside.run`), and so does any
sequence of calls (`Inside.afterCalls`).

* `readOn_next`: no call gives text back, and a call with a token takes some (`rest_ne_of_next`).
* `length_drain_le`, `exists_drain_eq`: a drain ends within its bound, by the end or an error.
* `progresses_afterCalls`: the position is a character boundary that only moves on, the document
  stays the outermost frame, and the tokens count the open brackets.
-/

namespace LayeredConfig.Document

variable {text rest read chars : List Char} {c : Char} {fault : ScanFault}

/-! ### Where scans stop -/

/-- A fault is not changed with the result. -/
theorem eq_error_of_map_eq_error {α β : Type} {scan : Scan α} {f : α × List Char → β × List Char}
    (h : scan.map f = .error fault) : scan = .error fault := by
  cases scan with
  | error other => exact congrArg _ (Except.error.inj h)
  | ok found => exact absurd h (by simp [Except.map])

theorem skipFrom_suffix (inComment : Bool) (text : List Char) :
    skipFrom inComment text <:+ text := by
  induction text generalizing inComment with
  | nil => exact List.suffix_rfl
  | cons c tail ih =>
    have htail := fun inComment => (ih inComment).trans (List.suffix_cons c tail)
    unfold skipFrom
    split
    · exact htail _
    · split
      · exact htail _
      · split
        · exact htail _
        · exact List.suffix_rfl

theorem skipSeparators_suffix (text : List Char) : skipSeparators text <:+ text :=
  skipFrom_suffix false text

/-- What ends the text behind the separators ends the text. -/
theorem suffix_of_skipSeparators_eq (h : skipSeparators text = read) (hrest : rest <:+ read) :
    rest <:+ text :=
  hrest.trans (h ▸ skipSeparators_suffix text)

/-- The fault lies in the text: it is reported at a place there, and scanning stopped there. -/
structure ScanFault.Within (fault : ScanFault) (text : List Char) : Prop where
  place_suffix : fault.place <:+ text
  rest_suffix : fault.rest <:+ text

namespace ScanFault

theorem within_here (flaw : Flaw) (text : List Char) : (here flaw text).Within text :=
  ⟨List.suffix_rfl, List.suffix_rfl⟩

/-- What lies in the end of a text lies in the text. -/
theorem Within.of_suffix (h : fault.Within rest) (hrest : rest <:+ text) : fault.Within text :=
  ⟨h.place_suffix.trans hrest, h.rest_suffix.trans hrest⟩

end ScanFault

theorem within_of_scanEscape_error (h : scanEscape text = .error fault) : fault.Within text := by
  unfold scanEscape at h
  split at h
  next =>
    obtain rfl := Except.error.inj h
    exact ScanFault.within_here _ _
  next c tail =>
    split at h
    next =>
      have hunicode := eq_error_of_map_eq_error h
      unfold scanUnicodeEscape at hunicode
      split at hunicode
      -- only missing digits are a fault, and they are looked for behind the letter
      next =>
        obtain rfl := Except.error.inj hunicode
        exact (ScanFault.within_here _ _).of_suffix (List.suffix_cons c tail)
      next =>
        split at hunicode
        · split at hunicode <;> exact absurd hunicode (by simp)
        · exact absurd hunicode (by simp)
    next => exact absurd h (by simp)

/-- A quote that is not closed is reported where it opens, any other fault where it is met. -/
theorem within_of_scanQuoted_error {opening : List Char}
    (h : scanQuoted opening read text = .error fault) (htext : text <:+ opening) :
    fault.Within opening := by
  fun_induction scanQuoted opening read text with
  | case1 | case3 =>
    obtain rfl := Except.error.inj h
    exact ⟨List.suffix_rfl, List.nil_suffix⟩
  | case2 => exact absurd h (by simp)
  | case4 read tail _ fault' hescape =>
    obtain rfl := Except.error.inj h
    exact (within_of_scanEscape_error hescape).of_suffix ((List.suffix_cons _ _).trans htext)
  | case5 read tail _ decoded behind hescape ih =>
    obtain ⟨front, rfl, -⟩ := exists_front_of_scanEscape hescape
    exact ih h (((List.suffix_append front behind).trans (List.suffix_cons _ _)).trans htext)
  | case6 read c tail _ _ ih => exact ih h ((List.suffix_cons _ _).trans htext)

theorem within_of_extendName_error (h : extendName read c text = .error fault) :
    fault.Within text := by
  unfold extendName at h
  split at h
  next => exact within_of_scanEscape_error (eq_error_of_map_eq_error h)
  next => split at h <;> exact absurd h (by simp)

theorem within_of_scanName_error (h : scanName read c text = .error fault) :
    fault.Within text := by
  fun_induction scanName read c text with
  | case1 => exact absurd h (by simp)
  | case2 read c text _ fault' hextend =>
    obtain rfl := Except.error.inj h
    exact within_of_extendName_error hextend
  | case3 =>
    obtain rfl := Except.error.inj h
    exact (ScanFault.within_here _ _).of_suffix List.nil_suffix
  | case4 => exact absurd h (by simp)
  | case5 read c text _ read' behind hextend c' rest' hskip _ ih =>
    obtain ⟨front, rfl, -⟩ := exists_front_of_extendName hextend
    have hbehind := suffix_of_skipSeparators_eq hskip (List.suffix_cons c' rest')
    exact (ih h).of_suffix (hbehind.trans (List.suffix_append front behind))

theorem within_of_scanKey_error (h : scanKey text = .error fault) : fault.Within text := by
  unfold scanKey at h
  split at h
  next =>
    obtain rfl := Except.error.inj h
    exact ScanFault.within_here _ _
  next c tail =>
    split at h
    next =>
      split at h
      next fault' hquoted =>
        obtain rfl := Except.error.inj h
        exact within_of_scanQuoted_error hquoted (List.suffix_cons c tail)
      next chars behind hquoted =>
        obtain ⟨inside, rfl, -⟩ := exists_front_of_scanQuoted hquoted
        dsimp only at h
        split at h
        next =>
          obtain rfl := Except.error.inj h
          exact (ScanFault.within_here _ _).of_suffix List.nil_suffix
        next c' rest' hskip =>
          split at h
          next => exact absurd h (by simp)
          split at h
          next => exact absurd h (by simp)
          -- the separator is looked for behind the closing quote
          next =>
            obtain rfl := Except.error.inj h
            have hbehind := suffix_of_skipSeparators_eq hskip List.suffix_rfl
            exact (ScanFault.within_here _ _).of_suffix (hbehind.trans
              ((List.suffix_cons '"' behind).trans
                ((List.suffix_append inside _).trans (List.suffix_cons c _))))
    next =>
      exact (within_of_scanName_error (eq_error_of_map_eq_error h)).of_suffix
        (List.suffix_cons c tail)

theorem within_of_scanValue_error (h : Parser.scanValue text = .error fault) :
    fault.Within text := by
  unfold Parser.scanValue at h
  split at h
  next tail =>
    exact within_of_scanQuoted_error (eq_error_of_map_eq_error h) (List.suffix_cons _ _)
  next => exact absurd h (by simp)

namespace Parser

variable {p p' : Parser} {item : Located} {error : Error}

/-! ### One call -/

/-- The parser has read on: it has the same text, and of what was ahead the end. -/
structure ReadOn (p p' : Parser) : Prop where
  text_eq : p'.text = p.text
  rest_suffix : p'.rest <:+ p.rest

/-- The kinds of the frames, innermost first: true for lists. -/
def kinds (p : Parser) : List Bool := (p.frame :: p.enclosing).map Frame.isList

theorem isList_beginElement (frame : Frame) : frame.beginElement.isList = frame.isList := by
  cases frame <;> rfl

theorem readOn_skip (p : Parser) : ReadOn p p.skip :=
  ⟨rfl, skipSeparators_suffix p.rest⟩

/-- A failed call takes some of the text and leaves the frames, up to the number of an element. -/
theorem readOn_of_failure (failure : Failure p error p') : ReadOn p p' ∧ p'.kinds = p.kinds := by
  cases failure with
  | unopened | mismatched | unclosed => exact ⟨readOn_skip p, rfl⟩
  | key hahead _ _ hscan =>
    have hrest := (within_of_scanKey_error hscan).rest_suffix
    exact ⟨⟨rfl, suffix_of_skipSeparators_eq hahead hrest⟩, rfl⟩
  | value hahead _ _ _ hscan =>
    have hrest := (within_of_scanValue_error hscan).rest_suffix
    refine ⟨⟨rfl, suffix_of_skipSeparators_eq hahead hrest⟩, ?_⟩
    simp [kinds, beginElement, isList_beginElement]

/-- A start opens a bracket, and an end closes one. -/
theorem depth_of_transition (transition : Transition p item p') :
    p'.depth + [item.event.token].countP Token.isEnd =
      p.depth + [item.event.token].countP Token.isStart := by
  cases transition with
  | objectStart | listStart => rfl
  | objectEnd _ _ henclosing | listEnd _ _ henclosing =>
    rw [depth, depth, henclosing]
    rfl
  | key | value | null | endOfStream => rfl

/-- The outermost frame keeps its kind: an end closes a frame only if there is another one. -/
theorem getLast?_kinds_of_transition (transition : Transition p item p') :
    p'.kinds.getLast? = p.kinds.getLast? := by
  have hcurrent : (p.frame.beginElement :: p.enclosing).map Frame.isList = p.kinds := by
    rw [kinds, List.map_cons, List.map_cons, isList_beginElement]
  cases transition with
  | objectStart | listStart => rw [← hcurrent, kinds, List.map_cons, List.map_cons,
      List.getLast?_cons_cons]
  | objectEnd _ _ henclosing | listEnd _ _ henclosing =>
    rw [kinds, kinds, henclosing, List.map_cons, List.map_cons, List.map_cons,
      List.getLast?_cons_cons]
  | key _ _ hframe => rw [kinds, kinds, hframe]; rfl
  | value | null => exact congrArg _ hcurrent
  | endOfStream => rfl

/-- No call gives text back, whether it succeeds or fails. -/
theorem readOn_next (p : Parser) : ReadOn p p.next.2 := by
  cases hresult : p.next.1 with
  | error error => exact (readOn_of_failure (failure_of_next (Prod.ext hresult rfl))).1
  | ok item =>
    have transition : Transition p item p.next.2 := transition_of_next (Prod.ext hresult rfl)
    obtain ⟨front, htaken⟩ := transition.exists_front
    refine ⟨?_, front, htaken.rest_eq.symm⟩
    generalize p.next.2 = p' at transition
    cases transition <;> rfl

/-- A token other than the end takes some of the text. -/
theorem rest_ne_of_next (h : p.next.1 = .ok item) (hne : item.event.token ≠ .endOfStream) :
    p.next.2.rest ≠ p.rest := by
  intro heq
  have hlt := EventSource.remaining_next_lt p h hne
  exact absurd (congrArg List.length heq) (Nat.ne_of_lt hlt)

/-! ### Positions -/

/-- The number of bytes of a text. -/
def byteSize (chars : List Char) : Nat := (String.ofList chars).utf8ByteSize

theorem byteSize_append (chars more : List Char) :
    byteSize (chars ++ more) = byteSize chars + byteSize more := by
  rw [byteSize, String.ofList_append, String.utf8ByteSize_append]
  rfl

theorem byteSize_pos (h : chars ≠ []) : 0 < byteSize chars := by
  rw [Nat.pos_iff_ne_zero, byteSize, ne_eq, String.utf8ByteSize_eq_zero_iff]
  intro heq
  exact h (by simpa using congrArg String.toList heq)

/-- The position in the text, in bytes: what is ahead is what follows it. -/
def position (p : Parser) : String.Pos.Raw := ⟨byteSize p.text - byteSize p.rest⟩

/-- What is ahead is the text from the position on, if it is the end of the text. -/
theorem exists_position_eq (h : p.rest <:+ p.text) :
    ∃ front, String.ofList p.text = front ++ String.ofList p.rest ∧
      p.position = front.rawEndPos := by
  obtain ⟨front, hfront⟩ := h
  refine ⟨String.ofList front, by rw [← String.ofList_append, hfront], ?_⟩
  rw [position, ← hfront, byteSize_append, Nat.add_sub_cancel]
  rfl

/-- Reading on does not move back. -/
theorem ReadOn.position_le (h : ReadOn p p') : p.position ≤ p'.position := by
  obtain ⟨htext, front, hfront⟩ := h
  rw [String.Pos.Raw.le_iff, position, position, htext, ← hfront, byteSize_append]
  exact Nat.sub_le_sub_left (Nat.le_add_left _ _) _

/-- Taking some of the text moves forward. -/
theorem ReadOn.position_lt (h : ReadOn p p') (hrest : p.rest <:+ p.text) (hne : p'.rest ≠ p.rest) :
    p.position < p'.position := by
  obtain ⟨htext, front, hfront⟩ := h
  have hfrontNe : front ≠ [] := by
    rintro rfl
    exact hne hfront
  have hpos := byteSize_pos hfrontNe
  obtain ⟨before, hbefore⟩ := hrest
  rw [String.Pos.Raw.lt_iff, position, position, htext, ← hbefore, ← hfront, byteSize_append,
    byteSize_append]
  dsimp only
  omega

/-! ### Any calls -/

/-- The token that a call takes from the stream, if it takes one. -/
def taken? : Call × Reply → Option Token
  | (.next, .token (.ok token)) => some token
  | _ => none

/-- Behind the tokens, the parser stands somewhere in the text, in the frames that the tokens have
opened and not closed and in that of the document. -/
structure Inside (text : String) (tokens : List Token) (p : Parser) : Prop where
  text_eq : p.text = text.toList
  rest_suffix : p.rest <:+ p.text
  bottom : p.kinds.getLast? = some false
  depth_eq : p.depth + tokens.countP Token.isEnd = tokens.countP Token.isStart

namespace Inside

variable {text : String} {tokens : List Token} {r : Reader Parser}

theorem ofText (text : String) : Inside text [] (.ofText text) :=
  ⟨rfl, List.suffix_rfl, rfl, rfl⟩

/-- Reading on in the same frames, without a token. -/
theorem readOn (h : Inside text tokens p) (hread : ReadOn p p') (hkinds : p'.kinds = p.kinds) :
    Inside text tokens p' := by
  have hdepth : p'.depth = p.depth := by
    simpa [kinds, depth] using congrArg List.length hkinds
  exact ⟨hread.text_eq.trans h.text_eq, hread.text_eq ▸ hread.rest_suffix.trans h.rest_suffix,
    hkinds ▸ h.bottom, hdepth ▸ h.depth_eq⟩

/-- Moving on to a token. -/
theorem transition (h : Inside text tokens p) (transition : Transition p item p') :
    Inside text (tokens ++ [item.event.token]) p' := by
  have hread : ReadOn p p' := by
    have hread := readOn_next p
    rwa [next_of_transition transition] at hread
  have hdepth := depth_of_transition transition
  have hbefore := h.depth_eq
  refine ⟨hread.text_eq.trans h.text_eq, hread.text_eq ▸ hread.rest_suffix.trans h.rest_suffix,
    (getLast?_kinds_of_transition transition).trans h.bottom, ?_⟩
  rw [List.countP_append, List.countP_append]
  omega

/-- Every call of a reader keeps its parser inside the text. -/
theorem run (h : Inside text tokens r.events) (call : Call) :
    Inside text (tokens ++ (taken? (call, (call.run r).1)).toList) (call.run r).2.events := by
  cases call with
  | peek =>
    show Inside text (tokens ++ []) r.events.skip
    rw [List.append_nil]
    exact h.readOn (readOn_skip r.events) rfl
  | next =>
    rw [show Call.next.run r = (.token r.next.1, r.next.2) from rfl, Reader.next]
    rcases hnext : EventSource.next r.events with ⟨error | item, p'⟩
    · show Inside text (tokens ++ []) p'
      obtain ⟨hread, hkinds⟩ := readOn_of_failure (failure_of_next hnext)
      rw [List.append_nil]
      exact h.readOn hread hkinds
    · exact h.transition (transition_of_next hnext)
  -- reading the scalar or the path does not touch the parser
  | _ =>
    show Inside text (tokens ++ []) r.events
    rwa [List.append_nil]

/-- Any calls of a reader keep its parser inside the text. -/
theorem afterCalls (h : Inside text tokens r.events) (calls : List Call) :
    Inside text (tokens ++ (TokenStream.replies r calls).filterMap taken?)
      (TokenStream.afterCalls r calls).events := by
  induction calls generalizing tokens r with
  | nil =>
    show Inside text (tokens ++ []) r.events
    rwa [List.append_nil]
  | cons call rest ih =>
    have hrest := ih (h.run call)
    rw [TokenStream.replies]
    cases htaken : taken? (call, (call.run r).1) with
    | none =>
      rw [htaken, Option.toList_none, List.append_nil] at hrest
      rwa [List.filterMap_cons_none htaken]
    | some token =>
      rw [htaken, Option.toList_some, List.append_assoc, List.singleton_append] at hrest
      rwa [List.filterMap_cons_some htaken]

end Inside

/-- What holds of a reader of the text behind calls that have taken the tokens. -/
structure Progresses (text : String) (tokens : List Token) (r : Reader Parser) : Prop where
  /-- The parser stands at a character boundary of the text, at its end at most. -/
  isValid : r.events.position.IsValid text
  /-- What it has ahead is the text from there on. -/
  ahead : ∃ front, text = front ++ String.ofList r.events.rest ∧
    r.events.position = front.rawEndPos
  /-- The outermost frame is the object that the document is. -/
  bottom : ∃ key, (r.events.frame :: r.events.enclosing).getLast? = some (.object key)
  /-- The depth is the number of starts minus the number of ends. -/
  depth_eq : (r.events.depth : Int) = tokens.countP Token.isStart - tokens.countP Token.isEnd
  /-- No call moves back. -/
  position_le : ∀ call : Call, r.events.position ≤ (call.run r).2.events.position
  /-- A token other than the end of the document moves on. -/
  position_lt : ∀ token, (TokenStream.next r).1 = .ok token → token ≠ .endOfStream →
    r.events.position < (TokenStream.next r).2.events.position
  /-- A drain makes one call more than the text has characters at most, and the last call gives the
  end or an error. -/
  drain : (TokenStream.drain r).1.length ≤ text.length + 1 ∧
    ∃ front last, (TokenStream.drain r).1 = front ++ [last] ∧
      (∀ entry ∈ front, ∃ drained, entry = .ok drained ∧ drained.token ≠ .endOfStream) ∧
      ∀ drained, last = .ok drained → drained.token = .endOfStream

/-- The outermost frame is the object of the document if it is no list. -/
theorem exists_bottom_eq (h : p.kinds.getLast? = some false) :
    ∃ key, (p.frame :: p.enclosing).getLast? = some (.object key) := by
  rw [kinds, List.getLast?_map, Option.map_eq_some_iff] at h
  obtain ⟨frame, hframe, hkind⟩ := h
  cases frame with
  | object key => exact ⟨key, hframe⟩
  | list begun => exact absurd hkind (by simp [Frame.isList])

/-- No call of a reader gives text back. -/
theorem readOn_run (r : Reader Parser) (call : Call) :
    ReadOn r.events (call.run r).2.events := by
  cases call with
  | peek => exact readOn_skip r.events
  | next =>
    show ReadOn r.events (Reader.next r).2.events
    rw [Reader.events_next]
    exact readOn_next r.events
  | _ => exact ⟨rfl, List.suffix_rfl⟩

/-- Inside its text, a reader makes progress. -/
theorem Inside.progresses {text : String} {tokens : List Token} {r : Reader Parser}
    (h : Inside text tokens r.events) : Progresses text tokens r := by
  have htext : String.ofList r.events.text = text := by rw [h.text_eq, String.ofList_toList]
  obtain ⟨front, hfront, hposition⟩ := exists_position_eq h.rest_suffix
  rw [htext] at hfront
  refine ⟨?_, ⟨front, hfront, hposition⟩, exists_bottom_eq h.bottom, ?_, ?_, ?_, ?_⟩
  · exact String.Pos.Raw.isValid_iff_exists_append.2 ⟨front, _, hfront, hposition⟩
  · have hdepth := h.depth_eq
    omega
  · exact fun call => (readOn_run r call).position_le
  · intro token hnext hne
    obtain ⟨item, hitem, rfl⟩ := Reader.next_eq_ok hnext
    show r.events.position < (Reader.next r).2.events.position
    rw [Reader.events_next]
    exact (readOn_next r.events).position_lt h.rest_suffix (rest_ne_of_next hitem hne)
  · obtain ⟨entries, last, hdrain, hlength, hentries, hlast⟩ := TokenStream.exists_drain_eq r
    have hremaining : TokenStream.remaining r ≤ text.length := by
      have hle := h.rest_suffix.length_le
      rwa [h.text_eq, String.length_toList] at hle
    refine ⟨?_, entries, last, hdrain, hentries, hlast⟩
    rw [hdrain, List.length_append, List.length_singleton]
    omega

/-- A reader of a text can be called in any way: behind the calls it stands at a character boundary
in the frames that the tokens tell, and goes on from there. -/
theorem progresses_afterCalls (text : String) (calls : List Call) :
    Progresses text ((TokenStream.replies (reader text) calls).filterMap taken?)
      (TokenStream.afterCalls (reader text) calls) := by
  have hstart : Inside text [] (reader text).events := .ofText text
  exact (hstart.afterCalls calls).progresses

end Parser

end LayeredConfig.Document
