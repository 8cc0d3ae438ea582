import LayeredConfig.Proofs.Document.Nesting

/-!
# Values behind names

Whoever reads a tree from a document takes a value right behind every name. The parser gives one if
the text behind the name goes on with anything but a closing brace. It does not insist on one: at a
closing brace it ends the object of the name, and at the end of the text the document.

* `event_behind_key`: what comes behind a name is decided by the text ahead.
* `namesHaveValues_iff`: a document that is read to its end has a value behind every name exactly if
  the text behind every name goes on with one.
* `not_namesHaveValues_nameAtEnd`: a document that breaks off behind a name is read to its end.
-/

namespace LayeredConfig

/-- Right behind every name among the events a value begins. -/
def NamesHaveValues (items : List Located) : Prop :=
  ∀ name path item, [⟨.key name, path⟩, item] <:+: items → item.event.startsValue

namespace Document.Parser

variable {p p' p'' : Parser} {item : Located} {items : List Located} {name path : String}

/-- Behind the separators the text goes on with something that closes no object. -/
def HasValueAhead (p : Parser) : Prop :=
  ∃ c rest, skipSeparators p.rest = c :: rest ∧ c ≠ '}'

/-- Behind a name a value begins if one is ahead, and else the object or the document ends. -/
theorem event_behind_key (before : Transition p ⟨.key name, path⟩ p')
    (transition : Transition p' item p'') :
    (p'.HasValueAhead ∧ item.event.startsValue) ∨
      (¬ p'.HasValueAhead ∧ (item.event = .objectEnd ∨ item.event = .endOfStream)) := by
  -- behind the name the parser is inside an object and expects a value
  obtain ⟨hafter, hframe⟩ : p'.afterKey = true ∧ p'.frame = .object (some name) := by
    cases before with
    | key => exact ⟨rfl, rfl⟩
  cases transition with
  | objectStart hahead | listStart hahead => exact .inl ⟨⟨_, _, hahead, by decide⟩, rfl⟩
  | value hahead hc | null hahead hc =>
    refine .inl ⟨⟨_, _, hahead, ?_⟩, rfl⟩
    rintro rfl
    exact hc (by decide)
  | objectEnd hahead =>
    refine .inr ⟨?_, .inl rfl⟩
    rintro ⟨c, rest, hcons, hc⟩
    exact hc (List.cons.inj (hcons.symm.trans hahead)).1
  | endOfStream hahead =>
    refine .inr ⟨?_, .inr rfl⟩
    rintro ⟨c, rest, hcons, hc⟩
    exact absurd (hcons.symm.trans hahead) (by simp)
  | listEnd _ hlist => exact absurd (hframe.symm.trans hlist) (by simp)
  | key _ _ _ hkey => exact absurd (hafter.symm.trans hkey) (by simp)

/-- In a run, the event behind a name is decided by the text behind the name. -/
theorem event_behind_key_of_run {text : String} {earlier later : List Located}
    (run : Run Parser.next (.ofText text) (earlier ++ [⟨.key name, path⟩, item] ++ later) p) :
    ∃ q, Run Parser.next (.ofText text) (earlier ++ [⟨.key name, path⟩]) q ∧
      ((q.HasValueAhead ∧ item.event.startsValue) ∨
        (¬ q.HasValueAhead ∧ (item.event = .objectEnd ∨ item.event = .endOfStream))) := by
  -- what comes later does not matter, and the two calls in question are the last ones
  obtain ⟨_, run, -⟩ := run.of_append
  obtain ⟨_, first, second⟩ := run.of_append
  cases second with
  | cons hkey tail =>
    cases tail with
    | cons head _ =>
      refine ⟨_, first.append (.single hkey), ?_⟩
      exact event_behind_key (transition_of_next hkey) (transition_of_next head)

/-- Behind a name no other name comes and no list ends. A document that is read to its end has a
value behind every name exactly if the text behind every name goes on with one. -/
theorem namesHaveValues_iff {text : String}
    (run : Run Parser.next (.ofText text) (items ++ [⟨.endOfStream, ""⟩]) p) :
    (∀ name path item, [⟨.key name, path⟩, item] <:+: items ++ [⟨.endOfStream, ""⟩] →
      item.event.startsValue ∨ item.event = .objectEnd ∨ item.event = .endOfStream) ∧
    (NamesHaveValues (items ++ [⟨.endOfStream, ""⟩]) ↔
      ∀ earlier name path q, earlier ++ [⟨.key name, path⟩] <+: items →
        Run Parser.next (.ofText text) (earlier ++ [⟨.key name, path⟩]) q → q.HasValueAhead) := by
  refine ⟨?_, ?_, ?_⟩
  · rintro name path item ⟨earlier, later, heq⟩
    rw [← heq] at run
    obtain ⟨q, -, hvalue | hend⟩ := event_behind_key_of_run run
    · exact .inl hvalue.2
    · exact .inr hend.2
  -- the stream decides for each name which of the two cases behind it has happened
  · rintro hvalues earlier name path q ⟨later, rfl⟩ hq
    -- behind the name there is another event, at the latest the end of the document
    obtain ⟨item, more, hmore⟩ : ∃ item more, later ++ [⟨.endOfStream, ""⟩] = item :: more := by
      cases later <;> exact ⟨_, _, rfl⟩
    have heq : earlier ++ [⟨.key name, path⟩] ++ later ++ [⟨.endOfStream, ""⟩] =
        earlier ++ [⟨.key name, path⟩, item] ++ more := by
      simp [hmore]
    rw [heq] at run hvalues
    have hstarts := hvalues name path item ⟨earlier, more, rfl⟩
    obtain ⟨q', hq', hvalue | ⟨-, hend⟩⟩ := event_behind_key_of_run run
    · exact hq.unique hq' ▸ hvalue.1
    · rcases hend with hend | hend <;> simp [hend, Event.startsValue] at hstarts
  · rintro hahead name path item ⟨earlier, later, heq⟩
    rw [← heq] at run
    obtain ⟨q, hq, hvalue | ⟨hnot, -⟩⟩ := event_behind_key_of_run run
    · exact hvalue.2
    -- the name stands before the end of the document, so a value is ahead
    · refine absurd (hahead earlier name path q ?_ hq) hnot
      have hwhole : earlier ++ [⟨.key name, path⟩] <+: items ++ [⟨.endOfStream, ""⟩] :=
        ⟨item :: later, by simpa using heq⟩
      refine List.prefix_of_prefix_length_le hwhole (List.prefix_append _ _) ?_
      have hlength := congrArg List.length heq
      simp only [List.length_append, List.length_cons, List.length_nil] at hlength ⊢
      omega

/-- The events of a document in which a list and a null stand behind names. -/
def listAndNull : List Located :=
  [⟨.key "a", "a"⟩, ⟨.listStart, "a"⟩, ⟨.listEnd, "a"⟩, ⟨.key "b", "b"⟩, ⟨.null, "b"⟩]

theorem namesHaveValues_iff_listAndNull :
    (∀ name path item, [⟨.key name, path⟩, item] <:+: listAndNull ++ [⟨.endOfStream, ""⟩] →
      item.event.startsValue ∨ item.event = .objectEnd ∨ item.event = .endOfStream) ∧
    (NamesHaveValues (listAndNull ++ [⟨.endOfStream, ""⟩]) ↔
      ∀ earlier name path q, earlier ++ [⟨.key name, path⟩] <+: listAndNull →
        Run Parser.next (.ofText "a: [] b: null") (earlier ++ [⟨.key name, path⟩]) q →
          q.HasValueAhead) := by
  have run : Run Parser.next (.ofText "a: [] b: null") (listAndNull ++ [⟨.endOfStream, ""⟩])
      ⟨"a: [] b: null".toList, [], .object (some "b"), [], false⟩ := by
    decide +kernel
  exact namesHaveValues_iff run

/-- A document that breaks off behind a name is read to its end, and the name has no value. -/
theorem not_namesHaveValues_nameAtEnd :
    Run Parser.next (.ofText "a:") [⟨.key "a", "a"⟩, ⟨.endOfStream, ""⟩]
        ⟨"a:".toList, [], .object (some "a"), [], true⟩ ∧
      ¬ NamesHaveValues [⟨.key "a", "a"⟩, ⟨.endOfStream, ""⟩] := by
  constructor
  · decide +kernel
  · intro h
    exact absurd (h "a" "a" ⟨.endOfStream, ""⟩ (List.infix_refl _)) (by decide)

end Document.Parser

end LayeredConfig
