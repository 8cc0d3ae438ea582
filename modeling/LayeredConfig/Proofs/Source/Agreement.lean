import LayeredConfig.Proofs.Document.Parts
import LayeredConfig.Proofs.Source.Assign

/-!
# Two readings of a document

A document can be read as a tree or loaded as a source. The reader of trees goes by the brackets and
names of the document, while a source stores every scalar at the path that the parser gives it. The
two agree on a part as long as it stands at the root. An object in braces behind an entry does not:
the parser puts it below the name of the entry, and the tree joins it with the other parts.

* `parse_of_hasParts`: a source stores the scalars of the parts where the parser puts them.
* `values_eq_scalars_iff`: these are the scalars of the tree exactly if no object in braces that
  holds a scalar stands behind an entry.
* `values_ne_scalars_objectBehindEntry`: a document for which they differ.
-/

namespace LayeredConfig.Document

open Value (Storable scalars)

/-! ### The scalars of the parts -/

namespace Part

/-- The path of the object that the entries of a part stand in, behind the last name of the
document. -/
def place (last : Option String) : Part → String
  | entry _ _ => ""
  | object _ => last.getD ""

/-- The part holds a scalar. -/
def HoldsScalar (part : Part) : Prop := scalars "" (.mapping part.entries) ≠ []

/-- The scalars of a part are those of its entries at its place. -/
theorem filterMap_scalarOf?_events (last : Option String) (part : Part) :
    (part.events last).filterMap Value.scalarOf? =
      scalars (part.place last) (.mapping part.entries) := by
  cases part with
  | entry key value =>
    rw [Value.scalars_of_isContainer (.inr ⟨_, rfl⟩), events, List.filterMap_cons_none rfl]
    exact (List.append_nil _).symm
  | object entries => rfl

/-- The scalars of a part at the root stand below the names of its entries. -/
theorem exists_head_of_place_eq {last : Option String} {part : Part}
    (hstorable : Storable (.mapping part.entries)) (hplace : part.place last = "")
    {entry : String × Scalar} (hentry : entry ∈ scalars (part.place last) (.mapping part.entries)) :
    ∃ head ∈ OrderedMap.keys part.entries, ∃ more, Path.split entry.1 = head :: more := by
  rw [hplace, Value.scalars_of_isContainer (.inr ⟨_, rfl⟩), List.mem_flatMap] at hentry
  obtain ⟨child, hchild, hentry⟩ := hentry
  have hnames : ∀ segment ∈ ([] : List String), Path.IsName segment := by simp
  obtain ⟨-, more, hsplit⟩ := hstorable.split_scalars_child hnames hchild entry hentry
  exact ⟨child.1, List.mem_map_of_mem hchild, more, hsplit⟩

/-- The scalars of any other part stand below the last name of the document. -/
theorem exists_split_of_place_ne {name : String} (hname : Path.IsName name) {part : Part}
    (hstorable : Storable (.mapping part.entries)) (hpart : part.isEntry = false)
    {entry : String × Scalar}
    (hentry : entry ∈ scalars (part.place (some name)) (.mapping part.entries)) :
    ∃ more, Path.split entry.1 = name :: more := by
  cases part with
  | entry => exact absurd hpart (by simp [isEntry])
  | object entries =>
    have hnames : ∀ segment ∈ [name], Path.IsName segment := by simpa using hname
    obtain ⟨-, more, hsplit⟩ := hstorable.split_scalars hnames (by simp) entry hentry
    exact ⟨more, hsplit⟩

end Part

/-- The scalars of the parts of a document behind its last name, at the paths that the parser gives
them. -/
def documentScalars (last : Option String) (parts : List Part) : List (String × Scalar) :=
  (documentEvents last parts).filterMap Value.scalarOf?

theorem documentScalars_cons (last : Option String) (part : Part) (rest : List Part) :
    documentScalars last (part :: rest) =
      scalars (part.place last) (.mapping part.entries) ++
        documentScalars (part.lastName last) rest := by
  rw [documentScalars, documentEvents, List.filterMap_append, part.filterMap_scalarOf?_events]
  rfl

theorem documentScalars_append (last : Option String) (parts more : List Part) :
    documentScalars last (parts ++ more) = documentScalars last parts ++
      documentScalars (parts.foldl Part.lastName last) more := by
  induction parts generalizing last with
  | nil => rfl
  | cons part rest ih =>
    rw [List.cons_append, documentScalars_cons, documentScalars_cons, ih, List.append_assoc,
      List.foldl_cons]

/-- The scalars of the parts stand below the last name in front of them or names of their own. -/
theorem exists_head_of_mem_documentScalars {parts : List Part} {last : Option String}
    (hstorable : Storable (.mapping (parts.flatMap Part.entries)))
    (hlast : ∀ name, last = some name → Path.IsName name) {entry : String × Scalar}
    (hentry : entry ∈ documentScalars last parts) :
    ∃ head more, Path.split entry.1 = head :: more ∧
      (last = some head ∨ head ∈ OrderedMap.keys (parts.flatMap Part.entries)) := by
  induction parts generalizing last with
  | nil => exact absurd hentry List.not_mem_nil
  | cons part rest ih =>
    rw [List.flatMap_cons] at hstorable ⊢
    obtain ⟨hhead, htail⟩ := hstorable.of_append
    rw [OrderedMap.keys, List.map_append]
    rw [documentScalars_cons, List.mem_append] at hentry
    rcases hentry with hentry | hentry
    -- a part that does not stand at the root stands below the last name
    · by_cases hplace : part.place last = ""
      · obtain ⟨head, hmem, more, hsplit⟩ := part.exists_head_of_place_eq hhead hplace hentry
        exact ⟨head, more, hsplit, .inr (List.mem_append_left _ hmem)⟩
      · cases last with
        | none => cases part <;> exact absurd rfl hplace
        | some name =>
          have hpart : part.isEntry = false := by
            cases part with
            | entry => exact absurd rfl hplace
            | object => rfl
          obtain ⟨more, hsplit⟩ :=
            Part.exists_split_of_place_ne (hlast name rfl) hhead hpart hentry
          exact ⟨name, more, hsplit, .inl rfl⟩
    · cases part with
      | entry key value =>
        -- behind an entry its name is the last one
        have hkey := hhead.isName_of_mem_children (List.mem_singleton_self _)
        obtain ⟨head, more, hsplit, hmem⟩ :=
          ih htail (fun name heq => Option.some.inj heq ▸ hkey) hentry
        refine ⟨head, more, hsplit, .inr ?_⟩
        rcases hmem with heq | hmem
        · rw [← Option.some.inj heq]
          exact List.mem_append_left _ (List.mem_singleton_self _)
        · exact List.mem_append_right _ hmem
      | object entries =>
        obtain ⟨head, more, hsplit, hmem⟩ := ih htail hlast hentry
        exact ⟨head, more, hsplit, hmem.imp_right fun hmem => List.mem_append_right _ hmem⟩

/-- Behind an entry the last name is that of an entry. -/
theorem exists_foldl_lastName_eq {parts : List Part} {last : Option String} {part : Part}
    (hpart : part ∈ parts) (hentry : part.isEntry) :
    ∃ name ∈ OrderedMap.keys (parts.flatMap Part.entries),
      parts.foldl Part.lastName last = some name := by
  induction parts using List.reverseRecOn with
  | nil => exact absurd hpart List.not_mem_nil
  | append_singleton parts final ih =>
    rw [List.foldl_append, List.flatMap_append, OrderedMap.keys, List.map_append]
    cases final with
    | entry key value => exact ⟨key, List.mem_append_right _ (List.mem_singleton_self _), rfl⟩
    | object entries =>
      have hmem : part ∈ parts := by
        rcases List.mem_append.1 hpart with hmem | hmem
        · exact hmem
        · rw [List.mem_singleton.1 hmem] at hentry
          exact absurd hentry (by simp [Part.isEntry])
      obtain ⟨name, hname, hlast⟩ := ih hmem
      exact ⟨name, List.mem_append_left _ hname, hlast⟩

/-- No object in braces that holds a scalar stands behind an entry. -/
def ObjectsFirst (parts : List Part) : Prop :=
  parts.Pairwise fun part later => part.isEntry → later.isEntry ∨ ¬ later.HoldsScalar

/-- As long as no object in braces that holds a scalar stands behind an entry, the scalars of the
parts are those of the mapping that they make up. -/
theorem documentScalars_eq_scalars {parts : List Part} {last : Option String}
    (hstorable : Storable (.mapping (parts.flatMap Part.entries))) (hfirst : ObjectsFirst parts)
    (hlast : last = none ∨ ∀ part ∈ parts, part.isEntry ∨ ¬ part.HoldsScalar) :
    documentScalars last parts = scalars "" (.mapping (parts.flatMap Part.entries)) := by
  induction parts generalizing last with
  | nil => rfl
  | cons part rest ih =>
    obtain ⟨hbehind, hrest⟩ := List.pairwise_cons.1 hfirst
    rw [List.flatMap_cons] at hstorable ⊢
    obtain ⟨hhead, htail⟩ := hstorable.of_append
    have hpart : scalars (part.place last) (.mapping part.entries) =
        scalars "" (.mapping part.entries) := by
      rcases hlast with rfl | hlast
      · cases part <;> rfl
      · rcases hlast part (by simp) with hentry | hnone
        · cases part with
          | entry => rfl
          | object => exact absurd hentry (by simp [Part.isEntry])
        -- without a scalar it does not matter where the part stands
        · have hnil := not_not.1 hnone
          rw [hnil, hhead.scalars_eq_nil_iff _ ""]
          exact hnil
    -- behind an entry only entries hold scalars, and these stand at the root anyway
    have htailLast : part.lastName last = none ∨
        ∀ later ∈ rest, later.isEntry ∨ ¬ later.HoldsScalar := by
      cases part with
      | entry => exact .inr fun later hlater => hbehind later hlater rfl
      | object =>
        exact hlast.imp_right fun h later hlater => h later (List.mem_cons_of_mem _ hlater)
    rw [documentScalars_cons, hpart, Value.scalars_append, ih htail hrest htailLast]

/-- With an object in braces behind an entry, all scalars stand below names of the other parts. -/
theorem exists_head_of_mem_of_object {front after : List Part} {part object : Part}
    (hfront : Storable (.mapping (front.flatMap Part.entries)))
    (hobject : Storable (.mapping object.entries))
    (hafter : Storable (.mapping (after.flatMap Part.entries))) (hpart : part ∈ front)
    (hentry : part.isEntry) (hbraces : object.isEntry = false) {entry : String × Scalar}
    (hmem : entry ∈ documentScalars none (front ++ object :: after)) :
    ∃ head more, Path.split entry.1 = head :: more ∧
      (head ∈ OrderedMap.keys (front.flatMap Part.entries) ∨
        head ∈ OrderedMap.keys (after.flatMap Part.entries)) := by
  obtain ⟨name, hname, hlast⟩ := exists_foldl_lastName_eq hpart hentry
  have hisName : Path.IsName name := by
    obtain ⟨child, hchild, rfl⟩ := List.mem_map.1 hname
    exact hfront.isName_of_mem_children hchild
  have hkeep : object.lastName (some name) = some name := by
    cases object with
    | entry => exact absurd hbraces (by simp [Part.isEntry])
    | object => rfl
  rw [documentScalars_append, hlast, documentScalars_cons, hkeep, List.mem_append,
    List.mem_append] at hmem
  rcases hmem with hmem | hmem | hmem
  · obtain ⟨head, more, hsplit, hhead⟩ :=
      exists_head_of_mem_documentScalars hfront (fun _ heq => absurd heq (by simp)) hmem
    exact ⟨head, more, hsplit, .inl (hhead.resolve_left (by simp))⟩
  · obtain ⟨more, hsplit⟩ := Part.exists_split_of_place_ne hisName hobject hbraces hmem
    exact ⟨name, more, hsplit, .inl hname⟩
  · obtain ⟨head, more, hsplit, hhead⟩ := exists_head_of_mem_documentScalars hafter
      (fun _ heq => Option.some.inj heq ▸ hisName) hmem
    refine ⟨head, more, hsplit, hhead.imp_left fun heq => ?_⟩
    rwa [← Option.some.inj heq]

/-- If all scalars of the mapping are among those of the parts, no object in braces that holds one
stands behind an entry: it would stand below a name of its own, too. -/
theorem objectsFirst_of_subset {parts : List Part}
    (hstorable : Storable (.mapping (parts.flatMap Part.entries)))
    (hsubset : OrderedMap.keys (scalars "" (.mapping (parts.flatMap Part.entries))) ⊆
      OrderedMap.keys (documentScalars none parts)) : ObjectsFirst parts := by
  refine List.pairwise_iff_forall_sublist.2 fun {part object} hsublist hentry => ?_
  by_contra hlater
  rw [not_or, not_not, Bool.not_eq_true] at hlater
  obtain ⟨hbraces, hscalar⟩ := hlater
  -- the object stands between other parts, with an entry before it
  obtain ⟨before, rest, rfl, hpart, hrest⟩ := List.cons_sublist_iff.1 hsublist
  obtain ⟨between, after, rfl⟩ := List.append_of_mem (List.singleton_sublist.1 hrest)
  rw [← List.append_assoc] at hstorable hsubset
  have hmem : part ∈ before ++ between := List.mem_append_left _ hpart
  generalize before ++ between = front at *
  rw [List.flatMap_append, List.flatMap_cons] at hstorable hsubset
  obtain ⟨hfront, hback⟩ := hstorable.of_append
  obtain ⟨hobject, hafter⟩ := hback.of_append
  obtain ⟨entry, hstored⟩ := List.exists_mem_of_ne_nil _ hscalar
  have hplace : object.place none = "" := by cases object <;> rfl
  obtain ⟨head, hhead, more, hsplit⟩ :=
    Part.exists_head_of_place_eq hobject hplace (hplace.symm ▸ hstored)
  -- its scalar is among those of the parts, so it stands below a name of another one
  have hkey : entry.1 ∈ OrderedMap.keys (documentScalars none (front ++ object :: after)) := by
    refine hsubset (List.mem_map_of_mem ?_)
    rw [Value.scalars_append, Value.scalars_append]
    exact List.mem_append_right _ (List.mem_append_left _ hstored)
  obtain ⟨entry', hmem', heq⟩ := List.mem_map.1 hkey
  obtain ⟨head', more', hsplit', hother⟩ :=
    exists_head_of_mem_of_object hfront hobject hafter hmem hentry hbraces hmem'
  rw [heq, hsplit, List.cons.injEq] at hsplit'
  rw [← hsplit'.1] at hother
  have hnodup := hstorable.nodup_children
  rw [Value.children, OrderedMap.keys, List.map_append, List.map_append] at hnodup
  obtain ⟨-, hbehind, hapart⟩ := List.nodup_append.1 hnodup
  rcases hother with hother | hother
  · exact hapart head hother head (List.mem_append_left _ hhead) rfl
  · exact (List.nodup_append.1 hbehind).2.2 head hhead head hother rfl

/-- Parts that can be stored give no null and do not end the document. -/
theorem event_ne_of_mem_documentEvents {parts : List Part} {last : Option String}
    (hstorable : Storable (.mapping (parts.flatMap Part.entries))) :
    ∀ item ∈ documentEvents last parts, item.event ≠ .null ∧ item.event ≠ .endOfStream := by
  induction parts generalizing last with
  | nil => exact fun item hitem => absurd hitem List.not_mem_nil
  | cons part rest ih =>
    rw [List.flatMap_cons] at hstorable
    obtain ⟨hhead, htail⟩ := hstorable.of_append
    intro item hitem
    rcases List.mem_append.1 hitem with hitem | hitem
    · cases part with
      | entry key value =>
        rcases List.mem_cons.1 hitem with rfl | hitem
        · simp
        · have hvalue := hhead.of_mem_children (List.mem_singleton_self _)
          exact hvalue.event_ne key item hitem
      | object entries => exact hhead.event_ne _ item hitem
    · exact ih htail item hitem

end LayeredConfig.Document

namespace LayeredConfig.DocumentSource

open Document
open Value (Storable scalars)

variable {text : String} {parts : List Part}

/-- Loading a document stores the scalars of its parts, where the parser puts them. -/
theorem parse_of_hasParts (h : Parser.HasParts text parts)
    (hstorable : Storable (.mapping (parts.flatMap Part.entries))) (name : String) :
    parse name text = .ok ⟨name, .ofMap (OrderedMap.ofList (documentScalars none parts))⟩ := by
  obtain ⟨p, run⟩ := h
  obtain ⟨q, run, last⟩ := run.of_append
  have hevents : ∀ item ∈ documentEvents none parts,
      item.event ≠ .null ∧ item.event ≠ .endOfStream := event_ne_of_mem_documentEvents hstorable
  cases last with
  | cons hend _ =>
    have hassign : assignAll [] (.ofText text) =
        .ok (OrderedMap.ofList (documentScalars none parts)) := by
      rw [assignAll_of_run run fun item hitem => (hevents item hitem).2,
        foldl_assign fun item hitem => (hevents item hitem).1]
      exact assignAll_of_next_end hend _
    rw [parse, hassign]

/-- A document that is read as a mapping is made of one list of parts. If these can be stored, taken
as one object, they are the mapping, and loading the document succeeds. It stores the scalars of the
mapping, in their order and with their paths, exactly if no object in braces that holds a scalar
stands behind an entry without braces. -/
theorem values_eq_scalars_iff {entries : OrderedMap Value}
    (hread : (Value.readDocument (Parser.reader text)).1 = .ok (.mapping entries)) (name : String) :
    ∃ parts, (∀ other, Parser.HasParts text other ↔ other = parts) ∧
      (Storable (.mapping (parts.flatMap Part.entries)) →
        entries = parts.flatMap Part.entries ∧
        ∃ document, parse name text = .ok document ∧ document.name = name ∧
          (document.store.values = scalars "" (.mapping entries) ↔ ObjectsFirst parts)) := by
  obtain ⟨parts, hparts, hentries⟩ := Parser.exists_parts_of_readDocument hread
  refine ⟨parts, fun other => ⟨fun h => h.unique hparts, fun h => h ▸ hparts⟩, fun hstorable => ?_⟩
  obtain rfl := hentries hstorable
  refine ⟨rfl, _, parse_of_hasParts hparts hstorable name, rfl, ?_⟩
  show OrderedMap.ofList (documentScalars none parts) = _ ↔ _
  constructor
  · intro hvalues
    refine objectsFirst_of_subset hstorable fun path hpath => ?_
    rw [← hvalues] at hpath
    exact OrderedMap.mem_keys_ofList.1 hpath
  · intro hfirst
    rw [documentScalars_eq_scalars hstorable hfirst (.inl rfl)]
    -- no two scalars have the same path, so all are stored
    have hnames : ∀ segment ∈ ([] : List String), Path.IsName segment := by simp
    exact OrderedMap.insertAll_nil (hstorable.nodup_scalars hnames)

/-- An object in braces with an entry behind it. -/
def objectFirst : List Part :=
  [.object [("b", .scalar (.integer 2))], .entry "a" (.scalar (.integer 1))]

/-- The same parts, the other way around. -/
def objectBehindEntry : List Part :=
  [.entry "a" (.scalar (.integer 1)), .object [("b", .scalar (.integer 2))]]

/-- The events of the object in braces spell it. -/
theorem spells_object : Value.Spells 0 [.objectStart, .key "b", .value (.integer 2), .objectEnd]
    (.mapping [("b", .scalar (.integer 2))]) :=
  .mapping (by decide) [("b", [.value (.integer 2)], .scalar (.integer 2))]
    (List.forall_mem_singleton.2 (.scalar (by decide) _))

/-- With the object in front, the source and the tree agree. -/
theorem values_eq_scalars_iff_objectFirst : ∃ document,
    parse "doc" "{b: 2} a: 1" = .ok document ∧
      document.store.values = [("b", .integer 2), ("a", .integer 1)] := by
  have run : Run Parser.next (.ofText "{b: 2} a: 1")
      (documentEvents none objectFirst ++ [⟨.endOfStream, ""⟩])
      ⟨"{b: 2} a: 1".toList, [], .object (some "a"), [], false⟩ := by
    decide +kernel
  have hread : (Value.readDocument (Parser.reader "{b: 2} a: 1")).1 =
      .ok (.mapping [("b", .scalar (.integer 2)), ("a", .scalar (.integer 1))]) :=
    Parser.HasParts.readDocument_eq ⟨_, run⟩
      (.object spells_object (.entry (.scalar (by decide) (.integer 1)) (.done _)))
  have hstorable : Storable (.mapping (objectFirst.flatMap Part.entries)) := by
    refine .mapping (by decide) (by unfold Path.IsName; decide) ?_
    exact List.forall_mem_cons.2 ⟨.leaf _, List.forall_mem_singleton.2 (.leaf _)⟩
  obtain ⟨parts, hparts, hagree⟩ := values_eq_scalars_iff hread "doc"
  obtain rfl := (hparts objectFirst).1 ⟨_, run⟩
  obtain ⟨-, document, hparse, -, hiff⟩ := hagree hstorable
  exact ⟨document, hparse, hiff.2 (by simp [ObjectsFirst, objectFirst, Part.isEntry])⟩

/-- With the object behind the entry, the document is read as a mapping that can be stored, and the
source stores the scalar of the object in another place. -/
theorem values_ne_scalars_objectBehindEntry :
    (Value.readDocument (Parser.reader "a: 1, {b: 2}")).1 =
        .ok (.mapping [("a", .scalar (.integer 1)), ("b", .scalar (.integer 2))]) ∧
      Parser.HasParts "a: 1, {b: 2}" objectBehindEntry ∧
      Storable (.mapping (objectBehindEntry.flatMap Part.entries)) ∧
      ∃ document, parse "doc" "a: 1, {b: 2}" = .ok document ∧
        document.store.values = [("a", .integer 1), ("a.b", .integer 2)] ∧
        document.store.values ≠
          scalars "" (.mapping [("a", .scalar (.integer 1)), ("b", .scalar (.integer 2))]) := by
  have run : Run Parser.next (.ofText "a: 1, {b: 2}")
      (documentEvents none objectBehindEntry ++ [⟨.endOfStream, ""⟩])
      ⟨"a: 1, {b: 2}".toList, [], .object (some "a"), [], false⟩ := by
    decide +kernel
  have hread : (Value.readDocument (Parser.reader "a: 1, {b: 2}")).1 =
      .ok (.mapping [("a", .scalar (.integer 1)), ("b", .scalar (.integer 2))]) :=
    Parser.HasParts.readDocument_eq ⟨_, run⟩
      (.entry (.scalar (by decide) (.integer 1)) (.object spells_object (.done _)))
  have hstorable : Storable (.mapping (objectBehindEntry.flatMap Part.entries)) := by
    refine .mapping (by decide) (by unfold Path.IsName; decide) ?_
    exact List.forall_mem_cons.2 ⟨.leaf _, List.forall_mem_singleton.2 (.leaf _)⟩
  exact ⟨hread, ⟨_, run⟩, hstorable, _, parse_of_hasParts ⟨_, run⟩ hstorable "doc", rfl, by decide⟩

end LayeredConfig.DocumentSource
