import LayeredConfig.Proofs.Json.ReadBack
import LayeredConfig.Proofs.Value.Tidy
import LayeredConfig.Source.Document

/-!
# The values of a written document

A document is loaded by assigning its events one after the other. `assignAll_of_run` follows the
events of a run; without a null among them they store their scalars (`foldl_assign`). So loading a
written tree stores the scalars of the tree (`parse_write`), and for a tidy tree these are all
different (`parse_pretty`).
-/

namespace LayeredConfig.DocumentSource

open Document

variable {p p' : Parser} {item : Located} {items : List Located} {values : OrderedMap Scalar}

/-! ### Assignments -/

theorem assignAll_of_next (h : EventSource.next p = (.ok item, p'))
    (hne : item.event ≠ .endOfStream) (values : OrderedMap Scalar) :
    assignAll values p = assignAll (assign values item) p' := by
  rw [assignAll]
  split
  next herror => simp [h] at herror
  next taken htaken =>
    obtain rfl : item = taken := by simpa [h] using htaken
    rw [dif_neg (Event.token_ne_of_ne hne)]
    exact congrArg (fun r => assignAll (assign values item) r.2) h

/-- A document ends with the values assigned so far. -/
theorem assignAll_of_next_end {path : String}
    (h : EventSource.next p = (.ok ⟨.endOfStream, path⟩, p')) (values : OrderedMap Scalar) :
    assignAll values p = .ok values := by
  rw [assignAll]
  split
  next herror => simp [h] at herror
  next taken htaken =>
    obtain rfl : ⟨.endOfStream, path⟩ = taken := by simpa [h] using htaken
    exact dif_pos rfl

/-- A document that cannot be read on has no values. -/
theorem assignAll_of_next_error {error : Error} (h : EventSource.next p = (.error error, p'))
    (values : OrderedMap Scalar) : assignAll values p = .error error := by
  rw [assignAll]
  split
  next herror =>
    rw [h] at herror
    exact congrArg Except.error (Except.error.inj herror).symm
  next taken htaken => simp [h] at htaken

/-- Assigning the events of a run gives the values from which the document goes on. -/
theorem assignAll_of_run (run : Run EventSource.next p items p')
    (hitems : ∀ item ∈ items, item.event ≠ .endOfStream) (values : OrderedMap Scalar) :
    assignAll values p = assignAll (items.foldl assign values) p' := by
  induction run generalizing values with
  | nil => rfl
  | cons head _ ih =>
    -- the first event is assigned, and the run behind it goes on from there
    rw [assignAll_of_next head (hitems _ (by simp)),
      ih (fun item hitem => hitems item (List.mem_cons_of_mem _ hitem)), List.foldl_cons]

/-- Events without a null among them store their scalars. -/
theorem foldl_assign (hitems : ∀ item ∈ items, item.event ≠ .null) (values : OrderedMap Scalar) :
    items.foldl assign values = OrderedMap.insertAll values (items.filterMap Value.scalarOf?) := by
  induction items generalizing values with
  | nil => rfl
  | cons item rest ih =>
    have hrest := fun item hitem => hitems item (List.mem_cons_of_mem _ hitem)
    rw [List.foldl_cons, ih hrest]
    cases hevent : item.event with
    | value leaf =>
      rw [List.filterMap_cons_some (show Value.scalarOf? item = some (item.path, leaf) by
        rw [Value.scalarOf?, hevent])]
      simp only [assign, hevent, OrderedMap.insertAll, List.foldl_cons]
    | null => exact absurd hevent (hitems item (by simp))
    -- starts, ends and names assign nothing
    | _ =>
      rw [List.filterMap_cons_none (by rw [Value.scalarOf?, hevent])]
      simp only [assign, hevent]

/-! ### Written documents -/

variable {style : Json.Style} {value : Value}

/-- Loading a written tree without nulls stores its scalars one after the other. -/
theorem parse_write (hstyle : style.Separates) (h : Value.Writable 0 value)
    (hroot : value.IsContainer)
    (hevents : ∀ item ∈ Value.events "" value, item.event ≠ .null ∧ item.event ≠ .endOfStream)
    (name : String) : parse name (Json.write style value) =
      .ok ⟨name, .ofMap (OrderedMap.ofList (Value.scalars "" value))⟩ := by
  have hassign : assignAll [] (.ofText (Json.write style value)) =
      .ok (OrderedMap.ofList (Value.scalars "" value)) := by
    rw [assignAll_of_run (Json.run_write hstyle h hroot) fun item hitem => (hevents item hitem).2,
      foldl_assign fun item hitem => (hevents item hitem).1]
    exact assignAll_of_next_end (Parser.next_end rfl rfl) _
  rw [parse, hassign]

/-- Loading a written tidy tree stores its scalars. -/
theorem parse_pretty (h : Value.Tidy 0 value) (hroot : value.IsContainer) (name : String) :
    parse name (Json.pretty value) = .ok ⟨name, .ofMap (Value.scalars "" value)⟩ := by
  have hnames : ∀ segment ∈ ([] : List String), Path.IsName segment := by simp
  have hnodup : (OrderedMap.keys (Value.scalars "" value)).Nodup := h.storable.nodup_scalars hnames
  rw [Json.pretty, parse_write Json.separates_pretty h.writable hroot (h.storable.event_ne ""),
    OrderedMap.ofList, OrderedMap.insertAll_nil hnodup]

end LayeredConfig.DocumentSource
