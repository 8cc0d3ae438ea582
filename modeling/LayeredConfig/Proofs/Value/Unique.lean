import LayeredConfig.Proofs.Value.Events

/-!
# The events of a tree tell the tree

No two trees have the same events at a path, and the events of one tree are not the beginning of
those of another: `events_append_inj`.
-/

namespace LayeredConfig.Value

mutual

/-- Events that begin with a tree begin with no other one. -/
theorem events_append_inj (path : String) (value other : Value) {more more' : List Located}
    (h : events path value ++ more = events path other ++ more') :
    value = other ∧ more = more' := by
  match value with
  | .null => cases other with
    | null => simpa [events] using h
    | _ => simp [events] at h
  | .scalar leaf => cases other with
    | scalar => simpa [events] using h
    | _ => simp [events] at h
  | .sequence items => cases other with
    | sequence others =>
      rw [events, events, List.cons_append, List.cons_append, List.append_assoc, List.append_assoc,
        List.cons_append, List.cons_append] at h
      obtain ⟨rfl, hmore⟩ := itemEvents_append_inj path 0 items others (List.cons.inj h).2
      exact ⟨rfl, hmore⟩
    | _ => simp [events] at h
  | .mapping entries => cases other with
    | mapping others =>
      rw [events, events, List.cons_append, List.cons_append, List.append_assoc, List.append_assoc,
        List.cons_append, List.cons_append] at h
      obtain ⟨rfl, hmore⟩ := entryEvents_append_inj path entries others (List.cons.inj h).2
      exact ⟨rfl, hmore⟩
    | _ => simp [events] at h

/-- The items of a list can be told from its events, as no item begins with the end of the list. -/
theorem itemEvents_append_inj (path : String) (index : Nat) (items others : List Value)
    {more more' : List Located}
    (h : itemEvents path index items ++ ⟨.listEnd, path⟩ :: more =
      itemEvents path index others ++ ⟨.listEnd, path⟩ :: more') :
    items = others ∧ more = more' := by
  match items, others with
  | [], [] => simpa [itemEvents] using h
  | [], other :: _ => cases other <;> simp [itemEvents, events] at h
  | item :: _, [] => cases item <;> simp [itemEvents, events] at h
  -- the first items end together, so the others begin together
  | item :: rest, other :: rest' =>
    rw [itemEvents, itemEvents, List.append_assoc, List.append_assoc] at h
    obtain ⟨rfl, hrest⟩ := events_append_inj _ item other h
    obtain ⟨rfl, hmore⟩ := itemEvents_append_inj path (index + 1) rest rest' hrest
    exact ⟨rfl, hmore⟩

/-- The entries of an object can be told from its events, as each begins with its name. -/
theorem entryEvents_append_inj (path : String) (entries others : List (String × Value))
    {more more' : List Located}
    (h : entryEvents path entries ++ ⟨.objectEnd, path⟩ :: more =
      entryEvents path others ++ ⟨.objectEnd, path⟩ :: more') :
    entries = others ∧ more = more' := by
  match entries, others with
  | [], [] => simpa [entryEvents] using h
  | [], (_, _) :: _ => simp [entryEvents] at h
  | (_, _) :: _, [] => simp [entryEvents] at h
  | (key, value) :: rest, (key', value') :: rest' =>
    rw [entryEvents, entryEvents, List.append_assoc, List.append_assoc, List.cons_append,
      List.cons_append, List.cons.injEq, Located.mk.injEq, Event.key.injEq] at h
    obtain ⟨⟨rfl, -⟩, h⟩ := h
    obtain ⟨rfl, hrest⟩ := events_append_inj _ value value' h
    obtain ⟨rfl, hmore⟩ := entryEvents_append_inj path rest rest' hrest
    exact ⟨rfl, hmore⟩

end

end LayeredConfig.Value
