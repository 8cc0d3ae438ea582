import LayeredConfig.Proofs.Reading.Spelling

/-!
# What has been read stands in the stream

The converse of `Spells.readTree_eq` and `SpellsDocument.readParts_eq`. Wherever the reader returns
a tree, the stream has given events that spell this tree, and nothing else (`sound`), and the same
holds of documents (`exists_spells_of_readParts`).

Here a stream is any that looks ahead without changing what comes (`StablePeek`), whether or not its
tokens follow a grammar. `Yields` are its successful calls, in the way in which the reader makes
them: a name or a scalar is read right behind its token.
-/

namespace LayeredConfig

open TokenStream

/-- Looking ahead leaves the next call as it is and promises no other token than it gives. -/
class StablePeek (σ : Type) [TokenStream σ] : Prop where
  /-- The next call behind a look ahead is the next call without it. -/
  next_peek (s : σ) : next (peek s).2 = next s
  /-- The token that is promised is the one that comes, if any comes. -/
  token_eq {s : σ} {peeked token : Token} (hpeek : (peek s).1 = .ok peeked)
    (hnext : (next s).1 = .ok token) : token = peeked

variable {σ : Type} [TokenStream σ] {s s' s₁ s₂ : σ} {event : Event} {events more : List Event}

/-- Behind a look ahead the same call comes as without it. -/
theorem StablePeek.next_eq [StablePeek σ] {result : Except Error Token}
    (h : peek s = (result, s')) : next s = next s' := by
  rw [← StablePeek.next_peek s, h]

/-- A look ahead leaves no more tokens than there were. -/
theorem remaining_le_of_peek {result : Except Error Token} (h : peek s = (result, s')) :
    remaining s' ≤ remaining s := by
  have hle := remaining_peek s
  rwa [h] at hle

/-- The stream gives an event, with the reading of its name or scalar. -/
inductive Takes : σ → Event → σ → Prop
  | key {s s₁ s' : σ} {name : String} (hnext : next s = (.ok .key, s₁))
      (hname : readString s₁ = (.ok name, s')) : Takes s (.key name) s'
  | value {s s₁ s' : σ} {leaf : Scalar} (hnext : next s = (.ok .value, s₁))
      (hleaf : readScalar s₁ = (.ok leaf, s')) : Takes s (.value leaf) s'
  | plain {s s' : σ} {event : Event} (hevent : event.scalar? = none)
      (hnext : next s = (.ok event.token, s')) : Takes s event s'

/-- The stream gives the events one after the other. -/
inductive Yields : σ → List Event → σ → Prop
  | nil (s : σ) : Yields s [] s
  | cons {s s₁ s' : σ} {event : Event} {events : List Event} (head : Takes s event s₁)
      (tail : Yields s₁ events s') : Yields s (event :: events) s'

namespace Yields

theorem single (h : Takes s event s') : Yields s [event] s' :=
  .cons h (.nil s')

theorem append (first : Yields s events s₁) (second : Yields s₁ more s') :
    Yields s (events ++ more) s' := by
  induction first with
  | nil => exact second
  | cons head _ ih => exact .cons head (ih second)

/-- The first call decides where events are given. -/
theorem of_next_eq (h : next s = next s₁) (hne : events ≠ []) (yields : Yields s₁ events s') :
    Yields s events s' := by
  cases yields with
  | nil => exact absurd rfl hne
  | cons head tail =>
    refine .cons ?_ tail
    cases head with
    | key hnext hname => exact .key (h.trans hnext) hname
    | value hnext hleaf => exact .value (h.trans hnext) hleaf
    | plain hevent hnext => exact .plain hevent (h.trans hnext)

end Yields

namespace Value

variable {depth : Nat} {token : Token} {value : Value} {entries result : OrderedMap Value}

/-- A reading that hands its result on succeeds if the result has been read. -/
theorem exists_of_map_eq_ok {τ α β : Type} {f : α → β} {reading : Except Error α × τ} {b : β}
    {t : τ} (h : (reading.1.map f, reading.2) = (.ok b, t)) :
    ∃ a, reading = (.ok a, t) ∧ f a = b := by
  rcases reading with ⟨error | a, u⟩
  · exact absurd (congrArg Prod.fst h) (by simp [Except.map])
  · obtain ⟨hb, rfl⟩ := Prod.mk.inj h
    exact ⟨a, rfl, Except.ok.inj hb⟩

/-! ### Trees -/

/-- A tree is read from a first token on that is not too deep. -/
theorem exists_next_of_readTree (h : readTree depth s = (.ok value, s')) :
    ∃ token s₁, next s = (.ok token, s₁) ∧ remaining s₁ < remaining s ∧ depth ≤ maxDepth ∧
      (readAfter token depth s₁).toPair = (.ok value, s') := by
  rcases hnext : next s with ⟨error | token, s₁⟩
  · rw [readTree_of_next_error hnext] at h
    exact absurd (congrArg Prod.fst h) (by simp)
  · have hlt := remaining_next_lt s (congrArg Prod.fst hnext) (token_ne_of_readTree hnext h)
    rw [hnext] at hlt
    rw [readTree_of_next hnext] at h
    refine ⟨token, s₁, rfl, hlt, ?_, h⟩
    -- a tree that is too deep fails behind its first token
    by_contra hdepth
    rw [readAfter_tooDeep token (Nat.lt_of_not_le hdepth)] at h
    exact absurd (congrArg Prod.fst h) (by simp)

/-- Reading a tree uses up tokens. -/
theorem remaining_readTree_lt (h : readTree depth s = (.ok value, s')) :
    remaining s' < remaining s := by
  obtain ⟨token, s₁, -, hlt, -, hafter⟩ := exists_next_of_readTree h
  obtain ⟨-, rfl⟩ := Prod.ext_iff.1 hafter
  exact Nat.lt_of_le_of_lt (readAfter token depth s₁).le hlt

/-- Wherever a tree is read from the state, its events stand there. -/
def IsSound (s : σ) : Prop :=
  ∀ {depth : Nat} {value : Value} {s' : σ}, readTree depth s = (.ok value, s') →
    ∃ events, Yields s events s' ∧ Spells depth events value

/-- The items of a list stand in the stream one after the other, with its end behind them. -/
theorem exists_parts_of_readItems {items : List Value}
    (hsound : ∀ t : σ, remaining t ≤ remaining s → IsSound t)
    (h : (readItems depth s).toPair = (.ok items, s')) :
    ∃ parts : List (List Event × Value), (∀ part ∈ parts, Spells (depth + 1) part.1 part.2) ∧
      items = parts.map (·.2) ∧ Yields s (parts.flatMap (·.1) ++ [.listEnd]) s' := by
  -- every item uses up tokens, so the induction is on those that are left
  induction hn : remaining s using Nat.strongRecOn generalizing s items with
  | _ n ih =>
    subst hn
    by_cases hend : ∃ s₁, next s = (.ok .listEnd, s₁)
    · obtain ⟨s₁, hnext⟩ := hend
      rw [readItems_end hnext] at h
      obtain ⟨hitems, rfl⟩ := Prod.mk.inj h
      exact ⟨[], by simp, by simpa using hitems.symm, .single (.plain rfl hnext)⟩
    -- without its end the list has another item, and no item begins with the end of the stream
    have htoken : ∀ token, (next s).1 = .ok token → token ≠ .listEnd ∧ token ≠ .endOfStream := by
      intro token htoken
      constructor
      · rintro rfl
        exact hend ⟨_, Prod.ext htoken rfl⟩
      · rintro rfl
        rw [readItems_endOfStream (Prod.ext htoken rfl)] at h
        exact absurd (congrArg Prod.fst h) (by simp)
    rcases hitem : readTree (depth + 1) s with ⟨error | value, s₁⟩
    · rw [readItems_item_error htoken hitem] at h
      exact absurd (congrArg Prod.fst h) (by simp)
    · rw [readItems_item htoken hitem] at h
      obtain ⟨rest, hrest, rfl⟩ := exists_of_map_eq_ok h
      have hlt := remaining_readTree_lt hitem
      obtain ⟨events, hyields, hspells⟩ := hsound s (Nat.le_refl _) hitem
      obtain ⟨parts, hparts, rfl, hmore⟩ := ih _ hlt
        (fun t ht => hsound t (Nat.le_trans ht (Nat.le_of_lt hlt))) hrest rfl
      refine ⟨(events, value) :: parts, List.forall_mem_cons.2 ⟨hspells, hparts⟩, rfl, ?_⟩
      rw [List.flatMap_cons, List.append_assoc]
      exact hyields.append hmore

/-- An entry stands in the stream as its name with the tree behind it. -/
theorem exists_of_readEntry (hsound : ∀ t : σ, remaining t ≤ remaining s → IsSound t)
    (h : (readEntry depth entries s).toPair = (.ok result, s')) :
    ∃ name events value, Spells (depth + 1) events value ∧ result = addEntry entries name value ∧
      Yields s (.key name :: events) s' ∧ remaining s' < remaining s := by
  rcases hnext : next s with ⟨error | token, s₁⟩
  · rw [readEntry_error hnext] at h
    exact absurd (congrArg Prod.fst h) (by simp)
  by_cases hkey : token = .key
  · subst hkey
    have hlt : remaining s₁ < remaining s := by
      simpa [hnext] using remaining_next_lt s (congrArg Prod.fst hnext) (by decide)
    rcases hname : readString s₁ with ⟨error | name, s₂⟩
    · rw [readEntry_name_error hnext hname] at h
      exact absurd (congrArg Prod.fst h) (by simp)
    · have hle : remaining s₂ ≤ remaining s₁ := by
        have hread := remaining_readScalar s₁
        rwa [show (readScalar s₁).2 = s₂ from congrArg Prod.snd hname] at hread
      rw [readEntry_key depth entries hnext hname] at h
      obtain ⟨value, htree, rfl⟩ := exists_of_map_eq_ok h
      -- the tree is read behind the name, with fewer tokens left
      obtain ⟨events, hyields, hspells⟩ := hsound s₂ (by omega) htree
      have hless := remaining_readTree_lt htree
      exact ⟨name, events, value, hspells, rfl, .cons (.key hnext hname) hyields,
        Nat.lt_trans (Nat.lt_of_lt_of_le hless hle) hlt⟩
  · rw [readEntry_not_key hnext hkey] at h
    exact absurd (congrArg Prod.fst h) (by simp)

variable [StablePeek σ]

/-- The entries of an object stand in the stream one after the other, with its end behind them. -/
theorem exists_parts_of_readEntries (hsound : ∀ t : σ, remaining t ≤ remaining s → IsSound t)
    (h : (readEntries depth entries s).toPair = (.ok result, s')) :
    ∃ parts : List (String × List Event × Value),
      (∀ part ∈ parts, Spells (depth + 1) part.2.1 part.2.2) ∧
      result = parts.foldl (fun map part => addEntry map part.1 part.2.2) entries ∧
      Yields s (parts.flatMap (fun part => .key part.1 :: part.2.1) ++ [.objectEnd]) s' := by
  induction hn : remaining s using Nat.strongRecOn generalizing s entries with
  | _ n ih =>
    subst hn
    rcases hpeek : peek s with ⟨error | token, s₁⟩
    · rw [readEntries_peek_error hpeek] at h
      exact absurd (congrArg Prod.fst h) (by simp)
    have hnext := StablePeek.next_eq hpeek
    have hle := remaining_le_of_peek hpeek
    by_cases hend : token = .objectEnd
    · subst hend
      rw [readEntries_end hpeek] at h
      obtain ⟨token, hlast, rfl⟩ := exists_of_map_eq_ok h
      -- the token that comes is the end that the look ahead has promised
      obtain rfl := StablePeek.token_eq (congrArg Prod.fst hpeek)
        (congrArg Prod.fst (hnext.trans hlast))
      exact ⟨[], by simp, rfl, .single (.plain rfl (hnext.trans hlast))⟩
    · rcases hentry : (readEntry depth entries s₁).toPair with ⟨error | more, s₂⟩
      · rw [readEntries_entry_error hpeek hend hentry] at h
        exact absurd (congrArg Prod.fst h) (by simp)
      · rw [readEntries_entry hpeek hend hentry] at h
        obtain ⟨name, events, value, hspells, rfl, hyields, hlt⟩ :=
          exists_of_readEntry (fun t ht => hsound t (Nat.le_trans ht hle)) hentry
        obtain ⟨parts, hparts, rfl, hmore⟩ := ih _ (Nat.lt_of_lt_of_le hlt hle)
          (fun t ht => hsound t (by omega)) h rfl
        refine ⟨(name, events, value) :: parts, List.forall_mem_cons.2 ⟨hspells, hparts⟩, rfl, ?_⟩
        rw [List.flatMap_cons, List.append_assoc]
        exact (hyields.of_next_eq hnext (by simp)).append hmore

/-- Every tree that is read stands in the stream. -/
theorem sound (s : σ) : IsSound s := by
  induction hn : remaining s using Nat.strongRecOn generalizing s with
  | _ n ih =>
    subst hn
    intro depth value s' h
    obtain ⟨token, s₁, hnext, hlt, hdepth, hafter⟩ := exists_next_of_readTree h
    -- by induction on the tokens left, everything behind the first one is sound
    have hsound : ∀ t : σ, remaining t ≤ remaining s₁ → IsSound t := fun t ht =>
      ih _ (Nat.lt_of_le_of_lt ht hlt) t rfl
    cases token with
    | value =>
      rw [readAfter_value hdepth] at hafter
      obtain ⟨leaf, hleaf, rfl⟩ := exists_of_map_eq_ok hafter
      exact ⟨_, .single (.value hnext hleaf), .scalar hdepth leaf⟩
    | null =>
      rw [readAfter_null hdepth] at hafter
      obtain ⟨hvalue, rfl⟩ := Prod.mk.inj hafter
      obtain rfl := Except.ok.inj hvalue
      exact ⟨[.null], .single (.plain rfl hnext), .null hdepth⟩
    | objectStart =>
      rw [readAfter_objectStart hdepth] at hafter
      obtain ⟨result, hentries, rfl⟩ := exists_of_map_eq_ok hafter
      obtain ⟨parts, hparts, rfl, hyields⟩ := exists_parts_of_readEntries hsound hentries
      have hspells := Spells.mapping hdepth parts hparts
      rw [collect, List.foldl_map] at hspells
      exact ⟨.objectStart :: _, .cons (.plain rfl hnext) hyields, hspells⟩
    | listStart =>
      rw [readAfter_listStart hdepth] at hafter
      obtain ⟨items, hitems, rfl⟩ := exists_of_map_eq_ok hafter
      obtain ⟨parts, hparts, rfl, hyields⟩ := exists_parts_of_readItems hsound hitems
      exact ⟨.listStart :: _, .cons (.plain rfl hnext) hyields, .sequence hdepth parts hparts⟩
    | objectEnd | listEnd | key | endOfStream =>
      rw [readAfter_unexpected hdepth (by decide)] at hafter
      exact absurd (congrArg Prod.fst hafter) (by simp)

/-! ### Documents -/

/-- Every document that is read stands in the stream, with the end of the stream behind it. -/
theorem exists_spells_of_readParts (h : readParts entries s = (.ok value, s')) :
    ∃ events s₁, Yields s events s₁ ∧ peek s₁ = (.ok .endOfStream, s') ∧
      SpellsDocument entries events value := by
  -- the induction is on the tokens left, with the cases of what is seen ahead of a part
  induction hn : remaining s using Nat.strongRecOn generalizing s entries with
  | _ n ih =>
    subst hn
    rcases hpeek : peek s with ⟨error | token, s₁⟩
    · rw [readParts_peek_error hpeek] at h
      exact absurd (congrArg Prod.fst h) (by simp)
    have hnext := StablePeek.next_eq hpeek
    have hle := remaining_le_of_peek hpeek
    by_cases hend : token = .endOfStream
    · subst hend
      rw [readParts_end hpeek] at h
      obtain ⟨hvalue, rfl⟩ := Prod.mk.inj h
      obtain rfl := Except.ok.inj hvalue
      exact ⟨[], s, .nil s, hpeek, .done entries⟩
    by_cases hkey : token = .key
    · subst hkey
      rcases hentry : (readEntry 0 entries s₁).toPair with ⟨error | more, s₂⟩
      · rw [readParts_entry_error hpeek hentry] at h
        exact absurd (congrArg Prod.fst h) (by simp)
      · rw [readParts_entry hpeek hentry] at h
        obtain ⟨name, events, part, hspells, rfl, hyields, hlt⟩ :=
          exists_of_readEntry (fun t _ => sound t) hentry
        obtain ⟨more, s₃, hrest, hstop, hmore⟩ := ih _ (Nat.lt_of_lt_of_le hlt hle) h rfl
        exact ⟨_, s₃, (hyields.of_next_eq hnext (by simp)).append hrest, hstop,
          .entry hspells hmore⟩
    · rcases htree : readTree 0 s₁ with ⟨error | tree, s₂⟩
      · rw [readParts_tree_error hpeek hend hkey htree] at h
        exact absurd (congrArg Prod.fst h) (by simp)
      obtain ⟨events, hyields, hspells⟩ := sound s₁ htree
      have hne : events ≠ [] := by
        obtain ⟨event, rest, rfl, -⟩ := hspells.exists_cons
        simp
      have hfirst := hyields.of_next_eq hnext hne
      have hlt := Nat.lt_of_lt_of_le (remaining_readTree_lt htree) hle
      -- an object joins the entries so far, and anything else has to be the whole document
      by_cases hmapping : ∃ part, tree = .mapping part
      · obtain ⟨part, rfl⟩ := hmapping
        rw [readParts_mapping hpeek hend hkey htree] at h
        obtain ⟨more, s₃, hrest, hstop, hmore⟩ := ih _ hlt h rfl
        exact ⟨_, s₃, hfirst.append hrest, hstop, .object hspells hmore⟩
      · have hvalue : ∀ part, tree ≠ .mapping part := fun part heq => hmapping ⟨part, heq⟩
        obtain ⟨rfl, rfl, hstop⟩ := eq_of_readParts_value hpeek hend hkey htree hvalue h
        exact ⟨events, s₂, hfirst, hstop, .alone hspells hvalue⟩

end Value

/-! ### Readers of events -/

section Readers

variable {τ : Type} [EventSource τ] {r r' : Reader τ}

/-- A reader takes its tokens from its events, and fills its slot with them. -/
theorem Reader.exists_of_next {token : Token} (h : next r = (.ok token, r')) :
    ∃ item events, EventSource.next r.events = (.ok item, events) ∧ item.event.token = token ∧
      r' = ⟨events, .ofLocated item⟩ := by
  change Reader.next r = _ at h
  rcases hnext : EventSource.next r.events with ⟨error | item, events⟩
  · rw [Reader.next, hnext] at h
    exact absurd (congrArg Prod.fst h) (by simp)
  · rw [Reader.next, hnext] at h
    obtain ⟨htoken, rfl⟩ := Prod.mk.inj h
    exact ⟨item, events, rfl, Except.ok.inj htoken, rfl⟩

/-- What a reader takes is the next one of its events. -/
theorem Takes.exists_next {event : Event} (h : Takes r event r') :
    ∃ path, EventSource.next r.events = (.ok ⟨event, path⟩, r'.events) := by
  cases h with
  | key hnext hname =>
    obtain ⟨⟨event, path⟩, events, hitem, htoken, rfl⟩ := Reader.exists_of_next hnext
    cases event with
    | key name =>
      -- the name in the slot is that of the event
      obtain ⟨hread, rfl⟩ := Prod.mk.inj hname
      obtain rfl : name = _ := Except.ok.inj hread
      exact ⟨path, hitem⟩
    | _ => exact absurd htoken (by simp [Event.token])
  | value hnext hleaf =>
    obtain ⟨⟨event, path⟩, events, hitem, htoken, rfl⟩ := Reader.exists_of_next hnext
    cases event with
    | value leaf =>
      obtain ⟨hread, rfl⟩ := Prod.mk.inj hleaf
      obtain rfl : leaf = _ := Except.ok.inj hread
      exact ⟨path, hitem⟩
    | _ => exact absurd htoken (by simp [Event.token])
  | plain hevent hnext =>
    obtain ⟨⟨event', path⟩, events, hitem, htoken, rfl⟩ := Reader.exists_of_next hnext
    obtain rfl : event' = event := by
      cases event' <;> cases event <;> simp_all [Event.token, Event.scalar?]
    exact ⟨path, hitem⟩

/-- What a reader yields are its events, one after the other. -/
theorem Yields.emits {events : List Event} (h : Yields r events r') :
    Emits r.events events r'.events := by
  induction h with
  | nil r => exact ⟨[], rfl, .nil _⟩
  | cons head _ ih =>
    obtain ⟨path, hnext⟩ := head.exists_next
    obtain ⟨items, hitems, run⟩ := ih
    exact ⟨⟨_, path⟩ :: items, by rw [List.map_cons, hitems], .cons hnext run⟩

end Readers

end LayeredConfig
