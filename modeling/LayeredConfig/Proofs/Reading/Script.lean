import LayeredConfig.Proofs.Reading.Soundness
import LayeredConfig.Token.Script

/-!
# Trees in scripted streams

A script gives any tokens in any order, so what is read from it shows exactly which sequences of
tokens the reader accepts: those that begin with the events of one tree. The reader takes these
tokens and none of what follows.

* `Spells.readTree_of_yields`: what spells a tree is read as that tree on every stream in which
  looking ahead always tells a token, the converse of `Value.sound`.
* `Value.keepsLast_collect`: the entries of the mapping that is read.
* `Value.read_iff_spelledBy`: reading a script succeeds exactly if it begins with items that spell a
  tree, and stops behind them.
-/

namespace LayeredConfig

open TokenStream

/-- Looking ahead tells a token in every state. -/
class TotalPeek (σ : Type) [TokenStream σ] : Prop extends StablePeek σ where
  /-- There is a token to tell, if only the end of the stream. -/
  exists_token (s : σ) : ∃ token, (peek s).1 = .ok token

variable {σ : Type} [TokenStream σ] {s s' s₁ : σ} {event : Event} {events more : List Event}

/-- A token that comes is told by the look ahead, and still comes behind it. -/
theorem TotalPeek.peek_of_next [TotalPeek σ] {token : Token} (h : next s = (.ok token, s')) :
    ∃ peeked, peek s = (.ok token, peeked) ∧ next peeked = (.ok token, s') := by
  obtain ⟨token', htoken⟩ := TotalPeek.exists_token s
  obtain rfl := StablePeek.token_eq htoken (congrArg Prod.fst h)
  exact ⟨(peek s).2, Prod.ext htoken rfl, (StablePeek.next_peek s).trans h⟩

/-! ### What a stream gives -/

namespace Takes

/-- Every event is taken with its token first. -/
theorem exists_next_token (h : Takes s event s') : ∃ s₁, next s = (.ok event.token, s₁) := by
  cases h with
  | key hnext _ => exact ⟨_, hnext⟩
  | value hnext _ => exact ⟨_, hnext⟩
  | plain _ hnext => exact ⟨_, hnext⟩

theorem of_plain (h : Takes s event s') (hevent : event.scalar? = none) :
    next s = (.ok event.token, s') := by
  cases h with
  | key | value => exact absurd hevent (by simp [Event.scalar?])
  | plain _ hnext => exact hnext

theorem of_key {name : String} (h : Takes s (.key name) s') :
    ∃ s₁, next s = (.ok .key, s₁) ∧ readString s₁ = (.ok name, s') := by
  cases h with
  | key hnext hname => exact ⟨_, hnext, hname⟩
  | plain hevent => exact absurd hevent (by simp [Event.scalar?])

theorem of_value {leaf : Scalar} (h : Takes s (.value leaf) s') :
    ∃ s₁, next s = (.ok .value, s₁) ∧ readScalar s₁ = (.ok leaf, s') := by
  cases h with
  | value hnext hleaf => exact ⟨_, hnext, hleaf⟩
  | plain hevent => exact absurd hevent (by simp [Event.scalar?])

end Takes

namespace Yields

theorem of_nil (h : Yields s [] s') : s' = s := by
  cases h
  rfl

theorem of_cons (h : Yields s (event :: events) s') :
    ∃ s₁, Takes s event s₁ ∧ Yields s₁ events s' := by
  cases h with
  | cons head tail => exact ⟨_, head, tail⟩

theorem of_single (h : Yields s [event] s') : Takes s event s' := by
  obtain ⟨s₁, head, tail⟩ := h.of_cons
  exact tail.of_nil ▸ head

theorem of_append (h : Yields s (events ++ more) s') :
    ∃ s₁, Yields s events s₁ ∧ Yields s₁ more s' := by
  induction events generalizing s with
  | nil => exact ⟨s, .nil s, h⟩
  | cons event events ih =>
    obtain ⟨s₁, head, tail⟩ := h.of_cons
    obtain ⟨s₂, first, second⟩ := ih tail
    exact ⟨s₂, .cons head first, second⟩

end Yields

namespace Value

variable {depth : Nat} {value : Value}

/-! ### What spells a tree is read -/

/-- Complete items and the end behind them are read as the items of a list. -/
theorem readItems_of_yields {parts : List (List Event × Value)}
    (hparts : ∀ part ∈ parts, Spells (depth + 1) part.1 part.2)
    (hread : ∀ part ∈ parts, ∀ {s s' : σ}, Yields s part.1 s' →
      readTree (depth + 1) s = (.ok part.2, s'))
    (yields : Yields s (parts.flatMap (·.1) ++ [.listEnd]) s') :
    (readItems depth s).toPair = (.ok (parts.map (·.2)), s') := by
  induction parts generalizing s with
  | nil =>
    rw [List.flatMap_nil, List.nil_append] at yields
    exact readItems_end (yields.of_single.of_plain rfl)
  | cons part parts ih =>
    rw [List.flatMap_cons, List.append_assoc] at yields
    obtain ⟨s₁, first, second⟩ := yields.of_append
    have hmore := ih (fun part hpart => hparts part (List.mem_cons_of_mem _ hpart))
      (fun part hpart => hread part (List.mem_cons_of_mem _ hpart)) second
    have hitem := hread part List.mem_cons_self first
    rw [readItems_item (fun token htoken => ?_) hitem, hmore]
    · rfl
    -- an item never starts with the event that ends the list
    obtain ⟨event, rest, hevent, hlist, hend, -⟩ := (hparts part List.mem_cons_self).exists_cons
    rw [hevent] at first
    obtain ⟨s₂, head, -⟩ := first.of_cons
    obtain ⟨s₃, hnext⟩ := head.exists_next_token
    rw [hnext, Except.ok.injEq] at htoken
    exact htoken ▸ ⟨hlist, hend⟩

variable [TotalPeek σ]

/-- Complete entries and the end behind them are read as the entries of an object. -/
theorem readEntries_of_yields {parts : List (String × List Event × Value)}
    (hread : ∀ part ∈ parts, ∀ {s s' : σ}, Yields s part.2.1 s' →
      readTree (depth + 1) s = (.ok part.2.2, s')) (entries : OrderedMap Value)
    (yields : Yields s (parts.flatMap (fun part => .key part.1 :: part.2.1) ++ [.objectEnd]) s') :
    (readEntries depth entries s).toPair =
      (.ok (parts.foldl (fun map part => addEntry map part.1 part.2.2) entries), s') := by
  induction parts generalizing s entries with
  | nil =>
    rw [List.flatMap_nil, List.nil_append] at yields
    obtain ⟨peeked, hpeek, hnext⟩ := TotalPeek.peek_of_next (yields.of_single.of_plain rfl)
    rw [readEntries_end hpeek, hnext]
    rfl
  | cons part parts ih =>
    rw [List.flatMap_cons, List.append_assoc] at yields
    obtain ⟨s₁, head, tail⟩ := Yields.of_cons yields
    obtain ⟨s₂, first, second⟩ := Yields.of_append tail
    obtain ⟨s₃, hkey, hname⟩ := head.of_key
    -- looking for the end of the object shows the name and leaves it to come
    obtain ⟨peeked, hpeek, hnext⟩ := TotalPeek.peek_of_next hkey
    have hentry := readEntry_key depth entries hnext hname
    rw [hread part List.mem_cons_self first] at hentry
    rw [readEntries_entry hpeek (by simp) hentry,
      ih (fun part hpart => hread part (List.mem_cons_of_mem _ hpart)) _ second]
    rfl

/-- What spells a tree is read as that tree, and the stream is left right behind it. -/
theorem Spells.readTree_of_yields (h : Spells depth events value) (yields : Yields s events s') :
    readTree depth s = (.ok value, s') := by
  induction h generalizing s s' with
  | null hdepth =>
    rw [readTree_of_next (yields.of_single.of_plain rfl)]
    exact readAfter_null hdepth s'
  | scalar hdepth leaf =>
    obtain ⟨s₁, hnext, hleaf⟩ := yields.of_single.of_value
    rw [readTree_of_next hnext, readAfter_value hdepth, hleaf]
    rfl
  | sequence hdepth parts hparts ih =>
    obtain ⟨s₁, head, tail⟩ := Yields.of_cons yields
    have hitems := readItems_of_yields hparts (fun part hpart => ih part hpart) tail
    refine (readTree_of_next (head.of_plain rfl)).trans ((readAfter_listStart hdepth s₁).trans ?_)
    rw [hitems]
    rfl
  | mapping hdepth parts hparts ih =>
    obtain ⟨s₁, head, tail⟩ := Yields.of_cons yields
    have hentries := readEntries_of_yields (fun part hpart => ih part hpart) [] tail
    refine (readTree_of_next (head.of_plain rfl)).trans ((readAfter_objectStart hdepth s₁).trans ?_)
    rw [hentries, collect, List.foldl_map]
    rfl

/-- Reading takes exactly the trees that stand in the stream. -/
theorem readTree_eq_ok_iff :
    readTree depth s = (.ok value, s') ↔ ∃ events, Yields s events s' ∧ Spells depth events value :=
  ⟨fun h => sound s h, fun ⟨_, yields, hspells⟩ => hspells.readTree_of_yields yields⟩

/-- No tree goes beyond the end of the stream. -/
theorem Spells.event_ne (h : Spells depth events value) :
    ∀ event ∈ events, event ≠ .endOfStream := by
  induction h with
  | null | scalar => simp
  | sequence hdepth parts hparts ih =>
    intro event hevent
    rw [List.cons_append, List.mem_cons, List.mem_append, List.mem_flatMap, List.mem_singleton]
      at hevent
    rcases hevent with rfl | ⟨part, hpart, hevent⟩ | rfl
    · simp
    · exact ih part hpart event hevent
    · simp
  | mapping hdepth parts hparts ih =>
    intro event hevent
    simp only [List.cons_append, List.mem_cons, List.mem_append, List.mem_flatMap,
      List.not_mem_nil, or_false] at hevent
    rcases hevent with rfl | ⟨part, hpart, rfl | hevent⟩ | rfl
    · simp
    · simp
    · exact ih part hpart event hevent
    · simp

/-! ### The entries of a mapping -/

/-- The entries are those of the pairs of which each name keeps its first place and gets its last
tree, without those that tell a path. -/
structure KeepsLast (pairs : List (String × Value)) (entries : OrderedMap Value) : Prop where
  /-- The names come in the order in which they first come. -/
  keys_eq : OrderedMap.keys entries =
    OrderedMap.distinct ((pairs.map Prod.fst).filter (· ≠ pathKey))
  /-- Each name has the last of its trees. -/
  get?_eq : ∀ name, name ≠ pathKey →
    OrderedMap.get? entries name = ((pairs.filter (·.1 = name)).getLast?).map Prod.snd

/-- Reading stores the entries that do not tell a path one after the other. -/
theorem collect_eq_ofList (pairs : List (String × Value)) :
    collect pairs = OrderedMap.ofList (pairs.filter (·.1 ≠ pathKey)) := by
  rw [collect, OrderedMap.ofList, OrderedMap.insertAll, List.foldl_filter]
  congr 1
  funext map pair
  by_cases h : pair.1 = pathKey <;> simp [addEntry, h]

theorem keepsLast_collect (pairs : List (String × Value)) : KeepsLast pairs (collect pairs) := by
  rw [collect_eq_ofList]
  constructor
  · rw [OrderedMap.ofList, OrderedMap.keys_insertAll, OrderedMap.keys, List.filter_map]
    rfl
  · intro name hname
    rw [OrderedMap.get?_ofList, List.filter_filter]
    congr 3
    funext pair
    by_cases h : pair.1 = name <;> simp [h, hname]

end Value

/-! ### Scripts -/

/-- The event that a written token stands for: a name or a value needs its scalar. -/
def ScriptItem.event? (item : ScriptItem) : Option Event :=
  match item.token with
  | .key => item.scalar.map fun scalar => .key scalar.text
  | .value => item.scalar.map .value
  | .objectStart => some .objectStart
  | .objectEnd => some .objectEnd
  | .listStart => some .listStart
  | .listEnd => some .listEnd
  | .null => some .null
  | .endOfStream => some .endOfStream

/-- The written tokens spell a tree, at the outermost level. -/
def SpelledBy (word : List ScriptItem) (value : Value) : Prop :=
  ∃ events : List Event, word.map ScriptItem.event? = events.map some ∧
    Value.Spells 0 events value

namespace Script

variable {script script' : Script} {item : ScriptItem} {rest : List ScriptItem}

instance : TotalPeek Script where
  next_peek script := by
    obtain ⟨items, path, scalar⟩ := script
    cases items <;> rfl
  token_eq {script peeked token} hpeek hnext := by
    obtain ⟨items, path, scalar⟩ := script
    cases items with
    | nil => exact Except.ok.inj (hnext.symm.trans hpeek)
    | cons item rest => exact Except.ok.inj (hnext.symm.trans hpeek)
  exists_token script := by
    obtain ⟨items, path, scalar⟩ := script
    cases items <;> exact ⟨_, rfl⟩

theorem next_of_items (h : script.items = item :: rest) :
    TokenStream.next script = (.ok item.token, ⟨rest, item.path, item.scalar⟩) := by
  show Script.next script = _
  rw [Script.next, h]

/-- Before the end of the stream the next token is written. -/
theorem exists_of_next {token : Token} (h : TokenStream.next script = (.ok token, script'))
    (hne : token ≠ .endOfStream) :
    ∃ item, script.items = item :: script'.items ∧ item.token = token ∧
      script'.scalar = item.scalar := by
  obtain ⟨items, path, scalar⟩ := script
  cases items with
  | nil =>
    obtain ⟨htoken, -⟩ := Prod.mk.inj h
    exact absurd (Except.ok.inj htoken).symm hne
  | cons item rest =>
    rw [next_of_items rfl] at h
    obtain ⟨htoken, rfl⟩ := Prod.mk.inj h
    exact ⟨item, rfl, Except.ok.inj htoken, rfl⟩

/-- Reading takes the scalar of the last token, and no token. -/
theorem scalar_eq_of_readScalar {leaf : Scalar}
    (h : TokenStream.readScalar script = (.ok leaf, script')) :
    script.scalar = some leaf ∧ script'.items = script.items := by
  obtain ⟨items, path, scalar⟩ := script
  cases scalar with
  | none => exact absurd (congrArg Prod.fst h) (by simp [TokenStream.readScalar, Script.readScalar])
  | some scalar =>
    obtain ⟨hleaf, rfl⟩ := Prod.mk.inj h
    exact ⟨congrArg some (Except.ok.inj hleaf), rfl⟩

/-- An event is taken where the next written token stands for it. -/
theorem exists_takes (hitems : script.items = item :: rest) (hevent : item.event? = some event) :
    ∃ script', Takes script event script' ∧ script'.items = rest := by
  have hnext := next_of_items hitems
  obtain ⟨token, scalar, path⟩ := item
  cases token with
  | key =>
    obtain ⟨leaf, rfl, rfl⟩ := Option.map_eq_some_iff.1 hevent
    exact ⟨⟨rest, path, none⟩, .key hnext rfl, rfl⟩
  | value =>
    obtain ⟨leaf, rfl, rfl⟩ := Option.map_eq_some_iff.1 hevent
    exact ⟨⟨rest, path, none⟩, .value hnext rfl, rfl⟩
  | _ =>
    obtain rfl := Option.some.inj hevent
    exact ⟨⟨rest, path, scalar⟩, .plain rfl hnext, rfl⟩

/-- An event before the end is taken only where the next written token stands for it. -/
theorem exists_of_takes (h : Takes script event script') (hne : event ≠ .endOfStream) :
    ∃ item, script.items = item :: script'.items ∧ item.event? = some event := by
  cases h with
  | key hnext hname =>
    obtain ⟨item, hitems, htoken, hscalar⟩ := exists_of_next hnext (by simp)
    obtain ⟨leaf, hread, rfl⟩ := Value.exists_of_map_eq_ok hname
    obtain ⟨hleaf, hrest⟩ := scalar_eq_of_readScalar hread
    refine ⟨item, hrest ▸ hitems, ?_⟩
    rw [ScriptItem.event?, htoken, ← hscalar, hleaf]
    rfl
  | value hnext hread =>
    obtain ⟨item, hitems, htoken, hscalar⟩ := exists_of_next hnext (by simp)
    obtain ⟨hleaf, hrest⟩ := scalar_eq_of_readScalar hread
    refine ⟨item, hrest ▸ hitems, ?_⟩
    rw [ScriptItem.event?, htoken, ← hscalar, hleaf]
    rfl
  | plain hevent hnext =>
    obtain ⟨item, hitems, htoken, -⟩ := exists_of_next hnext (Event.token_ne_of_ne hne)
    refine ⟨item, hitems, ?_⟩
    rw [ScriptItem.event?, htoken]
    cases event with
    | key | value => exact absurd hevent (by simp [Event.scalar?])
    | _ => rfl

/-- The events that a script gives are those that its first written tokens stand for. -/
theorem yields_iff (hne : ∀ event ∈ events, event ≠ .endOfStream) :
    (∃ script', Yields script events script' ∧ script'.items = rest) ↔
      ∃ word, script.items = word ++ rest ∧ word.map ScriptItem.event? = events.map some := by
  constructor
  · rintro ⟨script', yields, rfl⟩
    induction yields with
    | nil script => exact ⟨[], rfl, rfl⟩
    | cons head _ ih =>
      rw [List.forall_mem_cons] at hne
      obtain ⟨item, hitems, hevent⟩ := exists_of_takes head hne.1
      obtain ⟨word, hrest, hword⟩ := ih hne.2
      exact ⟨item :: word, by rw [hitems, hrest, List.cons_append],
        by rw [List.map_cons, List.map_cons, hevent, hword]⟩
  · rintro ⟨word, hitems, hword⟩
    induction events generalizing script word with
    | nil =>
      obtain rfl := List.map_eq_nil_iff.1 hword
      exact ⟨script, .nil script, hitems⟩
    | cons event events ih =>
      rw [List.forall_mem_cons] at hne
      obtain ⟨item, word, rfl, hevent, hword⟩ := List.map_eq_cons_iff.1 hword
      obtain ⟨script₁, head, hrest⟩ := exists_takes hitems hevent
      obtain ⟨script', tail, rfl⟩ := ih hne.2 word hrest hword
      exact ⟨script', .cons head tail, rfl⟩

end Script

/-- A tree is read from a script exactly if the script begins with written tokens that spell it, and
then these are all that is taken, whatever follows. Of the entries of an object with one name the
last tree is read, in the first place, and the entries that tell a path are left out. -/
theorem Value.read_iff_spelledBy :
    (∀ (script : Script) (value : Value) (rest : List ScriptItem),
      (∃ after, Value.read script = (.ok value, after) ∧ after.items = rest) ↔
        ∃ word, script.items = word ++ rest ∧ SpelledBy word value) ∧
      ∀ pairs, KeepsLast pairs (collect pairs) := by
  refine ⟨fun script value rest => ?_, keepsLast_collect⟩
  constructor
  · rintro ⟨after, hread, hrest⟩
    rw [read_eq_readTree] at hread
    obtain ⟨events, yields, hspells⟩ := readTree_eq_ok_iff.1 hread
    obtain ⟨word, hitems, hword⟩ := (Script.yields_iff hspells.event_ne).1 ⟨after, yields, hrest⟩
    exact ⟨word, hitems, events, hword, hspells⟩
  · rintro ⟨word, hitems, events, hword, hspells⟩
    obtain ⟨after, yields, hrest⟩ := (Script.yields_iff hspells.event_ne).2 ⟨word, hitems, hword⟩
    exact ⟨after, (read_eq_readTree script).trans (readTree_eq_ok_iff.2 ⟨events, yields, hspells⟩),
      hrest⟩

end LayeredConfig
