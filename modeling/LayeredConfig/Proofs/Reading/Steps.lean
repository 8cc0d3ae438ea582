import LayeredConfig.Value.Reading

/-!
# The steps of the tree reader

One equation for every way on which the reader of trees goes from one call of the stream to the
next. Proofs about readers use these equations in place of the definitions, whose results carry a
bound on the tokens that are left.

`readTree` reads one tree from its first token on, at any depth; entries, items and the parts of a
document are read with it. The name of an equation says which reader it is about and what the stream
gave to it.
-/

namespace LayeredConfig.Value

open TokenStream

variable {σ : Type} [TokenStream σ] {s s₁ s₂ s₃ : σ} {depth : Nat} {token : Token} {error : Error}
  {entries more : OrderedMap Value} {name : String} {value : Value}

/-- Take one tree that lies `depth` levels below the root from a stream. -/
def readTree (depth : Nat) (s : σ) : Except Error Value × σ :=
  match next s with
  | (.error error, s) => (.error error, s)
  | (.ok token, s) => (readAfter token depth s).toPair

theorem readTree_of_next (h : next s = (.ok token, s₁)) :
    readTree depth s = (readAfter token depth s₁).toPair := by
  rw [readTree, h]

theorem readTree_of_next_error (h : next s = (.error error, s₁)) :
    readTree depth s = (.error error, s₁) := by
  rw [readTree, h]

/-- What is read depends on the state only through its next call. -/
theorem readTree_of_next_eq (h : next s = next s₁) : readTree depth s = readTree depth s₁ := by
  rw [readTree, readTree, h]

/-- Reading takes one tree that is its own root. -/
theorem read_eq_readTree (s : σ) : read s = readTree 0 s := by
  rw [read]
  split
  next error herror => rw [readTree_of_next_error (Prod.ext herror rfl)]
  next token htoken => rw [readTree_of_next (Prod.ext htoken rfl)]

/-! ### A tree behind its first token -/

/-- A value is read as its scalar. -/
theorem readAfter_value (h : depth ≤ maxDepth) (s : σ) :
    (readAfter .value depth s).toPair = ((readScalar s).1.map .scalar, (readScalar s).2) := by
  rw [readAfter, if_neg (by omega)]
  rfl

/-- A null is a tree of its own. -/
theorem readAfter_null (h : depth ≤ maxDepth) (s : σ) :
    (readAfter .null depth s).toPair = (.ok .null, s) := by
  rw [readAfter, if_neg (by omega)]
  rfl

/-- Behind the start of an object its entries are read. -/
theorem readAfter_objectStart (h : depth ≤ maxDepth) (s : σ) :
    (readAfter .objectStart depth s).toPair =
      ((readEntries depth [] s).toPair.1.map .mapping, (readEntries depth [] s).toPair.2) := by
  rw [readAfter, if_neg (by omega)]
  rfl

/-- Behind the start of a list its items are read. -/
theorem readAfter_listStart (h : depth ≤ maxDepth) (s : σ) :
    (readAfter .listStart depth s).toPair =
      ((readItems depth s).toPair.1.map .sequence, (readItems depth s).toPair.2) := by
  rw [readAfter, if_neg (by omega)]
  rfl

/-- No tree begins with any other token. -/
theorem readAfter_unexpected (h : depth ≤ maxDepth)
    (htoken : token ∉ [.value, .null, .objectStart, .listStart]) (s : σ) :
    (readAfter token depth s).toPair = (.error (unexpectedToken s token), s) := by
  simp only [List.mem_cons, List.not_mem_nil, or_false, not_or] at htoken
  obtain ⟨hvalue, hnull, hobject, hlist⟩ := htoken
  rw [readAfter.eq_def, if_neg (by omega)]
  split
  · exact absurd rfl hvalue
  · exact absurd rfl hnull
  · exact absurd rfl hobject
  · exact absurd rfl hlist
  · rfl

/-- Nothing is read too far below the root. -/
theorem readAfter_tooDeep (token : Token) (h : maxDepth < depth) (s : σ) :
    (readAfter token depth s).toPair = (.error (.depthExceeded (currentPath s) maxDepth), s) := by
  unfold readAfter
  rw [if_pos h]
  rfl

/-! ### One entry -/

/-- A failed call in the place of a name fails the entry. -/
theorem readEntry_error (h : next s = (.error error, s₁)) :
    (readEntry depth entries s).toPair = (.error error, s₁) := by
  obtain ⟨herror, rfl⟩ := Prod.ext_iff.1 h
  rw [readEntry]
  split
  next error' heq =>
    obtain rfl : error = error' := by simpa [herror] using heq
    rfl
  next heq => simp [herror] at heq

/-- Anything else in the place of a name fails the entry. -/
theorem readEntry_not_key (h : next s = (.ok token, s₁)) (hne : token ≠ .key) :
    (readEntry depth entries s).toPair =
      (.error (.usage (currentPath s₁) ("Expected a key but got " ++ token.name)), s₁) := by
  obtain ⟨htoken, rfl⟩ := Prod.ext_iff.1 h
  rw [readEntry]
  split
  next heq => simp [htoken] at heq
  next token' heq =>
    obtain rfl : token = token' := by simpa [htoken] using heq
    rw [dif_neg hne]
    rfl

/-- A name that cannot be read fails the entry. -/
theorem readEntry_name_error (h : next s = (.ok .key, s₁))
    (hname : readString s₁ = (.error error, s₂)) :
    (readEntry depth entries s).toPair = (.error error, s₂) := by
  obtain ⟨hkey, rfl⟩ := Prod.ext_iff.1 h
  obtain ⟨hname, rfl⟩ := Prod.ext_iff.1 hname
  rw [readEntry]
  split
  next heq => simp [hkey] at heq
  next token heq =>
    obtain rfl : Token.key = token := by simpa [hkey] using heq
    simp only [↓reduceDIte, hname]
    rfl

/-- An entry is its name with the tree behind it. -/
theorem readEntry_key (depth : Nat) (entries : OrderedMap Value)
    (h : next s = (.ok .key, s₁)) (hname : readString s₁ = (.ok name, s₂)) :
    (readEntry depth entries s).toPair =
      ((readTree (depth + 1) s₂).1.map (addEntry entries name), (readTree (depth + 1) s₂).2) := by
  obtain ⟨hkey, rfl⟩ := Prod.ext_iff.1 h
  obtain ⟨hname, rfl⟩ := Prod.ext_iff.1 hname
  rw [readEntry]
  split
  next heq => simp [hkey] at heq
  next token heq =>
    obtain rfl : Token.key = token := by simpa [hkey] using heq
    simp only [↓reduceDIte, hname]
    -- the token behind the name is the first one of the tree
    cases hvalue : (next (readString (next s).2).2).1 with
    | error error =>
      rw [readTree_of_next_error (Prod.ext hvalue rfl)]
      rfl
    | ok token =>
      rw [readTree_of_next (Prod.ext hvalue rfl)]
      rfl

/-! ### The entries of an object -/

/-- A failed look ahead fails the object. -/
theorem readEntries_peek_error (h : peek s = (.error error, s₁)) :
    (readEntries depth entries s).toPair = (.error error, s₁) := by
  obtain ⟨herror, rfl⟩ := Prod.ext_iff.1 h
  rw [readEntries]
  simp only [herror]
  rfl

/-- At its end the object is complete. -/
theorem readEntries_end (h : peek s = (.ok .objectEnd, s₁)) :
    (readEntries depth entries s).toPair = ((next s₁).1.map fun _ => entries, (next s₁).2) := by
  obtain ⟨htoken, rfl⟩ := Prod.ext_iff.1 h
  rw [readEntries]
  simp only [htoken, ↓reduceIte]
  rfl

/-- A failed entry fails the object. -/
theorem readEntries_entry_error (h : peek s = (.ok token, s₁)) (hne : token ≠ .objectEnd)
    (hentry : (readEntry depth entries s₁).toPair = (.error error, s₂)) :
    (readEntries depth entries s).toPair = (.error error, s₂) := by
  obtain ⟨htoken, rfl⟩ := Prod.ext_iff.1 h
  obtain ⟨herror, rfl⟩ := Prod.ext_iff.1 hentry
  rw [readEntries]
  simp only [htoken, hne, ↓reduceIte]
  split
  next error' heq =>
    obtain rfl : error = error' := by simpa using herror.symm.trans heq
    rfl
  next heq => exact absurd (herror.symm.trans heq) (by simp)

/-- Behind an entry the object goes on with the entries up to there. -/
theorem readEntries_entry (h : peek s = (.ok token, s₁)) (hne : token ≠ .objectEnd)
    (hentry : (readEntry depth entries s₁).toPair = (.ok more, s₂)) :
    (readEntries depth entries s).toPair = (readEntries depth more s₂).toPair := by
  obtain ⟨htoken, rfl⟩ := Prod.ext_iff.1 h
  obtain ⟨hmore, rfl⟩ := Prod.ext_iff.1 hentry
  rw [readEntries]
  simp only [htoken, hne, ↓reduceIte]
  split
  next heq => exact absurd (hmore.symm.trans heq) (by simp)
  next more' heq =>
    obtain rfl : more = more' := by simpa using hmore.symm.trans heq
    rfl

/-! ### The items of a list -/

/-- At its end the list is complete. -/
theorem readItems_end (h : next s = (.ok .listEnd, s₁)) :
    (readItems depth s).toPair = (.ok [], s₁) := by
  obtain ⟨htoken, rfl⟩ := Prod.ext_iff.1 h
  rw [readItems]
  split
  next heq => simp [htoken] at heq
  next token heq =>
    obtain rfl : Token.listEnd = token := by simpa [htoken] using heq
    rfl

/-- A list does not end with the stream. -/
theorem readItems_endOfStream (h : next s = (.ok .endOfStream, s₁)) :
    (readItems depth s).toPair =
      (.error (.usage (currentPath s₁) "Stream ended inside a list"), s₁) := by
  obtain ⟨htoken, rfl⟩ := Prod.ext_iff.1 h
  rw [readItems]
  split
  next heq => simp [htoken] at heq
  next token heq =>
    obtain rfl : Token.endOfStream = token := by simpa [htoken] using heq
    rfl

/-- A failed item fails the list. -/
theorem readItems_item_error
    (h : ∀ token, (next s).1 = .ok token → token ≠ .listEnd ∧ token ≠ .endOfStream)
    (hitem : readTree (depth + 1) s = (.error error, s₁)) :
    (readItems depth s).toPair = (.error error, s₁) := by
  rw [readItems]
  -- the first token is taken here, before it is known whether the list ends
  split
  next error' heq =>
    rw [readTree_of_next_error (Prod.ext heq rfl)] at hitem
    obtain ⟨herror, rfl⟩ := Prod.ext_iff.1 hitem
    obtain rfl : error' = error := by simpa using herror
    rfl
  next token heq =>
    rw [readTree_of_next (Prod.ext heq rfl)] at hitem
    obtain ⟨herror, rfl⟩ := Prod.ext_iff.1 hitem
    simp only [h token heq, ↓reduceIte, ↓reduceDIte]
    split
    next error' heq' =>
      obtain rfl : error = error' := by simpa using herror.symm.trans heq'
      rfl
    next heq' => exact absurd (herror.symm.trans heq') (by simp)

/-- Behind an item the list goes on. -/
theorem readItems_item
    (h : ∀ token, (next s).1 = .ok token → token ≠ .listEnd ∧ token ≠ .endOfStream)
    (hitem : readTree (depth + 1) s = (.ok value, s₁)) :
    (readItems depth s).toPair =
      ((readItems depth s₁).toPair.1.map (value :: ·), (readItems depth s₁).toPair.2) := by
  rw [readItems]
  -- the first token is taken here, before it is known whether the list ends
  split
  next heq =>
    rw [readTree_of_next_error (Prod.ext heq rfl)] at hitem
    exact absurd (congrArg Prod.fst hitem) (by simp)
  next token heq =>
    rw [readTree_of_next (Prod.ext heq rfl)] at hitem
    obtain ⟨hvalue, rfl⟩ := Prod.ext_iff.1 hitem
    simp only [h token heq, ↓reduceIte, ↓reduceDIte]
    split
    next heq' => exact absurd (hvalue.symm.trans heq') (by simp)
    next value' heq' =>
      obtain rfl : value = value' := by simpa using hvalue.symm.trans heq'
      rfl

/-! ### The parts of a document -/

/-- A failed look ahead fails the document. -/
theorem readParts_peek_error (h : peek s = (.error error, s₁)) :
    readParts entries s = (.error error, s₁) := by
  obtain ⟨herror, rfl⟩ := Prod.ext_iff.1 h
  unfold readParts
  simp only [herror]

/-- A failed entry fails the document. -/
theorem readParts_entry_error (h : peek s = (.ok .key, s₁))
    (hentry : (readEntry 0 entries s₁).toPair = (.error error, s₂)) :
    readParts entries s = (.error error, s₂) := by
  obtain ⟨htoken, rfl⟩ := Prod.ext_iff.1 h
  obtain ⟨herror, rfl⟩ := Prod.ext_iff.1 hentry
  rw [readParts]
  simp only [htoken]
  split
  next error' heq =>
    obtain rfl : error = error' := by simpa using herror.symm.trans heq
    rfl
  next heq => exact absurd (herror.symm.trans heq) (by simp)

/-- Behind an entry the document goes on with the entries up to there. -/
theorem readParts_entry (h : peek s = (.ok .key, s₁))
    (hentry : (readEntry 0 entries s₁).toPair = (.ok more, s₂)) :
    readParts entries s = readParts more s₂ := by
  obtain ⟨htoken, rfl⟩ := Prod.ext_iff.1 h
  obtain ⟨hmore, rfl⟩ := Prod.ext_iff.1 hentry
  rw [readParts]
  simp only [htoken]
  split
  next heq => exact absurd (hmore.symm.trans heq) (by simp)
  next more' heq =>
    obtain rfl : more = more' := by simpa using hmore.symm.trans heq
    rfl

/-- At the end of the stream the document is the mapping of the entries so far. -/
theorem readParts_end (h : peek s = (.ok .endOfStream, s₁)) :
    readParts entries s = (.ok (.mapping entries), s₁) := by
  obtain ⟨htoken, rfl⟩ := Prod.ext_iff.1 h
  unfold readParts
  simp only [htoken]

/-- No tree starts with the end of the stream. -/
theorem token_ne_of_readTree (h : next s = (.ok token, s₁))
    (htree : readTree depth s = (.ok value, s₂)) : token ≠ .endOfStream := by
  rintro rfl
  rw [readTree_of_next h] at htree
  unfold readAfter at htree
  split at htree
  · exact absurd (congrArg Prod.fst htree) (by simp [ReadFrom.toPair])
  · exact absurd (congrArg Prod.fst htree) (by simp [ReadFrom.toPair])

/-- A failed tree fails the document. -/
theorem readParts_tree_error (h : peek s = (.ok token, s₁)) (hend : token ≠ .endOfStream)
    (hkey : token ≠ .key) (htree : readTree 0 s₁ = (.error error, s₂)) :
    readParts entries s = (.error error, s₂) := by
  obtain ⟨htoken, rfl⟩ := Prod.ext_iff.1 h
  rw [readParts]
  split
  next heq => exact absurd (htoken.symm.trans heq) (by simp)
  next heq => exact absurd (Except.ok.inj (htoken.symm.trans heq)) hend
  next heq => exact absurd (Except.ok.inj (htoken.symm.trans heq)) hkey
  -- neither the end nor a name, so a whole tree comes
  next =>
    dsimp only
    split
    next error' heq =>
      rw [readTree_of_next_error (Prod.ext heq rfl)] at htree
      obtain ⟨herror, rfl⟩ := Prod.ext_iff.1 htree
      obtain rfl : error' = error := by simpa using herror
      rfl
    next token' heq =>
      rw [readTree_of_next (Prod.ext heq rfl)] at htree
      obtain ⟨hresult, rfl⟩ := Prod.ext_iff.1 htree
      split
      next error' heq' =>
        obtain rfl : error = error' := by simpa using hresult.symm.trans heq'
        rfl
      next heq' => exact absurd (hresult.symm.trans heq') (by simp)
      next heq' => exact absurd (hresult.symm.trans heq') (by simp)

/-- A whole mapping adds its entries to the document. -/
theorem readParts_mapping (h : peek s = (.ok token, s₁)) (hend : token ≠ .endOfStream)
    (hkey : token ≠ .key) (htree : readTree 0 s₁ = (.ok (.mapping more), s₂)) :
    readParts entries s = readParts (OrderedMap.insertAll entries more) s₂ := by
  obtain ⟨htoken, rfl⟩ := Prod.ext_iff.1 h
  rw [readParts]
  split
  next heq => exact absurd (htoken.symm.trans heq) (by simp)
  next heq => exact absurd (Except.ok.inj (htoken.symm.trans heq)) hend
  next heq => exact absurd (Except.ok.inj (htoken.symm.trans heq)) hkey
  -- neither the end nor a name, so a whole tree comes
  next =>
    dsimp only
    split
    next error heq =>
      rw [readTree_of_next_error (Prod.ext heq rfl)] at htree
      exact absurd (congrArg Prod.fst htree) (by simp)
    next token' heq =>
      have hne := token_ne_of_readTree (Prod.ext heq rfl) htree
      rw [readTree_of_next (Prod.ext heq rfl)] at htree
      obtain ⟨hresult, rfl⟩ := Prod.ext_iff.1 htree
      split
      next heq' => exact absurd (hresult.symm.trans heq') (by simp)
      next more' heq' =>
        obtain rfl : more = more' := by simpa using hresult.symm.trans heq'
        rw [dif_neg hne]
        rfl
      next value hvalue heq' =>
        exact absurd (Except.ok.inj (hresult.symm.trans heq')).symm (hvalue more)

/-- The error for a tree that is not a mapping and not the whole document. -/
def topLevelError (value : Value) : Error :=
  .parse ("Unexpected top-level " ++ value.typeName ++ " in document")

/-- Any other tree is the document if there are no entries before it and the stream ends behind it,
and fails the document otherwise. -/
theorem readParts_other (h : peek s = (.ok token, s₁)) (hend : token ≠ .endOfStream)
    (hkey : token ≠ .key) (htree : readTree 0 s₁ = (.ok value, s₂))
    (hvalue : ∀ more, value ≠ .mapping more) : readParts entries s =
      if entries = [] then
        ((peek s₂).1.bind fun token =>
          if token = .endOfStream then .ok value else .error (topLevelError value), (peek s₂).2)
      else (.error (topLevelError value), s₂) := by
  obtain ⟨htoken, rfl⟩ := Prod.ext_iff.1 h
  rw [readParts]
  split
  next heq => exact absurd (htoken.symm.trans heq) (by simp)
  next heq => exact absurd (Except.ok.inj (htoken.symm.trans heq)) hend
  next heq => exact absurd (Except.ok.inj (htoken.symm.trans heq)) hkey
  -- neither the end nor a name, so a whole tree comes
  next =>
    dsimp only
    split
    next error heq =>
      rw [readTree_of_next_error (Prod.ext heq rfl)] at htree
      exact absurd (congrArg Prod.fst htree) (by simp)
    next token' heq =>
      rw [readTree_of_next (Prod.ext heq rfl)] at htree
      obtain ⟨hresult, rfl⟩ := Prod.ext_iff.1 htree
      split
      next heq' => exact absurd (hresult.symm.trans heq') (by simp)
      next more heq' => exact absurd (Except.ok.inj (hresult.symm.trans heq')) (hvalue more)
      next value' _ heq' =>
        obtain rfl : value = value' := by simpa using hresult.symm.trans heq'
        refine ite_congr rfl (fun _ => ?_) fun _ => rfl
        simp only [ReadFrom.toPair]
        split
        next herror => rw [herror]; rfl
        next hstop => rw [hstop]; rfl
        next other hne hstop =>
          rw [hstop, Except.bind, if_neg fun heq : other = .endOfStream => hne heq]
          rfl

/-- Any other tree that stands alone is the document. -/
theorem readParts_value (h : peek s = (.ok token, s₁)) (hend : token ≠ .endOfStream)
    (hkey : token ≠ .key) (htree : readTree 0 s₁ = (.ok value, s₂))
    (hvalue : ∀ more, value ≠ .mapping more) (hrest : peek s₂ = (.ok .endOfStream, s₃)) :
    readParts [] s = (.ok value, s₃) := by
  rw [readParts_other h hend hkey htree hvalue, if_pos rfl, hrest]
  rfl

/-- A document with any other tree in it is that tree, which stands alone. -/
theorem eq_of_readParts_value {result : Value} (h : peek s = (.ok token, s₁))
    (hend : token ≠ .endOfStream) (hkey : token ≠ .key) (htree : readTree 0 s₁ = (.ok value, s₂))
    (hvalue : ∀ more, value ≠ .mapping more) (hdocument : readParts entries s = (.ok result, s₃)) :
    result = value ∧ entries = [] ∧ peek s₂ = (.ok .endOfStream, s₃) := by
  rw [readParts_other h hend hkey htree hvalue] at hdocument
  split at hdocument
  next hentries =>
    rcases hpeek : peek s₂ with ⟨error | token, s₄⟩
    · rw [hpeek] at hdocument
      exact absurd (congrArg Prod.fst hdocument) (by simp [Except.bind])
    · rw [hpeek, Except.bind] at hdocument
      obtain ⟨hresult, rfl⟩ := Prod.mk.inj hdocument
      split at hresult
      next hstop => exact ⟨(Except.ok.inj hresult).symm, hentries, by rw [hstop]⟩
      next => exact absurd hresult (by simp)
  next => exact absurd (congrArg Prod.fst hdocument) (by simp)

end LayeredConfig.Value
