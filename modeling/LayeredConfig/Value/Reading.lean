import LayeredConfig.Token
import LayeredConfig.Value

/-!
# Reading trees from token streams

* `Value.read` takes exactly one tree from a stream and leaves the stream right behind it.
* `Value.readDocument` reads a stream to its end: entries without braces around them and whole
  mappings are joined into one mapping, and any other tree must stand alone.

Trees nest at most `maxDepth` levels below their root. Entries named `pathKey` tell the path of an
object and do not belong to the tree.

Every reader returns the state in which it leaves the stream, also when it fails. Its result type
records that the stream has no more tokens left in that state than before (`ReadFrom`), and fewer
after an entry (`ReadPast`), which is why reading ends.
-/

namespace LayeredConfig

/-- The number of levels that a tree may have below its root. -/
def maxDepth : Nat := 128

/-- The name of the entry that tells the path of a resolved object. -/
def pathKey : String := "plyconf:path"

namespace Value

open TokenStream

variable {σ : Type} [TokenStream σ]

/-- The result of reading from a stream in the state `s`. -/
structure ReadFrom (s : σ) (α : Type) where
  /-- What has been read. -/
  result : Except Error α
  /-- The state after reading. -/
  state : σ
  /-- Reading adds no tokens. -/
  le : remaining state ≤ remaining s

/-- The result of reading from a stream in the state `s` something that takes tokens. -/
structure ReadPast (s : σ) (α : Type) extends ReadFrom s α where
  /-- Reading with success uses up tokens. -/
  lt : ∀ a, result = .ok a → remaining state < remaining s

/-- The result as a pair, without the bound. -/
def ReadFrom.toPair {s : σ} {α : Type} (r : ReadFrom s α) : Except Error α × σ :=
  (r.result, r.state)

/-- The error for a token that does not start a tree. -/
def unexpectedToken (s : σ) (token : Token) : Error :=
  .usage (currentPath s) ("Expected a value but got " ++ token.name)

/-- The entries of an object with one more; the entry that tells the path is left out. -/
def addEntry (entries : OrderedMap Value) (name : String) (value : Value) : OrderedMap Value :=
  if name = pathKey then entries else OrderedMap.insert entries name value

mutual

/-- The tree whose first token has just been taken, `depth` levels below the root. -/
def readAfter (token : Token) (depth : Nat) (s : σ) : ReadFrom s Value :=
  if maxDepth < depth then
    ⟨.error (.depthExceeded (currentPath s) maxDepth), s, Nat.le_refl _⟩
  else
    match token with
    | .value =>
      let r := readScalar s
      ⟨r.1.map .scalar, r.2, remaining_readScalar s⟩
    | .null => ⟨.ok .null, s, Nat.le_refl _⟩
    | .objectStart =>
      let r := readEntries depth [] s
      ⟨r.result.map .mapping, r.state, r.le⟩
    | .listStart =>
      let r := readItems depth s
      ⟨r.result.map .sequence, r.state, r.le⟩
    | token => ⟨.error (unexpectedToken s token), s, Nat.le_refl _⟩
termination_by 3 * remaining s + 2

/-- One entry of an object `depth` levels below the root, added to the entries before it. -/
def readEntry (depth : Nat) (entries : OrderedMap Value) (s : σ) :
    ReadPast s (OrderedMap Value) :=
  let r := next s
  match h : r.1 with
  | .error error => ⟨⟨.error error, r.2, remaining_next s⟩, fun _ h => nomatch h⟩
  | .ok token =>
    if hkey : token = .key then
      have hlt : remaining r.2 < remaining s :=
        remaining_next_lt s h (by rw [hkey]; decide)
      let n := readString r.2
      have hn : remaining n.2 < remaining s :=
        Nat.lt_of_le_of_lt (remaining_readScalar r.2) hlt
      match n.1 with
      | .error error => ⟨⟨.error error, n.2, Nat.le_of_lt hn⟩, fun _ h => nomatch h⟩
      | .ok name =>
        let v := next n.2
        have hv : remaining (next (readString (next s).2).2).2 < remaining s :=
          Nat.lt_of_le_of_lt (remaining_next n.2) hn
        match v.1 with
        | .error error => ⟨⟨.error error, v.2, Nat.le_of_lt hv⟩, fun _ h => nomatch h⟩
        | .ok token =>
          let value := readAfter token (depth + 1) v.2
          have hvalue : remaining value.state < remaining s := Nat.lt_of_le_of_lt value.le hv
          ⟨⟨value.result.map (addEntry entries name), value.state, Nat.le_of_lt hvalue⟩,
            fun _ _ => hvalue⟩
    else
      ⟨⟨.error (.usage (currentPath r.2) ("Expected a key but got " ++ token.name)), r.2,
        remaining_next s⟩, fun _ h => nomatch h⟩
termination_by 3 * remaining s

/-- The rest of an object whose entries so far are `entries`, up to and with its end. -/
def readEntries (depth : Nat) (entries : OrderedMap Value) (s : σ) :
    ReadFrom s (OrderedMap Value) :=
  let p := peek s
  have hp : remaining (peek s).2 ≤ remaining s := remaining_peek s
  match p.1 with
  | .error error => ⟨.error error, p.2, hp⟩
  | .ok token =>
    if token = .objectEnd then
      let r := next p.2
      ⟨r.1.map fun _ => entries, r.2, Nat.le_trans (remaining_next p.2) hp⟩
    else
      let entry := readEntry depth entries p.2
      match h : entry.result with
      | .error error => ⟨.error error, entry.state, Nat.le_trans entry.le hp⟩
      | .ok more =>
        have hlt : remaining (readEntry depth entries (peek s).2).state < remaining s :=
          Nat.lt_of_lt_of_le (entry.lt _ h) hp
        let rest := readEntries depth more entry.state
        ⟨rest.result, rest.state, Nat.le_of_lt (Nat.lt_of_le_of_lt rest.le hlt)⟩
termination_by 3 * remaining s + 1
decreasing_by all_goals omega

/-- The rest of a list, up to and with its end. -/
def readItems (depth : Nat) (s : σ) : ReadFrom s (List Value) :=
  let r := next s
  match h : r.1 with
  | .error error => ⟨.error error, r.2, remaining_next s⟩
  | .ok token =>
    if token = .listEnd then
      ⟨.ok [], r.2, remaining_next s⟩
    else if hend : token = .endOfStream then
      ⟨.error (.usage (currentPath r.2) "Stream ended inside a list"), r.2, remaining_next s⟩
    else
      have hlt : remaining (next s).2 < remaining s := remaining_next_lt s h hend
      let item := readAfter token (depth + 1) r.2
      have hitem : remaining (readAfter token (depth + 1) (next s).2).state < remaining s :=
        Nat.lt_of_le_of_lt item.le hlt
      match item.result with
      | .error error => ⟨.error error, item.state, Nat.le_of_lt hitem⟩
      | .ok value =>
        let rest := readItems depth item.state
        ⟨rest.result.map (value :: ·), rest.state,
          Nat.le_of_lt (Nat.lt_of_le_of_lt rest.le hitem)⟩
termination_by 3 * remaining s

end

/-- Take exactly one tree from a stream. -/
def read (s : σ) : Except Error Value × σ :=
  let r := next s
  match r.1 with
  | .error error => (.error error, r.2)
  | .ok token => (readAfter token 0 r.2).toPair

/-- Read a stream to its end as one tree; `entries` are the entries of the part before `s`. -/
def readParts (entries : OrderedMap Value) (s : σ) : Except Error Value × σ :=
  let p := peek s
  have hp : remaining (peek s).2 ≤ remaining s := remaining_peek s
  match p.1 with
  | .error error => (.error error, p.2)
  | .ok .endOfStream => (.ok (.mapping entries), p.2)
  | .ok .key =>
    let entry := readEntry 0 entries p.2
    match h : entry.result with
    | .error error => (.error error, entry.state)
    | .ok more =>
      have : remaining (readEntry 0 entries (peek s).2).state < remaining s :=
        Nat.lt_of_lt_of_le (entry.lt _ h) hp
      readParts more entry.state
  | .ok _ =>
    let r := next p.2
    match h : r.1 with
    | .error error => (.error error, r.2)
    | .ok token =>
      let part := readAfter token 0 r.2
      match part.result with
      | .error error => (.error error, part.state)
      | .ok (.mapping more) =>
        if hend : token = .endOfStream then
          (.error (unexpectedToken r.2 token), part.state)
        else
          have : remaining (readAfter token 0 (next (peek s).2).2).state < remaining s :=
            Nat.lt_of_lt_of_le (Nat.lt_of_le_of_lt part.le (remaining_next_lt p.2 h hend)) hp
          readParts (OrderedMap.insertAll entries more) part.state
      | .ok value =>
        let unexpected : Error :=
          .parse ("Unexpected top-level " ++ value.typeName ++ " in document")
        if entries = [] then
          let q := peek part.state
          match q.1 with
          | .error error => (.error error, q.2)
          | .ok .endOfStream => (.ok value, q.2)
          | .ok _ => (.error unexpected, q.2)
        else
          (.error unexpected, part.state)
termination_by remaining s

/-- Read a stream to its end as one tree. -/
def readDocument (s : σ) : Except Error Value × σ := readParts [] s

end Value

end LayeredConfig
