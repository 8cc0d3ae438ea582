import LayeredConfig.Token

/-!
# Draining a token stream

`TokenStream.drain` reads a stream to its end or to the first error and lists what it gave;
`drainPeeking` looks at every token before taking it.
-/

namespace LayeredConfig

/-- A token taken from a stream with its path and, for names and values, what reading its scalar
gave. -/
structure Drained where
  /-- The token. -/
  token : Token
  /-- The result of reading the scalar of a name or a value. -/
  scalar : Option (Except Error Scalar)
  /-- The path of the token. -/
  path : String

namespace TokenStream

variable {σ : Type} [TokenStream σ]

/-- The token carries a scalar in every well-formed stream. -/
def carriesScalar (token : Token) : Bool := token = .key || token = .value

/-- What there is to list of a token that has just been taken. -/
def inspect (token : Token) (s : σ) : Drained × σ :=
  if carriesScalar token then
    let r := readScalar s
    (⟨token, some r.1, currentPath r.2⟩, r.2)
  else
    (⟨token, none, currentPath s⟩, s)

theorem remaining_inspect (token : Token) (s : σ) :
    remaining (inspect token s).2 ≤ remaining s := by
  unfold inspect
  split
  · exact remaining_readScalar s
  · exact Nat.le_refl _

/-- Everything that a stream gives up to its end or its first error, and the state after it. -/
def drain (s : σ) : List (Except Error Drained) × σ :=
  let r := next s
  match h : r.1 with
  | .error error => ([.error error], r.2)
  | .ok token =>
    let item := inspect token r.2
    if hend : token = .endOfStream then
      ([.ok item.1], item.2)
    else
      have : remaining (inspect token (next s).2).2 < remaining s :=
        Nat.lt_of_le_of_lt (remaining_inspect _ _) (remaining_next_lt s h hend)
      let rest := drain item.2
      (.ok item.1 :: rest.1, rest.2)
termination_by remaining s

/-- Everything that a stream gives up to its end or its first error, every token after the one that
peeking promised, and the state after it. -/
def drainPeeking (s : σ) : List (Except Error (Token × Drained)) × σ :=
  let p := peek s
  match p.1 with
  | .error error => ([.error error], p.2)
  | .ok peeked =>
    let r := next p.2
    match h : r.1 with
    | .error error => ([.error error], r.2)
    | .ok token =>
      let item := inspect token r.2
      if hend : token = .endOfStream then
        ([.ok (peeked, item.1)], item.2)
      else
        have : remaining (inspect token (next (peek s).2).2).2 < remaining s :=
          Nat.lt_of_le_of_lt (remaining_inspect _ _)
            (Nat.lt_of_lt_of_le (remaining_next_lt p.2 h hend) (remaining_peek s))
        let rest := drainPeeking item.2
        (.ok (peeked, item.1) :: rest.1, rest.2)
termination_by remaining s

end TokenStream

end LayeredConfig
