import LayeredConfig.CommandLine.Run

/-!
# The listing of tokens

The tokens of a document are listed in rounds. A round takes one token, prints its line and counts
the brackets that are open (`Listing.round`). The rounds go on until the end has been printed or a
call has failed (`Listing.run`).
-/

namespace LayeredConfig.CommandLine

/-- The listing of a document between two rounds. -/
structure Listing where
  /-- The tokens to come. -/
  reader : Reader Document.Parser
  /-- The number of brackets that are counted as open. -/
  depth : Nat
  /-- The lines that have been printed. -/
  printed : String

namespace Listing

/-- What a round leads to. -/
inductive Round where
  /-- The next round. -/
  | goesOn (after : Listing)
  /-- The end of the listing. -/
  | ends (outcome : Outcome)

/-- The listing of a text before its first round. -/
def start (text : String) : Listing := ⟨Document.Parser.reader text, 0, ""⟩

/-- A round of the listing of a file: the next token is counted and has its line printed. -/
def round (setting : Setting) (file : String) (l : Listing) : Round :=
  match TokenStream.next l.reader with
  | (.error error, _) =>
    .ends { exitCode := 1, stdout := l.printed, stderr := setting.fileFailure file error.message }
  | (.ok token, reader) =>
    let item := TokenStream.inspect token reader
    match item.1.scalar with
    | some (.error error) =>
      .ends { exitCode := 1, stdout := l.printed, stderr := setting.failure error.message }
    | _ =>
      let printed := l.printed ++ tokenLine setting (column l.depth token) item.1
      if token = .endOfStream then .ends { stdout := printed }
      else .goesOn ⟨item.2, countBehind l.depth token, printed⟩

variable {setting : Setting} {file : String} {l after : Listing}

/-- A round that is not the last one takes a token. -/
theorem remaining_of_round (h : l.round setting file = .goesOn after) :
    TokenStream.remaining after.reader < TokenStream.remaining l.reader := by
  unfold round at h
  split at h
  next => exact absurd h (by simp)
  next token reader hnext =>
    dsimp only at h
    split at h
    next => exact absurd h (by simp)
    next =>
      split at h
      next => exact absurd h (by simp)
      next hend =>
        obtain rfl := Round.goesOn.inj h
        have hlt := TokenStream.remaining_next_lt l.reader (congrArg Prod.fst hnext) hend
        rw [hnext] at hlt
        exact Nat.lt_of_le_of_lt (TokenStream.remaining_inspect token reader) hlt

/-- The rounds up to the end of the listing of a file. -/
def run (setting : Setting) (file : String) (l : Listing) : Outcome :=
  match _ : l.round setting file with
  | .goesOn after => run setting file after
  | .ends outcome => outcome
termination_by TokenStream.remaining l.reader
decreasing_by exact remaining_of_round ‹_›

end Listing

end LayeredConfig.CommandLine
