/-!
# Cutting texts

`split` cuts a text at every occurrence of a separator. It keeps empty pieces, so a text without a
separator is its only piece and there is always at least one piece. `splitList` does the same with
lists of anything. `cut` cuts only at the first separator.
-/

namespace LayeredConfig.Text

variable {α : Type} [DecidableEq α]

/-- The pieces of a list between separators. -/
def splitList (separator : α) : List α → List (List α)
  | [] => [[]]
  | a :: rest =>
    if a = separator then
      [] :: splitList separator rest
    else
      match splitList separator rest with
      | [] => [[a]]
      | piece :: pieces => (a :: piece) :: pieces

/-- The pieces of a text between separators. -/
def split (separator : Char) (text : String) : List String :=
  (splitList separator text.toList).map String.ofList

/-- The items in front of the first separator, and those behind it if there is one. -/
def cut (separator : α) (items : List α) : List α × Option (List α) :=
  match items.dropWhile (· ≠ separator) with
  | _ :: rest => (items.takeWhile (· ≠ separator), some rest)
  | [] => (items, none)

theorem splitList_ne_nil (separator : α) (items : List α) : splitList separator items ≠ [] := by
  cases items with
  | nil => simp [splitList]
  | cons a rest =>
    rw [splitList]
    split
    · simp
    · split <;> simp

end LayeredConfig.Text
