import LayeredConfig.Token

/-!
# Scripted token streams

A script is a token stream that gives out a list of tokens written down in advance, whether they
follow any grammar or not. Behind the last one it gives the end of the stream for ever.
-/

namespace LayeredConfig

/-- A token written down with its scalar and its path. -/
structure ScriptItem where
  /-- The token. -/
  token : Token
  /-- The scalar that can be read once the token has been given. -/
  scalar : Option Scalar
  /-- The path of the token. -/
  path : String
  deriving DecidableEq

/-- The state of a script. -/
structure Script where
  /-- The items to come. -/
  items : List ScriptItem
  /-- The path of the last token. -/
  path : String
  /-- The scalar of the last token, unless it has been read. -/
  scalar : Option Scalar
  deriving DecidableEq

namespace Script

/-- The script of a list of items. -/
def ofList (items : List ScriptItem) : Script := ⟨items, "", none⟩

/-- The next token. -/
def peek (script : Script) : Except Error Token × Script :=
  match script.items with
  | item :: _ => (.ok item.token, script)
  | [] => (.ok .endOfStream, script)

/-- The next token, which becomes the last one. -/
def next (script : Script) : Except Error Token × Script :=
  match script.items with
  | item :: rest => (.ok item.token, ⟨rest, item.path, item.scalar⟩)
  | [] => (.ok .endOfStream, .ofList [])

/-- The scalar of the last token. -/
def readScalar (script : Script) : Except Error Scalar × Script :=
  match script.scalar with
  | some scalar => (.ok scalar, { script with scalar := none })
  | none => (.error (.usage script.path "script has no scalar"), script)

theorem length_items_peek_le (script : Script) :
    script.peek.2.items.length ≤ script.items.length := by
  unfold peek
  split <;> exact Nat.le_refl _

theorem length_items_readScalar_le (script : Script) :
    script.readScalar.2.items.length ≤ script.items.length := by
  unfold readScalar
  split <;> exact Nat.le_refl _

theorem length_items_next (script : Script) :
    script.next.2.items.length = script.items.length - 1 := by
  unfold next
  split
  next heq => rw [heq]; rfl
  next heq => rw [heq]; rfl

theorem next_of_items_eq_nil {script : Script} (h : script.items = []) :
    script.next.1 = .ok .endOfStream := by
  unfold next
  rw [h]

instance : TokenStream Script where
  peek := peek
  next := next
  readScalar := readScalar
  currentPath script := script.path
  remaining script := script.items.length
  remaining_peek := length_items_peek_le
  remaining_readScalar := length_items_readScalar_le
  remaining_next script := by
    rw [length_items_next]
    exact Nat.sub_le _ _
  remaining_next_lt script token h hne := by
    rw [length_items_next]
    cases hitems : script.items with
    | nil =>
      rw [next_of_items_eq_nil hitems, Except.ok.injEq] at h
      exact absurd h.symm hne
    | cons item rest => exact Nat.lt_succ_self _

end Script

end LayeredConfig
