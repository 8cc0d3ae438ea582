import LayeredConfig.Resolution.Cursor

/-!
# Resolved nodes

A resolved node is a cursor together with the source that it walks and the kind of tree that it
started at. As a producer of events it can be read like a document.
-/

namespace LayeredConfig.Resolution

/-- What a path resolves to. -/
inductive NodeKind where
  | map
  | list
  | value
  | null
  deriving DecidableEq, Repr

/-- The name of a kind of node. -/
def NodeKind.name : NodeKind → String
  | map => "map"
  | list => "list"
  | value => "value"
  | null => "null"

/-- The kind of tree that a cursor stands before or in. -/
def Cursor.kind : Cursor → NodeKind
  | .mapStart .. | .mapKey .. | .mapValue .. | .mapEnd _ => .map
  | .listStart .. | .listItem .. | .listEnd _ => .list
  | .leaf _ (some _) => .value
  | .leaf _ none | .done _ => .null

/-- A position in the tree below a path of a source. -/
structure Node where
  /-- The source. -/
  source : Source
  /-- The kind of the tree. -/
  kind : NodeKind
  /-- The position. -/
  cursor : Cursor

namespace Node

theorem event_ne_of_token_ne {event : Event} (h : event.token ≠ .endOfStream) :
    event ≠ .endOfStream := by
  intro heq
  exact h (by rw [heq]; rfl)

instance : EventSource Node where
  peek node :=
    let r := node.cursor.peek node.source
    (r.1, { node with cursor := r.2 })
  next node :=
    let r := node.cursor.next node.source
    (r.1, { node with cursor := r.2 })
  remaining node := node.cursor.remaining node.source
  remaining_peek node := node.cursor.remaining_peek
  remaining_next node := node.cursor.remaining_next.1
  remaining_next_lt node item h hne :=
    node.cursor.remaining_next.2 item h (event_ne_of_token_ne hne)

/-- The node at a path of a source, ready to be read. -/
def resolve (source : Source) (path : String) : Except Error (Reader Node) :=
  (Resolution.resolve source path).map fun cursor =>
    ⟨⟨source, cursor.kind, cursor⟩, .initial path⟩

/-- The text that stands for a node in listings: its kind and the path of its last token. -/
def label (reader : Reader Node) : String :=
  "Node::" ++ reader.events.kind.name ++ "(" ++ reader.slot.path ++ ")"

end Node

end LayeredConfig.Resolution
