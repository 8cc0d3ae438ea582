import LayeredConfig.Document.Parser
import LayeredConfig.Source.Store

/-!
# Documents as sources

A document is read as a list of assignments: a later value for a path replaces the earlier one in
its place, and a null removes everything stored at its path and below.
-/

namespace LayeredConfig

/-- A parsed document. -/
structure DocumentSource where
  /-- The name of the document, usually of its file. -/
  name : String
  /-- The values of the document. -/
  store : Store

namespace DocumentSource

/-- The values without those at a path and below it. -/
def erase (values : OrderedMap Scalar) (path : String) : OrderedMap Scalar :=
  values.filter fun entry => !Path.isWithin entry.1 path

/-- The values after one more event of a document. -/
def assign (values : OrderedMap Scalar) (item : Located) : OrderedMap Scalar :=
  match item.event with
  | .value scalar => OrderedMap.insert values item.path scalar
  | .null => erase values item.path
  | _ => values

/-- The values at the end of a document, from the values so far and the rest of the document. -/
def assignAll (values : OrderedMap Scalar) (p : Document.Parser) :
    Except Error (OrderedMap Scalar) :=
  let r := EventSource.next p
  match h : r.1 with
  | .error error => .error error
  | .ok item =>
    if hend : item.event.token = .endOfStream then
      .ok values
    else
      have : EventSource.remaining (EventSource.next p).2 < EventSource.remaining p :=
        EventSource.remaining_next_lt p h hend
      assignAll (assign values item) r.2
termination_by EventSource.remaining p

/-- Read a document; errors name it as their source. -/
def parse (name text : String) : Except Error DocumentSource :=
  match assignAll [] (.ofText text) with
  | .ok values => .ok ⟨name, .ofMap values⟩
  | .error error => .error (error.inFile name)

/-- The document as a source. -/
def toSource (document : DocumentSource) : Source := document.store.toSource document.name

end DocumentSource

end LayeredConfig
