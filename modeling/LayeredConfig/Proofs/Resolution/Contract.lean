import LayeredConfig.Proofs.Resolution.Orderly
import LayeredConfig.Proofs.Stream.ReadOnce

/-!
# The contract of token streams

Whoever reads a document or a resolved tree relies on two promises: looking ahead is idle, and the
scalar of a name or a value can be read once. Parsers and nodes keep them with a single slot for the
last token. A visit has a slot on every level and moves each scalar outwards through all of them. It
keeps the promises because it is in step with the reader of its path.

* `peeksInvisible_reader_resolve`: nothing shows that a look ahead has been made.
* `readsOnce_reader_resolve`: the scalar of a name or a value can be read once, and nothing else can
  be read.
-/

namespace LayeredConfig

open TokenStream

namespace Resolution

/-- A reading of a visit that fails is out of order and leaves the visit as it is. -/
theorem VisitStream.readScalar_of_ne_ok {s : VisitStream}
    (h : ∀ scalar, (readScalar s).1 ≠ .ok scalar) :
    ∃ cause, readScalar s = (.error (.usage (currentPath s) cause), s) := by
  obtain ⟨source, visit⟩ := s
  have hnone : ∀ scalar, visit.slot.take.1 ≠ .ok scalar := h
  obtain ⟨cause, htake⟩ := Slot.take_of_ne_ok hnone
  refine ⟨cause, ?_⟩
  show (visit.slot.take.1, (⟨source, visit.withSlot visit.slot.take.2⟩ : VisitStream)) = _
  rw [htake, Visit.withSlot_slot]
  rfl

namespace InStep

variable {s : VisitStream} {r : Reader Node}

/-- Looking ahead is invisible on a visit if it is so on a reader in step. -/
theorem peeksInvisible (h : InStep s r) (hreader : PeeksInvisible r) : PeeksInvisible s where
  replies_erase calls := by
    rw [h.replies_eq, h.replies_eq]
    exact hreader.replies_erase calls
  exists_token calls := by
    rw [(h.afterCalls calls).peek.1]
    exact hreader.exists_token calls
  token_eq calls token hnext := by
    -- visit and reader are in step behind the look ahead, too
    rw [(h.afterCalls _).next.1] at hnext
    rw [(h.afterCalls calls).peek.1]
    exact hreader.token_eq calls token hnext

/-- The scalars that can be read once from a reader can be read once from a visit in step. -/
theorem readsOnceFrom (h : InStep s r) (hreader : ReadsOnce r) : ReadsOnceFrom s r := by
  have hscalar : ∀ calls, (TokenStream.readScalar (TokenStream.afterCalls s calls)).1 =
      (TokenStream.readScalar (TokenStream.afterCalls r calls)).1 :=
    fun calls => (h.afterCalls calls).readScalar.1
  have hpath : ∀ calls, currentPath (TokenStream.afterCalls s calls) =
      currentPath (TokenStream.afterCalls r calls) :=
    fun calls => congrArg Slot.path (h.afterCalls calls).slot_eq
  constructor
  case next_eq => exact fun calls => (h.afterCalls calls).next.1
  case readScalar_iff =>
    intro calls
    rw [hscalar]
    exact hreader.readScalar_iff calls
  case scalar_eq =>
    intro calls since item scalar hgiven
    rw [hscalar]
    exact hreader.scalar_eq calls since item scalar hgiven
  case readScalar_error =>
    -- no reader is needed here: the slot of the visit itself refuses and stays as it is
    exact fun calls => VisitStream.readScalar_of_ne_ok
  case currentPath_eq =>
    intro calls since item hgiven
    rw [hpath]
    exact hreader.currentPath_eq calls since item hgiven
  case currentPath_initial =>
    intro calls hstays
    -- the reader gives no token either
    have hreaderStays : StaysAt r calls := by
      rwa [StaysAt, ← h.replies_eq]
    rw [hpath, hreader.currentPath_initial calls hreaderStays]
    exact (hpath []).symm

end InStep

end Resolution

/-- In the tokens of every document and of every path of every source, nothing shows that a look
ahead has been made, neither on the reader of the path nor on a visit. -/
theorem peeksInvisible_reader_resolve :
    (∀ text, PeeksInvisible (Document.Parser.reader text)) ∧
      ∀ source path, ∃ reader stream, Resolution.Node.resolve source path = .ok reader ∧
        Resolution.VisitStream.resolve source path = .ok stream ∧
        PeeksInvisible reader ∧ PeeksInvisible stream := by
  refine ⟨fun text => Document.Parser.peekInvariant.peeksInvisible trivial, fun source path => ?_⟩
  obtain ⟨stream, reader, hstream, hreader, hstep, -⟩ :=
    Resolution.exists_inStep_resolve source path
  have hinvisible : PeeksInvisible reader :=
    Resolution.Node.peekInvariant.peeksInvisible hstep.stands.sound
  exact ⟨reader, stream, hreader, hstream, hinvisible, hstep.peeksInvisible hinvisible⟩

/-- In the tokens of every document and of every path of every source, the scalar of a name or a
value can be read once, and nothing else can be read. A visit gives the same scalars as the reader
of its path, each of them once. -/
theorem readsOnce_reader_resolve :
    (∀ text, ReadsOnce (Document.Parser.reader text)) ∧
      ∀ source path, ∃ reader stream, Resolution.Node.resolve source path = .ok reader ∧
        Resolution.VisitStream.resolve source path = .ok stream ∧
        ReadsOnce reader ∧ ReadsOnceFrom stream reader := by
  refine ⟨fun text => Reader.readsOnce rfl, fun source path => ?_⟩
  obtain ⟨stream, reader, hstream, hreader, hstep, hslot⟩ :=
    Resolution.exists_inStep_resolve source path
  have honce : ReadsOnce reader := Reader.readsOnce hslot
  exact ⟨reader, stream, hreader, hstream, honce, hstep.readsOnceFrom honce⟩

end LayeredConfig
