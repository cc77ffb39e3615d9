/-
  Resumable.Continuation.Reentry
  ──────────────────────────────
  **FROM A RECORD BACK INTO A FRAME.**

  A record goes into a frame that runs the same bytes.  The frame then stands
  before the call of the record, with the record's slots and blocks; its
  function, caller and parameters stay its own.  Every check comes first, so a
  frame that cannot take the record is left as it was.
-/
import Resumable.Frame

namespace Resumable.Frame

/-- A frame with the state of a record. -/
def withRecord (f : Frame) (r : Record) : Frame :=
  { f with next := r.position, current := r.position, slots := r.slots, blocks := r.blocks }

/-- Put a record into a frame. -/
def putRecord (f : Frame) (r : Record) : Except ContinuationError Frame :=
  if f.code.sameBody r.function.code then
    match decodeAt f.code.bytes r.position with
    | .error e => .error (.undecodable f.qualname e)
    | .ok _ => .ok (f.withRecord r)
  else
    .error (.otherBody f.qualname r.function.code.bytes.size f.code.bytes.size)

/-- A frame that takes a record runs the bytes the record was taken from. -/
theorem bytes_eq_of_putRecord {f g : Frame} {r : Record} (h : f.putRecord r = .ok g) :
    f.code.bytes = r.function.code.bytes := by
  unfold putRecord at h
  split at h
  · next hs => exact Code.sameBody_iff.mp hs
  · simp at h

/-- Taking a record changes nothing but the state the record keeps. -/
theorem eq_withRecord_of_putRecord {f g : Frame} {r : Record} (h : f.putRecord r = .ok g) :
    g = f.withRecord r := by
  unfold putRecord at h
  split at h
  · split at h
    · simp at h
    · exact (Except.ok.inj h).symm
  · simp at h

end Resumable.Frame
