/-
  Resumable.Machine.Capture
  ─────────────────────────
  **TAKING A CONTINUATION.**

  The records are taken from the innermost frame outwards, along the callers.
  While a resume is armed there is nothing to take: the call that asks is the
  one that took the continuation being rebuilt, so it gets the empty
  continuation, the resume is disarmed and its hook is removed.
-/
import Resumable.Continuation.Suspension
import Resumable.Machine.State

namespace Resumable

open VmAction

namespace Vm

/-- The records from the frame with an index outwards.  A caller lies below the
called frame, so no more than `limit` frames are met. -/
def recordsFrom (vm : Vm) : Nat → Option Nat → Except Fault (List Record)
  | _, none => .ok []
  | 0, some index => .error (.internal (.danglingParent index))
  | limit + 1, some index =>
      match vm.frameAt? index with
      | none => .error (.internal (.danglingParent index))
      | some f => do
          let record ← f.toRecord.mapError Fault.continuation
          let outer ← vm.recordsFrom limit f.parent
          pure (record :: outer)

/-- The continuation of all live frames. -/
def liveContinuation (vm : Vm) : Except Fault Continuation := do
  let records ← vm.recordsFrom vm.depth vm.topIndex?
  pure ⟨records⟩

/-- The machine with its armed resume disarmed and the hook of it removed. -/
def dropArmed (vm : Vm) : Vm :=
  match vm.armed with
  | some id => { vm.removeHook id with armed := none }
  | none => vm

end Vm

/-- Take a continuation of the live frames, or meet the resume that is armed. -/
def capture : VmAction Continuation := do
  let vm ← get
  match vm.armed with
  | some _ =>
      set vm.dropArmed
      pure {}
  | none =>
      match vm.liveContinuation with
      | .ok k => pure k
      | .error e => throw e

end Resumable
