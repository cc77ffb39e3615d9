/-
  Resumable.Continuation.Suspension
  ─────────────────────────────────
  **FROM A SUSPENDED FRAME TO A RECORD.**

  A frame can be kept while it is suspended in a call, whose callee and
  arguments are still on its stack.  What its stack must hold at least is read
  off the body and the blocks:

      locals + 3 per active handler + 1 per for-loop around the call + the call

  More than that are operands pushed before the call, and they are kept too;
  fewer mean that the stack is not what the body says.
-/
import Resumable.Bytecode.LoopNesting
import Resumable.Frame

namespace Resumable.Frame

/-! ## §1. The call a frame is suspended in. -/

/-- The failure of a frame that is not suspended in a call. -/
def notAtCall (f : Frame) (found : Option Opcode) : ContinuationError :=
  .notAtCall f.code f.current found

/-- The call a frame is suspended in, in its decoded body. -/
def callSite (f : Frame) (code : Array Instruction) : Except ContinuationError Instruction :=
  match instructionAt code f.current with
  | some call => if call.opcode.isCall then .ok call else .error (f.notAtCall (some call.opcode))
  | none => .error (f.notAtCall none)

/-- The number of names on top of the stack, where a call by keywords has them. -/
def nameCount (f : Frame) : Nat :=
  match f.slots.back? with
  | some (some (.tuple names)) => names.length
  | _ => 0

/-- The stack entries of a call in progress: callee, receiver, arguments, names. -/
def slotsOfCall (f : Frame) (call : Instruction) : Except ContinuationError Nat :=
  let argc := call.arg.toNat
  match call.opcode with
  | .callFunction => .ok (1 + argc)
  | .callMethod => .ok (2 + argc)
  | .callFunctionKw =>
      if f.nameCount = argc then .ok (2 + argc)
      else .error (.otherNameCount f.qualname argc f.nameCount)
  | .callFunctionEx => .ok (2 + argc % 2)
  | other => .error (f.notAtCall (some other))

/-! ## §2. The slots a suspended frame needs. -/

/-- The number of active handlers. -/
def handlerCount (f : Frame) : Nat :=
  f.blocks.countP Block.isHandling

/-- The slots a frame must hold at least, given its decoded body. -/
def neededSlots (f : Frame) (code : Array Instruction) : Except ContinuationError Nat := do
  let call ← f.callSite code
  let ofCall ← f.slotsOfCall call
  pure (f.nlocals + savedSlots * f.handlerCount + loopNesting code f.current f.current + ofCall)

/-! ## §3. Records. -/

/-- The record of a frame as it is. -/
def asRecord (f : Frame) : Record :=
  ⟨f.current, f.slots, f.blocks, f.function⟩

/-- The record of a frame suspended in a call. -/
def toRecord (f : Frame) : Except ContinuationError Record :=
  match decode f.code.bytes with
  | .error e => .error (.undecodable f.qualname e)
  | .ok code => do
      let needed ← f.neededSlots code
      if f.top < needed then
        throw (.tooFewSlots f.qualname f.current needed f.top)
      pure f.asRecord

end Resumable.Frame
