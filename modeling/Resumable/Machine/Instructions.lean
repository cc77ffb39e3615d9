/-
  Resumable.Machine.Instructions
  ──────────────────────────────
  **WHAT EACH INSTRUCTION DOES.**

  An instruction either tells where the frame goes on (`Flow`), or asks for a
  call, whose result will take the place of its stack entries, or breaks off the
  whole program.
-/
import Resumable.Machine.Calls
import Resumable.Machine.Handlers
import Resumable.Machine.Operands

namespace Resumable

open VmAction

/-- Where a frame goes on after an instruction. -/
inductive Flow where
  /-- With the next instruction. -/
  | next
  /-- At an offset. -/
  | jump (target : Nat)
  /-- Nowhere: it returns a value. -/
  | return (value : Value)
  /-- Wherever the exception is handled. -/
  | raise (exception : Value)

/-- What an instruction comes to. -/
inductive Outcome where
  /-- It is done. -/
  | flow (flow : Flow)
  /-- It asks for a call first. -/
  | call (request : CallRequest)
  /-- The whole program breaks off. -/
  | breakOff

/-- Do something and go on with the next instruction. -/
def andNext (action : VmAction Unit) : VmAction Outcome := do
  action
  pure (.flow .next)

/-- Pop, and jump if the value counts as told. -/
def jumpIf (wanted : Bool) (target : Nat) : VmAction Outcome := do
  let value ← onFrame FrameAction.pop
  let goes := (← get).store.truthy value == wanted
  pure (.flow (if goes then .jump target else .next))

/-- Push the next item of the loop's iterator, or drop the iterator and leave. -/
def loopHead (exit : Nat) : VmAction Outcome := do
  match ← nextOfTop with
  | some item =>
      onFrame (FrameAction.push item)
      pure (.flow .next)
  | none =>
      let _ ← onFrame FrameAction.pop
      pure (.flow (.jump exit))

/-- Pop an exception to raise. -/
def raiseTop : VmAction Outcome := do
  match ← onFrame FrameAction.pop with
  | .exception e => pure (.flow (.raise (.exception e)))
  | _ => raise .notException

/-- Push the product of two values, or break off. -/
def pushProduct (left right : Value) : VmAction Outcome :=
  match multiply left right with
  | none => pure .breakOff
  | some product => andNext do onFrame (FrameAction.push (← lift product))

/-- Replace the top two by their product. -/
def multiplyTop : VmAction Outcome := do
  let (left, right) ← onFrame operands
  pushProduct left right

/-- Execute one instruction in the innermost frame. -/
def execute (i : Instruction) : VmAction Outcome :=
  let n := i.arg.toNat
  match i.opcode with
  | .nop => pure (.flow .next)
  | .popTop => andNext do let _ ← onFrame FrameAction.popSlot
  | .rotTwo => andNext (onFrame FrameAction.swap)
  | .dupTop => andNext (onFrame do FrameAction.push (← FrameAction.peek 0))
  | .unaryNot => andNext negateTop
  | .binaryAdd => andNext (combine add)
  | .binarySubtract => andNext (combine fun a b => liftM (subtract a b))
  | .binaryMultiply => multiplyTop
  | .getIter => andNext iterateTop
  | .returnValue => do
      let value ← onFrame FrameAction.pop
      pure (.flow (.return value))
  | .popBlock => andNext closeTry
  | .popExcept => andNext leaveHandler
  | .raise => raiseTop
  | .loadFast => andNext (loadLocal n)
  | .storeFast => andNext (storeLocal n)
  | .deleteFast => andNext (deleteLocal n)
  | .compareOp => andNext (compareTop i.arg)
  | .buildTuple => andNext (buildTuple n)
  | .buildList => andNext (buildList n)
  | .buildMap => andNext (buildDict n)
  | .loadConst => andNext (loadConstant n)
  | .loadGlobal => andNext (loadGlobal n)
  | .storeGlobal => andNext (storeGlobal n)
  | .loadAttr => andNext (loadAttribute n)
  | .storeAttr => andNext (storeAttribute n)
  | .loadMethod => andNext (loadMethod n)
  | .jumpAbsolute => pure (.flow (.jump n))
  | .popJumpIfFalse => jumpIf false n
  | .popJumpIfTrue => jumpIf true n
  | .forIter => loopHead n
  | .setupExcept => andNext (openTry n)
  | .callFunction | .callMethod | .callFunctionKw | .callFunctionEx => do
      pure (.call (← callRequest i))

end Resumable
