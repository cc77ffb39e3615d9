/-
  Resumable.Machine.Handlers
  ──────────────────────────
  **TRY BODIES AND HANDLERS.**

  Inside a handler entered at slot count `L` the stack is

      locals | … L slots … | type | value | trace | exception
                             ^ L

  where the three middle slots keep the exception that was being handled before
  (all empty if there was none).  Leaving the handler cuts the stack back to
  `L` and makes that exception the handled one again.
-/
import Resumable.Machine.State

namespace Resumable

open VmAction

/-! ## §1. The saved exception. -/

/-- The slots that keep an exception while another is handled. -/
def savedTriplet : Option Value → List (Option Value)
  | some exc => [some (.str exc.typeName), some exc, some .none]
  | none => [none, none, none]

/-- Cut the stack back to the saved slots of a handler and take them off;
answers the exception they kept. -/
def popSaved (level : Nat) : FrameAction (Option Value) := do
  FrameAction.truncate (level + savedSlots)
  let _ ← FrameAction.popSlot
  let value ← FrameAction.popSlot
  let _ ← FrameAction.popSlot
  pure value

/-- Enter the handler of a try body: the body's slots, the exception handled
so far, and the new one. -/
def enterHandler (level handler : Nat) (previous : Option Value) (exc : Value) :
    FrameAction Unit := do
  FrameAction.truncate level
  FrameAction.pushBlock (.handling level)
  modify fun f => { f with slots := f.slots ++ savedTriplet previous ++ [some exc], next := handler }

/-! ## §2. Instructions on blocks. -/

/-- Open a try body. -/
def openTry (handler : Nat) : VmAction Unit :=
  onFrame do
    let f ← get
    FrameAction.pushBlock (.guarded f.top handler)

/-- Leave a try body. -/
def closeTry : VmAction Unit := do
  match ← onFrame FrameAction.popBlock with
  | some (.guarded _ _) => pure ()
  | found => breach (.notInTry (← currentFrame).qualname found)

/-- Leave a handler. -/
def leaveHandler : VmAction Unit := do
  match ← onFrame FrameAction.popBlock with
  | some (.handling level) =>
      let saved ← onFrame (popSaved level)
      modify fun vm => { vm with handled := saved }
  | found => breach (.notInHandler (← currentFrame).qualname found)

/-! ## §3. Unwinding. -/

/-- Close the given blocks, innermost first, up to a try body, and enter its
handler; handlers passed on the way give back the exception they kept. -/
def unwindThrough (exc : Value) : List Block → VmAction Unit
  | [] => throw (.exception exc)
  | .handling level :: rest => do
      let _ ← onFrame FrameAction.popBlock
      let saved ← onFrame (popSaved level)
      modify fun vm => { vm with handled := saved }
      unwindThrough exc rest
  | .guarded level handler :: _ => do
      let _ ← onFrame FrameAction.popBlock
      let vm ← get
      onFrame (enterHandler level handler vm.handled exc)
      modify fun vm => { vm with handled := some exc }

/-- Send an exception to the innermost try body of the innermost frame; with
none left, it is the failure of the frame. -/
def unwind (exc : Value) : VmAction Unit := do
  unwindThrough exc (← currentFrame).blocks

end Resumable
