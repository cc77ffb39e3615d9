/-
  Resumable.Frame
  ───────────────
  **ONE CALL OF A FUNCTION.**

  A frame keeps the locals and the operand stack of its call in one array of
  slots: the locals first, one per name of the body, then the stack, its top at
  the end.  So a suspended frame is kept by keeping the array.

  An operation on a frame can fail, and what it did before it failed stays
  done; the operand stack never shrinks into the locals.
-/
import Resumable.Fault

namespace Resumable

/-- A call of a function. -/
structure Frame where
  /-- The function. -/
  function : Function
  /-- The offset of the next instruction. -/
  next : Nat := 0
  /-- The offset of the instruction being executed. -/
  current : Nat := 0
  /-- The locals, then the operand stack. -/
  slots : Slots
  /-- The exception blocks, innermost first. -/
  blocks : List Block := []
  /-- The index of the caller among the live frames. -/
  parent : Option Nat
  /-- The number of parameters. -/
  argCount : Nat

/-- An action on a frame, which keeps what it did when it fails. -/
abbrev FrameAction := EStateM Fault Frame

namespace Frame

/-! ## §1. New frames. -/

/-- A frame about to run a function, its locals unbound. -/
def blank (f : Function) (parent : Option Nat) : Frame where
  function := f
  slots := Array.replicate f.code.nlocals none
  parent := parent
  argCount := f.code.argCount

/-- A frame about to run a function with the given first locals; locals it has
no slot for are left out. -/
def ofLocals (f : Function) (parent : Option Nat) (locals : List (Option Value)) : Frame :=
  let given := locals.take f.code.nlocals
  { blank f parent with
    slots := (given ++ List.replicate (f.code.nlocals - given.length) none).toArray }

/-! ## §2. Reading. -/

/-- The body. -/
def code (f : Frame) : Code :=
  f.function.code

/-- The name of the function, with its enclosing scopes. -/
def qualname (f : Frame) : String :=
  f.code.qualname

/-- The number of locals. -/
def nlocals (f : Frame) : Nat :=
  f.code.nlocals

/-- The number of live slots. -/
def top (f : Frame) : Nat :=
  f.slots.size

/-- The number of entries of the operand stack. -/
def depth (f : Frame) : Nat :=
  f.slots.size - f.nlocals

/-- Whether there is no next instruction. -/
def isDone (f : Frame) : Bool :=
  f.code.bytes.size ≤ f.next

/-- The value of a local, if it is bound. -/
def local? (f : Frame) (slot : Nat) : Option Value :=
  (f.slots[slot]?).join

/-- The failure of taking more than the stack holds. -/
def underflow (f : Frame) : Fault :=
  .internal (.operandUnderflow f.qualname f.current)

/-- The failure of taking an empty entry for a value. -/
def empty (f : Frame) : Fault :=
  .internal (.emptySlot f.qualname f.current)

/-- The value `depth` entries below the top of the stack. -/
def peek (f : Frame) (depth : Nat) : Except Fault Value :=
  if f.depth ≤ depth then .error f.underflow
  else
    match (f.slots[f.slots.size - 1 - depth]?).join with
    | some v => .ok v
    | none => .error f.empty

/-- The top `count` entries of the stack, lowest first. -/
def topSlots (f : Frame) (count : Nat) : Except Fault (List (Option Value)) :=
  if f.depth < count then .error f.underflow
  else .ok (f.slots.toList.drop (f.slots.size - count))

/-! ## §3. Changing. -/

/-- The frame with another slot on top. -/
def withSlot (f : Frame) (slot : Option Value) : Frame :=
  { f with slots := f.slots.push slot }

/-- The frame with the stack cut down to a slot count, but never into the locals. -/
def truncated (f : Frame) (level : Nat) : Frame :=
  { f with slots := f.slots.take (max level f.nlocals) }

end Frame

namespace FrameAction

/-- Push a value. -/
def push (v : Value) : FrameAction Unit :=
  modify fun f => f.withSlot (some v)

/-- Push an empty entry. -/
def pushEmpty : FrameAction Unit :=
  modify fun f => f.withSlot none

/-- Take the top entry, which may be empty. -/
def popSlot : FrameAction (Option Value) := do
  let f ← get
  if f.slots.size ≤ f.nlocals then throw f.underflow
  modify fun f => { f with slots := f.slots.pop }
  pure f.slots.back?.join

/-- Take the top entry as a value. -/
def pop : FrameAction Value := do
  match ← popSlot with
  | some v => pure v
  | none => throw (← get).empty

/-- The value `depth` entries below the top. -/
def peek (depth : Nat) : FrameAction Value := do
  match (← get).peek depth with
  | .ok v => pure v
  | .error e => throw e

/-- The top `count` entries, lowest first. -/
def topSlots (count : Nat) : FrameAction (List (Option Value)) := do
  match (← get).topSlots count with
  | .ok slots => pure slots
  | .error e => throw e

/-- Drop the top `count` entries. -/
def drop (count : Nat) : FrameAction Unit := do
  let f ← get
  if f.depth < count then throw f.underflow
  modify fun f => { f with slots := f.slots.take (f.slots.size - count) }

/-- Cut the stack down to a slot count, but never into the locals. -/
def truncate (level : Nat) : FrameAction Unit :=
  modify fun f => f.truncated level

/-- Exchange the top two entries. -/
def swap : FrameAction Unit := do
  let _ ← topSlots 2
  modify fun f =>
    let n := f.slots.size
    { f with slots := f.slots.swapIfInBounds (n - 1) (n - 2) }

/-- Give a local another content. -/
def setLocal (slot : Nat) (content : Option Value) : FrameAction Unit := do
  let f ← get
  if f.nlocals ≤ slot then throw (.internal (.localOutOfRange slot f.qualname))
  modify fun f => { f with slots := f.slots.setIfInBounds slot content }

/-- Read the next instruction and move past it. -/
def fetch : FrameAction Instruction := do
  let f ← get
  match decodeAt f.code.bytes f.next with
  | .error e => throw (.decode e)
  | .ok i =>
      modify fun f => { f with current := f.next, next := i.next }
      pure i

/-- Open a block. -/
def pushBlock (b : Block) : FrameAction Unit :=
  modify fun f => { f with blocks := b :: f.blocks }

/-- Close the innermost block, if there is one. -/
def popBlock : FrameAction (Option Block) :=
  modifyGet fun f => (f.blocks.head?, { f with blocks := f.blocks.tail })

end FrameAction

end Resumable
