/-
  Resumable.Continuation.Record
  ─────────────────────────────
  **WHAT IS KEPT OF A SUSPENDED CALL CHAIN.**

  A record keeps one frame: the offset of the call it is suspended in, its
  slots, its blocks and its function.  A continuation is the records of a chain
  of frames, the innermost first.
-/
import Resumable.Value.Basic

namespace Resumable

/-- A slot of a frame; an unbound local or an empty stack entry holds nothing. -/
abbrev Slots := Array (Option Value)

/-! ## §1. Exception blocks. -/

/-- An entry of a frame's block stack. -/
inductive Block where
  /-- A try body: the slot count when it was opened, and where its handler starts. -/
  | guarded (level handler : Nat)
  /-- An active handler: the exception handled before it is kept in the three
  slots from `level` on. -/
  | handling (level : Nat)
  deriving DecidableEq, Repr

namespace Block

/-- The slot count when the block was opened. -/
def level : Block → Nat
  | .guarded level _ => level
  | .handling level => level

/-- Whether the block is an active handler. -/
def isHandling : Block → Bool
  | .guarded _ _ => false
  | .handling _ => true

/-- The name of the kind of block. -/
def kindName : Block → String
  | .guarded _ _ => "SetupExcept"
  | .handling _ => "ExceptHandler"

/-- Where the handler starts; an active handler has none. -/
def handlerOffset : Block → Nat
  | .guarded _ handler => handler
  | .handling _ => 0

/-- The written form of the block a pop found. -/
def describe : Option Block → String
  | none => "None"
  | some b =>
      "Some(Block \x7b kind: " ++ b.kindName ++ ", level: " ++ toString b.level
        ++ ", handler: " ++ toString b.handlerOffset ++ " \x7d)"

end Block

/-- The slots an active handler keeps for the exception handled before it. -/
def savedSlots : Nat := 3

/-! ## §2. Records and continuations. -/

/-- One suspended frame. -/
structure Record where
  /-- The offset of the call to execute again. -/
  position : Nat
  /-- The locals and the operand stack. -/
  slots : Slots
  /-- The exception blocks, innermost first. -/
  blocks : List Block
  /-- The function. -/
  function : Function

/-- A suspended call chain. -/
structure Continuation where
  /-- Its frames, innermost first. -/
  records : List Record := []

namespace Continuation

/-- The number of frames. -/
def size (k : Continuation) : Nat :=
  k.records.length

/-- Whether there is no frame. -/
def isEmpty (k : Continuation) : Bool :=
  k.records.isEmpty

/-- The frame that took the continuation. -/
def innermost? (k : Continuation) : Option Record :=
  k.records.head?

/-- The frame that is entered first when the chain is rebuilt. -/
def outermost? (k : Continuation) : Option Record :=
  k.records.getLast?

end Continuation

end Resumable
