/-
  Resumable.Bytecode.LoopNesting
  ──────────────────────────────
  **HOW MANY FOR-LOOPS ENCLOSE A CALL SITE.**

  A for-loop keeps its iterator on the stack while its body runs, so the room a
  suspended call needs depends on the loops around it.  They are recovered from
  the instruction stream alone: a for-loop ends with a backward jump to its
  head, and reading forward from the site each such jump that reaches back
  before the range seen so far closes one more loop and widens the range to its
  head.  Backward jumps to anything else belong to loops that keep no iterator.
-/
import Resumable.Bytecode.Instruction

namespace Resumable

/-- What is known while reading forward from a call site. -/
structure NestingScan where
  /-- Where the widest range found so far starts. -/
  start : Nat
  /-- The for-loops closed so far. -/
  level : Nat
  deriving DecidableEq, Repr

/-- Whether a for-loop has its head at an offset. -/
def isLoopHeadAt (code : Array Instruction) (offset : Nat) : Bool :=
  (instructionAt code offset).any (fun i => i.opcode.isLoopHead)

/-- Read one instruction at or after the site. -/
def NestingScan.advance (code : Array Instruction) (scan : NestingScan) (i : Instruction) :
    NestingScan :=
  match i.target? with
  | some target =>
      if i.goesBack && target < scan.start && isLoopHeadAt code target then
        ⟨target, scan.level + 1⟩
      else
        scan
  | none => scan

/-- The number of for-loops around the byte range from `start` to `stop`. -/
def loopNesting (code : Array Instruction) (start stop : Nat) : Nat :=
  ((code.toList.dropWhile (fun i => i.offset < stop)).foldl
    (NestingScan.advance code) ⟨start, 0⟩).level

end Resumable
