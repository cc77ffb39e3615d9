/-
  Resumable.Assembly.Finish
  ─────────────────────────
  **FROM AN ASSEMBLY TO A BODY.**

  The first violation met wins; then the body must be short enough for its
  offsets to be operands; then every jump gets the offset of its label, and the
  first jump whose label has no position is the error.
-/
import Resumable.Assembly.Assembler

namespace Resumable.Assembler

/-- Write an offset as the operand that starts at a position. -/
def patch (bytes : Bytes) (position : Nat) (target : Nat) : Bytes :=
  let operand := target.toUInt16
  (bytes.setIfInBounds position operand.toUInt8).setIfInBounds (position + 1)
    (operand >>> 8).toUInt8

/-- Write the operand of one jump. -/
def resolveJump (labels : Std.HashMap Nat Nat) (bytes : Bytes) (jump : PendingJump) :
    Except AssemblyError Bytes :=
  match labels[jump.label]? with
  | some target => .ok (patch bytes jump.operand target)
  | none => .error (.unplacedLabel jump.label)

/-- The longest body whose offsets fit an operand. -/
def maxSize : Nat := 65535

/-- The finished body, or why there is none. -/
def finish (a : Assembler) : Except AssemblyError Code :=
  match a.violation with
  | some e => .error e
  | none =>
      if maxSize < a.bytes.size then
        .error (.tooLong a.bytes.size)
      else do
        let bytes ← a.jumps.toList.foldlM (resolveJump a.labels) a.bytes
        pure {
          name := a.name
          qualname := a.qualname
          filename := a.filename
          firstLine := a.firstLine
          bytes := bytes
          constants := a.constants
          names := a.names
          varnames := a.varnames
          argCount := a.argCount.toNat
          lines := a.closedLines.toList }

end Resumable.Assembler
