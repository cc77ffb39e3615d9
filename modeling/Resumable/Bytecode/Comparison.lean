/-
  Resumable.Bytecode.Comparison
  ─────────────────────────────
  **THE SIX COMPARISONS**, with their operand bytes and their symbols.
-/

namespace Resumable

/-- A comparison of two values. -/
inductive Comparison where
  | lt
  | le
  | eq
  | ne
  | gt
  | ge
  deriving DecidableEq, Repr

namespace Comparison

/-- The comparison an operand byte stands for, if any. -/
def ofByte? : UInt8 → Option Comparison
  | 0 => some lt
  | 1 => some le
  | 2 => some eq
  | 3 => some ne
  | 4 => some gt
  | 5 => some ge
  | _ => none

/-- The operand byte of a comparison. -/
def byte : Comparison → UInt8
  | lt => 0
  | le => 1
  | eq => 2
  | ne => 3
  | gt => 4
  | ge => 5

/-- The written operator. -/
def symbol : Comparison → String
  | lt => "<"
  | le => "<="
  | eq => "=="
  | ne => "!="
  | gt => ">"
  | ge => ">="

@[simp] theorem ofByte?_byte (kind : Comparison) : ofByte? kind.byte = some kind := by
  cases kind <;> rfl

end Comparison

end Resumable
