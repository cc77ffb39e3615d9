/-
  Resumable.Bytecode.Instruction
  ──────────────────────────────
  **INSTRUCTIONS AND THEIR BYTES.**

  An instruction is an operation with its operand, at an offset of a byte
  stream.  `encode` writes one, `decodeAt` reads the one that starts at an
  offset, `decode` reads a whole stream in offset order.

      decodeAt bytes offset  =  ok (the instruction there)  or  why there is none

  Reading ends because every instruction is at least one byte wide.
-/
import Resumable.Text.Layout
import Resumable.Bytecode.Opcode

namespace Resumable

open Text

/-- A stream of instruction bytes. -/
abbrev Bytes := Array UInt8

/-! ## §1. Why a stream cannot be read. -/

/-- The reason no instruction starts at an offset. -/
inductive DecodeError where
  /-- The byte at the offset stands for no operation. -/
  | noOperation (offset : Nat) (byte : UInt8)
  /-- The stream ends inside the operand. -/
  | cutOff (offset : Nat) (opcode : Opcode)
  /-- The offset lies past the end of the stream. -/
  | pastEnd (offset : Nat) (length : Nat)
  deriving DecidableEq, Repr

/-- The text of a decoding error. -/
def DecodeError.message : DecodeError → String
  | .noOperation offset byte =>
      s!"unknown opcode 0x{hexByte byte} at offset {toString offset}"
  | .cutOff offset opcode =>
      s!"truncated {opcode.mnemonic} operand at offset {toString offset}"
  | .pastEnd offset length =>
      s!"offset {toString offset} is outside the bytecode (length {toString length})"

/-! ## §2. Instructions. -/

/-- An operation and its operand, at an offset. -/
structure Instruction where
  /-- Where the first byte stands. -/
  offset : Nat
  /-- The operation. -/
  opcode : Opcode
  /-- The operand; zero when the operation takes none. -/
  arg : UInt16
  deriving DecidableEq, Repr

namespace Instruction

/-- The number of bytes the instruction takes. -/
def width (i : Instruction) : Nat :=
  i.opcode.width

/-- The offset just after the instruction. -/
def next (i : Instruction) : Nat :=
  i.offset + i.width

/-- Where a jump goes. -/
def target? (i : Instruction) : Option Nat :=
  if i.opcode.isJump then some i.arg.toNat else none

/-- Whether the instruction jumps to itself or to an earlier offset. -/
def goesBack (i : Instruction) : Bool :=
  i.target?.any (fun target => target ≤ i.offset)

/-- The written form: the mnemonic, and the operand if the operation takes one. -/
def text (i : Instruction) : String :=
  match i.opcode.operandClass with
  | .none => i.opcode.mnemonic
  | _ => padRight 18 i.opcode.mnemonic ++ " " ++ toString i.arg.toNat

end Instruction

/-! ## §3. Writing. -/

/-- The operand bytes of a class; what does not fit the class is cut off. -/
def operandBytes : OperandClass → UInt16 → List UInt8
  | .none, _ => []
  | .byte, arg => [arg.toUInt8]
  | .word, arg => [arg.toUInt8, (arg >>> 8).toUInt8]

/-- The bytes of an operation with an operand. -/
def encode (opcode : Opcode) (arg : UInt16) : List UInt8 :=
  opcode.byte :: operandBytes opcode.operandClass arg

/-- The bytes of a sequence of operations with operands. -/
def encodeAll (code : List (Opcode × UInt16)) : Bytes :=
  code.foldl (fun bytes op => bytes ++ encode op.1 op.2) #[]

@[simp] theorem length_operandBytes (c : OperandClass) (arg : UInt16) :
    (operandBytes c arg).length = c.size := by
  cases c <;> rfl

@[simp] theorem length_encode (opcode : Opcode) (arg : UInt16) :
    (encode opcode arg).length = opcode.width := by
  simp [encode, Opcode.width, Nat.add_comm]

/-! ## §4. Reading. -/

/-- The operand of a class whose bytes start at an offset, if they are all there. -/
def operandAt (bytes : Bytes) (offset : Nat) : OperandClass → Option UInt16
  | .none => some 0
  | .byte => bytes[offset]?.map (fun low => low.toUInt16)
  | .word =>
      match bytes[offset]?, bytes[offset + 1]? with
      | some low, some high => some (low.toUInt16 ||| (high.toUInt16 <<< 8))
      | _, _ => none

/-- The instruction that starts at an offset. -/
def decodeAt (bytes : Bytes) (offset : Nat) : Except DecodeError Instruction :=
  match bytes[offset]? with
  | none => .error (.pastEnd offset bytes.size)
  | some byte =>
      match Opcode.ofByte? byte with
      | none => .error (.noOperation offset byte)
      | some opcode =>
          match operandAt bytes (offset + 1) opcode.operandClass with
          | none => .error (.cutOff offset opcode)
          | some arg => .ok ⟨offset, opcode, arg⟩

/-- The instructions from an offset to the end, after those already read. -/
def decodeFrom (bytes : Bytes) (offset : Nat) (read : Array Instruction) :
    Except DecodeError (Array Instruction) :=
  if offset < bytes.size then
    match decodeAt bytes offset with
    | .error e => .error e
    | .ok i => decodeFrom bytes (offset + i.width) (read.push i)
  else
    .ok read
termination_by bytes.size - offset
decreasing_by
  have := i.opcode.width_pos
  simp only [Instruction.width]
  omega

/-- The instructions of a whole stream, in offset order. -/
def decode (bytes : Bytes) : Except DecodeError (Array Instruction) :=
  decodeFrom bytes 0 #[]

/-- The instruction of a decoded stream that starts exactly at an offset. -/
def instructionAt (code : Array Instruction) (offset : Nat) : Option Instruction :=
  code.find? (fun i => i.offset == offset)

/-! ## §5. What reading an instruction gives. -/

theorem offset_of_decodeAt {bytes : Bytes} {offset : Nat} {i : Instruction}
    (h : decodeAt bytes offset = .ok i) : i.offset = offset := by
  unfold decodeAt at h
  split at h
  · simp at h
  · split at h
    · simp at h
    · split at h
      · simp at h
      · obtain rfl := Except.ok.inj h
        rfl

theorem lt_size_of_decodeAt {bytes : Bytes} {offset : Nat} {i : Instruction}
    (h : decodeAt bytes offset = .ok i) : offset < bytes.size := by
  unfold decodeAt at h
  split at h
  · simp at h
  · next byte hb => exact (Array.getElem?_eq_some_iff.mp hb).1

end Resumable
