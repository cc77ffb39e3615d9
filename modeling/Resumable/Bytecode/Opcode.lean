/-
  Resumable.Bytecode.Opcode
  ─────────────────────────
  **THE OPERATIONS OF THE STACK MACHINE.**

  Every operation has a byte, and the byte alone tells how wide its operand is:
  below 64 there is none, below 128 it is one byte, above that it is a
  little-endian pair.  So a reader of a byte stream needs no table of widths.

  Main facts: `ofByte?_byte` (each operation is read back from its byte),
  `byte_of_ofByte?` (and from no other), `width_pos` (every instruction takes
  room, so reading a stream ends).
-/

namespace Resumable

/-! ## §1. Operand classes. -/

/-- How many bytes follow the byte of an operation. -/
inductive OperandClass where
  /-- No operand. -/
  | none
  /-- One byte. -/
  | byte
  /-- Two bytes, the low one first. -/
  | word
  deriving DecidableEq, Repr

namespace OperandClass

/-- The number of operand bytes. -/
def size : OperandClass → Nat
  | .none => 0
  | .byte => 1
  | .word => 2

/-- The operands an instruction of this class can carry. -/
def Fits : OperandClass → UInt16 → Prop
  | .none, arg => arg = 0
  | .byte, arg => arg.toNat ≤ 255
  | .word, _ => True

instance (c : OperandClass) (arg : UInt16) : Decidable (c.Fits arg) := by
  cases c <;> unfold Fits <;> infer_instance

end OperandClass

/-! ## §2. Operations. -/

/-- An operation of the stack machine. -/
inductive Opcode where
  /-- Do nothing. -/
  | nop
  /-- Discard the top of the stack. -/
  | popTop
  /-- Exchange the top two entries. -/
  | rotTwo
  /-- Push the top entry again. -/
  | dupTop
  /-- Replace the top by its negation. -/
  | unaryNot
  /-- Replace the top two by their sum. -/
  | binaryAdd
  /-- Replace the top two by their difference. -/
  | binarySubtract
  /-- Replace the top two by their product. -/
  | binaryMultiply
  /-- Replace the top by an iterator over it. -/
  | getIter
  /-- Leave the function with the top of the stack. -/
  | returnValue
  /-- Close the innermost try block. -/
  | popBlock
  /-- Leave an exception handler. -/
  | popExcept
  /-- Raise the top of the stack. -/
  | raise
  /-- Push a local. -/
  | loadFast
  /-- Pop into a local. -/
  | storeFast
  /-- Unbind a local. -/
  | deleteFast
  /-- Compare the top two. -/
  | compareOp
  /-- Collect entries into a tuple. -/
  | buildTuple
  /-- Collect entries into a list. -/
  | buildList
  /-- Collect key and value pairs into a dict. -/
  | buildMap
  /-- Call with positional arguments. -/
  | callFunction
  /-- Call a method and its receiver, if it has one. -/
  | callMethod
  /-- Call with named arguments only. -/
  | callFunctionKw
  /-- Call with a sequence of arguments and, if the operand is odd, a dict of named ones. -/
  | callFunctionEx
  /-- Push a constant. -/
  | loadConst
  /-- Push a global. -/
  | loadGlobal
  /-- Pop into a global. -/
  | storeGlobal
  /-- Replace the top by one of its attributes. -/
  | loadAttr
  /-- Set an attribute of the top to the entry below it. -/
  | storeAttr
  /-- Replace the top by a method and its receiver. -/
  | loadMethod
  /-- Go to an offset. -/
  | jumpAbsolute
  /-- Pop, and go to an offset if it is false. -/
  | popJumpIfFalse
  /-- Pop, and go to an offset if it is true. -/
  | popJumpIfTrue
  /-- Head of a for-loop: push the next item, or drop the iterator and leave. -/
  | forIter
  /-- Open a try block whose handler is at an offset. -/
  | setupExcept
  deriving DecidableEq, Repr

namespace Opcode

/-- The byte that stands for the operation in a stream. -/
def byte : Opcode → UInt8
  | nop => 0
  | popTop => 1
  | rotTwo => 2
  | dupTop => 3
  | unaryNot => 4
  | binaryAdd => 10
  | binarySubtract => 11
  | binaryMultiply => 12
  | getIter => 20
  | returnValue => 21
  | popBlock => 22
  | popExcept => 23
  | raise => 24
  | loadFast => 64
  | storeFast => 65
  | deleteFast => 66
  | compareOp => 67
  | buildTuple => 68
  | buildList => 69
  | buildMap => 70
  | callFunction => 80
  | callMethod => 81
  | callFunctionKw => 82
  | callFunctionEx => 83
  | loadConst => 128
  | loadGlobal => 129
  | storeGlobal => 130
  | loadAttr => 131
  | storeAttr => 132
  | loadMethod => 133
  | jumpAbsolute => 140
  | popJumpIfFalse => 141
  | popJumpIfTrue => 142
  | forIter => 143
  | setupExcept => 144

/-- The written name of the operation. -/
def mnemonic : Opcode → String
  | nop => "NOP"
  | popTop => "POP_TOP"
  | rotTwo => "ROT_TWO"
  | dupTop => "DUP_TOP"
  | unaryNot => "UNARY_NOT"
  | binaryAdd => "BINARY_ADD"
  | binarySubtract => "BINARY_SUBTRACT"
  | binaryMultiply => "BINARY_MULTIPLY"
  | getIter => "GET_ITER"
  | returnValue => "RETURN_VALUE"
  | popBlock => "POP_BLOCK"
  | popExcept => "POP_EXCEPT"
  | raise => "RAISE"
  | loadFast => "LOAD_FAST"
  | storeFast => "STORE_FAST"
  | deleteFast => "DELETE_FAST"
  | compareOp => "COMPARE_OP"
  | buildTuple => "BUILD_TUPLE"
  | buildList => "BUILD_LIST"
  | buildMap => "BUILD_MAP"
  | callFunction => "CALL_FUNCTION"
  | callMethod => "CALL_METHOD"
  | callFunctionKw => "CALL_FUNCTION_KW"
  | callFunctionEx => "CALL_FUNCTION_EX"
  | loadConst => "LOAD_CONST"
  | loadGlobal => "LOAD_GLOBAL"
  | storeGlobal => "STORE_GLOBAL"
  | loadAttr => "LOAD_ATTR"
  | storeAttr => "STORE_ATTR"
  | loadMethod => "LOAD_METHOD"
  | jumpAbsolute => "JUMP_ABSOLUTE"
  | popJumpIfFalse => "POP_JUMP_IF_FALSE"
  | popJumpIfTrue => "POP_JUMP_IF_TRUE"
  | forIter => "FOR_ITER"
  | setupExcept => "SETUP_EXCEPT"

/-- Every operation, in the order of its byte. -/
def all : List Opcode :=
  [nop, popTop, rotTwo, dupTop, unaryNot, binaryAdd, binarySubtract, binaryMultiply, getIter,
    returnValue, popBlock, popExcept, raise, loadFast, storeFast, deleteFast, compareOp,
    buildTuple, buildList, buildMap, callFunction, callMethod, callFunctionKw, callFunctionEx,
    loadConst, loadGlobal, storeGlobal, loadAttr, storeAttr, loadMethod, jumpAbsolute,
    popJumpIfFalse, popJumpIfTrue, forIter, setupExcept]

/-- The operation a byte stands for, if any. -/
def ofByte? (b : UInt8) : Option Opcode :=
  all.find? (fun op => op.byte == b)

/-- The operation of a written name, if any. -/
def ofMnemonic? (name : String) : Option Opcode :=
  all.find? (fun op => op.mnemonic == name)

/-- The operand class, read off the range of the byte. -/
def operandClass (op : Opcode) : OperandClass :=
  if op.byte < 64 then .none else if op.byte < 128 then .byte else .word

/-- The number of bytes of an instruction with this operation. -/
def width (op : Opcode) : Nat :=
  1 + op.operandClass.size

/-- Whether the operand is an offset to go to. -/
def isJump : Opcode → Bool
  | jumpAbsolute | popJumpIfFalse | popJumpIfTrue | forIter | setupExcept => true
  | _ => false

/-- Whether the operation calls a value. -/
def isCall : Opcode → Bool
  | callFunction | callMethod | callFunctionKw | callFunctionEx => true
  | _ => false

/-- Whether the operation is the head of a for-loop, whose iterator stays on the
stack for the whole loop. -/
def isLoopHead : Opcode → Bool
  | forIter => true
  | _ => false

/-! ## §3. Reading a byte back. -/

@[simp] theorem ofByte?_byte (op : Opcode) : ofByte? op.byte = some op := by
  cases op <;> decide

theorem byte_of_ofByte? {b : UInt8} {op : Opcode} (h : ofByte? b = some op) : op.byte = b := by
  have := List.find?_some h
  simpa using this

theorem byte_injective {a b : Opcode} (h : a.byte = b.byte) : a = b := by
  have := congrArg ofByte? h
  simpa using this

@[simp] theorem ofMnemonic?_mnemonic (op : Opcode) : ofMnemonic? op.mnemonic = some op := by
  cases op <;> decide

theorem width_pos (op : Opcode) : 0 < op.width := by
  unfold width
  omega

/-- An operation that jumps has room for an offset. -/
theorem operandClass_of_isJump {op : Opcode} (h : op.isJump = true) :
    op.operandClass = .word := by
  cases op <;> simp_all [isJump] <;> rfl

end Opcode

end Resumable
