/-
  Resumable.Assembly.Assembler
  ────────────────────────────
  **PUTTING A FUNCTION BODY TOGETHER.**

  An assembler holds the bytes emitted so far, the pools, the labels and the
  jumps that wait for them.  Every operation here is an action on that state:
  it answers an index, a slot or an offset and never stops the assembly.  A
  violation met on the way (an operand too wide, a jump by an operation that
  does not jump) is kept, the first one only, for the end.
-/
import Std.Data.HashMap
import Resumable.Bytecode.Code

namespace Resumable

/-! ## §1. What can go wrong. -/

/-- The reason a body cannot be assembled. -/
inductive AssemblyError where
  /-- A jump goes to a label with no position. -/
  | unplacedLabel (label : Nat)
  /-- An operand is too wide for its operation. -/
  | wideOperand (opcode : Opcode) (arg : Nat)
  /-- The body is longer than an offset can tell. -/
  | tooLong (size : Nat)
  /-- A parameter is declared after another local. -/
  | lateParam (name : String)
  /-- An operation that does not jump was given a label. -/
  | notAJump (opcode : Opcode)
  deriving DecidableEq, Repr

/-- The text of an assembly error. -/
def AssemblyError.message : AssemblyError → String
  | .unplacedLabel label => s!"label {toString label} was never bound"
  | .wideOperand opcode arg =>
      s!"{opcode.mnemonic} operand {toString arg} does not fit in one byte"
  | .tooLong size =>
      s!"bytecode exceeds the 64 KiB jump range ({toString size} bytes)"
  | .lateParam name => s!"parameter '{name}' declared after local variables"
  | .notAJump opcode => s!"{opcode.mnemonic} is not a jump opcode"

/-! ## §2. The state of an assembly. -/

/-- What two constants must share to use one entry of the pool. -/
inductive PoolKey where
  | none
  | bool (b : Bool)
  | int (i : Int64)
  | str (s : String)
  | names (entries : List String)
  deriving DecidableEq, Hashable

/-- The key of a constant; a nested body is never shared between its sites. -/
def Constant.poolKey? : Constant → Option PoolKey
  | .none => some .none
  | .bool b => some (.bool b)
  | .int i => some (.int i)
  | .str s => some (.str s)
  | .names entries => some (.names entries)
  | .code _ => Option.none

/-- A jump whose operand is written when its label is known. -/
structure PendingJump where
  /-- The offset of the operand. -/
  operand : Nat
  /-- The label it goes to. -/
  label : Nat
  deriving DecidableEq, Repr

/-- A body under assembly. -/
structure Assembler where
  /-- The function's name. -/
  name : String
  /-- The name with its enclosing scopes. -/
  qualname : String := name
  /-- The file of the source. -/
  filename : String := "<unknown>"
  /-- The first source line. -/
  firstLine : Nat := 1
  /-- The source line of what is emitted next. -/
  currentLine : Nat := 1
  /-- The bytes emitted so far. -/
  bytes : Bytes := #[]
  /-- The constants. -/
  constants : Array Constant := #[]
  /-- The index of each constant that can be shared. -/
  constantIndex : Std.HashMap PoolKey UInt16 := {}
  /-- The locals, parameters first. -/
  varnames : Array String := #[]
  /-- The slot of each local. -/
  localSlot : Std.HashMap String UInt8 := {}
  /-- The number of parameters. -/
  argCount : UInt16 := 0
  /-- The names of globals and attributes. -/
  names : Array String := #[]
  /-- The index of each name. -/
  nameIndex : Std.HashMap String UInt16 := {}
  /-- The labels made so far are those below this one. -/
  nextLabel : Nat := 0
  /-- The offset of each label that has one. -/
  labels : Std.HashMap Nat Nat := {}
  /-- The jumps emitted so far. -/
  jumps : Array PendingJump := #[]
  /-- The closed ranges of the line table. -/
  lines : Array LineEntry := #[]
  /-- Where the open range starts. -/
  lineStart : Nat := 0
  /-- The first violation met. -/
  violation : Option AssemblyError := none

/-- An action on a body under assembly. -/
abbrev Assembly := StateM Assembler

namespace Assembler

/-- Keep a violation, if it is the first. -/
def report (e : AssemblyError) : Assembly Unit :=
  modify fun a => { a with violation := a.violation <|> some e }

/-! ## §3. Source positions. -/

/-- Name the function with its enclosing scopes. -/
def setQualname (qualname : String) : Assembly Unit :=
  modify fun a => { a with qualname := qualname }

/-- Name the file of the source. -/
def setFilename (filename : String) : Assembly Unit :=
  modify fun a => { a with filename := filename }

/-- Set the first line, which is also the line of what follows. -/
def setFirstLine (line : Nat) : Assembly Unit :=
  modify fun a => { a with firstLine := line, currentLine := line }

/-- The line table with the open range closed at the end of the bytes; a range
without bytes is left out. -/
def closedLines (a : Assembler) : Array LineEntry :=
  if a.lineStart < a.bytes.size then
    a.lines.push ⟨a.lineStart, a.bytes.size, a.currentLine⟩
  else
    a.lines

/-- Set the line of what follows; a new line opens a new range. -/
def setLine (line : Nat) : Assembly Unit :=
  modify fun a =>
    if line = a.currentLine then a
    else { a with
      lines := a.closedLines
      currentLine := line
      lineStart := a.bytes.size }

/-! ## §4. Locals. -/

/-- The slot of a local, which is declared now unless it was before.  Slots are
bytes, so there is room for 256 locals. -/
def declareLocal (name : String) : Assembly UInt8 := do
  let a ← get
  match a.localSlot[name]? with
  | some slot => pure slot
  | none =>
      let index := a.varnames.size
      if 255 < index then report (.wideOperand .loadFast index)
      let slot := index.toUInt8
      modify fun a => { a with
        localSlot := a.localSlot.insert name slot
        varnames := a.varnames.push name }
      pure slot

/-- Declare a parameter; all parameters come before any other local. -/
def declareParam (name : String) : Assembly (Except AssemblyError UInt8) := do
  let a ← get
  if a.varnames.size = a.argCount.toNat then
    let slot ← declareLocal name
    modify fun a => { a with argCount := a.varnames.size.toUInt16 }
    pure (.ok slot)
  else
    pure (.error (.lateParam name))

/-- The slot of a local that is already declared. -/
def slotOf? (a : Assembler) (name : String) : Option UInt8 :=
  a.localSlot[name]?

/-! ## §5. Pools. -/

/-- The index of a constant, which is added to the pool unless an equal one is there. -/
def addConstant (constant : Constant) : Assembly UInt16 := do
  let a ← get
  match constant.poolKey? with
  | none =>
      modify fun a => { a with constants := a.constants.push constant }
      pure a.constants.size.toUInt16
  | some key =>
      match a.constantIndex[key]? with
      | some index => pure index
      | none =>
          let index := a.constants.size.toUInt16
          modify fun a => { a with
            constants := a.constants.push constant
            constantIndex := a.constantIndex.insert key index }
          pure index

/-- The index of a name, which is added to the pool unless it is there. -/
def addName (name : String) : Assembly UInt16 := do
  let a ← get
  match a.nameIndex[name]? with
  | some index => pure index
  | none =>
      let index := a.names.size.toUInt16
      modify fun a => { a with
        names := a.names.push name
        nameIndex := a.nameIndex.insert name index }
      pure index

/-! ## §6. Labels. -/

/-- A label that no jump has used and that has no position. -/
def createLabel : Assembly Nat :=
  modifyGet fun a => (a.nextLabel, { a with nextLabel := a.nextLabel + 1 })

/-- Put a label at the current position; the last position given counts. -/
def bindLabel (label : Nat) : Assembly Unit :=
  modify fun a => { a with labels := a.labels.insert label a.bytes.size }

/-- The offset of what is emitted next. -/
def offset (a : Assembler) : Nat :=
  a.bytes.size

/-! ## §7. Instructions. -/

/-- Emit an instruction; answers its offset. -/
def emit (opcode : Opcode) (arg : UInt16) : Assembly Nat := do
  if opcode.operandClass = .byte ∧ 255 < arg.toNat then
    report (.wideOperand opcode arg.toNat)
  modifyGet fun a => (a.bytes.size, { a with bytes := a.bytes ++ encode opcode arg })

/-- Emit a jump to a label, whose offset is filled in at the end. -/
def emitJump (opcode : Opcode) (label : Nat) : Assembly Nat := do
  if !opcode.isJump then report (.notAJump opcode)
  let offset ← emit opcode 0
  modify fun a => { a with jumps := a.jumps.push ⟨offset + 1, label⟩ }
  pure offset

/-- Emit the loading of a constant. -/
def emitConstant (constant : Constant) : Assembly Nat := do
  let index ← addConstant constant
  emit .loadConst index

/-- Emit an operation on a global or an attribute. -/
def emitNamed (opcode : Opcode) (name : String) : Assembly Nat := do
  let index ← addName name
  emit opcode index

/-- Emit a return without a value; answers the offset of its first instruction. -/
def emitReturnNone : Assembly Nat := do
  let offset ← emitConstant .none
  let _ ← emit .returnValue 0
  pure offset

end Assembler

end Resumable
