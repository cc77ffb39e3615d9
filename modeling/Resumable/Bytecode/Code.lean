/-
  Resumable.Bytecode.Code
  ───────────────────────
  **FUNCTION BODIES.**

  A code object is one function body: its bytes, the pools its operands index,
  and the table that says which source line each byte came from.  Two bodies
  are interchangeable for a captured call exactly when their bytes agree
  (`Code.sameBody`).
-/
import Resumable.Text.Layout
import Resumable.Bytecode.Instruction

namespace Resumable

open Text

/-- A range of byte offsets and the source line it came from. -/
structure LineEntry where
  /-- First offset of the range. -/
  start : Nat
  /-- First offset after the range. -/
  stop : Nat
  /-- The source line. -/
  line : Nat
  deriving DecidableEq, Repr

/-! ## §1. Bodies and their constants. -/

mutual

/-- An entry of a constant pool. -/
inductive Constant where
  /-- The absent value. -/
  | none
  /-- A truth value. -/
  | bool (b : Bool)
  /-- An integer. -/
  | int (i : Int64)
  /-- A string. -/
  | str (s : String)
  /-- The names of a call with named arguments. -/
  | names (names : List String)
  /-- A nested function body. -/
  | code (c : Code)

/-- A function body. -/
structure Code where
  /-- The function's name. -/
  name : String
  /-- The name with its enclosing scopes. -/
  qualname : String
  /-- The file it was defined in. -/
  filename : String
  /-- Its first source line. -/
  firstLine : Nat
  /-- The instruction bytes. -/
  bytes : Array UInt8
  /-- Constants, by operand. -/
  constants : Array Constant
  /-- Names of globals and attributes, by operand. -/
  names : Array String
  /-- Names of the locals, parameters first. -/
  varnames : Array String
  /-- The number of parameters. -/
  argCount : Nat
  /-- The line table. -/
  lines : List LineEntry

end

namespace Code

/-- The number of local slots, parameters included. -/
def nlocals (c : Code) : Nat :=
  c.varnames.size

/-- The source line of an offset, by the first range that holds it. -/
def lineAt? (c : Code) (offset : Nat) : Option Nat :=
  (c.lines.find? (fun e => e.start ≤ offset && offset < e.stop)).map LineEntry.line

/-- Whether two bodies run the same bytes. -/
def sameBody (a b : Code) : Bool :=
  a.bytes == b.bytes

/-- Whether two bodies have the same qualified name and run the same bytes. -/
def same (a b : Code) : Bool :=
  a.qualname == b.qualname && a.bytes == b.bytes

@[simp] theorem sameBody_iff {a b : Code} : a.sameBody b = true ↔ a.bytes = b.bytes := by
  simp [sameBody]

end Code

/-! ## §2. Constants. -/

namespace Constant

/-- Whether two constants are equal; bodies by qualified name and bytes. -/
def same : Constant → Constant → Bool
  | .none, .none => true
  | .bool a, .bool b => a == b
  | .int a, .int b => a == b
  | .str a, .str b => a == b
  | .names a, .names b => a == b
  | .code a, .code b => a.same b
  | _, _ => false

/-- The written form of a constant. -/
def text : Constant → String
  | .none => "None"
  | .bool true => "True"
  | .bool false => "False"
  | .int i => toString i.toInt
  | .str s => "'" ++ s ++ "'"
  | .names entries =>
      let inner := joined ", " (entries.map (fun n => "'" ++ n ++ "'"))
      if entries.length = 1 then "(" ++ inner ++ ",)" else "(" ++ inner ++ ")"
  | .code c => "<code " ++ c.qualname ++ ">"

end Constant

instance : Inhabited Code :=
  ⟨⟨"", "", "", 0, #[], #[], #[], #[], 0, []⟩⟩

instance : Inhabited Constant :=
  ⟨.none⟩

end Resumable
