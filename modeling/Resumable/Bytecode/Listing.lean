/-
  Resumable.Bytecode.Listing
  ──────────────────────────
  **THE PRINTED FORM OF A FUNCTION BODY.**

  A heading, the pools that are not empty, and one line per instruction with
  its source line and offset.  A body that cannot be decoded still has a
  listing: the reason stands in place of the instructions.
-/
import Resumable.Bytecode.Code

namespace Resumable.Code

open Text

/-- A numbered line of a pool. -/
def poolLine (index : Nat) (entry : String) : String :=
  "  " ++ padLeft 4 (toString index) ++ ": " ++ entry ++ "\n"

/-- A pool under its heading; an empty pool prints nothing. -/
def poolText (heading : String) (entries : List String) : String :=
  if entries.isEmpty then ""
  else "\n" ++ heading ++ ":\n"
    ++ String.join (entries.zipIdx.map (fun (entry, index) => poolLine index entry))

/-- The line of an instruction: source line, offset, instruction. -/
def instructionLine (c : Code) (i : Instruction) : String :=
  let line := match c.lineAt? i.offset with
    | some line => padLeft 4 (toString line)
    | none => "    "
  line ++ " " ++ padLeft 5 (toString i.offset) ++ ": " ++ i.text ++ "\n"

/-- The instructions, or the reason there are none. -/
def instructionText (c : Code) : String :=
  match decode c.bytes with
  | .ok instructions => String.join (instructions.toList.map c.instructionLine)
  | .error e => "  <undecodable: " ++ e.message ++ ">\n"

/-- The whole listing. -/
def listing (c : Code) : String :=
  "Code object: " ++ c.qualname ++ "\n"
    ++ "  File: " ++ c.filename ++ "\n"
    ++ "  First line: " ++ toString c.firstLine ++ "\n"
    ++ "  Args: " ++ toString c.argCount ++ "\n"
    ++ "  Locals: " ++ toString c.nlocals ++ "\n"
    ++ poolText "Constants" (c.constants.toList.map Constant.text)
    ++ poolText "Names" c.names.toList
    ++ poolText "Locals" c.varnames.toList
    ++ "\nDisassembly:\n"
    ++ c.instructionText

end Resumable.Code
