/-
  Resumable.Fault
  ───────────────
  **HOW A RUN CAN FAIL.**

  Only an exception can be caught by a program.  Everything else ends the whole
  run: a continuation that cannot be taken or rebuilt, too many frames, bytes
  that are no instruction, and a breach of what every instruction relies on.
-/
import Resumable.Bytecode.Listing
import Resumable.Cause
import Resumable.Continuation.Record

namespace Resumable

/-! ## §1. Continuations. -/

/-- The reason a continuation cannot be taken or rebuilt. -/
inductive ContinuationError where
  /-- A frame is suspended in something that is no call. -/
  | notAtCall (code : Code) (offset : Nat) (found : Option Opcode)
  /-- A record meets a frame that runs other bytes. -/
  | otherBody (function : String) (expected found : Nat)
  /-- A call by keywords passes another number of arguments than it names. -/
  | otherNameCount (function : String) (expected found : Nat)
  /-- A frame holds fewer slots than its call site needs. -/
  | tooFewSlots (function : String) (offset computed live : Nat)
  /-- A frame's bytes cannot be decoded. -/
  | undecodable (function : String) (source : DecodeError)

/-- The text of a continuation error; a body is told by its size. -/
def ContinuationError.message : ContinuationError → String
  | .notAtCall code offset found =>
      let site := match found with
        | some op => op.mnemonic
        | none => "<no instruction>"
      s!"unsupported call site in {code.qualname} at offset {toString offset}: {site}"
  | .otherBody f expected found =>
      "code mismatch resuming " ++ f ++ ": expected # (" ++ toString expected
        ++ " bytes), found # (" ++ toString found ++ " bytes)"
  | .otherNameCount f expected found =>
      s!"keyword call in {f} passes {toString expected} arguments but names {toString found}"
  | .tooFewSlots f offset computed live =>
      s!"live stack in {f} at offset {toString offset} holds {toString live} slots, "
        ++ s!"call site needs {toString computed}"
  | .undecodable f source => s!"malformed bytecode in {f}: {source.message}"

/-! ## §2. Breaches. -/

/-- A breach of what the instructions of a body may rely on. -/
inductive Breach where
  /-- There is no frame to work on. -/
  | noActiveFrame
  /-- The operand stack holds too little. -/
  | operandUnderflow (function : String) (offset : Nat)
  /-- An empty entry of the stack is used as a value. -/
  | emptySlot (function : String) (offset : Nat)
  /-- There is no such local. -/
  | localOutOfRange (slot : Nat) (function : String)
  /-- There is no such constant. -/
  | constantOutOfRange (index : Nat)
  /-- There is no such name. -/
  | nameOutOfRange (index : Nat)
  /-- There is no such comparison. -/
  | badComparison (operand : Nat)
  /-- An empty entry of the stack is passed to a call. -/
  | emptyArgument
  /-- A call by keywords has no fitting tuple of names. -/
  | badNameTuple (count : Nat)
  /-- A try body is left that was not entered. -/
  | notInTry (function : String) (found : Option Block)
  /-- A handler is left that was not entered. -/
  | notInHandler (function : String) (found : Option Block)
  /-- A frame's caller is not live. -/
  | danglingParent (index : Nat)
  /-- A record meets no frame. -/
  | missingFrame (index : Nat)
  /-- A breach told by whoever runs the machine. -/
  | reported (message : String)
  deriving DecidableEq, Repr

/-- The text of a breach. -/
def Breach.message : Breach → String
  | .noActiveFrame => "no active frame"
  | .operandUnderflow f offset =>
      s!"operand stack underflow in {f} at offset {toString offset}"
  | .emptySlot f offset => s!"empty stack slot consumed in {f} at offset {toString offset}"
  | .localOutOfRange slot f => s!"local slot {toString slot} out of range in {f}"
  | .constantOutOfRange index => s!"constant {toString index} out of range"
  | .nameOutOfRange index => s!"name {toString index} out of range"
  | .badComparison operand => s!"bad comparison operand {toString operand}"
  | .emptyArgument => "empty stack slot passed as call argument"
  | .badNameTuple count => s!"CallFunctionKw({toString count}) without a matching name tuple"
  | .notInTry f found => s!"PopBlock without a try block in {f} (found {Block.describe found})"
  | .notInHandler f found => s!"PopExcept outside a handler in {f} (found {Block.describe found})"
  | .danglingParent index => s!"dangling parent frame {toString index}"
  | .missingFrame index => s!"resume hook fired for missing frame {toString index}"
  | .reported text => text

/-! ## §3. Faults. -/

/-- How a run fails. -/
inductive Fault where
  /-- An exception, which a handler can catch. -/
  | exception (value : Value)
  /-- A continuation that cannot be taken or rebuilt. -/
  | continuation (error : ContinuationError)
  /-- One frame more than may be live. -/
  | frameLimit (limit : Nat)
  /-- Bytes that are no instruction. -/
  | decode (error : DecodeError)
  /-- A breach of what instructions rely on. -/
  | internal (breach : Breach)

namespace Fault

/-- Whether a handler can catch the fault. -/
def isCatchable : Fault → Bool
  | .exception _ => true
  | _ => false

/-- The text of a fault, given the written forms of values. -/
def message (repr : Value → String) : Fault → String
  | .exception v => "uncaught exception: " ++ repr v
  | .continuation e => e.message
  | .frameLimit limit => s!"maximum recursion depth exceeded (limit {toString limit})"
  | .decode e => e.message
  | .internal b => "internal error: " ++ b.message

end Fault

end Resumable
