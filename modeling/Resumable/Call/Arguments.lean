/-
  Resumable.Call.Arguments
  ────────────────────────
  **THE ARGUMENTS OF A CALL**, and the checks of functions that take a fixed
  number of positional ones.
-/
import Resumable.Cause
import Resumable.Value.Basic

namespace Resumable

/-- The arguments of a call. -/
structure Arguments where
  /-- Those given by position. -/
  positional : List Value := []
  /-- Those given by name, in the order of the call. -/
  keywords : List (String × Value) := []

namespace Arguments

/-- The number of arguments. -/
def size (args : Arguments) : Nat :=
  args.positional.length + args.keywords.length

/-- Whether there is no argument. -/
def isEmpty (args : Arguments) : Bool :=
  args.size == 0

/-- Refuse named arguments. -/
def requireNoKeywords (args : Arguments) (function : String) : Except Cause Unit :=
  match args.keywords with
  | [] => .ok ()
  | (name, _) :: _ => .error (.keywordGiven function name)

/-- The positional arguments, of which there must be `least` to `most` and no
named ones. -/
def requirePositional (args : Arguments) (function : String) (least most : Nat) :
    Except Cause (List Value) := do
  args.requireNoKeywords function
  let given := args.positional.length
  if given < least ∨ most < given then
    throw (.argumentCount function least most given)
  pure args.positional

end Arguments

end Resumable
