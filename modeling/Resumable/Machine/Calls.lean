/-
  Resumable.Machine.Calls
  ───────────────────────
  **FOUR WAYS TO CALL.**

  The callee and its arguments stay on the caller's stack while the call runs
  and are replaced by its result when it returns:

      CALL_FUNCTION n      callee | arg 1 … arg n
      CALL_METHOD n        method | receiver or nothing | arg 1 … arg n
      CALL_FUNCTION_KW n   callee | value 1 … value n | names
      CALL_FUNCTION_EX f   callee | sequence | dict, if f is odd

  So a suspended frame still holds all a call needs, and executing the call
  again calls the same function, with the same arguments but for a list or a
  dict of CALL_FUNCTION_EX that has changed in between: it is read again.
-/
import Resumable.Call.Arguments
import Resumable.Machine.State

namespace Resumable

open VmAction

/-- A call that an instruction asks for. -/
structure CallRequest where
  /-- What is called. -/
  callee : Value
  /-- The arguments. -/
  args : Arguments
  /-- The stack entries that the result replaces. -/
  slots : Nat

/-- A stack entry as an argument; it must not be empty. -/
def argument : Option Value → Except Fault Value
  | some v => .ok v
  | none => .error (.internal .emptyArgument)

/-- The first entry as an argument, and the other entries. -/
def firstArgument : List (Option Value) → Except Fault (Value × List (Option Value))
  | [] => .error (.internal .emptyArgument)
  | slot :: rest => (argument slot).map (·, rest)

/-! ## §1. Positional calls. -/

/-- The call of a callee and its arguments. -/
def functionRequest (slots : List (Option Value)) : Except Fault CallRequest := do
  let (callee, rest) ← firstArgument slots
  let positional ← rest.mapM argument
  pure ⟨callee, { positional }, slots.length⟩

/-- The call of a method, with its receiver as first argument if there is one. -/
def methodRequest (slots : List (Option Value)) : Except Fault CallRequest := do
  let (callee, rest) ← firstArgument slots
  let receiver := rest.head?.join
  let positional ← rest.tail.mapM argument
  pure ⟨callee, { positional := receiver.toList ++ positional }, slots.length⟩

/-! ## §2. Calls by keywords. -/

/-- The names on top of the entries, if they are `count` strings. -/
def namesOnTop? (count : Nat) (slots : List (Option Value)) : Option (List String) :=
  (slots.getLast?.join.bind Value.asNames?).filter (·.length == count)

/-- The call of a callee with `count` named arguments. -/
def keywordRequest (count : Nat) (slots : List (Option Value)) : Except Fault CallRequest :=
  match namesOnTop? count slots with
  | none => .error (.internal (.badNameTuple count))
  | some names => do
      let (callee, rest) ← firstArgument slots
      let values ← (rest.take count).mapM argument
      pure ⟨callee, { keywords := names.zip values }, slots.length⟩

/-! ## §3. Calls with collected arguments. -/

/-- The items of a sequence of arguments. -/
def sequenceItems (s : Store) : Value → Except Cause (List Value)
  | .tuple items => .ok items
  | .list place => .ok (s.list place).toList
  | other => .error (.notArguments other.typeName)

/-- The entries of a dict of named arguments. -/
def namedItems (s : Store) : Value → Except Cause (List (String × Value))
  | .dict place => .ok (s.dict place)
  | other => .error (.notNamedArguments other.typeName)

/-- A call's parts that can still fail as a breach. -/
def VmAction.ofExcept {α : Type} (r : Except Fault α) : VmAction α :=
  match r with
  | .ok a => pure a
  | .error e => throw e

/-- The call of a callee with a sequence of arguments and, if there is another
entry, a dict of named ones. -/
def collectedRequest (slots : List (Option Value)) : VmAction CallRequest := do
  let (callee, rest) ← VmAction.ofExcept (firstArgument slots)
  let (sequence, rest) ← VmAction.ofExcept (firstArgument rest)
  let positional ← lift (sequenceItems (← get).store sequence)
  match rest with
  | [] => pure ⟨callee, { positional }, slots.length⟩
  | slot :: _ =>
      let dict ← VmAction.ofExcept (argument slot)
      let keywords ← lift (namedItems (← get).store dict)
      pure ⟨callee, { positional, keywords }, slots.length⟩

/-! ## §4. The call instructions. -/

/-- The call that a call instruction asks for, read off the stack, which stays
as it is. -/
def callRequest (i : Instruction) : VmAction CallRequest := do
  let argc := i.arg.toNat
  match i.opcode with
  | .callMethod =>
      VmAction.ofExcept (methodRequest (← onFrame (FrameAction.topSlots (argc + 2))))
  | .callFunctionKw =>
      VmAction.ofExcept (keywordRequest argc (← onFrame (FrameAction.topSlots (argc + 2))))
  | .callFunctionEx =>
      collectedRequest (← onFrame (FrameAction.topSlots (2 + argc % 2)))
  | _ =>
      VmAction.ofExcept (functionRequest (← onFrame (FrameAction.topSlots (argc + 1))))

/-- Replace the entries of a call by its result. -/
def finishCall (slots : Nat) (result : Value) : VmAction Unit :=
  onFrame do
    FrameAction.drop slots
    FrameAction.push result

end Resumable
