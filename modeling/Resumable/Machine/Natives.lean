/-
  Resumable.Machine.Natives
  ─────────────────────────
  **THE NATIVE FUNCTIONS.**

  A native call pushes no frame.  Most natives answer at once; a resume has a
  chain of frames to run first, and a host function is answered from outside.
-/
import Resumable.Machine.Capture
import Resumable.Machine.Calls

namespace Resumable

open VmAction

/-- What a native call comes to. -/
inductive NativeOutcome where
  /-- A value. -/
  | value (v : Value)
  /-- A continuation to run. -/
  | resume (k : Continuation)
  /-- A question to whoever runs the machine. -/
  | ask (name : String)

/-! ## §1. Containers. -/

/-- The number of items of a container. -/
def lengthOf (s : Store) (v : Value) : Except Cause Nat :=
  match v with
  | .str t => .ok t.length
  | .tuple items => .ok items.length
  | .list place => .ok (s.list place).size
  | .dict place => .ok (s.dict place).length
  | .continuation place => .ok (s.continuation place).size
  | other => .error (.noLength other.typeName)

/-- The list a list method is called on. -/
def receiverList (methodName : String) (args : List Value) : Except Cause Address :=
  match args with
  | .list place :: _ => .ok place
  | other :: _ => .error (.badReceiver methodName other.typeName)
  | [] => .error (.badReceiver methodName "nothing")

/-- Put an item at the end of a list. -/
def appendItem (args : List Value) : Calc Value := do
  let place ← liftM (receiverList "append" args)
  modify fun s => s.setList place (s.list place ++ args.tail.toArray)
  pure .none

/-- Take the last item of a list. -/
def popItem (args : List Value) : Calc Value := do
  let place ← liftM (receiverList "pop" args)
  let items := (← get).list place
  match items.back? with
  | none => throw .popFromEmpty
  | some last =>
      modify fun s => s.setList place items.pop
      pure last

/-! ## §2. Ranges, exceptions, objects. -/

/-- An integer argument of a range. -/
def rangeArgument (which : String) (v : Value) : Except Cause Int64 :=
  match v.asInt? with
  | some i => .ok i
  | none => .error (.badRangeArgument which)

/-- The range of one to three arguments: stop, or start and stop, or also step. -/
def rangeCursor (args : List Value) : Except Cause Cursor :=
  match args with
  | [start, stop] => do
      let first ← rangeArgument "start" start
      let last ← rangeArgument "end" stop
      pure (.range first last 1)
  | [start, stop, step] => do
      let increment ← rangeArgument "step" step
      if increment = 0 then throw .zeroStep
      let first ← rangeArgument "start" start
      let last ← rangeArgument "end" stop
      pure (.range first last increment)
  | stop :: _ => do
      let last ← rangeArgument "end" stop
      pure (.range 0 last 1)
  | [] => pure (.values [])

/-- An exception that says what its argument shows. -/
def exceptionOf (args : List Value) : Calc Value :=
  modifyGet fun s => s.makeException "Exception" ((args.head?.map s.text).getD "")

/-- An object, with a class if one is given. -/
def objectOf (args : List Value) : Calc Value :=
  match args with
  | [] | .none :: _ => modifyGet fun s => s.makeObject none
  | .object place :: _ => modifyGet fun s => s.makeObject (some place)
  | other :: _ => throw (.badClass other.typeName)

/-! ## §3. All natives. -/

/-- Print the arguments on one line. -/
def printLine (args : Arguments) : VmAction Unit := do
  lift (args.requireNoKeywords "print")
  modify fun vm =>
    { vm with output := vm.output.push (Text.joined " " (args.positional.map vm.store.text)) }

/-- Check the number of arguments of a native and compute its value. -/
def simpleNative (native : Native) (least most : Nat) (args : Arguments)
    (compute : List Value → Calc Value) : VmAction NativeOutcome := do
  let positional ← lift (args.requirePositional native.name least most)
  pure (.value (← onStore (compute positional)))

/-- Call a native function. -/
def callNative (native : Native) (args : Arguments) : VmAction NativeOutcome :=
  match native with
  | .capture => do
      let _ ← lift (args.requirePositional "capture" 0 0)
      let k ← capture
      pure (.value (← onStore (modifyGet fun s => s.makeContinuation k)))
  | .resume => do
      match ← lift (args.requirePositional "resume" 1 1) with
      | .continuation place :: _ => pure (.resume ((← get).store.continuation place))
      | other :: _ => raise (.notContinuation other.typeName)
      | [] => raise (.notContinuation "nothing")
  | .len => simpleNative native 1 1 args fun positional => do
      let n ← liftM (lengthOf (← get) (positional.headD .none))
      pure (.int (Int64.ofNat n))
  | .print => do
      printLine args
      pure (.value .none)
  | .range => simpleNative native 1 3 args fun positional => do
      let cursor ← liftM (rangeCursor positional)
      modifyGet fun s => s.makeIterator cursor
  | .iter => simpleNative native 1 1 args fun positional => iterate (positional.headD .none)
  | .exception => simpleNative native 0 1 args exceptionOf
  | .object => simpleNative native 0 1 args objectOf
  | .append => simpleNative native 2 2 args appendItem
  | .pop => simpleNative native 1 1 args popItem
  | .host name => pure (.ask name)

end Resumable
