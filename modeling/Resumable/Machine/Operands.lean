/-
  Resumable.Machine.Operands
  ──────────────────────────
  **INSTRUCTIONS THAT MOVE AND COMBINE VALUES.**

  Constants, locals, globals, attributes, operators and containers.  Operands
  are taken off the stack before they are looked at, so an instruction that
  refuses them has still taken them.
-/
import Resumable.Machine.State

namespace Resumable

open VmAction

/-! ## §1. Constants and locals. -/

/-- Push a constant; a body becomes a new function. -/
def loadConstant (index : Nat) : VmAction Unit := do
  match (← currentFrame).code.constants[index]? with
  | none => breach (.constantOutOfRange index)
  | some constant =>
      let value ← onStore (modifyGet fun store => store.ofConstant constant)
      onFrame (FrameAction.push value)

/-- The failure of using an unbound local. -/
def unboundLocal {α : Type} (f : Frame) (slot : Nat) : VmAction α :=
  raise (.unboundLocal (f.code.varnames[slot]?.getD "?"))

/-- Push a local. -/
def loadLocal (slot : Nat) : VmAction Unit := do
  let f ← currentFrame
  match f.local? slot with
  | some value => onFrame (FrameAction.push value)
  | none => unboundLocal f slot

/-- Pop into a local. -/
def storeLocal (slot : Nat) : VmAction Unit :=
  onFrame do
    let value ← FrameAction.pop
    FrameAction.setLocal slot (some value)

/-- Unbind a local. -/
def deleteLocal (slot : Nat) : VmAction Unit := do
  let f ← currentFrame
  match f.local? slot with
  | some _ => onFrame (FrameAction.setLocal slot none)
  | none => unboundLocal f slot

/-! ## §2. Names. -/

/-- The name an operand stands for. -/
def nameAt (index : Nat) : VmAction String := do
  match (← currentFrame).code.names[index]? with
  | some name => pure name
  | none => breach (.nameOutOfRange index)

/-- Push a global. -/
def loadGlobal (index : Nat) : VmAction Unit := do
  let name ← nameAt index
  match (← get).globals.find? name with
  | some value => onFrame (FrameAction.push value)
  | none => raise (.undefinedName name)

/-- Pop into a global. -/
def storeGlobal (index : Nat) : VmAction Unit := do
  let name ← nameAt index
  let value ← onFrame FrameAction.pop
  modify fun vm => { vm with globals := vm.globals.set name value }

/-! ## §3. Attributes. -/

/-- An attribute of a value, wherever it was found. -/
def attributeOf (owner : Value) (name : String) : VmAction Value := do
  let missing := Cause.noAttribute owner.typeName name
  match owner with
  | .object place =>
      match (← get).store.lookup place name with
      | some found => pure found.value
      | none => raise missing
  | .exception e =>
      if name = "args" then pure (.tuple [.str e.message]) else raise missing
  | _ => raise missing

/-- Replace the top by one of its attributes. -/
def loadAttribute (index : Nat) : VmAction Unit := do
  let name ← nameAt index
  let owner ← onFrame FrameAction.pop
  let value ← attributeOf owner name
  onFrame (FrameAction.push value)

/-- Set an attribute of the top to the entry below it. -/
def storeAttribute (index : Nat) : VmAction Unit := do
  let name ← nameAt index
  let owner ← onFrame FrameAction.pop
  let value ← onFrame FrameAction.pop
  match owner with
  | .object place => modify fun vm => { vm with store := vm.store.setAttr place name value }
  | _ => raise (.noAttribute owner.typeName name)

/-- The native behind a method name of lists. -/
def listMethod? : String → Option Native
  | "append" => some .append
  | "pop" => some .pop
  | _ => none

/-- A method for a call and the receiver it is called with, if it is bound. -/
def method (owner : Value) (name : String) : VmAction (Value × Option Value) := do
  let missing := Cause.noAttribute owner.typeName name
  match owner with
  | .object place =>
      match (← get).store.lookup place name with
      | some (.inherited (.function f)) => pure (.function f, some owner)
      | some (.inherited (.builtin b)) => pure (.builtin b, some owner)
      | some found => pure (found.value, none)
      | none => raise missing
  | .list _ =>
      match listMethod? name with
      | some native =>
          let f ← onStore (modifyGet fun store => store.makeBuiltin native)
          pure (f, some owner)
      | none => raise missing
  | _ =>
      let value ← attributeOf owner name
      pure (value, none)

/-- Replace the top by a method and its receiver, which is empty if there is none. -/
def loadMethod (index : Nat) : VmAction Unit := do
  let name ← nameAt index
  let owner ← onFrame FrameAction.pop
  let (callee, receiver) ← method owner name
  onFrame do
    FrameAction.push callee
    match receiver with
    | some value => FrameAction.push value
    | none => FrameAction.pushEmpty

/-! ## §4. Operators. -/

/-- Take the two operands of an operator, the left one first. -/
def operands : FrameAction (Value × Value) := do
  let right ← FrameAction.pop
  let left ← FrameAction.pop
  pure (left, right)

/-- Replace the top two by a combination of them. -/
def combine (op : Value → Value → Calc Value) : VmAction Unit := do
  let (left, right) ← onFrame operands
  let value ← onStore (op left right)
  onFrame (FrameAction.push value)

/-- Replace the top two by whether they compare as told. -/
def compareTop (operand : UInt16) : VmAction Unit := do
  match Comparison.ofByte? operand.toUInt8 with
  | none => breach (.badComparison operand.toNat)
  | some kind =>
      let (left, right) ← onFrame operands
      let holds ← lift (compare (← get).store kind left right)
      onFrame (FrameAction.push (.bool holds))

/-- Replace the top by its negation. -/
def negateTop : VmAction Unit := do
  let value ← onFrame FrameAction.pop
  onFrame (FrameAction.push (.bool (!(← get).store.truthy value)))

/-! ## §5. Containers. -/

/-- Take the top `count` values, the lowest first, before those already taken. -/
def popValues : Nat → List Value → FrameAction (List Value)
  | 0, taken => pure taken
  | count + 1, taken => do
      let value ← FrameAction.pop
      popValues count (value :: taken)

/-- Collect the top `count` values into a tuple. -/
def buildTuple (count : Nat) : VmAction Unit :=
  onFrame do
    let items ← popValues count []
    FrameAction.push (.tuple items)

/-- Collect the top `count` values into a list. -/
def buildList (count : Nat) : VmAction Unit := do
  let items ← onFrame (popValues count [])
  let value ← onStore (modifyGet fun store => store.makeList items.toArray)
  onFrame (FrameAction.push value)

/-- The dict of keys and values in turn; of equal keys the last one counts. -/
def dictOf (entries : Bindings Value) : List Value → Except Cause (Bindings Value)
  | key :: value :: rest =>
      match key with
      | .str name => dictOf (entries.set name value) rest
      | _ => .error (.badKey key.typeName)
  | _ => .ok entries

/-- Collect the top `count` pairs into a dict. -/
def buildDict (count : Nat) : VmAction Unit := do
  let items ← onFrame (popValues (count * 2) [])
  let entries ← lift (dictOf [] items)
  let value ← onStore (modifyGet fun store => store.makeDict entries)
  onFrame (FrameAction.push value)

/-! ## §6. Iterators. -/

/-- Replace the top by an iterator over it. -/
def iterateTop : VmAction Unit := do
  let value ← onFrame FrameAction.pop
  let iterator ← onStore (iterate value)
  onFrame (FrameAction.push iterator)

/-- The next item of the iterator on top. -/
def nextOfTop : VmAction (Option Value) := do
  match ← onFrame (FrameAction.peek 0) with
  | .iterator place => modifyGet fun vm =>
      let (item, store) := vm.store.advance place
      (item, { vm with store := store })
  | other => raise (.notIterator other.typeName)

end Resumable
