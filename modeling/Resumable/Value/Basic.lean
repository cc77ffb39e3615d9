/-
  Resumable.Value.Basic
  ─────────────────────
  **WHAT A PROGRAM COMPUTES WITH.**

  Tuples and plain data are contents; lists, dicts, objects, iterators and
  continuations are places in a store (`Resumable.Value.Store`), so that every
  holder sees a change.  Functions, natives and exceptions never change but are
  told apart by the serial number they were made with.
-/
import Resumable.Bytecode.Code

namespace Resumable

/-- A function made from a body. -/
structure Function where
  /-- The serial number it was made with. -/
  serial : Nat
  /-- Its body. -/
  code : Code

/-- What a native function does. -/
inductive Native where
  /-- Take a continuation of the live frames. -/
  | capture
  /-- Run a continuation. -/
  | resume
  /-- Count the items of a container. -/
  | len
  /-- Write a line. -/
  | print
  /-- Make an iterator over a range of integers. -/
  | range
  /-- Make an iterator over a container. -/
  | iter
  /-- Make an exception. -/
  | exception
  /-- Make an object. -/
  | object
  /-- Put an item at the end of a list. -/
  | append
  /-- Take the last item of a list. -/
  | pop
  /-- Ask whoever runs the machine. -/
  | host (name : String)
  deriving DecidableEq, Repr

/-- The name a native function is shown with. -/
def Native.name : Native → String
  | .capture => "capture"
  | .resume => "resume"
  | .len => "len"
  | .print => "print"
  | .range => "range"
  | .iter => "iter"
  | .exception => "Exception"
  | .object => "object"
  | .append => "append"
  | .pop => "pop"
  | .host name => name

/-- A native function. -/
structure Builtin where
  /-- The serial number it was made with. -/
  serial : Nat
  /-- What it does. -/
  native : Native
  deriving DecidableEq, Repr

/-- An exception. -/
structure Exception where
  /-- The serial number it was made with. -/
  serial : Nat
  /-- The name of its type. -/
  typeName : String
  /-- What it says. -/
  message : String
  deriving DecidableEq, Repr

/-- A place in the store. -/
abbrev Address := Nat

/-- A value. -/
inductive Value where
  /-- The absent value. -/
  | none
  /-- A truth value. -/
  | bool (b : Bool)
  /-- A 64-bit integer. -/
  | int (i : Int64)
  /-- A string. -/
  | str (s : String)
  /-- A tuple. -/
  | tuple (items : List Value)
  /-- A list in the store. -/
  | list (place : Address)
  /-- A dict in the store. -/
  | dict (place : Address)
  /-- A function. -/
  | function (f : Function)
  /-- A native function. -/
  | builtin (b : Builtin)
  /-- An object in the store. -/
  | object (place : Address)
  /-- An iterator in the store. -/
  | iterator (place : Address)
  /-- An exception. -/
  | exception (e : Exception)
  /-- A continuation in the store. -/
  | continuation (place : Address)

instance : Inhabited Value := ⟨.none⟩

namespace Value

/-- The integer a value stands for: a truth value counts as zero or one. -/
def asInt? : Value → Option Int64
  | .int i => some i
  | .bool b => some (if b then 1 else 0)
  | _ => Option.none

/-- The string a value is. -/
def asStr? : Value → Option String
  | .str s => some s
  | _ => Option.none

/-- Whether a value is the absent one. -/
def isNone : Value → Bool
  | .none => true
  | _ => false

/-- The name of a value's type; an exception has a type of its own. -/
def typeName : Value → String
  | .none => "NoneType"
  | .bool _ => "bool"
  | .int _ => "int"
  | .str _ => "str"
  | .tuple _ => "tuple"
  | .list _ => "list"
  | .dict _ => "dict"
  | .function _ => "function"
  | .builtin _ => "builtin_function_or_method"
  | .object _ => "object"
  | .iterator _ => "iterator"
  | .exception e => e.typeName
  | .continuation _ => "continuation"

/-- The names a keyword call passes, if the value is a tuple of strings. -/
def asNames? : Value → Option (List String)
  | .tuple items => items.mapM asStr?
  | _ => Option.none

end Value

end Resumable
