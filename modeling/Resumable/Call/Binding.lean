/-
  Resumable.Call.Binding
  ──────────────────────
  **ARGUMENTS INTO LOCALS.**

  Positional arguments fill the leading parameters, named ones the parameter of
  their name, and then every parameter must be filled.  Of several faults the
  first in that order is the error, and the named arguments are taken in the
  order of the call.
-/
import Resumable.Call.Arguments
import Resumable.Continuation.Record

namespace Resumable.Code

/-- The names of a body's parameters. -/
def params (c : Code) : List String :=
  c.varnames.toList.take c.argCount

/-- The locals that positional arguments give: they come first, the others are
unbound. -/
def positionalLocals (c : Code) (positional : List Value) : Slots :=
  ((positional.map some ++ List.replicate (c.nlocals - positional.length) none).take
    c.nlocals).toArray

/-- Fill the parameter that a named argument names. -/
def bindNamed (c : Code) (locals : Slots) (named : String × Value) :
    Except BindingError Slots :=
  match c.params.findIdx? (· == named.1) with
  | none => .error (.unknownName c.name named.1)
  | some index =>
      match locals[index]? with
      | some (some _) => .error (.givenTwice c.name named.1)
      | _ => .ok (locals.setIfInBounds index (some named.2))

/-- The first parameter that is not filled. -/
def missing? (c : Code) (locals : Slots) : Option String :=
  (c.params.zip locals.toList).findSome? fun
    | (name, none) => some name
    | (_, some _) => none

/-- The locals of a call, or why the arguments do not fit. -/
def bind (c : Code) (args : Arguments) : Except BindingError Slots := do
  if c.argCount < args.positional.length then
    throw (.tooMany c.name c.argCount args.positional.length)
  let locals ← args.keywords.foldlM c.bindNamed (c.positionalLocals args.positional)
  match c.missing? locals with
  | some name => throw (.notGiven c.name name)
  | none => pure locals

/-- A body has a local for each positional argument it takes. -/
theorem size_positionalLocals (c : Code) (positional : List Value) :
    (c.positionalLocals positional).size = c.nlocals := by
  simp only [positionalLocals, List.size_toArray, List.length_take, List.length_append,
    List.length_map, List.length_replicate]
  omega

end Resumable.Code
