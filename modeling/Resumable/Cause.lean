/-
  Resumable.Cause
  ───────────────
  **WHY THE MACHINE ITSELF RAISES AN EXCEPTION.**

  One constructor per reason, with what its message names; `typeName` and
  `message` are the two texts the exception then carries.
-/

namespace Resumable

/-- The reason the arguments of a call do not fit the parameters of a function. -/
inductive BindingError where
  /-- More positional arguments than parameters. -/
  | tooMany (function : String) (expected given : Nat)
  /-- A parameter is given twice. -/
  | givenTwice (function param : String)
  /-- No parameter has the name of a keyword. -/
  | unknownName (function keyword : String)
  /-- A parameter is not given. -/
  | notGiven (function param : String)
  deriving DecidableEq, Repr

/-- The text of a binding error. -/
def BindingError.message : BindingError → String
  | .tooMany f expected given =>
      s!"{f}() takes {toString expected} positional arguments but {toString given} were given"
  | .givenTwice f param => s!"{f}() got multiple values for argument '{param}'"
  | .unknownName f keyword => s!"{f}() got an unexpected keyword argument '{keyword}'"
  | .notGiven f param => s!"{f}() missing required positional argument: '{param}'"

/-- The reason of an exception.  Types are given by name. -/
inductive Cause where
  /-- An operator does not take these operands. -/
  | unsupportedOperands (operator left right : String)
  /-- Two values have no order. -/
  | notOrdered (operator left right : String)
  /-- An integer leaves the 64-bit range. -/
  | overflow
  /-- A value cannot be called. -/
  | notCallable (type : String)
  /-- The arguments of a call do not fit. -/
  | badArguments (error : BindingError)
  /-- A native function takes no keywords. -/
  | keywordGiven (function keyword : String)
  /-- A native function takes another number of arguments. -/
  | argumentCount (function : String) (least most given : Nat)
  /-- The sequence of arguments is none. -/
  | notArguments (type : String)
  /-- The dict of named arguments is none. -/
  | notNamedArguments (type : String)
  /-- A global has no value. -/
  | undefinedName (name : String)
  /-- A local has no value. -/
  | unboundLocal (name : String)
  /-- A value has no such attribute. -/
  | noAttribute (type name : String)
  /-- A value has no items. -/
  | notIterable (type : String)
  /-- A loop runs over something that is no iterator. -/
  | notIterator (type : String)
  /-- A key of a dict is no string. -/
  | badKey (type : String)
  /-- The value raised is no exception. -/
  | notException
  /-- The value resumed is no continuation. -/
  | notContinuation (type : String)
  /-- A value has no length. -/
  | noLength (type : String)
  /-- An argument of a range is no integer. -/
  | badRangeArgument (which : String)
  /-- A range does not move. -/
  | zeroStep
  /-- The class of an object is none. -/
  | badClass (type : String)
  /-- A list method got another receiver, or none. -/
  | badReceiver (method received : String)
  /-- There is no last item. -/
  | popFromEmpty
  deriving DecidableEq, Repr

namespace Cause

/-- The name of the exception's type. -/
def typeName : Cause → String
  | .overflow => "OverflowError"
  | .undefinedName _ => "NameError"
  | .unboundLocal _ => "UnboundLocalError"
  | .noAttribute _ _ => "AttributeError"
  | .zeroStep => "ValueError"
  | .popFromEmpty => "IndexError"
  | _ => "TypeError"

/-- A number of arguments, or a range of numbers, in words. -/
def argumentRange (least most : Nat) : String :=
  if least = most then
    let ending := if least = 1 then "" else "s"
    s!"{toString least} argument{ending}"
  else
    s!"{toString least} to {toString most} arguments"

/-- What the exception says. -/
def message : Cause → String
  | .unsupportedOperands op l r =>
      s!"unsupported operand type(s) for {op}: '{l}' and '{r}'"
  | .notOrdered op l r => s!"'{op}' not supported between instances of '{l}' and '{r}'"
  | .overflow => "integer overflow"
  | .notCallable t => s!"'{t}' object is not callable"
  | .badArguments e => e.message
  | .keywordGiven f k => s!"{f}() got an unexpected keyword argument '{k}'"
  | .argumentCount f least most given =>
      s!"{f}() takes {argumentRange least most} ({toString given} given)"
  | .notArguments t => s!"argument after * must be an iterable, not {t}"
  | .notNamedArguments t => s!"argument after ** must be a mapping, not {t}"
  | .undefinedName n => s!"name '{n}' is not defined"
  | .unboundLocal n => s!"local variable '{n}' referenced before assignment"
  | .noAttribute t n => s!"'{t}' object has no attribute '{n}'"
  | .notIterable t => s!"'{t}' object is not iterable"
  | .notIterator t => s!"'{t}' object is not an iterator"
  | .badKey t => s!"dict keys must be str, not '{t}'"
  | .notException => "exceptions must derive from BaseException"
  | .notContinuation t => s!"resume() argument must be a continuation, not '{t}'"
  | .noLength t => s!"object of type '{t}' has no len()"
  | .badRangeArgument which => s!"range() integer {which} argument expected"
  | .zeroStep => "range() arg 3 must not be zero"
  | .badClass t => s!"object() class must be an object, not '{t}'"
  | .badReceiver m r => s!"descriptor '{m}' requires a 'list' object but received '{r}'"
  | .popFromEmpty => "pop from empty list"

end Cause

end Resumable
