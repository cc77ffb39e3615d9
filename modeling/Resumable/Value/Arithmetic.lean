/-
  Resumable.Value.Arithmetic
  ──────────────────────────
  **SUMS, DIFFERENCES, PRODUCTS AND ORDER.**

  Integers are 64-bit and a result outside that range is an exception, never a
  wrapped number; a truth value takes part as zero or one.  Strings, tuples and
  lists can be joined, a string can be repeated, and strings are ordered by
  their characters.

  A repeated string with more bytes than memory has addresses for is no
  exception: the whole program breaks off.
-/
import Resumable.Bytecode.Comparison
import Resumable.Cause
import Resumable.Value.Equality

namespace Resumable

/-- A computation on the store that may end in an exception. -/
abbrev Calc := StateT Store (Except Cause)

/-! ## §1. Integers. -/

/-- The 64-bit integer equal to `i`, if there is one. -/
def toInt64? (i : Int) : Option Int64 :=
  if Int64.minValue.toInt ≤ i ∧ i ≤ Int64.maxValue.toInt then some (Int64.ofInt i) else none

/-- The value of an exact result, which must be in range. -/
def exactly (i : Int) : Except Cause Value :=
  match toInt64? i with
  | some i => .ok (.int i)
  | none => .error .overflow

/-- Combine two integers exactly; other operands are refused. -/
def integersBy (symbol : String) (combine : Int → Int → Int) (a b : Value) :
    Except Cause Value :=
  match a.asInt?, b.asInt? with
  | some i, some j => exactly (combine i.toInt j.toInt)
  | _, _ => .error (.unsupportedOperands symbol a.typeName b.typeName)

/-! ## §2. The three operators. -/

/-- The sum of two numbers, or two sequences of one kind joined. -/
def add (a b : Value) : Calc Value :=
  match a, b with
  | .str s, .str t => pure (.str (s ++ t))
  | .tuple s, .tuple t => pure (.tuple (s ++ t))
  | .list s, .list t => modifyGet fun store => store.makeList (store.list s ++ store.list t)
  | _, _ => liftM (integersBy "+" (· + ·) a b)

/-- The difference of two numbers. -/
def subtract (a b : Value) : Except Cause Value :=
  integersBy "-" (· - ·) a b

/-- The number of bytes that no string can be longer than. -/
def maxStringBytes : Nat := 9223372036854775807

/-- A text, `count` times over, unless that is too long. -/
def repeated? (text : String) (count : Nat) : Option String :=
  if maxStringBytes < text.utf8ByteSize * count then none
  else if text.isEmpty then some ""
  else some (String.join (List.replicate count text))

/-- The product of two numbers, or a string repeated; a negative count repeats
it no times.  At a string too long to be made the program breaks off. -/
def multiply (a b : Value) : Option (Except Cause Value) :=
  let repetition (s : String) (n : Int64) := (repeated? s n.toInt.toNat).map (.ok ∘ .str)
  match a.asStr?, b.asInt?, b.asStr?, a.asInt? with
  | some s, some n, _, _ => repetition s n
  | _, _, some s, some n => repetition s n
  | _, _, _, _ => some (integersBy "*" (· * ·) a b)

/-! ## §3. Order. -/

/-- How two numbers or two strings are ordered; other values are not. -/
def ordering? (a b : Value) : Option Ordering :=
  match a.asStr?, b.asStr? with
  | some s, some t => some (compareOfLessAndEq s t)
  | _, _ =>
      match a.asInt?, b.asInt? with
      | some i, some j => some (compareOfLessAndEq i.toInt j.toInt)
      | _, _ => none

/-- Whether an order satisfies a comparison. -/
def Comparison.holds : Comparison → Ordering → Bool
  | .lt, o => o == .lt
  | .le, o => o != .gt
  | .eq, o => o == .eq
  | .ne, o => o != .eq
  | .gt, o => o == .gt
  | .ge, o => o != .lt

/-- Compare two values: any two for equality, ordered ones in every way. -/
def compare (s : Store) (kind : Comparison) (a b : Value) : Except Cause Bool :=
  match kind with
  | .eq => .ok (s.eq a b)
  | .ne => .ok (!s.eq a b)
  | kind =>
      match ordering? a b with
      | some o => .ok (kind.holds o)
      | none => .error (.notOrdered kind.symbol a.typeName b.typeName)

end Resumable
