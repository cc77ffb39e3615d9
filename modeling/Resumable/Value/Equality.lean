/-
  Resumable.Value.Equality
  ────────────────────────
  **WHEN TWO VALUES ARE EQUAL.**

  Data and tuples are compared by content, lists and dicts by place or content,
  numbers across truth values and integers, and everything else by identity.
  The comparison follows the structure of tuples and goes to the store once per
  container on the way down.  It goes so deep that going deeper would find no
  two containers equal that it does not (`Resumable.Proofs.ContainerDepth`).
-/
import Resumable.Value.Store

namespace Resumable

mutual

/-- Whether two values are equal, given how two containers compare. -/
def Value.eqBy (same : Container → Container → Bool) : Value → Value → Bool
  | .none, .none => true
  | .bool a, b => b.asInt? == some (if a then 1 else 0)
  | .int a, b => b.asInt? == some a
  | .str a, .str b => a == b
  | .tuple a, .tuple b => itemsEqBy same a b
  | .list a, .list b => same (.list a) (.list b)
  | .dict a, .dict b => same (.dict a) (.dict b)
  | .function a, .function b => a.serial == b.serial
  | .builtin a, .builtin b => a.serial == b.serial
  | .object a, .object b => a == b
  | .iterator a, .iterator b => a == b
  | .exception a, .exception b => a.serial == b.serial
  | .continuation a, .continuation b => a == b
  | _, _ => false

/-- Whether two sequences hold equal values in order. -/
def itemsEqBy (same : Container → Container → Bool) : List Value → List Value → Bool
  | [], [] => true
  | a :: as, b :: bs => Value.eqBy same a b && itemsEqBy same as bs
  | _, _ => false

end

namespace Store

/-- Whether two containers are equal, following containers inside containers
`depth` deep. -/
def same (s : Store) : Nat → Container → Container → Bool
  | 0, a, b => a == b
  | depth + 1, a, b =>
      a == b || (s.keys? a == s.keys? b && itemsEqBy (s.same depth) (s.held a) (s.held b))

/-- Whether two values are equal. -/
def eq (s : Store) (a b : Value) : Bool :=
  a.eqBy (s.same (s.containers * s.containers + 1)) b

end Store

end Resumable
