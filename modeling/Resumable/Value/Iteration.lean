/-
  Resumable.Value.Iteration
  ─────────────────────────
  **ITERATORS OVER VALUES.**

  An iterator over a list sees the list as it is when each item is asked for;
  the other sequences are fixed when the iterator is made: a string is walked
  by characters, and a dict by the keys it has then, in order.
-/
import Resumable.Value.Arithmetic

namespace Resumable

/-- Where an iterator over a value starts, for a value that has items. -/
def cursorOf? (s : Store) : Value → Option Cursor
  | .list place => some (.list place 0)
  | .tuple items => some (.values items)
  | .str s => some (.values (s.toList.map fun c => .str c.toString))
  | .dict place => some (.values ((s.dict place).map fun entry => .str entry.1))
  | _ => none

/-- An iterator over a value; one over an iterator is that iterator. -/
def iterate (v : Value) : Calc Value := do
  match v with
  | .iterator _ => pure v
  | _ =>
      match cursorOf? (← get) v with
      | some cursor => modifyGet fun store => store.makeIterator cursor
      | none => throw (.notIterable v.typeName)

end Resumable
