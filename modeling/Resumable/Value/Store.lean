/-
  Resumable.Value.Store
  ─────────────────────
  **THE PLACES OF A PROGRAM.**

  One array per kind of place; an address is an index that was handed out when
  the place was made, so it is never reused.  Reading is total: an address
  nobody was given reads as an empty place.

  An object's line of classes is fixed when it is made, so looking an attribute
  up is one walk over that line.
-/
import Resumable.Bindings
import Resumable.Continuation.Record

namespace Resumable

/-! ## §1. Contents. -/

/-- An object: its attributes, and the objects it takes missing ones from. -/
structure Object where
  /-- Its class, the class of that, and so on. -/
  lineage : List Address := []
  /-- Its own attributes. -/
  attrs : Bindings Value := []

/-- A place whose values are compared and written one by one. -/
inductive Container where
  /-- A list. -/
  | list (place : Address)
  /-- A dict. -/
  | dict (place : Address)
  deriving DecidableEq, Repr

/-- Where an iterator stands. -/
inductive Cursor where
  /-- Before an index of a list, which may still grow or shrink. -/
  | list (place : Address) (next : Nat)
  /-- Before the rest of a fixed sequence. -/
  | values (rest : List Value)
  /-- Before an integer of a range. -/
  | range (next stop step : Int64)

/-- The places of a program. -/
structure Store where
  /-- The lists. -/
  lists : Array (Array Value) := #[]
  /-- The dicts, each in the order of its keys. -/
  dicts : Array (Bindings Value) := #[]
  /-- The objects. -/
  objects : Array Object := #[]
  /-- The iterators. -/
  cursors : Array Cursor := #[]
  /-- The continuations. -/
  continuations : Array Continuation := #[]
  /-- The serial number to give out next. -/
  serial : Nat := 0

namespace Store

/-! ## §2. Reading. -/

/-- The items of a list. -/
def list (s : Store) (place : Address) : Array Value :=
  s.lists[place]?.getD #[]

/-- The entries of a dict. -/
def dict (s : Store) (place : Address) : Bindings Value :=
  s.dicts[place]?.getD []

/-- The values a container holds, in order. -/
def held (s : Store) : Container → List Value
  | .list place => (s.list place).toList
  | .dict place => (s.dict place).map Prod.snd

/-- The keys the values of a container stand under, which a list has none of. -/
def keys? (s : Store) : Container → Option (List String)
  | .list _ => none
  | .dict place => some ((s.dict place).map Prod.fst)

/-- The number of containers. -/
def containers (s : Store) : Nat :=
  s.lists.size + s.dicts.size

/-- The object at a place. -/
def object (s : Store) (place : Address) : Object :=
  s.objects[place]?.getD {}

/-- The continuation at a place. -/
def continuation (s : Store) (place : Address) : Continuation :=
  s.continuations[place]?.getD {}

/-- Whether a value counts as true. -/
def truthy (s : Store) : Value → Bool
  | .none => false
  | .bool b => b
  | .int i => i != 0
  | .str t => !t.isEmpty
  | .tuple items => !items.isEmpty
  | .list place => !(s.list place).isEmpty
  | .dict place => !(s.dict place).isEmpty
  | .continuation place => !(s.continuation place).isEmpty
  | _ => true

/-! ## §3. Making. -/

/-- Make a list. -/
def makeList (s : Store) (items : Array Value) : Value × Store :=
  (.list s.lists.size, { s with lists := s.lists.push items })

/-- Make a dict. -/
def makeDict (s : Store) (entries : Bindings Value) : Value × Store :=
  (.dict s.dicts.size, { s with dicts := s.dicts.push entries })

/-- Make an object, with a class or without. -/
def makeObject (s : Store) (parent : Option Address) : Value × Store :=
  let lineage := match parent with
    | some place => place :: (s.object place).lineage
    | none => []
  (.object s.objects.size, { s with objects := s.objects.push { lineage } })

/-- Make an iterator. -/
def makeIterator (s : Store) (cursor : Cursor) : Value × Store :=
  (.iterator s.cursors.size, { s with cursors := s.cursors.push cursor })

/-- Make a continuation. -/
def makeContinuation (s : Store) (k : Continuation) : Value × Store :=
  (.continuation s.continuations.size, { s with continuations := s.continuations.push k })

/-- Make a function. -/
def makeFunction (s : Store) (code : Code) : Function × Store :=
  (⟨s.serial, code⟩, { s with serial := s.serial + 1 })

/-- Make a native function. -/
def makeBuiltin (s : Store) (native : Native) : Value × Store :=
  (.builtin ⟨s.serial, native⟩, { s with serial := s.serial + 1 })

/-- Make an exception. -/
def makeException (s : Store) (typeName message : String) : Value × Store :=
  (.exception ⟨s.serial, typeName, message⟩, { s with serial := s.serial + 1 })

/-- The value of a constant; a body becomes a new function. -/
def ofConstant (s : Store) : Constant → Value × Store
  | .none => (.none, s)
  | .bool b => (.bool b, s)
  | .int i => (.int i, s)
  | .str t => (.str t, s)
  | .names entries => (.tuple (entries.map .str), s)
  | .code c => let (f, s) := s.makeFunction c; (.function f, s)

/-! ## §4. Changing. -/

/-- Give a list other items. -/
def setList (s : Store) (place : Address) (items : Array Value) : Store :=
  { s with lists := s.lists.setIfInBounds place items }

/-- Give an object an attribute of its own. -/
def setAttr (s : Store) (place : Address) (name : String) (value : Value) : Store :=
  { s with objects := s.objects.modify place fun o => { o with attrs := o.attrs.set name value } }

/-! ## §5. Attributes. -/

/-- Where an attribute was found. -/
inductive Found where
  /-- On the object. -/
  | own (value : Value)
  /-- On the nearest class that has it. -/
  | inherited (value : Value)

/-- The value that was found. -/
def Found.value : Found → Value
  | .own value => value
  | .inherited value => value

/-- Look an attribute up on an object, then along its line of classes. -/
def lookup (s : Store) (place : Address) (name : String) : Option Found :=
  let o := s.object place
  match o.attrs.find? name with
  | some value => some (.own value)
  | none => (o.lineage.findSome? fun c => (s.object c).attrs.find? name).map .inherited

/-! ## §6. Iterating. -/

/-- The sum of two integers, held at the ends of the 64-bit range. -/
def saturatingAdd (a b : Int64) : Int64 :=
  let sum := a.toInt + b.toInt
  if sum < Int64.minValue.toInt then Int64.minValue
  else if Int64.maxValue.toInt < sum then Int64.maxValue
  else Int64.ofInt sum

/-- The item a cursor stands before, and the cursor after it; at the end the
cursor stays. -/
def step (s : Store) : Cursor → Option Value × Cursor
  | .list place next =>
      match (s.list place)[next]? with
      | some value => (some value, .list place (next + 1))
      | none => (none, .list place next)
  | .values [] => (none, .values [])
  | .values (value :: rest) => (some value, .values rest)
  | .range next stop step =>
      if (if 0 < step then stop ≤ next else next ≤ stop) then (none, .range next stop step)
      else (some (.int next), .range (saturatingAdd next step) stop step)

/-- The next item of the iterator at a place. -/
def advance (s : Store) (place : Address) : Option Value × Store :=
  match s.cursors[place]? with
  | none => (none, s)
  | some cursor =>
      let (item, cursor) := s.step cursor
      (item, { s with cursors := s.cursors.setIfInBounds place cursor })

end Store

end Resumable
