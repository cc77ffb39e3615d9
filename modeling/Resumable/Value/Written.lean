/-
  Resumable.Value.Written
  ───────────────────────
  **THE WRITTEN FORMS OF A VALUE.**

  `repr` is what a value looks like inside another one and in a message, `text`
  what printing it shows: the same, except that a string stands for itself and
  an exception for what it says.  A container is written as deep as it is new
  (`Resumable.Proofs.ContainerDepth`).
-/
import Resumable.Text.Layout
import Resumable.Value.Store

namespace Resumable

open Text

mutual

/-- The written form of a value, given those of containers and continuations. -/
def Value.reprBy (container : Container → String) (continuation : Address → String) :
    Value → String
  | .none => "None"
  | .bool true => "True"
  | .bool false => "False"
  | .int i => toString i.toInt
  | .str s => "'" ++ s ++ "'"
  | .tuple [item] => "(" ++ Value.reprBy container continuation item ++ ",)"
  | .tuple items => "(" ++ joined ", " (itemsReprBy container continuation items) ++ ")"
  | .list place => container (.list place)
  | .dict place => container (.dict place)
  | .function f => "<function " ++ f.code.qualname ++ ">"
  | .builtin b => "<built-in function " ++ b.native.name ++ ">"
  | .object _ => "<object>"
  | .iterator _ => "<iterator>"
  | .exception e => e.typeName ++ "('" ++ e.message ++ "')"
  | .continuation place => continuation place

/-- The written forms of a sequence. -/
def itemsReprBy (container : Container → String) (continuation : Address → String) :
    List Value → List String
  | [] => []
  | item :: rest =>
      Value.reprBy container continuation item :: itemsReprBy container continuation rest

end

/-- The written form of a container that is left out. -/
def Container.elided : Container → String
  | .list _ => "[...]"
  | .dict _ => "\x7b...\x7d"

/-- The written form of a container, given those of the values it holds and the
keys they stand under. -/
def Container.bracketed (c : Container) (keys : Option (List String)) (values : List String) :
    String :=
  let entries := match keys with
    | none => values
    | some keys => keys.zipWith (fun key value => "'" ++ key ++ "': " ++ value) values
  match c with
  | .list _ => "[" ++ joined ", " entries ++ "]"
  | .dict _ => "\x7b" ++ joined ", " entries ++ "\x7d"

namespace Store

/-- The written form of a continuation: its number of frames. -/
def continuationRepr (s : Store) (place : Address) : String :=
  "<continuation depth=" ++ toString (s.continuation place).size ++ ">"

/-- The written form of a container inside others, following containers inside
containers `depth` deep; one inside itself is left out. -/
def containerRepr (s : Store) : Nat → List Container → Container → String
  | 0, _, c => c.elided
  | depth + 1, outer, c =>
      if c ∈ outer then c.elided
      else c.bracketed (s.keys? c)
        (itemsReprBy (s.containerRepr depth (c :: outer)) s.continuationRepr (s.held c))

/-- The written form of a value. -/
def repr (s : Store) (v : Value) : String :=
  v.reprBy (s.containerRepr (s.containers + 1) []) s.continuationRepr

/-- What printing a value shows. -/
def text (s : Store) : Value → String
  | .str t => t
  | .exception e => e.message
  | v => s.repr v

/-- The written form of a value for a reader of the machine: natives and
objects tell more about themselves. -/
def describe (s : Store) : Value → String
  | .builtin b => "BuiltinFunction \x7b name: " ++ quoted b.native.name ++ " \x7d"
  | .object place =>
      let o := s.object place
      "Instance \x7b attrs: " ++ toString o.attrs.length ++ ", has_class: "
        ++ toString (!o.lineage.isEmpty) ++ " \x7d"
  | v => s.repr v

end Store

end Resumable
