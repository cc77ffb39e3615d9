/-
  Resumable.EntryHooks
  ────────────────────
  **WHAT HAPPENS WHEN A FRAME IS ENTERED.**

  Hooks stand in a chain and see every new frame before its first instruction.
  A hook is out of its entry while it runs, so nothing it causes can start it
  again; one that was removed meanwhile is dropped when it returns.  Numbers
  are never given out twice.
-/
import Resumable.Continuation.Record

namespace Resumable

/-- The number of an installed hook. -/
abbrev HookNumber := Nat

/-- A hook. -/
inductive Hook where
  /-- Put records into the frames that are entered: the next one, then the rest. -/
  | rebuild (pending : List Record)
  /-- Ask whoever runs the machine, which knows the hook by a number. -/
  | host (name : String) (key : Nat)

namespace Hook

/-- The hook that rebuilds a continuation, from its outermost frame on. -/
def ofContinuation (k : Continuation) : Hook :=
  .rebuild k.records.reverse

/-- The name a hook is shown with. -/
def name : Hook → String
  | .rebuild _ => "continuation-resume"
  | .host name _ => name

end Hook

/-- What becomes of a hook that has run. -/
inductive HookVerdict where
  /-- It stays. -/
  | keep
  /-- It is removed. -/
  | remove
  deriving DecidableEq, Repr

/-- Where a new hook goes. -/
inductive HookPlace where
  /-- Before every other. -/
  | first
  /-- After every other. -/
  | last
  deriving DecidableEq, Repr

/-- An entry of the chain. -/
structure HookEntry where
  /-- The number of the hook. -/
  id : HookNumber
  /-- The hook, unless it is running. -/
  hook : Option Hook

/-- A chain of hooks. -/
structure EntryHooks where
  /-- The entries, in the order they run. -/
  entries : List HookEntry := []
  /-- The number of the next hook. -/
  nextId : HookNumber := 0

namespace EntryHooks

/-- Install a hook; answers its number. -/
def install (c : EntryHooks) (position : HookPlace) (hook : Hook) : HookNumber × EntryHooks :=
  let entry : HookEntry := ⟨c.nextId, some hook⟩
  let entries := match position with
    | .first => entry :: c.entries
    | .last => c.entries ++ [entry]
  (c.nextId, ⟨entries, c.nextId + 1⟩)

/-- Remove a hook, installed or running. -/
def remove (c : EntryHooks) (id : HookNumber) : EntryHooks :=
  { c with entries := c.entries.filter (fun e => e.id != id) }

/-- The numbers of the chain, in order. -/
def ids (c : EntryHooks) : List HookNumber :=
  c.entries.map HookEntry.id

/-- Whether a hook is in the chain. -/
def contains (c : EntryHooks) (id : HookNumber) : Bool :=
  c.entries.any (fun e => e.id == id)

/-- The chain with the entry of a number holding something else. -/
def withHook (c : EntryHooks) (id : HookNumber) (hook : Option Hook) : EntryHooks :=
  { c with entries := c.entries.map fun e => if e.id = id then { e with hook } else e }

/-- Take a hook out of its entry to run it; none if it is gone or running. -/
def start? (c : EntryHooks) (id : HookNumber) : Option (Hook × EntryHooks) :=
  match c.entries.find? (fun e => e.id == id) with
  | some ⟨_, some hook⟩ => some (hook, c.withHook id none)
  | _ => none

/-- Put a hook back after it has run; it is dropped if its entry is gone. -/
def finish (c : EntryHooks) (id : HookNumber) (hook : Hook) : EntryHooks :=
  c.withHook id (some hook)

/-! ## The numbers of a chain. -/

/-- What an entry holds does not change the numbers. -/
@[simp] theorem ids_withHook (c : EntryHooks) (id : HookNumber) (hook : Option Hook) :
    (c.withHook id hook).ids = c.ids := by
  simp only [ids, withHook, List.map_map]
  congr 1
  funext e
  simp only [Function.comp_apply]
  split <;> rfl

@[simp] theorem ids_finish (c : EntryHooks) (id : HookNumber) (hook : Hook) :
    (c.finish id hook).ids = c.ids :=
  ids_withHook c id (some hook)

/-- Removing a hook takes its number out and leaves the others in order. -/
@[simp] theorem ids_remove (c : EntryHooks) (id : HookNumber) :
    (c.remove id).ids = c.ids.filter (fun n => n != id) := by
  simp only [ids, remove, List.filter_map]
  rfl

@[simp] theorem ids_install_first (c : EntryHooks) (hook : Hook) :
    (c.install .first hook).2.ids = c.nextId :: c.ids := rfl

@[simp] theorem ids_install_last (c : EntryHooks) (hook : Hook) :
    (c.install .last hook).2.ids = c.ids ++ [c.nextId] := by
  simp [install, ids]

end EntryHooks

end Resumable
