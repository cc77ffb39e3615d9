/-
  Resumable.Machine.State
  ───────────────────────
  **EVERYTHING A RUNNING PROGRAM TOUCHES.**

  The live frames, the globals, the store, the chain of hooks, the exception
  being handled and the printed lines.  `VmAction` is an action on it that can
  fail and keeps what it did before; `onFrame` does an action on the innermost
  frame.
-/
import Resumable.Config
import Resumable.Frame
import Resumable.EntryHooks
import Resumable.Value.Iteration
import Resumable.Value.Written

namespace Resumable

open Text

/-- The state of a virtual machine. -/
structure Vm where
  /-- The settings. -/
  config : Config := {}
  /-- The places of the program. -/
  store : Store := {}
  /-- The live frames, innermost first. -/
  frames : List Frame := []
  /-- The globals. -/
  globals : Bindings Value := []
  /-- The hooks. -/
  hooks : EntryHooks := {}
  /-- The hook of a resume in progress that no capture has met yet. -/
  armed : Option HookNumber := none
  /-- The exception being handled. -/
  handled : Option Value := none
  /-- The lines printed. -/
  output : Array String := #[]

/-- An action on a machine, which keeps what it did when it fails. -/
abbrev VmAction := EStateM Fault Vm

namespace Vm

/-! ## §1. New machines. -/

/-- The natives every program finds among its globals. -/
def natives : List Native :=
  [.capture, .resume, .len, .print, .range, .iter, .exception, .object]

/-- Make a native function a global of its name. -/
def defineNative (vm : Vm) (native : Native) : Vm :=
  let (f, store) := vm.store.makeBuiltin native
  { vm with store := store, globals := vm.globals.set native.name f }

/-- A machine with the given settings, before anything has run. -/
def new (config : Config) : Vm :=
  natives.foldl defineNative { config }

/-! ## §2. Frames. -/

/-- The number of live frames. -/
def depth (vm : Vm) : Nat :=
  vm.frames.length

/-- The index of the innermost frame. -/
def topIndex? (vm : Vm) : Option Nat :=
  if vm.depth = 0 then none else some (vm.depth - 1)

/-- The position in the list of live frames of the frame with an index; the
outermost has index zero. -/
def positionOf? (vm : Vm) (index : Nat) : Option Nat :=
  if index < vm.depth then some (vm.depth - 1 - index) else none

/-- The live frame with an index. -/
def frameAt? (vm : Vm) (index : Nat) : Option Frame :=
  (vm.positionOf? index).bind fun position => vm.frames[position]?

/-- The machine with another frame at an index. -/
def setFrame (vm : Vm) (index : Nat) (f : Frame) : Vm :=
  match vm.positionOf? index with
  | some position => { vm with frames := vm.frames.set position f }
  | none => vm

/-- The machine with a hook removed. -/
def removeHook (vm : Vm) (id : HookNumber) : Vm :=
  { vm with hooks := vm.hooks.remove id }

/-! ## §3. What a machine shows of itself. -/

/-- The machine in one line: its depth, its globals, its hooks and whether a
resume is armed. -/
def describe (vm : Vm) : String :=
  let hookNames := vm.hooks.entries.map fun e =>
    quoted (match e.hook with
      | some hook => hook.name
      | none => "<running>")
  "Interpreter \x7b depth: " ++ toString vm.depth ++ ", globals: "
    ++ toString vm.globals.length ++ ", hooks: HookChain \x7b hooks: ["
    ++ joined ", " hookNames ++ "] \x7d, resume_armed: " ++ toString vm.armed.isSome ++ " \x7d"

end Vm

/-! ## §4. Actions. -/

namespace VmAction

/-- Fail with an exception of the machine's own. -/
def raise {α : Type} (c : Cause) : VmAction α := do
  let vm ← get
  let (exc, store) := vm.store.makeException c.typeName c.message
  set { vm with store := store }
  throw (.exception exc)

/-- The value of a pure computation, or the exception it ends in. -/
def lift {α : Type} (r : Except Cause α) : VmAction α :=
  match r with
  | .ok a => pure a
  | .error c => raise c

/-- Do a computation on the store. -/
def onStore {α : Type} (x : Calc α) : VmAction α := do
  let vm ← get
  match x.run vm.store with
  | .ok (a, store) =>
      set { vm with store := store }
      pure a
  | .error c => raise c

/-- Do an action on the innermost frame. -/
def onFrame {α : Type} (action : FrameAction α) : VmAction α := fun vm =>
  match vm.frames with
  | [] => .error (.internal .noActiveFrame) vm
  | f :: rest =>
      match action f with
      | .ok a f => .ok a { vm with frames := f :: rest }
      | .error e f => .error e { vm with frames := f :: rest }

/-- The innermost frame. -/
def currentFrame : VmAction Frame :=
  onFrame get

/-- Fail with a breach. -/
def breach {α : Type} (b : Breach) : VmAction α :=
  throw (.internal b)

end VmAction

end Resumable
