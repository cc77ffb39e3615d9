/-
  Resumable.Machine.Run
  ─────────────────────
  **RUNNING A PROGRAM, ONE STEP AT A TIME.**

  A run is a machine, what it does next, and what waits for a result:

      loop      the innermost frame executes its next instruction
      call      a value is called
      enter     the hooks see the frame just entered
      atHook    a host hook runs outside
      atHost    a host function runs outside
      returned  a call has ended
      ended     an instruction executed on its own has ended
      brokenOff the whole program has broken off

  `step` is total and pure.  A run rests when nothing waits for its result, and
  when it waits for the world outside; `answerHook` and `answerHost` then set
  it going again.  While it waits, the machine may be used for other runs.  A
  program that has broken off never goes on.
-/
import Resumable.Call.Binding
import Resumable.Continuation.Reentry
import Resumable.Machine.Instructions
import Resumable.Machine.Natives

namespace Resumable

/-! ## §1. Runs. -/

/-- What waits for the result of a call. -/
inductive Pending where
  /-- A call instruction of a running frame; the result replaces its entries. -/
  | site (slots : Nat)
  /-- A call instruction executed on its own. -/
  | lone (slots : Nat)
  /-- A resume, whose hook goes when the rebuilt chain has ended. -/
  | resume (id : HookNumber)
  deriving DecidableEq, Repr

/-- What a run does next. -/
inductive Phase where
  /-- Execute the next instruction of the innermost frame. -/
  | loop
  /-- Call a value. -/
  | call (callee : Value) (args : Arguments)
  /-- Let the hooks with these numbers see the innermost frame. -/
  | enter (ids : List HookNumber)
  /-- Wait for a host hook, before the hooks with the numbers left. -/
  | atHook (id : HookNumber) (hook : Hook) (ids : List HookNumber)
  /-- Wait for a host function. -/
  | atHost (name : String) (args : Arguments)
  /-- Hand a result to what waits for it. -/
  | returned (result : Except Fault Value)
  /-- Nothing: an instruction executed on its own has ended. -/
  | ended (result : Except Fault Flow)
  /-- Nothing: the whole program has broken off. -/
  | brokenOff

/-- A run of a machine. -/
structure Run where
  /-- The machine. -/
  vm : Vm
  /-- What waits for results, the next one first. -/
  pending : List Pending := []
  /-- What happens next. -/
  phase : Phase

namespace Run

/-- Hand on a result. -/
def withResult (vm : Vm) (pending : List Pending) (result : Except Fault Value) : Run :=
  ⟨vm, pending, .returned result⟩

/-! ## §2. Entering and leaving frames. -/

/-- Enter a frame, unless there are as many as there may be. -/
def enterFrame (vm : Vm) (pending : List Pending) (f : Frame) : Run :=
  let limit := vm.config.frameLimit
  if limit ≤ vm.depth then withResult vm pending (.error (.frameLimit limit))
  else ⟨{ vm with frames := f :: vm.frames }, pending, .enter vm.hooks.ids⟩

/-- Leave the innermost frame with a result. -/
def leaveFrame (vm : Vm) (pending : List Pending) (result : Except Fault Value) : Run :=
  withResult { vm with frames := vm.frames.tail } pending result

/-! ## §3. Calls. -/

/-- Rebuild a continuation and run it.  A resume that is still armed gives way;
the hook of this one comes first in the chain. -/
def beginResume (vm : Vm) (pending : List Pending) (k : Continuation) : Run :=
  match k.outermost? with
  | none => withResult vm pending (.ok .none)
  | some outermost =>
      let vm := vm.dropArmed
      let (id, hooks) := vm.hooks.install .first (.ofContinuation k)
      let vm := { vm with hooks := hooks, armed := some id }
      enterFrame vm (.resume id :: pending) (.blank outermost.function vm.topIndex?)

/-- Call a value. -/
def beginCall (vm : Vm) (pending : List Pending) (callee : Value) (args : Arguments) : Run :=
  match callee with
  | .function f =>
      match VmAction.lift ((f.code.bind args).mapError .badArguments) vm with
      | .ok locals vm =>
          enterFrame vm pending (.ofLocals f vm.topIndex? locals.toList)
      | .error e vm => withResult vm pending (.error e)
  | .builtin b =>
      match callNative b.native args vm with
      | .ok (.value v) vm => withResult vm pending (.ok v)
      | .ok (.resume k) vm => beginResume vm pending k
      | .ok (.ask name) vm => ⟨vm, pending, .atHost name args⟩
      | .error e vm => withResult vm pending (.error e)
  | other =>
      match (VmAction.raise (.notCallable other.typeName) : VmAction Value) vm with
      | .ok v vm => withResult vm pending (.ok v)
      | .error e vm => withResult vm pending (.error e)

/-! ## §4. Hooks. -/

/-- What becomes of a hook that has run: it is kept or removed, and the next
one runs; a failure keeps it and ends the frame. -/
def hookEnded (vm : Vm) (pending : List Pending) (id : HookNumber) (hook : Hook)
    (ids : List HookNumber) (result : Except Fault HookVerdict) : Run :=
  match result with
  | .ok .keep => ⟨{ vm with hooks := vm.hooks.finish id hook }, pending, .enter ids⟩
  | .ok .remove => ⟨vm.removeHook id, pending, .enter ids⟩
  | .error e =>
      leaveFrame { vm with hooks := vm.hooks.finish id hook } pending (.error e)

/-- Put the next record into the innermost frame; after the last one the hook
is done. -/
def rebuildFrame (vm : Vm) (pending : List Pending) (id : HookNumber)
    (records : List Record) (ids : List HookNumber) : Run :=
  match records, vm.frames with
  | [], _ => hookEnded vm pending id (.rebuild []) ids (.ok .remove)
  | _ :: rest, [] =>
      hookEnded vm pending id (.rebuild rest) ids
        (.error (.internal (.missingFrame vm.depth)))
  | record :: rest, f :: outer =>
      match f.putRecord record with
      | .error e => hookEnded vm pending id (.rebuild rest) ids (.error (.continuation e))
      | .ok f =>
          hookEnded { vm with frames := f :: outer } pending id (.rebuild rest) ids
            (.ok (if rest.isEmpty then .remove else .keep))

/-- Let the next hook see the innermost frame; one that is gone or running is
passed over, and after the last one the frame starts. -/
def runHooks (vm : Vm) (pending : List Pending) : List HookNumber → Run
  | [] => ⟨vm, pending, .loop⟩
  | id :: ids =>
      match vm.hooks.start? id with
      | none => ⟨vm, pending, .enter ids⟩
      | some (hook, hooks) =>
          let vm := { vm with hooks := hooks }
          match hook with
          | .rebuild records => rebuildFrame vm pending id records ids
          | .host _ _ => ⟨vm, pending, .atHook id hook ids⟩

/-! ## §5. Instructions. -/

/-- Send an exception to a handler of the innermost frame, or leave the frame. -/
def raiseInFrame (vm : Vm) (pending : List Pending) (exc : Value) : Run :=
  match unwind exc vm with
  | .ok () vm => ⟨vm, pending, .loop⟩
  | .error e vm => leaveFrame vm pending (.error e)

/-- Go on where an instruction tells the innermost frame to. -/
def follow (vm : Vm) (pending : List Pending) (result : Except Fault Flow) : Run :=
  match result with
  | .ok .next => ⟨vm, pending, .loop⟩
  | .ok (.jump target) =>
      match VmAction.onFrame (modify fun f => { f with next := target }) vm with
      | .ok () vm => ⟨vm, pending, .loop⟩
      | .error e vm => leaveFrame vm pending (.error e)
  | .ok (.return value) => leaveFrame vm pending (.ok value)
  | .ok (.raise exc) => raiseInFrame vm pending exc
  | .error (.exception exc) => raiseInFrame vm pending exc
  | .error e => leaveFrame vm pending (.error e)

/-- Execute an instruction in the innermost frame. -/
def perform (vm : Vm) (pending : List Pending) (i : Instruction) : Run :=
  match execute i vm with
  | .ok (.flow flow) vm => follow vm pending (.ok flow)
  | .ok (.call request) vm =>
      ⟨vm, .site request.slots :: pending, .call request.callee request.args⟩
  | .ok .breakOff vm => ⟨vm, pending, .brokenOff⟩
  | .error e vm => follow vm pending (.error e)

/-- Fetch and execute the next instruction; past the end of its body a frame
returns the absent value. -/
def stepFrame (vm : Vm) (pending : List Pending) : Run :=
  match vm.frames with
  | [] => withResult vm pending (.error (.internal .noActiveFrame))
  | f :: _ =>
      if f.isDone then leaveFrame vm pending (.ok .none)
      else
        match VmAction.onFrame FrameAction.fetch vm with
        | .ok i vm => perform vm pending i
        | .error e vm => leaveFrame vm pending (.error e)

/-! ## §6. Results. -/

/-- The flow of a call instruction whose call has ended. -/
def siteFlow (vm : Vm) (slots : Nat) (result : Except Fault Value) : Except Fault Flow × Vm :=
  match result with
  | .error e => (.error e, vm)
  | .ok v =>
      match finishCall slots v vm with
      | .ok () vm => (.ok .next, vm)
      | .error e vm => (.error e, vm)

/-- The machine after the resume that installed a hook. -/
def endResume (vm : Vm) (id : HookNumber) : Vm :=
  let vm := if vm.armed = some id then { vm with armed := none } else vm
  vm.removeHook id

/-- Hand a result to what waits for it. -/
def deliver (vm : Vm) (waiting : Pending) (pending : List Pending)
    (result : Except Fault Value) : Run :=
  match waiting with
  | .site slots => let (flow, vm) := siteFlow vm slots result; follow vm pending flow
  | .lone slots => let (flow, vm) := siteFlow vm slots result; ⟨vm, pending, .ended flow⟩
  | .resume id => withResult (endResume vm id) pending result

/-! ## §7. Steps. -/

/-- One step of a run; none when it rests. -/
def step (r : Run) : Option Run :=
  match r.phase with
  | .loop => some (stepFrame r.vm r.pending)
  | .call callee args => some (beginCall r.vm r.pending callee args)
  | .enter ids => some (runHooks r.vm r.pending ids)
  | .atHook _ _ _ => none
  | .atHost _ _ => none
  | .returned result =>
      match r.pending with
      | [] => none
      | waiting :: pending => some (deliver r.vm waiting pending result)
  | .ended _ => none
  | .brokenOff => none

/-- At most `fuel` steps of a run. -/
def steps : Nat → Run → Run
  | 0, r => r
  | fuel + 1, r =>
      match r.step with
      | none => r
      | some r => steps fuel r

/-- A run that rests stays where it is. -/
theorem steps_of_step_eq_none {r : Run} (h : r.step = none) (n : Nat) : steps n r = r := by
  cases n with
  | zero => rfl
  | succ n => simp only [steps, h]

theorem steps_succ_of_step {r s : Run} (h : r.step = some s) (n : Nat) :
    steps (n + 1) r = steps n s := by
  simp only [steps, h]

/-- Steps taken in two parts are the steps taken at once. -/
theorem steps_add (m n : Nat) (r : Run) : steps (m + n) r = steps n (steps m r) := by
  induction m generalizing r with
  | zero => rw [Nat.zero_add]; rfl
  | succ m ih =>
      cases h : r.step with
      | none => rw [steps_of_step_eq_none h, steps_of_step_eq_none h, steps_of_step_eq_none h]
      | some s => rw [Nat.succ_add, steps_succ_of_step h, steps_succ_of_step h, ih]

/-- Go on after a host hook, with the machine as it left it. -/
def answerHook (r : Run) (vm : Vm) (result : Except Fault HookVerdict) : Run :=
  match r.phase with
  | .atHook id hook ids => hookEnded vm r.pending id hook ids result
  | _ => r

/-- Go on after a host function, with the machine as it left it. -/
def answerHost (r : Run) (vm : Vm) (result : Except Fault Value) : Run :=
  match r.phase with
  | .atHost _ _ => withResult vm r.pending result
  | _ => r

/-! ## §8. Starting. -/

/-- Run a frame. -/
def ofFrame (vm : Vm) (f : Frame) : Run :=
  enterFrame vm [] f

/-- Run a body that takes no arguments. -/
def ofCode (vm : Vm) (code : Code) : Run :=
  let (f, store) := vm.store.makeFunction code
  enterFrame { vm with store := store } [] (.blank f vm.topIndex?)

/-- Call a value. -/
def ofCall (vm : Vm) (callee : Value) (args : Arguments) : Run :=
  ⟨vm, [], .call callee args⟩

/-- Call a global. -/
def ofGlobal (vm : Vm) (name : String) (args : Arguments) : Run :=
  match vm.globals.find? name with
  | some callee => ofCall vm callee args
  | none =>
      match (VmAction.raise (.undefinedName name) : VmAction Value) vm with
      | .ok v vm => withResult vm [] (.ok v)
      | .error e vm => withResult vm [] (.error e)

/-- Rebuild a continuation on top of the live frames and run it. -/
def ofContinuation (vm : Vm) (k : Continuation) : Run :=
  beginResume vm [] k

/-- Execute one instruction in the innermost frame, and nothing after it. -/
def ofInstruction (vm : Vm) (i : Instruction) : Run :=
  match execute i vm with
  | .ok (.flow flow) vm => ⟨vm, [], .ended (.ok flow)⟩
  | .ok (.call request) vm =>
      ⟨vm, [.lone request.slots], .call request.callee request.args⟩
  | .ok .breakOff vm => ⟨vm, [], .brokenOff⟩
  | .error e vm => ⟨vm, [], .ended (.error e)⟩

end Run

end Resumable
