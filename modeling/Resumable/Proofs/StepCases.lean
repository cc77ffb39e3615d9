/-
  Resumable.Proofs.StepCases
  ──────────────────────────
  **WHAT ONE STEP OF A RUN CAN DO.**

  Every proof about runs splits on the same few ways to get from one state to
  the next, so they are told once:

      works     work in the innermost frame
      leaves    the innermost frame is left
      asks      the innermost frame fetches a call instruction and asks for its call
      enters    a function is called
      resumes   a continuation is resumed
      meets     a capture is called
      hooked    the next hook sees the frame just entered
      ends      a resume has ended

  Main result: `change_of_step` (there is no other way).
-/
import Resumable.Proofs.CallSite

namespace Resumable

open VmAction

/-! ## §1. What an instruction asks for. -/

theorem andNext_ok {action : VmAction Unit} {vm vm' : Vm} {outcome : Outcome}
    (h : andNext action vm = .ok outcome vm') : outcome = .flow .next := by
  obtain ⟨_, _, -, h⟩ := action_bind_ok.mp h
  exact (action_pure_ok.mp h).1

/-- An action that asks for nothing: if it ends well, the frame goes on. -/
def Flows (x : VmAction Outcome) : Prop :=
  ∀ vm outcome vm', x vm = .ok outcome vm' → ∃ flow, outcome = .flow flow

theorem flows_pure (flow : Flow) : Flows (pure (.flow flow)) :=
  fun _ _ _ h => ⟨flow, (action_pure_ok.mp h).1⟩

theorem flows_raise (c : Cause) : Flows (raise c) :=
  fun _ _ _ h => nomatch h

/-- What comes last decides. -/
theorem Flows.bind {α : Type} {x : VmAction α} {f : α → VmAction Outcome}
    (h : ∀ a, Flows (f a)) : Flows (x >>= f) := by
  intro vm outcome vm' hx
  obtain ⟨a, u, -, hf⟩ := action_bind_ok.mp hx
  exact h a u outcome vm' hf

theorem flows_andNext (action : VmAction Unit) : Flows (andNext action) :=
  Flows.bind fun _ => flows_pure .next

theorem flows_jumpIf (wanted : Bool) (target : Nat) : Flows (jumpIf wanted target) :=
  Flows.bind fun _ => Flows.bind fun _ => flows_pure _

theorem flows_loopHead (exit : Nat) : Flows (loopHead exit) := by
  refine Flows.bind fun item => ?_
  split
  · exact Flows.bind fun _ => flows_pure _
  · exact Flows.bind fun _ => flows_pure _

theorem flows_raiseTop : Flows raiseTop := by
  refine Flows.bind fun v => ?_
  split
  · exact flows_pure _
  · exact flows_raise _

/-- Only calls and products ask for more. -/
theorem flows_execute {i : Instruction} (hcall : i.opcode.isCall = false)
    (hproduct : i.opcode ≠ .binaryMultiply) : Flows (execute i) := by
  unfold execute
  revert hcall hproduct
  cases i.opcode <;> intro hcall hproduct <;> first
    | exact flows_andNext _
    | exact flows_pure _
    | exact flows_jumpIf _ _
    | exact flows_loopHead _
    | exact flows_raiseTop
    | exact Flows.bind fun _ => flows_pure _
    | exact absurd rfl hproduct
    | exact nomatch hcall

/-- What comes of a product: it is pushed, or there is none. -/
theorem execute_product_ok {i : Instruction} {vm vm' : Vm} {outcome : Outcome}
    (hop : i.opcode = .binaryMultiply) (h : execute i vm = .ok outcome vm') :
    ∃ left right u, onFrame operands vm = .ok (left, right) u
      ∧ (outcome = .flow .next ∨ (outcome = .breakOff ∧ vm' = u ∧ multiply left right = none)) := by
  obtain ⟨offset, opcode, arg⟩ := i
  subst hop
  obtain ⟨⟨left, right⟩, u, htaken, h⟩ := action_bind_ok.mp h
  replace h : pushProduct left right u = .ok outcome vm' := h
  refine ⟨left, right, u, htaken, ?_⟩
  unfold pushProduct at h
  cases hproduct : multiply left right with
  | none =>
      rw [hproduct] at h
      obtain ⟨rfl, rfl⟩ := action_pure_ok.mp h
      exact .inr ⟨rfl, rfl, rfl⟩
  | some product =>
      rw [hproduct] at h
      exact .inl (andNext_ok h)

/-- An instruction that asks for a call is a call instruction. -/
theorem execute_call_ok {i : Instruction} {vm vm' : Vm} {req : CallRequest}
    (h : execute i vm = .ok (.call req) vm') :
    i.opcode.isCall = true ∧ callRequest i vm = .ok req vm' := by
  cases hc : i.opcode.isCall with
  | false =>
      by_cases hproduct : i.opcode = .binaryMultiply
      · obtain ⟨-, -, -, -, hnext | ⟨hbreak, -⟩⟩ := execute_product_ok hproduct h
        · exact nomatch hnext
        · exact nomatch hbreak
      · exact nomatch flows_execute hc hproduct _ _ _ h
  | true =>
      rw [execute_of_isCall hc] at h
      obtain ⟨req', u, hreq, hpure⟩ := action_bind_ok.mp h
      obtain ⟨hout, rfl⟩ := action_pure_ok.mp hpure
      obtain rfl := Outcome.call.inj hout
      exact ⟨rfl, hreq⟩

/-- One that breaks off has taken two operands whose product is too long. -/
theorem execute_breakOff_ok {i : Instruction} {vm vm' : Vm}
    (h : execute i vm = .ok .breakOff vm') :
    ∃ left right, onFrame operands vm = .ok (left, right) vm' ∧ multiply left right = none := by
  cases hc : i.opcode.isCall with
  | false =>
      by_cases hproduct : i.opcode = .binaryMultiply
      · obtain ⟨left, right, u, htaken, hnext | ⟨-, rfl, hnone⟩⟩ := execute_product_ok hproduct h
        · exact nomatch hnext
        · exact ⟨left, right, htaken, hnone⟩
      · exact nomatch flows_execute hc hproduct _ _ _ h
  | true =>
      rw [execute_of_isCall hc] at h
      obtain ⟨req', u, -, hpure⟩ := action_bind_ok.mp h
      exact nomatch (action_pure_ok.mp hpure).1

/-! ## §2. Natives. -/

/-- A capture leaves the frames alone and meets the resume that is armed, if it
gets that far. -/
theorem VmAction.keeps_callCapture (args : Arguments) :
    Keeps (fun vm vm' => vm.Works vm' ∨ vm.dropArmed.Works vm') (callNative .capture args) := by
  intro vm
  have hlift := Vm.Works.steady.keeps_lift (args.requirePositional "capture" 0 0) vm
  unfold stateAfter callNative at *
  simp only [bind, EStateM.bind]
  cases hl : lift (args.requirePositional "capture" 0 0) vm with
  | error e u =>
      rw [hl] at hlift
      exact .inl hlift
  | ok a u =>
      obtain ⟨-, rfl⟩ := lift_ok.mp hl
      cases harmed : u.armed with
      | none =>
          left
          simp only [capture, bind, EStateM.bind, get, getThe, MonadStateOf.get, EStateM.get,
            harmed]
          cases u.liveContinuation with
          | error e => exact Vm.Works.refl u
          | ok k => exact Vm.Works.steady.keeps_onStore (modifyGet fun s => s.makeContinuation k) u
      | some id =>
          right
          simp only [capture, bind, EStateM.bind, get, getThe, MonadStateOf.get, EStateM.get,
            harmed]
          exact Vm.Works.steady.keeps_onStore (modifyGet fun s => s.makeContinuation {}) u.dropArmed

theorem simpleNative_ok {native : Native} {least most : Nat} {args : Arguments}
    {compute : List Value → Calc Value} {vm vm' : Vm} {outcome : NativeOutcome}
    (h : simpleNative native least most args compute vm = .ok outcome vm') :
    ∃ v, outcome = .value v := by
  obtain ⟨positional, u, -, h⟩ := action_bind_ok.mp h
  obtain ⟨v, w, -, h⟩ := action_bind_ok.mp h
  exact ⟨v, (action_pure_ok.mp h).1⟩

/-- A native that has a continuation to run is a resume of it. -/
theorem callNative_resume_ok {native : Native} {args : Arguments} {vm vm' : Vm}
    {k : Continuation} (h : callNative native args vm = .ok (.resume k) vm') :
    native = .resume ∧ vm' = vm ∧ ∃ place rest,
      args.requirePositional "resume" 1 1 = .ok (.continuation place :: rest)
        ∧ k = vm.store.continuation place := by
  cases native with
  | resume =>
      obtain ⟨positional, u, hl, h⟩ := action_bind_ok.mp h
      obtain ⟨hpos, rfl⟩ := lift_ok.mp hl
      cases positional with
      | nil => exact nomatch h
      | cons v rest =>
          cases v with
          | continuation place =>
              obtain ⟨u', w, hget, h⟩ := action_bind_ok.mp h
              obtain ⟨rfl, rfl⟩ := action_get_ok.mp hget
              obtain ⟨hk, rfl⟩ := action_pure_ok.mp h
              exact ⟨rfl, rfl, place, rest, hpos, NativeOutcome.resume.inj hk⟩
          | _ => exact nomatch h
  | capture =>
      obtain ⟨_, _, -, h⟩ := action_bind_ok.mp h
      obtain ⟨_, _, -, h⟩ := action_bind_ok.mp h
      obtain ⟨_, _, -, h⟩ := action_bind_ok.mp h
      exact nomatch (action_pure_ok.mp h).1
  | print =>
      obtain ⟨_, _, -, h⟩ := action_bind_ok.mp h
      exact nomatch (action_pure_ok.mp h).1
  | host name => exact nomatch (action_pure_ok.mp h).1
  | len | range | iter | exception | object | append | pop =>
      obtain ⟨v, hv⟩ := simpleNative_ok h
      exact nomatch hv

/-! ## §3. Steps. -/

/-- A phase in which nothing is called or entered. -/
def Phase.isQuiet : Phase → Bool
  | .loop | .atHost _ _ | .returned _ | .ended _ | .brokenOff => true
  | .call _ _ | .enter _ | .atHook _ _ _ => false

/-- Whether a value is called. -/
def Phase.isCall : Phase → Bool
  | .call _ _ => true
  | _ => false

/-- Whether the innermost frame waits for the result of its call. -/
def Phase.isInCall : Phase → Bool
  | .call _ _ | .atHost _ _ | .returned _ => true
  | _ => false

/-- The innermost frame is gone and nothing else has changed for hooks and resumes. -/
structure Vm.Leaves (vm vm' : Vm) : Prop where
  frames_eq : vm'.frames = vm.frames.tail
  hooks_eq : vm'.hooks = vm.hooks
  armed_eq : vm'.armed = vm.armed

theorem Frame.SameTop.tail_eq {fs gs : List Frame} (h : SameTop fs gs) : gs.tail = fs.tail := by
  cases fs with
  | nil =>
      cases gs with
      | nil => rfl
      | cons g gs => exact h.elim
  | cons f fs =>
      obtain ⟨g, -, rfl⟩ := cons_iff.mp h
      rfl

@[simp] theorem Vm.frames_dropArmed (vm : Vm) : vm.dropArmed.frames = vm.frames := by
  unfold dropArmed
  split <;> rfl

@[simp] theorem Vm.store_dropArmed (vm : Vm) : vm.dropArmed.store = vm.store := by
  unfold dropArmed
  split <;> rfl

@[simp] theorem Vm.config_dropArmed (vm : Vm) : vm.dropArmed.config = vm.config := by
  unfold dropArmed
  split <;> rfl

@[simp] theorem Vm.depth_dropArmed (vm : Vm) : vm.dropArmed.depth = vm.depth := by
  rw [depth, frames_dropArmed, depth]

/-- The machine on which records are going to be put into the frames entered:
a resume still armed has given way to a hook of their own. -/
def Vm.rebuilding (vm : Vm) (records : List Record) : Vm :=
  { vm.dropArmed with
    hooks := (vm.dropArmed.hooks.install .first (.rebuild records)).2
    armed := some vm.dropArmed.hooks.nextId }

@[simp] theorem Vm.frames_rebuilding (vm : Vm) (records : List Record) :
    (vm.rebuilding records).frames = vm.frames :=
  vm.frames_dropArmed

namespace Run

/-- A resume enters a blank frame for the outermost record. -/
theorem beginResume_eq {k : Continuation} {outermost : Record}
    (h : k.outermost? = some outermost) (vm : Vm) (pending : List Pending) :
    beginResume vm pending k =
      enterFrame (vm.rebuilding k.records.reverse)
        (.resume vm.dropArmed.hooks.nextId :: pending)
        (.blank outermost.function (vm.rebuilding k.records.reverse).topIndex?) := by
  unfold beginResume
  rw [h]
  rfl

/-- The chain of hooks of a resume with records left; after the last one the
hook is gone. -/
def rebuildEntries (id : HookNumber) : List Record → List HookEntry
  | [] => []
  | records => [⟨id, some (.rebuild records)⟩]

/-- The turn of a resume's hook that is alone in the chain: the next record goes
into the innermost frame, or the frame fails. -/
theorem runHooks_turn {vm : Vm} {f : Frame} {rest : List Frame} {id next : HookNumber}
    {record : Record} {records : List Record} (pending : List Pending)
    (hframes : vm.frames = f :: rest)
    (hhooks : vm.hooks = ⟨[⟨id, some (.rebuild (record :: records))⟩], next⟩) :
    runHooks vm pending [id] =
      match f.putRecord record with
      | .ok g =>
          ⟨{ vm with frames := g :: rest, hooks := ⟨rebuildEntries id records, next⟩ }, pending,
            .enter []⟩
      | .error e =>
          ⟨{ vm with frames := rest, hooks := ⟨[⟨id, some (.rebuild records)⟩], next⟩ }, pending,
            .returned (.error (.continuation e))⟩ := by
  simp only [runHooks, hhooks, EntryHooks.start?, List.find?_cons, beq_self_eq_true, rebuildFrame,
    hframes]
  cases f.putRecord record with
  | error e => simp [hookEnded, leaveFrame, withResult, EntryHooks.withHook, EntryHooks.finish]
  | ok g =>
      cases records with
      | nil => simp [hookEnded, rebuildEntries, EntryHooks.withHook, Vm.removeHook, EntryHooks.remove]
      | cons record rest =>
          simp [hookEnded, rebuildEntries, EntryHooks.withHook, EntryHooks.finish]

/-- Its turn with no record left. -/
theorem runHooks_turn_nil {vm : Vm} {id next : HookNumber} (pending : List Pending)
    (hhooks : vm.hooks = ⟨[⟨id, some (.rebuild [])⟩], next⟩) :
    runHooks vm pending [id] = ⟨vm.removeHook id, pending, .enter []⟩ := by
  simp only [runHooks, hhooks, EntryHooks.start?, List.find?_cons, beq_self_eq_true, rebuildFrame,
    hookEnded]
  simp [Vm.removeHook, EntryHooks.withHook, EntryHooks.remove, hhooks]

theorem depth_hookEnded (vm : Vm) (pending : List Pending) (id : HookNumber) (hook : Hook)
    (ids : List HookNumber) (result : Except Fault HookVerdict) :
    (hookEnded vm pending id hook ids result).vm.depth ≤ vm.depth := by
  unfold hookEnded
  split
  · exact Nat.le_refl _
  · exact Nat.le_refl _
  · show vm.frames.tail.length ≤ vm.frames.length
    rw [List.length_tail]
    exact Nat.sub_le _ _

theorem depth_rebuildFrame (vm : Vm) (pending : List Pending) (id : HookNumber)
    (records : List Record) (ids : List HookNumber) :
    (rebuildFrame vm pending id records ids).vm.depth ≤ vm.depth := by
  unfold rebuildFrame
  split
  · exact depth_hookEnded ..
  · exact depth_hookEnded ..
  · next record left f outer hframes =>
      split
      · exact depth_hookEnded ..
      · next g _ =>
          refine Nat.le_trans (depth_hookEnded ..) ?_
          show (g :: outer).length ≤ vm.frames.length
          rw [hframes]
          exact Nat.le_refl _

/-- Hooks enter no frame of their own. -/
theorem depth_runHooks (vm : Vm) (pending : List Pending) (ids : List HookNumber) :
    (runHooks vm pending ids).vm.depth ≤ vm.depth := by
  unfold runHooks
  split
  · exact Nat.le_refl _
  · split
    · exact Nat.le_refl _
    · next hook hooks _ =>
        cases hook with
        | host name key => exact Nat.le_refl _
        | rebuild records =>
            exact depth_rebuildFrame { vm with hooks := hooks } pending _ records _

/-- A host hook has ended: its turn ends. -/
theorem answerHook_eq {r : Run} {id : HookNumber} {hook : Hook} {ids : List HookNumber}
    (h : r.phase = .atHook id hook ids) (vm : Vm) (result : Except Fault HookVerdict) :
    r.answerHook vm result = hookEnded vm r.pending id hook ids result := by
  unfold answerHook
  rw [h]

/-- A host function has ended: its result is handed on. -/
theorem answerHost_eq {r : Run} {name : String} {args : Arguments} (h : r.phase = .atHost name args)
    (vm : Vm) (result : Except Fault Value) :
    r.answerHost vm result = withResult vm r.pending result := by
  unfold answerHost
  rw [h]

@[simp] theorem frames_endResume (vm : Vm) (id : HookNumber) :
    (endResume vm id).frames = vm.frames := by
  unfold endResume
  split <;> rfl

/-- What waits for results once the result at hand, if there is one, is handed on. -/
def waiting (r : Run) : List Pending :=
  match r.phase with
  | .returned _ => r.pending.tail
  | _ => r.pending

/-- The ways from one state of a run to the next. -/
inductive Change (r s : Run) : Prop
  /-- Work in the innermost frame, or none. -/
  | works (work : r.vm.Works s.vm) (quiet : s.phase.isQuiet = true)
      (turn : s.phase.isInCall = r.phase.isCall ∨ r.vm.frames = []) (waits : s.pending = r.waiting)
  /-- The innermost frame is left. -/
  | leaves {result : Except Fault Value} (left : r.vm.Leaves s.vm)
      (phase_eq : s.phase = .returned result) (turn : r.phase.isCall = false)
      (waits : s.pending = r.waiting)
  /-- The innermost frame fetches a call instruction and asks for its call. -/
  | asks {f : Frame} {rest : List Frame} {i : Instruction} {req : CallRequest}
      {slots : List (Option Value)} (phase_eq : r.phase = .loop)
      (frames_eq : r.vm.frames = f :: rest) (decodes : decodeAt f.code.bytes f.next = .ok i)
      (isCall : i.opcode.isCall = true) (slots_eq : f.topSlots i.callSize = .ok slots)
      (reads : i.ReadsAs r.vm.store slots req)
      (run_eq : s = ⟨{ r.vm with frames := f.fetched i :: rest },
        .site req.slots :: r.pending, .call req.callee req.args⟩)
  /-- A function is called. -/
  | enters {fn : Function} {args : Arguments} {locals : Slots}
      (phase_eq : r.phase = .call (.function fn) args) (bound : fn.code.bind args = .ok locals)
      (run_eq : s = enterFrame r.vm r.pending (.ofLocals fn r.vm.topIndex? locals.toList))
  /-- A continuation is resumed. -/
  | resumes {b : Builtin} {args : Arguments} {place : Address} {others : List Value}
      (phase_eq : r.phase = .call (.builtin b) args) (native_eq : b.native = .resume)
      (positional : args.requirePositional "resume" 1 1 = .ok (.continuation place :: others))
      (run_eq : s = beginResume r.vm r.pending (r.vm.store.continuation place))
  /-- A capture meets the resume that is armed, if any. -/
  | meets {b : Builtin} {args : Arguments} {result : Except Fault Value}
      (phase_eq : r.phase = .call (.builtin b) args) (native_eq : b.native = .capture)
      (met : r.vm.dropArmed.Works s.vm) (returned : s.phase = .returned result)
      (waits : s.pending = r.pending)
  /-- The next hook sees the frame just entered. -/
  | hooked {ids : List HookNumber} (phase_eq : r.phase = .enter ids)
      (run_eq : s = runHooks r.vm r.pending ids)
  /-- A resume has ended. -/
  | ends {id : HookNumber} {result : Except Fault Value} (vm_eq : s.vm = endResume r.vm id)
      (returned : s.phase = .returned result) (waited : r.pending = .resume id :: s.pending)

/-- Leaving a frame after work in it. -/
theorem leaves_leaveFrame {vm vm' : Vm} (h : vm.Works vm') (pending : List Pending)
    (result : Except Fault Value) : vm.Leaves (leaveFrame vm' pending result).vm :=
  ⟨h.frames.tail_eq, h.hooks_eq, h.armed_eq⟩

/-- Where a flow leads: on in the frame, or out of it. -/
theorem follow_cases {vm vm' : Vm} (h : vm.Works vm') (pending : List Pending)
    (result : Except Fault Flow) :
    (vm.Works (follow vm' pending result).vm ∧ (follow vm' pending result).phase = .loop) ∨
      ∃ result', vm.Leaves (follow vm' pending result).vm
        ∧ (follow vm' pending result).phase = .returned result' := by
  have hraise (exc : Value) :
      (vm.Works (raiseInFrame vm' pending exc).vm ∧ (raiseInFrame vm' pending exc).phase = .loop) ∨
        ∃ result', vm.Leaves (raiseInFrame vm' pending exc).vm
          ∧ (raiseInFrame vm' pending exc).phase = .returned result' := by
    unfold raiseInFrame
    cases hu : unwind exc vm' with
    | ok a u => exact .inl ⟨h.trans ((keeps_unwind exc).of_ok hu), rfl⟩
    | error e u =>
        exact .inr ⟨_, leaves_leaveFrame (h.trans ((keeps_unwind exc).of_error hu)) _ _, rfl⟩
  cases result with
  | error e =>
      cases e with
      | exception exc => exact hraise exc
      | _ => exact .inr ⟨_, leaves_leaveFrame h _ _, rfl⟩
  | ok flow =>
      cases flow with
      | next => exact .inl ⟨h, rfl⟩
      | jump target =>
          unfold follow
          dsimp only
          cases hu : onFrame (modify fun f => { f with next := target }) vm' with
          | ok a u => exact .inl ⟨h.trans ((keeps_jump target).of_ok hu), rfl⟩
          | error e u =>
              exact .inr ⟨_, leaves_leaveFrame (h.trans ((keeps_jump target).of_error hu)) _ _,
                rfl⟩
      | «return» value => exact .inr ⟨_, leaves_leaveFrame h _ _, rfl⟩
      | raise exc => exact hraise exc

theorem pending_raiseInFrame (vm : Vm) (pending : List Pending) (exc : Value) :
    (raiseInFrame vm pending exc).pending = pending := by
  unfold raiseInFrame
  cases unwind exc vm <;> rfl

/-- What waits for the innermost frame goes on waiting. -/
theorem pending_follow (vm : Vm) (pending : List Pending) (result : Except Fault Flow) :
    (follow vm pending result).pending = pending := by
  cases result with
  | error e =>
      cases e with
      | exception exc => exact pending_raiseInFrame vm pending exc
      | _ => rfl
  | ok flow =>
      cases flow with
      | next => rfl
      | jump target =>
          unfold follow
          dsimp only
          cases onFrame (modify fun f => { f with next := target }) vm <;> rfl
      | «return» value => rfl
      | raise exc => exact pending_raiseInFrame vm pending exc

theorem change_of_follow {r s : Run} {vm : Vm} {pending : List Pending}
    {result : Except Fault Flow} (h : r.vm.Works vm) (hturn : r.phase.isCall = false)
    (hwaits : r.waiting = pending) (hs : follow vm pending result = s) : r.Change s := by
  subst hs
  have hpending := (pending_follow vm pending result).trans hwaits.symm
  obtain ⟨hw, hphase⟩ | ⟨result', hl, hphase⟩ := follow_cases h pending result
  · refine .works hw ?_ (.inl ?_) hpending
    · rw [hphase]
      rfl
    · rw [hphase, hturn]
      rfl
  · exact .leaves hl hphase hturn hpending

/-- The next instruction of the innermost frame. -/
theorem change_of_stepFrame {r s : Run} (hphase : r.phase = .loop)
    (hs : stepFrame r.vm r.pending = s) : r.Change s := by
  have hturn : r.phase.isCall = false := by
    rw [hphase]
    rfl
  have hwaits : r.waiting = r.pending := by
    rw [waiting, hphase]
  unfold stepFrame at hs
  cases hf : r.vm.frames with
  | nil =>
      rw [hf] at hs
      subst hs
      exact .works (Vm.Works.refl _) rfl (.inr hf) hwaits.symm
  | cons f rest =>
      rw [hf] at hs
      dsimp only at hs
      split at hs
      · subst hs
        exact .leaves (leaves_leaveFrame (Vm.Works.refl _) _ _) rfl hturn hwaits.symm
      · cases hi : decodeAt f.code.bytes f.next with
        | error e =>
            rw [fetch_of_decodeAt_error hf hi] at hs
            subst hs
            refine .leaves ⟨?_, rfl, rfl⟩ rfl hturn hwaits.symm
            rw [hf]
            rfl
        | ok i =>
            rw [fetch_of_decodeAt hf hi] at hs
            -- fetching moves the place in the body, which is work already
            have hwork : r.vm.Works { r.vm with frames := f.fetched i :: rest } :=
              ⟨hf ▸ ⟨⟨rfl, rfl, rfl⟩, rfl⟩, rfl, rfl⟩
            simp only [perform] at hs
            cases he : execute i { r.vm with frames := f.fetched i :: rest } with
            | error e u =>
                rw [he] at hs
                exact change_of_follow (hwork.trans ((keeps_execute i).of_error he)) hturn hwaits hs
            | ok outcome u =>
                rw [he] at hs
                cases outcome with
                | flow flow =>
                    exact change_of_follow (hwork.trans ((keeps_execute i).of_ok he)) hturn hwaits hs
                | call req =>
                    obtain ⟨hc, hreq⟩ := execute_call_ok he
                    obtain ⟨rfl, slots, hslots, hr⟩ := (callRequest_ok rfl).mp hreq
                    exact .asks hphase hf hi hc
                      (Frame.topSlots_ok_congr (f := f.fetched i) (g := f) rfl rfl hslots) hr hs.symm
                | breakOff =>
                    subst hs
                    exact .works (hwork.trans ((keeps_execute i).of_ok he)) rfl (.inl hturn.symm)
                      hwaits.symm

/-- A call. -/
theorem change_of_beginCall {r s : Run} {callee : Value} {args : Arguments}
    (hphase : r.phase = .call callee args) (hs : beginCall r.vm r.pending callee args = s) :
    r.Change s := by
  have hwaits : r.pending = r.waiting := by
    rw [waiting, hphase]
  -- whatever ends in this step without a frame has worked on data only
  have hworks {vm : Vm} {phase : Phase} (hw : r.vm.Works vm) (hquiet : phase.isQuiet = true)
      (hin : phase.isInCall = true) : r.Change ⟨vm, r.pending, phase⟩ := by
    refine .works hw hquiet (.inl ?_) hwaits
    rw [hphase]
    exact hin
  unfold beginCall at hs
  split at hs
  · next fn =>
      cases hb : fn.code.bind args with
      | ok locals =>
          rw [hb] at hs
          exact .enters hphase hb hs.symm
      | error e =>
          rw [hb] at hs
          subst hs
          exact hworks (Vm.Works.steady.keeps_raise (α := Slots) (.badArguments e) r.vm) rfl rfl
  · next b =>
      cases hn : callNative b.native args r.vm with
      | error e u =>
          rw [hn] at hs
          subst hs
          by_cases hc : b.native = .capture
          · rw [hc] at hn
            obtain hw | hw := (keeps_callCapture args).of_error hn
            · exact hworks hw rfl rfl
            · exact .meets hphase hc hw rfl rfl
          · exact hworks ((keeps_callNative hc args).of_error hn) rfl rfl
      | ok outcome u =>
          rw [hn] at hs
          cases outcome with
          | value v =>
              subst hs
              by_cases hc : b.native = .capture
              · rw [hc] at hn
                obtain hw | hw := (keeps_callCapture args).of_ok hn
                · exact hworks hw rfl rfl
                · exact .meets hphase hc hw rfl rfl
              · exact hworks ((keeps_callNative hc args).of_ok hn) rfl rfl
          | resume k =>
              obtain ⟨hr, rfl, place, others, hpos, rfl⟩ := callNative_resume_ok hn
              exact .resumes hphase hr hpos hs.symm
          | ask name =>
              subst hs
              by_cases hc : b.native = .capture
              · rw [hc] at hn
                -- a capture answers a value; it never asks the host
                obtain ⟨_, _, -, h⟩ := action_bind_ok.mp hn
                obtain ⟨_, _, -, h⟩ := action_bind_ok.mp h
                obtain ⟨_, _, -, h⟩ := action_bind_ok.mp h
                exact nomatch (action_pure_ok.mp h).1
              · exact hworks ((keeps_callNative hc args).of_ok hn) rfl rfl
  · next other =>
      subst hs
      exact hworks (Vm.Works.steady.keeps_raise (α := Value) (.notCallable callee.typeName) r.vm) rfl rfl

/-- A result. -/
theorem change_of_deliver {r s : Run} {waits : Pending} {pending : List Pending}
    {result : Except Fault Value} (hphase : r.phase = .returned result)
    (hpending : r.pending = waits :: pending) (hs : deliver r.vm waits pending result = s) :
    r.Change s := by
  have hturn : r.phase.isCall = false := by
    rw [hphase]
    rfl
  have hwaits : r.waiting = pending := by
    rw [waiting, hphase, hpending]
    rfl
  have hsite (slots : Nat) : r.vm.Works (siteFlow r.vm slots result).2 := by
    unfold siteFlow
    cases result with
    | error e => exact Vm.Works.refl _
    | ok v =>
        dsimp only
        cases hf : finishCall slots v r.vm with
        | ok a u => exact (keeps_finishCall slots v).of_ok hf
        | error e u => exact (keeps_finishCall slots v).of_error hf
  cases waits with
  | site slots => exact change_of_follow (hsite slots) hturn hwaits hs
  | lone slots =>
      subst hs
      exact .works (hsite slots) rfl (.inl hturn.symm) hwaits.symm
  | resume id =>
      subst hs
      exact .ends rfl rfl hpending

/-- **What one step of a run can do.** -/
theorem change_of_step {r s : Run} (h : r.step = some s) : r.Change s := by
  unfold step at h
  split at h
  · next hp => exact change_of_stepFrame hp (Option.some.inj h)
  · next hp => exact change_of_beginCall hp (Option.some.inj h)
  · next hp => exact .hooked hp (Option.some.inj h).symm
  · exact nomatch h
  · exact nomatch h
  · next hp =>
      split at h
      · exact nomatch h
      · next hpending => exact change_of_deliver hp hpending (Option.some.inj h)
  · exact nomatch h
  · exact nomatch h

end Run

end Resumable
