/-
  Resumable.Proofs.CallLifetimes
  ──────────────────────────────
  **WHAT BECOMES OF A CALL THAT AN INSTRUCTION ASKS FOR.**

  The result of the call is for the entries of the instruction, which waits on top
  of what waited before:

      pending          own …  |  site k  |  pending …
      frames           own …  |  f               rest …
      slots of f                 below …  e 1 … e k

  Until the result is there, the run is a run of the call alone, with more waiting
  below it (`step_under`), so it keeps the frames it found (`Above`).  Then either
  the k entries are replaced by the result or an error is raised on the frame as it
  is.

  Main results:
    • `Run.step_under`            — a step does not see what waits below,
    • `Run.InFlight.above`        — nor the frames below,
    • `CallSite.makes_of_readsAs` — an instruction makes the call it reads.
-/
import Resumable.Proofs.ExceptionRoutes
import Resumable.Proofs.SlotOperations
import Resumable.Proofs.WholeChain

namespace Resumable

open VmAction

namespace Run

/-! ## §1. More waits below. -/

/-- The run, with more that waits below what waits for its results. -/
def under (r : Run) (below : List Pending) : Run :=
  { r with pending := r.pending ++ below }

section Under

variable (vm : Vm) (pending below : List Pending)

theorem under_enterFrame (f : Frame) :
    (enterFrame vm pending f).under below = enterFrame vm (pending ++ below) f := by
  unfold enterFrame
  dsimp only
  split <;> rfl

theorem under_beginResume (k : Continuation) :
    (beginResume vm pending k).under below = beginResume vm (pending ++ below) k := by
  cases hout : k.outermost? with
  | none =>
      unfold beginResume
      rw [hout]
      rfl
  | some outermost =>
      rw [beginResume_eq hout, beginResume_eq hout]
      exact under_enterFrame ..

theorem under_beginCall (callee : Value) (args : Arguments) :
    (beginCall vm pending callee args).under below = beginCall vm (pending ++ below) callee args := by
  unfold beginCall
  split
  · split
    · exact under_enterFrame ..
    · rfl
  · split
    · rfl
    · exact under_beginResume ..
    · rfl
    · rfl
  · rfl

theorem under_hookEnded (id : HookNumber) (hook : Hook) (ids : List HookNumber)
    (result : Except Fault HookVerdict) :
    (hookEnded vm pending id hook ids result).under below
      = hookEnded vm (pending ++ below) id hook ids result := by
  unfold hookEnded
  split <;> rfl

theorem under_rebuildFrame (id : HookNumber) (records : List Record) (ids : List HookNumber) :
    (rebuildFrame vm pending id records ids).under below
      = rebuildFrame vm (pending ++ below) id records ids := by
  unfold rebuildFrame
  split
  · exact under_hookEnded ..
  · exact under_hookEnded ..
  · split
    · exact under_hookEnded ..
    · exact under_hookEnded ..

theorem under_runHooks (ids : List HookNumber) :
    (runHooks vm pending ids).under below = runHooks vm (pending ++ below) ids := by
  unfold runHooks
  split
  · rfl
  · split
    · rfl
    · split
      · exact under_rebuildFrame ..
      · rfl

theorem under_raiseInFrame (exc : Value) :
    (raiseInFrame vm pending exc).under below = raiseInFrame vm (pending ++ below) exc := by
  unfold raiseInFrame
  split <;> rfl

theorem under_follow (result : Except Fault Flow) :
    (follow vm pending result).under below = follow vm (pending ++ below) result := by
  unfold follow
  split
  · rfl
  · split <;> rfl
  · rfl
  · exact under_raiseInFrame ..
  · exact under_raiseInFrame ..
  · rfl

theorem under_stepFrame : (stepFrame vm pending).under below = stepFrame vm (pending ++ below) := by
  unfold stepFrame
  split
  · rfl
  · split
    · rfl
    · split
      · unfold perform
        split
        · exact under_follow ..
        · rfl
        · rfl
        · exact under_follow ..
      · rfl

theorem under_deliver (waiting : Pending) (result : Except Fault Value) :
    (deliver vm waiting pending result).under below
      = deliver vm waiting (pending ++ below) result := by
  cases waiting with
  | site slots => exact under_follow ..
  | lone slots => rfl
  | resume id => rfl

end Under

/-- The result is there for what waits. -/
def Returns (r : Run) (waits : List Pending) : Prop :=
  r.pending = waits ∧ ∃ result, r.phase = .returned result

/-- **A step does not see what waits below**, as long as the result is not there for it. -/
theorem step_under {r : Run} (h : ¬ r.Returns []) (below : List Pending) :
    (r.under below).step = r.step.map (·.under below) := by
  obtain ⟨vm, pending, phase⟩ := r
  cases phase with
  | loop => exact congrArg some (under_stepFrame ..).symm
  | call callee args => exact congrArg some (under_beginCall ..).symm
  | enter ids => exact congrArg some (under_runHooks ..).symm
  | atHook id hook ids => rfl
  | atHost name args => rfl
  | ended flow => rfl
  | brokenOff => rfl
  | returned result =>
      cases pending with
      | nil => exact absurd ⟨rfl, result, rfl⟩ h
      | cons waiting pending => exact congrArg some (under_deliver ..).symm

theorem returns_under {r : Run} {below : List Pending} :
    (r.under below).Returns below ↔ r.Returns [] := by
  unfold Returns under
  rw [List.append_left_eq_self]

/-! ## §2. A call in flight. -/

/-- The run has asked for a call and is in this state before the result is there, or
just when it is.  Hooks and functions of the host leave the live frames as they are. -/
def InFlight (asked r : Run) : Prop :=
  ∃ past, History (· = asked) (fun vm vm' => vm'.frames = vm.frames) (r :: past)
    ∧ ∀ q ∈ past, ¬ q.Returns asked.pending

variable {vm : Vm} {waits : List Pending} {callee : Value} {args : Arguments} {r : Run}

/-- Until the result is there, a call is a run of its own. -/
theorem InFlight.own (h : InFlight ⟨vm, waits, .call callee args⟩ r) :
    ∃ own past, r = own.under waits
      ∧ History (·.CalledOn vm) (fun vm vm' => vm'.frames = vm.frames) (own :: past) := by
  obtain ⟨past, hhistory, hpast⟩ := h
  -- by induction on the history: up to its last state the result is not there, so what
  -- the run did next it did in the run of the call alone as well
  generalize hstates : r :: past = states at hhistory
  induction hhistory generalizing r past with
  | start hasked =>
      obtain ⟨rfl, -⟩ := List.cons.inj hstates
      subst hasked
      exact ⟨ofCall vm callee args, [], rfl, .start (.call callee args)⟩
  | @step q s before _ hstep ih =>
      obtain ⟨rfl, rfl⟩ := List.cons.inj hstates
      obtain ⟨hq, hbefore⟩ := List.forall_mem_cons.mp hpast
      obtain ⟨own, past, rfl, hown⟩ := ih before hbefore rfl
      rw [step_under (fun hr => hq (returns_under.mpr hr))] at hstep
      obtain ⟨s, hs, rfl⟩ := Option.map_eq_some_iff.mp hstep
      exact ⟨s, own :: past, rfl, .step hown hs⟩
  | @hook q before vm' id hook ids result _ hphase hout ih =>
      obtain ⟨rfl, rfl⟩ := List.cons.inj hstates
      obtain ⟨-, hbefore⟩ := List.forall_mem_cons.mp hpast
      obtain ⟨own, past, rfl, hown⟩ := ih before hbefore rfl
      refine ⟨own.answerHook vm' result, own :: past, ?_, .hook result hown hphase hout⟩
      rw [answerHook_eq hphase, answerHook_eq (r := own) hphase]
      exact (under_hookEnded ..).symm
  | @host q before vm' name given result _ hphase hout ih =>
      obtain ⟨rfl, rfl⟩ := List.cons.inj hstates
      obtain ⟨-, hbefore⟩ := List.forall_mem_cons.mp hpast
      obtain ⟨own, past, rfl, hown⟩ := ih before hbefore rfl
      refine ⟨own.answerHost vm' result, own :: past, ?_, .host result hown hphase hout⟩
      rw [answerHost_eq hphase, answerHost_eq (r := own) hphase]
      rfl

/-- **A call in flight keeps the frames it was asked on.** -/
theorem InFlight.above (h : InFlight ⟨vm, waits, .call callee args⟩ r) :
    ∃ own : Run, r = own.under waits ∧ own.Above vm.frames := by
  obtain ⟨own, past, hr, hhistory⟩ := h.own
  exact ⟨own, hr, above_of_history hhistory⟩

theorem InFlight.suffix (h : InFlight ⟨vm, waits, .call callee args⟩ r) :
    vm.frames <:+ r.vm.frames := by
  obtain ⟨own, rfl, habove⟩ := h.above
  exact habove.stands.suffix

/-- When the result is there, they are the live frames. -/
theorem InFlight.frames_eq (h : InFlight ⟨vm, waits, .call callee args⟩ r)
    (hreturns : r.Returns waits) : r.vm.frames = vm.frames := by
  obtain ⟨own, rfl, habove⟩ := h.above
  obtain ⟨hpending, result, hphase⟩ := returns_under.mp hreturns
  exact (Session.frames_of_over (r := own) habove ⟨hpending, .inl ⟨result, hphase⟩⟩ :)

end Run

/-! ## §3. The entries of a call. -/

/-- A run that stands before an instruction, with entries on top of the stack of its
innermost frame. -/
structure CallSite where
  /-- The machine. -/
  vm : Vm
  /-- What waits for results. -/
  pending : List Pending
  /-- The innermost frame. -/
  frame : Frame
  /-- The frames below it. -/
  rest : List Frame
  /-- The instruction. -/
  instruction : Instruction
  /-- The slots below the entries. -/
  below : Slots
  /-- The entries, the top one last. -/
  entries : List (Option Value)
  frames_eq : vm.frames = frame :: rest
  decodes : decodeAt frame.code.bytes frame.next = .ok instruction
  slots_eq : frame.slots = below ++ entries
  locals_le : frame.nlocals ≤ below.size

namespace CallSite

variable (c : CallSite) (callee : Value) (args : Arguments)

/-- The run. -/
def run : Run :=
  ⟨c.vm, c.pending, .loop⟩

/-- The frame while its call is in flight: it has fetched the instruction. -/
def held : Frame :=
  c.frame.fetched c.instruction

/-- What waits for the result of the call, the entries of the call first. -/
def waits : List Pending :=
  .site c.entries.length :: c.pending

/-- The run when it has asked for a call. -/
def asked : Run :=
  ⟨{ c.vm with frames := c.held :: c.rest }, c.waits, .call callee args⟩

/-- The frame when the call has a result, which takes the place of the entries. -/
def answered (v : Value) : Frame :=
  { c.held with slots := c.below.push (some v) }

/-- The call is made, and the entries stay on the stack until it has a result. -/
structure Makes : Prop where
  /-- The instruction asks for the call. -/
  asks : c.run.step = some (c.asked callee args)
  /-- The frame is taken to hold as many slots for its call as there are entries. -/
  slots : c.held.slotsOfCall c.instruction = .ok c.entries.length
  /-- While the call runs, the frame stays as it is, and so do those below it. -/
  keeps : ∀ {r : Run}, Run.InFlight (c.asked callee args) r → c.held :: c.rest <:+ r.vm.frames
  /-- A value takes the place of the entries. -/
  returns : ∀ {r : Run} {v : Value}, Run.InFlight (c.asked callee args) r → r.pending = c.waits →
    r.phase = .returned (.ok v) → r.vm.frames = c.held :: c.rest
      ∧ r.step = some ⟨{ r.vm with frames := c.answered v :: c.rest }, c.pending, .loop⟩
  /-- An error is raised on the stack as it is. -/
  raises : ∀ {r : Run} {e : Fault}, Run.InFlight (c.asked callee args) r → r.pending = c.waits →
    r.phase = .returned (.error e) → r.vm.frames = c.held :: c.rest
      ∧ r.step = some (Run.follow r.vm c.pending (.error e))

variable {c callee args} {req : CallRequest}

theorem depth_frame : c.frame.depth = c.entries.length + (c.below.size - c.frame.nlocals) := by
  have hlocals := c.locals_le
  unfold Frame.depth
  rw [c.slots_eq, ← Array.length_toList, Array.toList_appendList, List.length_append,
    Array.length_toList]
  omega

/-- The entries are the top of the stack. -/
theorem topSlots_frame : c.frame.topSlots c.entries.length = .ok c.entries := by
  refine Frame.topSlots_ok.mpr ⟨?_, ?_⟩
  · rw [depth_frame]
    exact Nat.le_add_right ..
  · rw [c.slots_eq, ← Array.length_toList, Array.toList_appendList, List.length_append,
      Nat.add_sub_cancel, List.drop_left]

theorem drop_held : FrameAction.drop c.entries.length c.held = .ok () { c.held with slots := c.below } := by
  have hroom : ¬ c.held.depth < c.entries.length := by
    show ¬ c.frame.depth < _
    rw [depth_frame]
    omega
  have hslots : c.frame.slots.take (c.frame.slots.size - c.entries.length) = c.below := by
    apply Array.toList_inj.mp
    rw [toList_take, c.slots_eq, ← Array.length_toList, Array.toList_appendList, List.length_append,
      Nat.add_sub_cancel, List.take_left]
  rw [FrameAction.drop_apply, if_neg hroom, ← hslots]
  rfl

/-- The result of the call takes the place of its entries. -/
theorem finishCall_held {vm : Vm} (hframes : vm.frames = c.held :: c.rest) (v : Value) :
    finishCall c.entries.length v vm = .ok () { vm with frames := c.answered v :: c.rest } := by
  rw [Run.finishCall_apply hframes, drop_held]
  rfl

theorem step_of_value {r : Run} {v : Value} (hframes : r.vm.frames = c.held :: c.rest)
    (hpending : r.pending = c.waits) (hphase : r.phase = .returned (.ok v)) :
    r.step = some ⟨{ r.vm with frames := c.answered v :: c.rest }, c.pending, .loop⟩ := by
  have hfinish := finishCall_held hframes v
  obtain ⟨vm, pending, phase⟩ := r
  subst hpending hphase
  show some (Run.follow (Run.siteFlow vm c.entries.length (.ok v)).2 c.pending
    (Run.siteFlow vm c.entries.length (.ok v)).1) = _
  unfold Run.siteFlow
  dsimp only
  rw [hfinish]
  rfl

/-- An error leaves the entries where they are. -/
theorem step_of_error {r : Run} {e : Fault} (hpending : r.pending = c.waits)
    (hphase : r.phase = .returned (.error e)) :
    r.step = some (Run.follow r.vm c.pending (.error e)) := by
  obtain ⟨vm, pending, phase⟩ := r
  subst hpending hphase
  rfl

/-- **An instruction makes the call that it reads off the entries.** -/
theorem makes_of_readsAs (hcall : c.instruction.opcode.isCall = true)
    (hsize : c.entries.length = c.instruction.callSize)
    (hreads : c.instruction.ReadsAs c.vm.store c.entries req) : c.Makes req.callee req.args := by
  have hslots : c.frame.topSlots c.instruction.callSize = .ok c.entries := hsize ▸ topSlots_frame
  -- the frame is held by the instruction it has fetched, with the entries still on top
  have hsuspended : c.held.SuspendedIn c.vm.store c.instruction req :=
    ⟨c.decodes, hcall, rfl, c.entries,
      Frame.topSlots_ok_congr (f := c.frame) (g := c.held) rfl rfl hslots, hreads⟩
  have hframes {r : Run} {result : Except Fault Value}
      (h : Run.InFlight (c.asked req.callee req.args) r) (hpending : r.pending = c.waits)
      (hphase : r.phase = .returned result) : r.vm.frames = c.held :: c.rest :=
    h.frames_eq ⟨hpending, result, hphase⟩
  refine ⟨?_, ?_, fun h => h.suffix, ?_, ?_⟩
  · have hstep := Run.stepFrame_of_call c.pending c.frames_eq c.decodes hcall hslots hreads
    rw [hreads.callee.2] at hstep
    exact congrArg some hstep
  · rw [hsize]
    exact Frame.slotsOfCall_suspended hsuspended
  · intro r v hflight hpending hphase
    have hheld := hframes hflight hpending hphase
    exact ⟨hheld, step_of_value hheld hpending hphase⟩
  · intro r e hflight hpending hphase
    exact ⟨hframes hflight hpending hphase, step_of_error hpending hphase⟩

/-! ## §4. An instruction that refuses its entries. -/

/-- Reading a call off the stack leaves the frames as they are. -/
theorem sameFrames_callRequest (i : Instruction) : Keeps SameFrames (callRequest i) := by
  rw [callRequest_eq]
  refine SameFrames.steady.keeps_bind ?_ fun slots => ?_
  · intro vm
    unfold stateAfter onFrame
    cases hframes : vm.frames with
    | nil => exact SameFrames.steady.refl vm
    | cons f rest =>
        dsimp only
        rw [Frame.topSlots_apply]
        cases f.topSlots i.callSize <;> exact hframes.symm
  · obtain ⟨r, hread, -⟩ | ⟨-, hread⟩ := i.read_cases slots
    · rw [hread]
      exact SameFrames.steady.keeps_ofExcept r
    · rw [hread]
      exact SameFrames.steady.keeps_collectedRequest _

/-- An error is raised on the stack as it is. -/
def Refuses (c : CallSite) : Prop :=
  ∃ e vm, vm.frames = c.held :: c.rest ∧ c.run.step = some (Run.follow vm c.pending (.error e))

/-- The run fetches the instruction and performs it. -/
theorem step_run : c.run.step
    = some (Run.perform { c.vm with frames := c.held :: c.rest } c.pending c.instruction) := by
  have hdone : c.frame.isDone = false := by
    have hlt := lt_size_of_decodeAt c.decodes
    unfold Frame.isDone
    rw [decide_eq_false_iff_not]
    omega
  show some (Run.stepFrame c.vm c.pending) = _
  unfold Run.stepFrame
  rw [c.frames_eq]
  simp only [hdone, Bool.false_eq_true, if_false, fetch_of_decodeAt c.frames_eq c.decodes]
  rfl

/-- A call instruction asks for a call or refuses what is on the stack. -/
theorem asks_or_refuses (hcall : c.instruction.opcode.isCall = true) :
    (∃ req : CallRequest, c.run.step = some ⟨{ c.vm with frames := c.held :: c.rest },
      .site req.slots :: c.pending, .call req.callee req.args⟩) ∨ c.Refuses := by
  rw [Refuses, step_run, Run.perform, execute_of_isCall hcall]
  cases hrequest : callRequest c.instruction { c.vm with frames := c.held :: c.rest } with
  | ok req vm =>
      obtain ⟨rfl, -⟩ := (callRequest_ok rfl).mp hrequest
      rw [action_bind_of_ok hrequest]
      exact .inl ⟨req, rfl⟩
  | error e vm =>
      rw [action_bind_of_error hrequest]
      exact .inr ⟨e, vm, (sameFrames_callRequest _).of_error hrequest, rfl⟩

end CallSite

end Resumable
