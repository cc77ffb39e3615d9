/-
  Resumable.Proofs.FatalFaults
  ────────────────────────────
  **FATAL FAULTS ARE NEVER CAUGHT.**

  Only an exception can be caught.  Every other fault, wherever it comes up, ends
  the frame at hand in the same step, and from there on each thing that waits for a
  result hands it on:

      failing step ──▸ returned ──▸ site ──▸ resume ──▸ site ──▸ … ──▸ the end
                       error e      leaves    unhooks   leaves        error e

  No frame on the way looks at its blocks and none goes on, so a fault can neither
  meet a handler nor wake an instruction.  The induction is on what waits.

  Main results:
    • `Run.step_of_fails`      — a step that fails ends with the fault,
    • `Run.fails_of_step`      — and there is no other way to come by a fatal fault,
    • `Run.fatal_never_caught` — the call it came up in ends with that fault.
-/
import Resumable.Proofs.Replay
import Resumable.Proofs.StackEffect

namespace Resumable

open VmAction

namespace Run

/-! ## §1. Calls that the host makes. -/

/-- The calls that can be made on a machine: of a value, of a global, of a body, of
a frame, or of a continuation. -/
inductive CalledOn (vm : Vm) : Run → Prop
  | call (callee : Value) (args : Arguments) : CalledOn vm (ofCall vm callee args)
  | global (name : String) (args : Arguments) : CalledOn vm (ofGlobal vm name args)
  | code (c : Code) : CalledOn vm (ofCode vm c)
  | frame (f : Frame) : CalledOn vm (ofFrame vm f)
  | continuation (k : Continuation) : CalledOn vm (ofContinuation vm k)

/-- No instruction executed on its own waits for a result. -/
def OnlyCalls (pending : List Pending) : Prop :=
  ∀ slots, Pending.lone slots ∉ pending

theorem OnlyCalls.tail {waiting : Pending} {pending : List Pending}
    (h : OnlyCalls (waiting :: pending)) : OnlyCalls pending :=
  fun slots hmem => h slots (List.mem_cons_of_mem _ hmem)

theorem OnlyCalls.site {pending : List Pending} (h : OnlyCalls pending) (slots : Nat) :
    OnlyCalls (.site slots :: pending) := by
  intro other hmem
  rcases List.mem_cons.mp hmem with heq | hmem
  · cases heq
  · exact h other hmem

theorem OnlyCalls.resume {pending : List Pending} (h : OnlyCalls pending) (id : HookNumber) :
    OnlyCalls (.resume id :: pending) := by
  intro other hmem
  rcases List.mem_cons.mp hmem with heq | hmem
  · cases heq
  · exact h other hmem

variable {vm : Vm} {pending : List Pending} {r s : Run} {e : Fault}

@[simp] theorem pending_enterFrame (vm : Vm) (pending : List Pending) (f : Frame) :
    (enterFrame vm pending f).pending = pending := by
  unfold enterFrame
  dsimp only
  split <;> rfl

@[simp] theorem pending_hookEnded (vm : Vm) (pending : List Pending) (id : HookNumber) (hook : Hook)
    (ids : List HookNumber) (result : Except Fault HookVerdict) :
    (hookEnded vm pending id hook ids result).pending = pending := by
  unfold hookEnded
  split <;> rfl

@[simp] theorem pending_runHooks (vm : Vm) (pending : List Pending) (ids : List HookNumber) :
    (runHooks vm pending ids).pending = pending := by
  unfold runHooks rebuildFrame
  split
  · rfl
  · split
    · rfl
    · dsimp only
      split
      · split
        · exact pending_hookEnded ..
        · exact pending_hookEnded ..
        · split <;> exact pending_hookEnded ..
      · rfl

theorem onlyCalls_beginResume (h : OnlyCalls pending) (vm : Vm) (k : Continuation) :
    OnlyCalls (beginResume vm pending k).pending := by
  cases hout : k.outermost? with
  | none =>
      unfold beginResume
      rw [hout]
      exact h
  | some outermost =>
      rw [beginResume_eq hout, pending_enterFrame]
      exact h.resume _

theorem CalledOn.onlyCalls (h : r.CalledOn vm) : OnlyCalls r.pending := by
  have hnil : OnlyCalls [] := fun slots hmem => by cases hmem
  cases h with
  | call callee args => exact hnil
  | global name args =>
      unfold ofGlobal
      split <;> exact hnil
  | code c =>
      show OnlyCalls (enterFrame _ [] _).pending
      rw [pending_enterFrame]
      exact hnil
  | frame f =>
      show OnlyCalls (enterFrame _ [] _).pending
      rw [pending_enterFrame]
      exact hnil
  | continuation k => exact onlyCalls_beginResume hnil vm k

/-- A run of calls stays one. -/
theorem onlyCalls_step (h : OnlyCalls r.pending) (hs : r.step = some s) : OnlyCalls s.pending := by
  have hwaiting : OnlyCalls r.waiting := by
    unfold waiting
    split
    · exact fun slots hmem => h slots (List.mem_of_mem_tail hmem)
    · exact h
  cases change_of_step hs with
  | works _ _ _ waits => exact waits ▸ hwaiting
  | leaves _ _ _ waits => exact waits ▸ hwaiting
  | asks _ _ _ _ _ _ run_eq =>
      rw [run_eq]
      exact h.site _
  | enters _ _ run_eq =>
      rw [run_eq, pending_enterFrame]
      exact h
  | resumes _ _ _ run_eq =>
      rw [run_eq]
      exact onlyCalls_beginResume h _ _
  | meets _ _ _ _ waits => exact waits ▸ h
  | hooked _ run_eq =>
      rw [run_eq, pending_runHooks]
      exact h
  | ends _ _ waited =>
      rw [waited] at h
      exact h.tail

theorem onlyCalls_steps (h : OnlyCalls r.pending) (n : Nat) : OnlyCalls (steps n r).pending := by
  induction n generalizing r with
  | zero => exact h
  | succ n ih =>
      cases hs : r.step with
      | none =>
          rw [steps_of_step_eq_none hs]
          exact h
      | some s =>
          rw [steps_succ_of_step hs]
          exact ih (onlyCalls_step h hs)

/-! ## §2. How a step can fail. -/

/-- The innermost frame of a machine fetches its next instruction. -/
def Fetches (vm : Vm) (i : Instruction) (fetched : Vm) : Prop :=
  ∃ f rest, vm.frames = f :: rest ∧ f.isDone = false
    ∧ onFrame FrameAction.fetch vm = .ok i fetched

/-- An instruction raises an exception. -/
def Raises (vm : Vm) (i : Instruction) (exc : Value) (raised : Vm) : Prop :=
  execute i vm = .ok (.flow (.raise exc)) raised ∨ execute i vm = .error (.exception exc) raised

/-- The step that a run takes next fails. -/
inductive Fails (e : Fault) : Run → Prop
  /-- There is no frame. -/
  | frame {vm : Vm} {pending : List Pending} :
      vm.frames = [] → e = .internal .noActiveFrame → Fails e ⟨vm, pending, .loop⟩
  /-- There is no instruction where the innermost frame stands. -/
  | fetch {vm u : Vm} {pending : List Pending} {f : Frame} {rest : List Frame} :
      vm.frames = f :: rest → f.isDone = false → onFrame FrameAction.fetch vm = .error e u →
      Fails e ⟨vm, pending, .loop⟩
  /-- The instruction fails. -/
  | instruction {vm u w : Vm} {pending : List Pending} {i : Instruction} :
      Fetches vm i u → execute i u = .error e w → Fails e ⟨vm, pending, .loop⟩
  /-- It raises an exception, and closing the blocks of its frame fails. -/
  | unwinding {vm u w x : Vm} {pending : List Pending} {i : Instruction} {exc : Value} :
      Fetches vm i u → Raises u i exc w → unwind exc w = .error e x → Fails e ⟨vm, pending, .loop⟩
  /-- A native fails. -/
  | native {vm u : Vm} {pending : List Pending} {b : Builtin} {args : Arguments} :
      callNative b.native args vm = .error e u → Fails e ⟨vm, pending, .call (.builtin b) args⟩
  /-- There is no room for the frame of a function. -/
  | room {vm : Vm} {pending : List Pending} {fn : Function} {args : Arguments} {locals : Slots} :
      fn.code.bind args = .ok locals → vm.config.frameLimit ≤ vm.depth →
      e = .frameLimit vm.config.frameLimit → Fails e ⟨vm, pending, .call (.function fn) args⟩
  /-- Nor for the first frame of a continuation. -/
  | resume {vm u : Vm} {pending : List Pending} {b : Builtin} {args : Arguments} {k : Continuation} :
      callNative b.native args vm = .ok (.resume k) u → k.records ≠ [] →
      u.config.frameLimit ≤ u.depth → e = .frameLimit u.config.frameLimit →
      Fails e ⟨vm, pending, .call (.builtin b) args⟩
  /-- The frame just entered does not take its record. -/
  | record {vm : Vm} {pending : List Pending} {id : HookNumber} {ids : List HookNumber}
      {record : Record} {records : List Record} {hooks : EntryHooks} {f : Frame}
      {rest : List Frame} {cause : ContinuationError} :
      vm.hooks.start? id = some (.rebuild (record :: records), hooks) → vm.frames = f :: rest →
      f.putRecord record = .error cause → e = .continuation cause →
      Fails e ⟨vm, pending, .enter (id :: ids)⟩
  /-- It has gone. -/
  | gone {vm : Vm} {pending : List Pending} {id : HookNumber} {ids : List HookNumber}
      {record : Record} {records : List Record} {hooks : EntryHooks} :
      vm.hooks.start? id = some (.rebuild (record :: records), hooks) → vm.frames = [] →
      e = .internal (.missingFrame 0) → Fails e ⟨vm, pending, .enter (id :: ids)⟩
  /-- The result of a call cannot replace its entries. -/
  | result {vm u : Vm} {pending : List Pending} {slots : Nat} {v : Value} :
      finishCall slots v vm = .error e u →
      Fails e ⟨vm, .site slots :: pending, .returned (.ok v)⟩
  /-- A call has ended with an exception, and closing the blocks of the caller fails. -/
  | arriving {vm u : Vm} {pending : List Pending} {slots : Nat} {exc : Value} :
      unwind exc vm = .error e u →
      Fails e ⟨vm, .site slots :: pending, .returned (.error (.exception exc))⟩

/-- A fault that is no exception leaves the frame. -/
theorem follow_fatal (he : e.isCatchable = false) (vm : Vm) (pending : List Pending) :
    follow vm pending (.error e) = leaveFrame vm pending (.error e) := by
  cases e with
  | exception exc => cases he
  | _ => rfl

/-- A frame whose blocks cannot be closed is left as well. -/
theorem raiseInFrame_error {exc : Value} {u : Vm} (h : unwind exc vm = .error e u)
    (pending : List Pending) : raiseInFrame vm pending exc = leaveFrame u pending (.error e) := by
  unfold raiseInFrame
  rw [h]

theorem stepFrame_of_fetches {i : Instruction} {u : Vm} (h : Fetches vm i u) (pending : List Pending) :
    stepFrame vm pending = perform u pending i := by
  obtain ⟨f, rest, hframes, hdone, hfetch⟩ := h
  unfold stepFrame
  rw [hframes]
  dsimp only
  rw [hdone, hfetch]
  rfl

/-- **A step that fails ends with its fault.** -/
theorem step_of_fails (he : e.isCatchable = false) (h : Fails e r) (hcalls : OnlyCalls r.pending) :
    ∃ vm pending, r.step = some ⟨vm, pending, .returned (.error e)⟩ ∧ OnlyCalls pending := by
  cases h with
  | @frame vm pending hframes heq =>
      refine ⟨vm, pending, ?_, hcalls⟩
      unfold step stepFrame
      dsimp only
      rw [hframes, heq]
      rfl
  | @fetch vm u pending f rest hframes hdone hfetch =>
      refine ⟨{ u with frames := u.frames.tail }, pending, ?_, hcalls⟩
      unfold step stepFrame
      dsimp only
      rw [hframes]
      dsimp only
      rw [hdone, hfetch]
      rfl
  | @instruction vm u w pending i hfetches hexecute =>
      refine ⟨{ w with frames := w.frames.tail }, pending, ?_, hcalls⟩
      show some (stepFrame vm pending) = _
      rw [stepFrame_of_fetches hfetches, perform, hexecute]
      exact congrArg some (follow_fatal he w pending)
  | @unwinding vm u w x pending i exc hfetches hraises hunwind =>
      refine ⟨{ x with frames := x.frames.tail }, pending, ?_, hcalls⟩
      show some (stepFrame vm pending) = _
      rw [stepFrame_of_fetches hfetches, perform]
      -- whether the instruction raised it or failed with it, the frame looks for a handler
      rcases hraises with hraise | hraise
      · rw [hraise]
        exact congrArg some (raiseInFrame_error hunwind pending)
      · rw [hraise]
        exact congrArg some (raiseInFrame_error hunwind pending)
  | @native vm u pending b args hnative =>
      refine ⟨u, pending, ?_, hcalls⟩
      show some (beginCall vm pending (.builtin b) args) = _
      unfold beginCall
      dsimp only
      rw [hnative]
      rfl
  | @room vm pending fn args locals hbind hfull heq =>
      refine ⟨vm, pending, ?_, hcalls⟩
      show some (beginCall vm pending (.function fn) args) = _
      unfold beginCall enterFrame
      dsimp only
      rw [hbind, heq]
      dsimp only [Except.mapError, lift, pure, EStateM.pure]
      rw [if_pos hfull]
      rfl
  | @resume vm u pending b args k hnative hk hfull heq =>
      obtain ⟨outermost, hout⟩ : ∃ outermost, k.outermost? = some outermost := by
        cases hout : k.outermost? with
        | some outermost => exact ⟨outermost, rfl⟩
        | none => exact absurd (List.getLast?_eq_none_iff.mp hout) hk
      refine ⟨u.rebuilding k.records.reverse, .resume u.dropArmed.hooks.nextId :: pending, ?_,
        hcalls.resume _⟩
      show some (beginCall vm pending (.builtin b) args) = _
      unfold beginCall
      dsimp only
      rw [hnative]
      dsimp only
      rw [beginResume_eq hout]
      unfold enterFrame
      -- the hook is installed before the room is checked, which changes neither depth nor limit
      have hfull' : (u.rebuilding k.records.reverse).config.frameLimit
          ≤ (u.rebuilding k.records.reverse).depth := by
        show u.dropArmed.config.frameLimit ≤ u.dropArmed.depth
        rw [Vm.config_dropArmed, Vm.depth_dropArmed]
        exact hfull
      dsimp only
      rw [if_pos hfull', heq]
      show _ = some (withResult _ _ (.error (.frameLimit u.config.frameLimit)))
      rw [← u.config_dropArmed]
      rfl
  | @record vm pending id ids record records hooks f rest cause hstart hframes hput heq =>
      refine ⟨{ vm with hooks := hooks.finish id (.rebuild records), frames := rest }, pending, ?_,
        hcalls⟩
      show some (runHooks vm pending (id :: ids)) = _
      unfold runHooks rebuildFrame
      dsimp only
      rw [hstart]
      dsimp only
      rw [hframes]
      dsimp only
      rw [hput, heq]
      rfl
  | @gone vm pending id ids record records hooks hstart hframes heq =>
      refine ⟨{ vm with hooks := hooks.finish id (.rebuild records), frames := [] }, pending, ?_,
        hcalls⟩
      show some (runHooks vm pending (id :: ids)) = _
      unfold runHooks rebuildFrame
      dsimp only
      rw [hstart]
      dsimp only
      rw [hframes, heq]
      rfl
  | @result vm u pending slots v hfinish =>
      refine ⟨{ u with frames := u.frames.tail }, pending, ?_, hcalls.tail⟩
      show some (deliver vm (.site slots) pending (.ok v)) = _
      unfold deliver siteFlow
      dsimp only
      rw [hfinish]
      -- the entries of the call were not there: a breach in the frame that called
      exact congrArg some (follow_fatal he u pending)
  | @arriving vm u pending slots exc hunwind =>
      refine ⟨{ u with frames := u.frames.tail }, pending, ?_, hcalls.tail⟩
      show some (raiseInFrame vm pending exc) = _
      exact congrArg some (raiseInFrame_error hunwind pending)

/-- An exception raised in a frame makes a fatal fault only if closing the blocks fails. -/
theorem unwind_of_raiseInFrame {exc : Value}
    (h : (raiseInFrame vm pending exc).phase = .returned (.error e)) :
    ∃ u, unwind exc vm = .error e u := by
  unfold raiseInFrame at h
  cases hunwind : unwind exc vm with
  | ok a u =>
      rw [hunwind] at h
      cases h
  | error e' u =>
      rw [hunwind] at h
      obtain rfl := Except.error.inj (Phase.returned.inj h)
      exact ⟨u, rfl⟩

/-- A frame that is refused has met the limit. -/
theorem full_of_enterFrame {f : Frame}
    (h : (enterFrame vm pending f).phase = .returned (.error e)) :
    vm.config.frameLimit ≤ vm.depth ∧ e = .frameLimit vm.config.frameLimit := by
  unfold enterFrame at h
  dsimp only at h
  by_cases hfull : vm.config.frameLimit ≤ vm.depth
  · rw [if_pos hfull] at h
    exact ⟨hfull, (Except.error.inj (Phase.returned.inj h)).symm⟩
  · rw [if_neg hfull] at h
    cases h

/-- So has the first frame of a continuation. -/
theorem full_of_beginResume {k : Continuation}
    (h : (beginResume vm pending k).phase = .returned (.error e)) :
    k.records ≠ [] ∧ vm.config.frameLimit ≤ vm.depth ∧ e = .frameLimit vm.config.frameLimit := by
  cases hout : k.outermost? with
  | none =>
      unfold beginResume at h
      rw [hout] at h
      cases h
  | some outermost =>
      rw [beginResume_eq hout] at h
      obtain ⟨hfull, heq⟩ := full_of_enterFrame h
      have hrecords : k.records ≠ [] := by
        intro hnil
        unfold Continuation.outermost? at hout
        rw [hnil] at hout
        cases hout
      have hlimit : (vm.rebuilding k.records.reverse).config = vm.config := vm.config_dropArmed
      have hdepth : (vm.rebuilding k.records.reverse).depth = vm.depth :=
        congrArg List.length (vm.frames_rebuilding _)
      rw [hlimit] at hfull heq
      rw [hdepth] at hfull
      exact ⟨hrecords, hfull, heq⟩

/-- What an instruction makes of a machine is a fatal fault only if it fails, or if what it
raises cannot close the blocks. -/
theorem fails_of_perform (he : e.isCatchable = false) {i : Instruction} {u : Vm}
    (hfetches : Fetches vm i u) (hphase : (perform u pending i).phase = .returned (.error e)) :
    Fails e ⟨vm, pending, .loop⟩ := by
  unfold perform at hphase
  cases hexecute : execute i u with
  | error e' w =>
      rw [hexecute] at hphase
      cases hcatch : e'.isCatchable with
      | false =>
          dsimp only at hphase
          rw [follow_fatal hcatch] at hphase
          obtain rfl := Except.error.inj (Phase.returned.inj hphase)
          exact .instruction hfetches hexecute
      | true =>
          cases e' with
          | exception exc =>
              obtain ⟨x, hunwind⟩ := unwind_of_raiseInFrame hphase
              exact .unwinding hfetches (.inr hexecute) hunwind
          | _ => cases hcatch
  | ok outcome w =>
      rw [hexecute] at hphase
      cases outcome with
      | call request => cases hphase
      | breakOff => cases hphase
      | flow flow =>
          cases flow with
          | next => cases hphase
          | «return» value => cases hphase
          | raise exc =>
              obtain ⟨x, hunwind⟩ := unwind_of_raiseInFrame hphase
              exact .unwinding hfetches (.inl hexecute) hunwind
          | jump target =>
              -- the frame that has fetched the instruction is there to jump
              obtain ⟨f, rest, hframes, -, hfetch⟩ := hfetches
              have hworks := ((keeps_onFrame FrameAction.keeps_fetch).of_ok hfetch).trans
                ((keeps_execute i).of_ok hexecute)
              obtain ⟨g, hg, -⟩ := exists_frame_of_works hworks hframes
              dsimp only at hphase
              rw [follow_jump hg] at hphase
              cases hphase

theorem fails_of_stepFrame (he : e.isCatchable = false)
    (hphase : (stepFrame vm pending).phase = .returned (.error e)) :
    Fails e ⟨vm, pending, .loop⟩ := by
  cases hframes : vm.frames with
  | nil =>
      unfold stepFrame at hphase
      rw [hframes] at hphase
      exact .frame hframes (Except.error.inj (Phase.returned.inj hphase)).symm
  | cons f rest =>
      cases hdone : f.isDone with
      | true =>
          unfold stepFrame at hphase
          rw [hframes] at hphase
          dsimp only at hphase
          rw [hdone] at hphase
          cases hphase
      | false =>
          cases hfetch : onFrame FrameAction.fetch vm with
          | error e' u =>
              unfold stepFrame at hphase
              rw [hframes] at hphase
              dsimp only at hphase
              rw [hdone, hfetch] at hphase
              obtain rfl := Except.error.inj (Phase.returned.inj hphase)
              exact .fetch hframes hdone hfetch
          | ok i u =>
              have hfetches : Fetches vm i u := ⟨f, rest, hframes, hdone, hfetch⟩
              rw [stepFrame_of_fetches hfetches] at hphase
              exact fails_of_perform he hfetches hphase

theorem fails_of_beginCall (he : e.isCatchable = false) {callee : Value} {args : Arguments}
    (hphase : (beginCall vm pending callee args).phase = .returned (.error e)) :
    Fails e ⟨vm, pending, .call callee args⟩ := by
  unfold beginCall at hphase
  split at hphase
  · next fn =>
      cases hbind : fn.code.bind args with
      | ok locals =>
          rw [hbind] at hphase
          obtain ⟨hfull, heq⟩ := full_of_enterFrame hphase
          exact .room hbind hfull heq
      | error cause =>
          rw [hbind] at hphase
          obtain rfl := Except.error.inj (Phase.returned.inj hphase)
          cases he
  · next b =>
      cases hnative : callNative b.native args vm with
      | error e' u =>
          rw [hnative] at hphase
          obtain rfl := Except.error.inj (Phase.returned.inj hphase)
          exact .native hnative
      | ok outcome u =>
          rw [hnative] at hphase
          cases outcome with
          | value v => cases hphase
          | ask name => cases hphase
          | resume k =>
              obtain ⟨hrecords, hfull, heq⟩ := full_of_beginResume hphase
              exact .resume hnative hrecords hfull heq
  · obtain rfl := Except.error.inj (Phase.returned.inj hphase)
    cases he

theorem fails_of_runHooks {ids : List HookNumber}
    (hphase : (runHooks vm pending ids).phase = .returned (.error e)) :
    Fails e ⟨vm, pending, .enter ids⟩ := by
  cases ids with
  | nil => cases hphase
  | cons id ids =>
      unfold runHooks at hphase
      dsimp only at hphase
      cases hstart : vm.hooks.start? id with
      | none =>
          rw [hstart] at hphase
          cases hphase
      | some found =>
          obtain ⟨hook, hooks⟩ := found
          rw [hstart] at hphase
          cases hook with
          | host name key => cases hphase
          | rebuild records =>
              cases records with
              | nil => cases hphase
              | cons record records =>
                  unfold rebuildFrame at hphase
                  dsimp only at hphase
                  cases hframes : vm.frames with
                  | nil =>
                      rw [hframes] at hphase
                      -- a hook that rebuilds fails without a frame, or when the record does not fit
                      exact .gone hstart hframes (Except.error.inj (Phase.returned.inj hphase)).symm
                  | cons f rest =>
                      rw [hframes] at hphase
                      dsimp only at hphase
                      cases hput : f.putRecord record with
                      | error cause =>
                          rw [hput] at hphase
                          exact .record hstart hframes hput
                            (Except.error.inj (Phase.returned.inj hphase)).symm
                      | ok g =>
                          rw [hput] at hphase
                          dsimp only at hphase
                          by_cases hlast : records.isEmpty = true
                          · rw [if_pos hlast] at hphase
                            cases hphase
                          · rw [if_neg hlast] at hphase
                            cases hphase

theorem fails_of_deliver (he : e.isCatchable = false) {slots : Nat} {result : Except Fault Value}
    (hphase : (deliver vm (.site slots) pending result).phase = .returned (.error e))
    (hnew : result ≠ .error e) : Fails e ⟨vm, .site slots :: pending, .returned result⟩ := by
  unfold deliver siteFlow at hphase
  dsimp only at hphase
  cases result with
  | error e' =>
      cases hcatch : e'.isCatchable with
      | false =>
          dsimp only at hphase
          rw [follow_fatal hcatch] at hphase
          exact absurd (Phase.returned.inj hphase) hnew
      | true =>
          cases e' with
          | exception exc =>
              obtain ⟨u, hunwind⟩ := unwind_of_raiseInFrame hphase
              exact .arriving hunwind
          | _ => cases hcatch
  | ok v =>
      dsimp only at hphase
      cases hfinish : finishCall slots v vm with
      | ok a u =>
          rw [hfinish] at hphase
          cases hphase
      | error e' u =>
          rw [hfinish] at hphase
          obtain ⟨b, rfl⟩ := Calm.finishCall slots v vm e' u hfinish
          obtain rfl := Except.error.inj (Phase.returned.inj hphase)
          exact .result hfinish

/-- **And there is no other way** for a run to come by a fatal fault. -/
theorem fails_of_step (he : e.isCatchable = false) (hcalls : OnlyCalls r.pending)
    (hs : r.step = some s) (hphase : s.phase = .returned (.error e))
    (hnew : r.phase ≠ .returned (.error e)) : Fails e r := by
  obtain ⟨vm, pending, phase⟩ := r
  cases phase with
  | loop =>
      obtain rfl : stepFrame vm pending = s := Option.some.inj hs
      exact fails_of_stepFrame he hphase
  | call callee args =>
      obtain rfl : beginCall vm pending callee args = s := Option.some.inj hs
      exact fails_of_beginCall he hphase
  | enter ids =>
      obtain rfl : runHooks vm pending ids = s := Option.some.inj hs
      exact fails_of_runHooks hphase
  | atHook id hook ids => cases hs
  | atHost name args => cases hs
  | ended flow => cases hs
  | brokenOff => cases hs
  | returned result =>
      cases pending with
      | nil => cases hs
      | cons waiting pending =>
          obtain rfl : deliver vm waiting pending result = s := Option.some.inj hs
          cases waiting with
          | lone slots => exact absurd (List.mem_cons_self ..) (hcalls slots)
          | resume id => exact absurd hphase hnew
          | site slots => exact fails_of_deliver he hphase fun h => hnew (congrArg Phase.returned h)

/-! ## §3. What becomes of a fatal fault. -/

/-- What a fault leaves of a machine on its way out: frames are left and hooks of
resumes removed, and nothing else changes. -/
structure Abandons (vm vm' : Vm) : Prop where
  frames : vm'.frames <:+ vm.frames
  config_eq : vm'.config = vm.config
  store_eq : vm'.store = vm.store
  globals_eq : vm'.globals = vm.globals
  handled_eq : vm'.handled = vm.handled
  output_eq : vm'.output = vm.output

theorem Abandons.refl (vm : Vm) : Abandons vm vm :=
  ⟨List.suffix_refl _, rfl, rfl, rfl, rfl, rfl⟩

theorem Abandons.trans {a b c : Vm} (h₁ : Abandons a b) (h₂ : Abandons b c) : Abandons a c where
  frames := h₂.frames.trans h₁.frames
  config_eq := h₂.config_eq.trans h₁.config_eq
  store_eq := h₂.store_eq.trans h₁.store_eq
  globals_eq := h₂.globals_eq.trans h₁.globals_eq
  handled_eq := h₂.handled_eq.trans h₁.handled_eq
  output_eq := h₂.output_eq.trans h₁.output_eq

/-- Whatever waits for a result hands a fatal fault on. -/
theorem deliver_fatal (he : e.isCatchable = false) {waiting : Pending}
    (hcalls : OnlyCalls (waiting :: pending)) (vm : Vm) :
    ∃ vm', deliver vm waiting pending (.error e) = ⟨vm', pending, .returned (.error e)⟩
      ∧ Abandons vm vm' := by
  cases waiting with
  | lone slots => exact absurd (List.mem_cons_self ..) (hcalls slots)
  | site slots =>
      refine ⟨{ vm with frames := vm.frames.tail }, follow_fatal he vm pending, ?_⟩
      exact ⟨List.tail_suffix _, rfl, rfl, rfl, rfl, rfl⟩
  | resume id =>
      refine ⟨endResume vm id, rfl, ?_⟩
      unfold endResume
      dsimp only
      split
      · exact ⟨List.suffix_refl _, rfl, rfl, rfl, rfl, rfl⟩
      · exact ⟨List.suffix_refl _, rfl, rfl, rfl, rfl, rfl⟩

/-- So it comes out at the end, and nothing is executed on the way. -/
theorem steps_fatal (he : e.isCatchable = false) (hcalls : OnlyCalls pending) (vm : Vm) :
    ∃ after, steps pending.length ⟨vm, pending, .returned (.error e)⟩
        = ⟨after, [], .returned (.error e)⟩
      ∧ Abandons vm after ∧ ∀ n, executed n ⟨vm, pending, .returned (.error e)⟩ = [] := by
  induction pending generalizing vm with
  | nil => exact ⟨vm, rfl, Abandons.refl vm, fun n => executed_of_step_eq_none rfl n⟩
  | cons waiting pending ih =>
      obtain ⟨vm', hdeliver, habandons⟩ := deliver_fatal he hcalls vm
      obtain ⟨after, hsteps, hrest, hexecuted⟩ := ih hcalls.tail vm'
      have hstep : step ⟨vm, waiting :: pending, .returned (.error e)⟩
          = some ⟨vm', pending, .returned (.error e)⟩ := congrArg some hdeliver
      refine ⟨after, ?_, habandons.trans hrest, fun n => ?_⟩
      · rw [List.length_cons, steps_succ_of_step hstep]
        exact hsteps
      · cases n with
        | zero => rfl
        | succ n =>
            rw [executed_succ hstep, hexecuted n]
            rfl

/-- **A fatal fault is never caught**: once the step after `m` steps of a call fails
with it, or the call itself has at its start, no instruction is executed any more, and
the call ends with that fault, on a machine where only frames have been left and hooks
removed since. -/
theorem fatal_never_caught (hcalled : r.CalledOn vm) (he : e.isCatchable = false) (m : Nat)
    (hfails : Fails e (steps m r) ∨ (steps m r).phase = .returned (.error e)) :
    (∀ n, executed (m + 1 + n) r = executed (m + 1) r)
      ∧ ∃ n after, steps (m + 1 + n) r = ⟨after, [], .returned (.error e)⟩
        ∧ Abandons (steps (m + 1) r).vm after := by
  have hcalls := onlyCalls_steps hcalled.onlyCalls m
  obtain ⟨failed, pending, hat, hcalls'⟩ : ∃ failed pending,
      steps (m + 1) r = ⟨failed, pending, .returned (.error e)⟩ ∧ OnlyCalls pending := by
    rw [steps_add m 1 r]
    rcases hfails with hfails | hphase
    · obtain ⟨failed, pending, hstep, hcalls'⟩ := step_of_fails he hfails hcalls
      exact ⟨failed, pending, steps_succ_of_step hstep 0, hcalls'⟩
    · obtain ⟨⟨now, pending, phase⟩, hat⟩ : ∃ s, steps m r = s := ⟨_, rfl⟩
      rw [hat] at hphase hcalls ⊢
      obtain rfl : phase = .returned (.error e) := hphase
      cases pending with
      | nil => exact ⟨now, [], rfl, hcalls⟩
      | cons waiting pending =>
          obtain ⟨failed, hdeliver, -⟩ := deliver_fatal he hcalls now
          exact ⟨failed, pending, congrArg (steps 0) hdeliver, hcalls.tail⟩
  obtain ⟨after, hsteps, habandons, hexecuted⟩ := steps_fatal he hcalls' failed
  refine ⟨fun n => ?_, pending.length, after, ?_, ?_⟩
  · rw [executed_add (m + 1) n r, hat, hexecuted n, List.append_nil]
  · rw [steps_add (m + 1) _ r, hat, hsteps]
  · rw [hat]
    exact habandons

/-- A body that calls itself in a try body. -/
def recursing : Code where
  name := "f"
  qualname := "f"
  filename := ""
  firstLine := 1
  bytes := encodeAll
    [(.setupExcept, 9), (.loadGlobal, 0), (.callFunction, 0), (.returnValue, 0),
      (.popTop, 0), (.popExcept, 0), (.loadConst, 0), (.returnValue, 0)]
  constants := #[.int 5]
  names := #["f"]
  varnames := #[]
  argCount := 0
  lines := []

/-- A call of it on a machine with room for two frames. -/
def recursingRun : Run :=
  ofCall { config := { frameLimit := 2 }, globals := [("f", .function ⟨0, recursing⟩)] }
    (.function ⟨0, recursing⟩) {}

/-- The third call finds no room, and the handlers of the first two do not catch that. -/
theorem fatal_never_caught_recursing :
    Fails (.frameLimit 2) (steps 10 recursingRun)
      ∧ (∀ n, executed (11 + n) recursingRun = executed 11 recursingRun)
      ∧ ∃ n after, steps (11 + n) recursingRun = ⟨after, [], .returned (.error (.frameLimit 2))⟩
        ∧ Abandons (steps 11 recursingRun).vm after := by
  have hcalled : recursingRun.CalledOn recursingRun.vm := .call (.function ⟨0, recursing⟩) {}
  have hfails : Fails (.frameLimit 2) (steps 10 recursingRun) := by
    have hcall : (steps 10 recursingRun).phase = .call (.function ⟨0, recursing⟩) {} := by cbv
    have hdepth : (steps 10 recursingRun).vm.depth = 2 := by decide +kernel
    have hlimit : (steps 10 recursingRun).vm.config.frameLimit = 2 := by decide +kernel
    have hroom : Fails (.frameLimit 2) ⟨(steps 10 recursingRun).vm, (steps 10 recursingRun).pending,
        .call (.function ⟨0, recursing⟩) {}⟩ :=
      .room (show recursing.bind {} = .ok #[] from rfl) (by omega) (by rw [hlimit])
    rwa [← hcall] at hroom
  exact ⟨hfails, fatal_never_caught hcalled rfl 10 (.inl hfails)⟩

end Run

end Resumable
