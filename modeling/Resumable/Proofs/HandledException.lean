/-
  Resumable.Proofs.HandledException
  ─────────────────────────────────
  **WHICH EXCEPTION IS HANDLED WHEN A CAPTURE IS REACHED AGAIN.**

  The exception being handled belongs to the machine, not to a frame, and the
  records of a continuation are records of frames.  A frame that is restored
  inside a handler has its blocks and the saved slots of the handler back:

      frame      locals | … | saved type | saved value | saved trace | …    restored
      machine    handled                                                    untouched

  but the machine goes on handling whatever it handled when it was resumed.

  The argument is a count.  A run that rebuilds `n` frames executes `n` call
  instructions, and each must have entered its frame: the first frame is there
  before any instruction, and the last instruction is the call of the capture.

      frames on top of the first ones   =   1 + instructions executed

  An instruction that enters no frame, a frame that is left and an exception
  that is caught each lose a frame that nothing makes up for (`Rebuilding`), so
  none of them happens on the way, and nothing else changes what is handled.

  Main results:
    • `handled_of_replays`  — the exception handled is that of the resume,
    • `handled_rebuilt_iff` — so it is that of the capture iff the two are one.
-/
import Resumable.Proofs.Replay

namespace Resumable

/-! ## §1. Depth and handled exception of a call. -/

@[simp] theorem Vm.handled_dropArmed (vm : Vm) : vm.dropArmed.handled = vm.handled := by
  unfold dropArmed
  split <;> rfl

namespace Run

variable {vm u : Vm} {count : Nat} {r s : Run}

/-- A frame is entered, or there is no room for it. -/
theorem depth_enterFrame (vm : Vm) (pending : List Pending) (f : Frame) :
    (enterFrame vm pending f).vm.depth ≤ vm.depth + 1
      ∧ (enterFrame vm pending f).phase.isCall = false := by
  unfold enterFrame
  dsimp only
  split
  · exact ⟨Nat.le_succ _, rfl⟩
  · exact ⟨Nat.le_refl _, rfl⟩

theorem depth_beginResume (vm : Vm) (pending : List Pending) (k : Continuation) :
    (beginResume vm pending k).vm.depth ≤ vm.depth + 1
      ∧ (beginResume vm pending k).phase.isCall = false := by
  cases ho : k.outermost? with
  | none =>
      unfold beginResume
      rw [ho]
      exact ⟨Nat.le_succ _, rfl⟩
  | some outermost =>
      have h := depth_enterFrame (vm.rebuilding k.records.reverse)
        (.resume vm.dropArmed.hooks.nextId :: pending)
        (.blank outermost.function (vm.rebuilding k.records.reverse).topIndex?)
      rw [← beginResume_eq ho] at h
      have hdepth : (vm.rebuilding k.records.reverse).depth = vm.depth :=
        congrArg List.length (vm.frames_rebuilding _)
      rw [hdepth] at h
      exact h

theorem isCall_hookEnded (vm : Vm) (pending : List Pending) (id : HookNumber) (hook : Hook)
    (ids : List HookNumber) (result : Except Fault HookVerdict) :
    (hookEnded vm pending id hook ids result).phase.isCall = false := by
  unfold hookEnded
  split <;> rfl

theorem isCall_rebuildFrame (vm : Vm) (pending : List Pending) (id : HookNumber)
    (records : List Record) (ids : List HookNumber) :
    (rebuildFrame vm pending id records ids).phase.isCall = false := by
  unfold rebuildFrame
  split
  · exact isCall_hookEnded ..
  · exact isCall_hookEnded ..
  · split <;> exact isCall_hookEnded ..

theorem isCall_runHooks (vm : Vm) (pending : List Pending) (ids : List HookNumber) :
    (runHooks vm pending ids).phase.isCall = false := by
  unfold runHooks
  split
  · rfl
  · split
    · rfl
    · next hook hooks _ =>
        cases hook with
        | host name key => rfl
        | rebuild records => exact isCall_rebuildFrame { vm with hooks := hooks } pending _ records _

/-- A frame whose next instruction cannot be fetched is left. -/
theorem frames_of_fetched?_eq_none (hphase : r.phase = .loop) (hfetch : r.fetched? = none) :
    (stepFrame r.vm r.pending).vm.frames = r.vm.frames.tail
      ∧ (stepFrame r.vm r.pending).phase.isCall = false := by
  unfold stepFrame
  cases hf : r.vm.frames with
  | nil => exact ⟨hf, rfl⟩
  | cons f rest =>
      dsimp only
      split
      · exact ⟨congrArg List.tail hf, rfl⟩
      · cases hi : decodeAt f.code.bytes f.next with
        | error e =>
            rw [VmAction.fetch_of_decodeAt_error hf hi]
            exact ⟨rfl, rfl⟩
        | ok i =>
            simp only [fetched?, hphase, hf, hi] at hfetch
            exact nomatch hfetch

/-- Only a frame about to execute an instruction fetches one. -/
theorem fetched?_of_isCall (h : r.phase.isCall = true) : r.fetched? = none := by
  unfold fetched?
  split
  · next hphase _ =>
      rw [hphase] at h
      exact nomatch h
  · rfl

/-- **What a step does to the number of frames**: it enters none, or fetches an
instruction that calls, or enters the frame of a call. -/
theorem depth_of_step (hs : r.step = some s) :
    (s.vm.depth ≤ r.vm.depth ∧ s.phase.isCall = false) ∨
      ((∃ i, r.fetched? = some i) ∧ s.phase.isCall = true ∧ s.vm.depth = r.vm.depth
        ∧ s.vm.handled = r.vm.handled) ∨
      (r.phase.isCall = true ∧ ((∃ f, s = enterFrame r.vm r.pending f)
        ∨ ∃ k, s = beginResume r.vm r.pending k)) := by
  cases change_of_step hs with
  | works work quiet =>
      refine .inl ⟨Nat.le_of_eq work.frames.length_eq, ?_⟩
      revert quiet
      cases s.phase <;> intro quiet <;> first | rfl | exact nomatch quiet
  | leaves left phase_eq =>
      refine .inl ⟨?_, by rw [phase_eq]; rfl⟩
      unfold Vm.depth
      rw [left.frames_eq, List.length_tail]
      omega
  | @asks f rest i req slots phase_eq frames_eq decodes isCall slots_eq reads run_eq =>
      subst run_eq
      refine .inr (.inl ⟨⟨i, ?_⟩, rfl, (congrArg List.length frames_eq).symm, rfl⟩)
      simp only [fetched?, phase_eq, frames_eq, decodes]
      rfl
  | enters phase_eq bound run_eq => exact .inr (.inr ⟨by rw [phase_eq]; rfl, .inl ⟨_, run_eq⟩⟩)
  | resumes phase_eq native_eq positional run_eq =>
      exact .inr (.inr ⟨by rw [phase_eq]; rfl, .inr ⟨_, run_eq⟩⟩)
  | meets phase_eq native_eq met returned =>
      -- meeting the armed resume takes its hook away, no frame
      have hdepth : s.vm.depth = r.vm.dropArmed.depth := met.frames.length_eq
      exact .inl ⟨Nat.le_of_eq (hdepth.trans r.vm.depth_dropArmed), by rw [returned]; rfl⟩
  | hooked phase_eq run_eq =>
      subst run_eq
      exact .inl ⟨depth_runHooks .., isCall_runHooks ..⟩
  | ends vm_eq returned =>
      refine .inl ⟨?_, by rw [returned]; rfl⟩
      rw [vm_eq]
      exact Nat.le_of_eq (congrArg List.length (frames_endResume ..))

/-! ## §2. One frame for each instruction. -/

/-- How far a run has come that rebuilds frames on a machine and has executed
`count` instructions. -/
inductive Rebuilding (vm : Vm) (count : Nat) (r : Run) : Prop
  /-- Every instruction has entered a frame. -/
  | entered (turn : r.phase = .loop ∨ ∃ ids, r.phase = .enter ids)
      (depth_eq : r.vm.depth = vm.depth + count + 1) (handled_eq : r.vm.handled = vm.handled)
  /-- Every instruction but the last has, and that one is calling. -/
  | calling (turn : r.phase.isCall = true) (depth_eq : r.vm.depth = vm.depth + count)
      (handled_eq : r.vm.handled = vm.handled)
  /-- Some instruction has entered no frame, or its frame has been left. -/
  | behind (depth_le : r.vm.depth ≤ vm.depth + count)
      (depth_lt : r.phase.isCall = true → r.vm.depth < vm.depth + count)
  /-- The run rests. -/
  | rests (step_eq : r.step = none)

namespace Rebuilding

/-- A state that does not call is behind if it has a frame too few. -/
theorem of_depth_le (hdepth : s.vm.depth ≤ vm.depth + count) (hcall : s.phase.isCall = false) :
    Rebuilding vm count s := by
  refine .behind hdepth fun h => ?_
  rw [hcall] at h
  exact nomatch h

theorem of_enterFrame (hdepth : u.depth = vm.depth + count) (hhandled : u.handled = vm.handled)
    (pending : List Pending) (f : Frame) : Rebuilding vm count (enterFrame u pending f) := by
  unfold enterFrame
  dsimp only
  split
  · exact of_depth_le (Nat.le_of_eq hdepth) rfl
  · refine .entered (.inr ⟨_, rfl⟩) ?_ hhandled
    show (f :: u.frames).length = _
    rw [List.length_cons]
    exact congrArg (· + 1) hdepth

theorem of_beginResume (hdepth : u.depth = vm.depth + count) (hhandled : u.handled = vm.handled)
    (pending : List Pending) (k : Continuation) :
    Rebuilding vm count (beginResume u pending k) := by
  cases ho : k.outermost? with
  | none =>
      unfold beginResume
      rw [ho]
      exact of_depth_le (Nat.le_of_eq hdepth) rfl
  | some outermost =>
      have hdepth' : (u.rebuilding k.records.reverse).depth = vm.depth + count :=
        (congrArg List.length (u.frames_rebuilding _)).trans hdepth
      have hhandled' : (u.rebuilding k.records.reverse).handled = vm.handled :=
        u.handled_dropArmed.trans hhandled
      rw [beginResume_eq ho]
      exact of_enterFrame hdepth' hhandled' _ _

theorem of_hookEnded (hdepth : u.depth = vm.depth + count + 1) (hhandled : u.handled = vm.handled)
    (pending : List Pending) (id : HookNumber) (hook : Hook) (ids : List HookNumber)
    (result : Except Fault HookVerdict) :
    Rebuilding vm count (hookEnded u pending id hook ids result) := by
  unfold hookEnded
  split
  · exact .entered (.inr ⟨ids, rfl⟩) hdepth hhandled
  · exact .entered (.inr ⟨ids, rfl⟩) hdepth hhandled
  · refine of_depth_le ?_ rfl
    show u.frames.tail.length ≤ vm.depth + count
    rw [List.length_tail, show u.frames.length = vm.depth + count + 1 from hdepth]
    omega

theorem of_rebuildFrame (hdepth : u.depth = vm.depth + count + 1)
    (hhandled : u.handled = vm.handled) (pending : List Pending) (id : HookNumber)
    (records : List Record) (ids : List HookNumber) :
    Rebuilding vm count (rebuildFrame u pending id records ids) := by
  unfold rebuildFrame
  split
  · exact of_hookEnded hdepth hhandled ..
  · exact of_hookEnded hdepth hhandled ..
  · next record rest f outer hframes =>
      split
      · exact of_hookEnded hdepth hhandled ..
      · next g _ =>
          have hdepth' : Vm.depth { u with frames := g :: outer } = vm.depth + count + 1 := by
            rw [← hdepth, Vm.depth, Vm.depth, hframes, List.length_cons, List.length_cons]
          exact of_hookEnded hdepth' hhandled ..

/-- The hooks of a frame just entered leave the handled exception alone. -/
theorem of_runHooks (hdepth : u.depth = vm.depth + count + 1) (hhandled : u.handled = vm.handled)
    (pending : List Pending) (ids : List HookNumber) :
    Rebuilding vm count (runHooks u pending ids) := by
  unfold runHooks
  split
  · exact .entered (.inl rfl) hdepth hhandled
  · split
    · exact .entered (.inr ⟨_, rfl⟩) hdepth hhandled
    · next hook hooks _ =>
        cases hook with
        | host name key => exact .rests rfl
        | rebuild records =>
            have hdepth' : Vm.depth { u with hooks := hooks } = vm.depth + count + 1 := hdepth
            exact of_rebuildFrame hdepth' hhandled pending _ records _

/-- A run that is behind stays behind: an instruction enters one frame at most. -/
theorem step_of_behind (hs : r.step = some s) (hle : r.vm.depth ≤ vm.depth + count)
    (hlt : r.phase.isCall = true → r.vm.depth < vm.depth + count) :
    Rebuilding vm (count + r.fetched?.toList.length) s := by
  rcases depth_of_step hs with ⟨hdepth, hcall⟩ | ⟨⟨i, hi⟩, -, hdepth, -⟩ | ⟨hcall, hentered⟩
  · exact of_depth_le (by omega) hcall
  · rw [hi]
    refine .behind ?_ fun _ => ?_
    · show s.vm.depth ≤ vm.depth + (count + 1)
      omega
    · show s.vm.depth < vm.depth + (count + 1)
      omega
  · have hroom := hlt hcall
    rcases hentered with ⟨f, rfl⟩ | ⟨k, rfl⟩
    · obtain ⟨hdepth, hnot⟩ := depth_enterFrame r.vm r.pending f
      exact of_depth_le (by omega) hnot
    · obtain ⟨hdepth, hnot⟩ := depth_beginResume r.vm r.pending k
      exact of_depth_le (by omega) hnot

/-- **One step of a run that rebuilds frames.** -/
theorem step (h : Rebuilding vm count r) (hs : r.step = some s) :
    Rebuilding vm (count + r.fetched?.toList.length) s := by
  cases h with
  | rests step_eq => cases step_eq.symm.trans hs
  | behind depth_le depth_lt => exact step_of_behind hs depth_le depth_lt
  | calling turn depth_eq handled_eq =>
      rw [fetched?_of_isCall turn]
      rcases depth_of_step hs with ⟨hdepth, hcall⟩ | ⟨⟨i, hi⟩, -⟩ | ⟨-, hentered⟩
      · exact of_depth_le (Nat.le_trans hdepth (Nat.le_of_eq depth_eq)) hcall
      · cases (fetched?_of_isCall turn).symm.trans hi
      · rcases hentered with ⟨f, rfl⟩ | ⟨k, rfl⟩
        · exact of_enterFrame depth_eq handled_eq r.pending f
        · exact of_beginResume depth_eq handled_eq r.pending k
  | entered turn depth_eq handled_eq =>
      -- a frame just entered either fetches its call or has hooks to come
      rcases turn with hphase | ⟨ids, hphase⟩
      · cases hfetch : r.fetched? with
        | none =>
            obtain rfl : stepFrame r.vm r.pending = s := by
              simpa only [Run.step, hphase, Option.some.injEq] using hs
            obtain ⟨hframes, hcall⟩ := frames_of_fetched?_eq_none hphase hfetch
            refine of_depth_le ?_ hcall
            show (stepFrame r.vm r.pending).vm.frames.length ≤ vm.depth + count
            rw [hframes, List.length_tail,
              show r.vm.frames.length = vm.depth + count + 1 from depth_eq]
            omega
        | some i =>
            rcases depth_of_step hs with ⟨hdepth, hcall⟩ | ⟨-, hcall, hdepth, hsame⟩ | ⟨hcall, -⟩
            · -- an instruction that calls nothing: from here on a frame is missing
              exact of_depth_le (by rw [depth_eq] at hdepth; exact hdepth) hcall
            · exact .calling hcall (hdepth.trans depth_eq) (hsame.trans handled_eq)
            · rw [hphase] at hcall
              cases hcall
      · obtain rfl : runHooks r.vm r.pending ids = s := by
          simpa only [Run.step, hphase, Option.some.injEq] using hs
        have hfetch : r.fetched? = none := by
          simp only [fetched?, hphase]
        rw [hfetch]
        exact of_runHooks depth_eq handled_eq r.pending ids

/-- Every state of a run that starts by entering the first frame. -/
theorem of_steps (h : Rebuilding vm count r) (n : Nat) :
    Rebuilding vm (count + (executed n r).length) (steps n r) := by
  induction n generalizing r count with
  | zero => exact h
  | succ n ih =>
      cases hs : r.step with
      | none =>
          rw [steps_of_step_eq_none hs]
          exact .rests hs
      | some s =>
          have hrest := ih (h.step hs)
          rw [steps_succ_of_step hs, executed_succ hs, List.length_append, ← Nat.add_assoc]
          exact hrest

end Rebuilding

/-! ## §3. The exception handled at the rebuilt capture. -/

/-- **The exception handled when a capture is reached again is the one that was
handled when the continuation was resumed.** -/
theorem handled_of_replays {k : Continuation} {pending : List Pending} {frames : List Frame}
    {m : Nat} (h : (beginResume vm pending k).Replays vm.frames frames m) :
    (steps m (beginResume vm pending k)).vm.handled = vm.handled := by
  have hcount : (executed m (beginResume vm pending k)).length = frames.length := by
    have hmap := congrArg List.length h.executed_eq
    rwa [List.length_map, List.length_map, List.length_reverse] at hmap
  have hdepth : (steps m (beginResume vm pending k)).vm.depth = frames.length + vm.depth := by
    unfold Vm.depth
    rw [h.frames_eq, List.length_append, List.length_map]
  have hcall : (steps m (beginResume vm pending k)).phase.isCall = true := by
    have hcapture := h.calls
    revert hcapture
    cases (steps m (beginResume vm pending k)).phase <;> intro hcapture <;>
      first | rfl | exact nomatch hcapture
  have hstart : Rebuilding vm 0 (beginResume vm pending k) := .of_beginResume rfl rfl pending k
  have hend := hstart.of_steps m
  rw [Nat.zero_add, hcount] at hend
  -- all `frames` are there and the last instruction is calling: nothing has gone astray
  cases hend with
  | calling _ _ handled_eq => exact handled_eq
  | entered turn =>
      rcases turn with hphase | ⟨ids, hphase⟩
      · rw [hphase] at hcall
        exact nomatch hcall
      · rw [hphase] at hcall
        exact nomatch hcall
  | behind _ depth_lt =>
      have hlt := depth_lt hcall
      omega
  | rests step_eq =>
      obtain ⟨s, place, hs, -⟩ := h.answers
      exact nomatch step_eq.symm.trans hs

theorem Captures.handled_eq {k : Continuation} (h : r.Captures s k) :
    s.vm.handled = r.vm.handled := by
  obtain ⟨b, args, positional, -, -, -, -, rfl⟩ := h.step_cases
  rfl

/-- A captured chain is rebuilt on any later machine on which its calls in flight
still take the arguments they took. -/
theorem Captures.rebuilds {outside : Vm → Vm → Prop} {past : List Run} {k : Continuation}
    {store : Store} (hcapture : r.Captures s k)
    (hout : ∀ vm vm', outside vm vm' → vm'.frames = vm.frames)
    (hhistory : History Begins outside (r :: past)) (hcalls : CallsNext r.vm.frames)
    (hkept : ArgumentsKept (r :: past) store r.vm.frames) : Rebuilds k store r.vm.frames := by
  obtain ⟨f, rest, i, req, b, positional, hframes, hk, hf, hcallee, hb, hpos⟩ :=
    hcapture.records hout hhistory
  have hsus := (sound_of_history hout hhistory).suspended
  rw [hframes] at hsus hcalls hkept hk ⊢
  have hinner := hf.congr (List.map_inj_left.mp hkept.1)
  exact rebuilds_of_linked hk (linked_of_suspended hsus hcalls hkept) hinner hcallee hb hpos

/-- **A resume rebuilds the exception handled at the capture exactly when it
starts with it.**  On any later machine with room for the frames and without
other hooks the rebuilt capture is reached, and whenever it is, the exception
handled is the one handled at the first capture iff that one was being handled
when the continuation was resumed. -/
theorem handled_rebuilt_iff {outside : Vm → Vm → Prop} {past : List Run} {k : Continuation}
    (hout : ∀ vm vm', outside vm vm' → vm'.frames = vm.frames)
    (hhistory : History Begins outside (r :: past)) (hcapture : r.Captures s k)
    (hcalls : CallsNext r.vm.frames) (vm : Vm) (pending : List Pending)
    (hkept : ArgumentsKept (r :: past) vm.store r.vm.frames)
    (hhooks : vm.dropArmed.hooks.entries = [])
    (hroom : vm.depth + r.vm.depth ≤ vm.config.frameLimit) :
    (∃ m, (beginResume vm pending k).Replays vm.frames r.vm.frames m) ∧
      ∀ m, (beginResume vm pending k).Replays vm.frames r.vm.frames m →
        ((steps m (beginResume vm pending k)).vm.handled = r.vm.handled ↔
          vm.handled = r.vm.handled) := by
  refine ⟨hcapture.rebuilds hout hhistory hcalls hkept vm pending rfl hhooks hroom, ?_⟩
  intro m hreplays
  rw [handled_of_replays hreplays]

/-! ## §4. A capture in a handler. -/

/-- A body that catches an exception and captures in the handler. -/
def catching : Code where
  name := "f"
  qualname := "f"
  filename := ""
  firstLine := 1
  bytes := encodeAll
    [(.setupExcept, 9), (.loadGlobal, 0), (.callFunction, 0), (.raise, 0),
      (.popTop, 0), (.loadGlobal, 1), (.callFunction, 0), (.storeGlobal, 2), (.popExcept, 0),
      (.loadConst, 0), (.returnValue, 0)]
  constants := #[.int 5]
  names := #["Exception", "capture", "k"]
  varnames := #[]
  argCount := 0
  lines := []

/-- A call of the body that captures in a handler. -/
def catchingRun : Run :=
  ofCall
    { globals := [("capture", .builtin ⟨0, .capture⟩), ("Exception", .builtin ⟨1, .exception⟩)]
      store := { serial := 3 } }
    (.function ⟨2, catching⟩) {}

theorem begins_catchingRun : Begins catchingRun :=
  Begins.call (.function ⟨2, catching⟩) {} rfl

theorem captures_catchingRun : (steps 11 catchingRun).Captures (steps 12 catchingRun)
    ((steps 12 catchingRun).vm.store.continuation 0) :=
  ⟨⟨⟨0, .capture⟩, {}, by cbv, rfl⟩, by decide +kernel,
    fun h => absurd (congrArg List.length h) (by decide +kernel), by cbv, 0, by cbv, rfl⟩

/-- Resumed while the handler is still active, the continuation is rebuilt with
the exception it was captured with. -/
theorem handled_rebuilt_catching :
    ∃ m, (beginResume (steps 12 catchingRun).vm []
        ((steps 12 catchingRun).vm.store.continuation 0)).Replays
          (steps 12 catchingRun).vm.frames (steps 11 catchingRun).vm.frames m
      ∧ (steps m (beginResume (steps 12 catchingRun).vm []
        ((steps 12 catchingRun).vm.store.continuation 0))).vm.handled
          = (steps 11 catchingRun).vm.handled := by
  have hhistory := history_trail (fun vm vm' => vm'.frames = vm.frames) begins_catchingRun 11
  have hhooks : (steps 12 catchingRun).vm.dropArmed.hooks.entries = [] :=
    List.length_eq_zero_iff.mp (by decide +kernel)
  obtain ⟨⟨m, hreplays⟩, hiff⟩ := handled_rebuilt_iff (fun _ _ h => h) hhistory
    captures_catchingRun (by cbv) (steps 12 catchingRun).vm [] (by cbv) hhooks (by decide +kernel)
  exact ⟨m, hreplays, (hiff m hreplays).mpr captures_catchingRun.handled_eq⟩

/-- Resumed after the call has ended, it is rebuilt inside the handler, but
nothing is being handled there. -/
theorem not_handled_rebuilt :
    History Begins (fun vm vm' => vm'.frames = vm.frames)
        (steps 11 catchingRun :: (trail 11 catchingRun).tail)
      ∧ (steps 11 catchingRun).Captures (steps 12 catchingRun)
        ((steps 12 catchingRun).vm.store.continuation 0)
      ∧ (∃ f ∈ (steps 11 catchingRun).vm.frames, ∃ level, Block.handling level ∈ f.blocks)
      ∧ ∃ m, (beginResume (steps 17 catchingRun).vm []
          ((steps 12 catchingRun).vm.store.continuation 0)).Replays []
            (steps 11 catchingRun).vm.frames m
        ∧ (steps m (beginResume (steps 17 catchingRun).vm []
          ((steps 12 catchingRun).vm.store.continuation 0))).vm.handled
            ≠ (steps 11 catchingRun).vm.handled := by
  have hhistory := history_trail (fun vm vm' => vm'.frames = vm.frames) begins_catchingRun 11
  have hhooks : (steps 17 catchingRun).vm.dropArmed.hooks.entries = [] :=
    List.length_eq_zero_iff.mp (by decide +kernel)
  have hframes : (steps 17 catchingRun).vm.frames = [] :=
    List.length_eq_zero_iff.mp (by decide +kernel)
  have hrebuilds : Rebuilds ((steps 12 catchingRun).vm.store.continuation 0)
      (steps 17 catchingRun).vm.store (steps 11 catchingRun).vm.frames :=
    captures_catchingRun.rebuilds (fun _ _ h => h) hhistory (by cbv) (by cbv)
  obtain ⟨m, hreplays⟩ :=
    hrebuilds (steps 17 catchingRun).vm [] rfl hhooks (by decide +kernel)
  refine ⟨hhistory, captures_catchingRun, ?_, m, hframes ▸ hreplays, ?_⟩
  · have hany : (steps 11 catchingRun).vm.frames.any (fun f => f.blocks.contains (.handling 0))
        = true := by decide +kernel
    obtain ⟨f, hf, hblock⟩ := List.any_eq_true.mp hany
    exact ⟨f, hf, 0, List.contains_iff_mem.mp hblock⟩
  · rw [handled_of_replays hreplays]
    have hnone : (steps 17 catchingRun).vm.handled.isSome = false := by decide +kernel
    have hsome : (steps 11 catchingRun).vm.handled.isSome = true := by decide +kernel
    intro heq
    rw [heq, hsome] at hnone
    cases hnone

end Run

end Resumable
