/-
  Resumable.Proofs.Sessions
  ─────────────────────────
  **A MACHINE AND ALL THAT RUNS ON IT.**

  The host begins a run on a machine and waits for it to end.  The run may ask
  the host in return, with a hook or with a function of the host, and while it
  waits the host may begin other runs on the same machine, which may ask again:

      host ── begin ──▸ run ── ask ──▸ host ── begin ──▸ run ── … ──▸ done
                         ▴                                             │
                         └───────────────── answer ────────────────────┘

  A session is who has the machine, and the runs that wait for the host.  What
  the host may do with the machine while it has it is told by a `Host`.  The
  `Host.free` of this module does as it likes but for the chain of hooks: nothing
  but resumes installs hooks, and nothing but their captures and returns removes
  them.

  Main results:
    • `Session.move_of_next`      — each step of a session is a move of `ArmState`,
    • `Session.hooks_of_returns`  — what a resume leaves of the chain it began with,
    • `Session.arm_protocol`      — the protocol of armed resumes and their hooks.
-/
import Resumable.Proofs.ArmState
import Resumable.Proofs.HandledException
import Resumable.Proofs.NestedResume

namespace Resumable

open VmAction

/-! ## §1. Sessions. -/

/-- The resume that waits for a result, if it is one. -/
def Pending.opened? : Pending → Option Opened
  | .resume id => some (.resume id)
  | _ => none

namespace Run

/-- What a run has open: the host hook that is running, and its resumes. -/
def opened (r : Run) : List Opened :=
  (match r.phase with
    | .atHook id hook _ => [.hook id hook]
    | _ => []) ++ r.pending.filterMap Pending.opened?

/-- The runs that the host can begin on a machine. -/
inductive BegunOn (vm : Vm) : Run → Prop
  | call (callee : Value) (args : Arguments) : BegunOn vm (ofCall vm callee args)
  | global (name : String) (args : Arguments) : BegunOn vm (ofGlobal vm name args)
  | code (c : Code) : BegunOn vm (ofCode vm c)
  | frame (f : Frame) : BegunOn vm (ofFrame vm f)
  | continuation (k : Continuation) : BegunOn vm (ofContinuation vm k)
  | instruction (i : Instruction) : BegunOn vm (ofInstruction vm i)

/-- Whether a run waits for the host. -/
def WaitsForHost (r : Run) : Prop :=
  (∃ id hook ids, r.phase = .atHook id hook ids) ∨ ∃ name args, r.phase = .atHost name args

/-- Whether a run has ended: it has a result that nothing waits for. -/
def Over (r : Run) : Prop :=
  r.pending = [] ∧ ((∃ result, r.phase = .returned result) ∨ ∃ flow, r.phase = .ended flow)

end Run

/-- Who has the machine. -/
inductive Floor where
  /-- The host. -/
  | host (vm : Vm)
  /-- A run. -/
  | run (r : Run)

namespace Floor

def vm : Floor → Vm
  | host vm => vm
  | run r => r.vm

def opened : Floor → List Opened
  | host _ => []
  | run r => r.opened

end Floor

/-- A machine in use: who has it, and the runs that wait for the host, the
latest first. -/
structure Session where
  floor : Floor
  waiting : List Run

/-- What a host may do with a machine. -/
structure Host where
  /-- How it may change a machine that it has. -/
  touches : Vm → Vm → Prop
  /-- The runs it may begin on a machine. -/
  begins : Vm → Run → Prop
  /-- What a hook of its may come to. -/
  judges : Except Fault HookVerdict → Prop
  /-- What a function of its may come to. -/
  answers : Except Fault Value → Prop

/-- A host that leaves the hooks alone. -/
def Host.free : Host where
  touches vm vm' := vm'.hooks = vm.hooks ∧ vm'.armed = vm.armed
  begins vm r := r.BegunOn vm
  judges result := result ≠ .ok .remove
  answers _ := True

namespace Session

/-- The machine. -/
def vm (s : Session) : Vm :=
  s.floor.vm

/-- What is open, the innermost first. -/
def opened (s : Session) : List Opened :=
  s.floor.opened ++ s.waiting.flatMap Run.opened

/-- What resumes work on. -/
def arms (s : Session) : ArmState :=
  ⟨s.vm.hooks, s.vm.armed, s.opened⟩

/-- The steps of a session. -/
inductive Next (host : Host) : Session → Session → Prop
  /-- The host changes the machine. -/
  | touch {vm vm' : Vm} {waiting : List Run} :
      host.touches vm vm' → Next host ⟨.host vm, waiting⟩ ⟨.host vm', waiting⟩
  /-- The host takes a continuation, or meets the resume that is armed. -/
  | take {vm : Vm} {waiting : List Run} :
      Next host ⟨.host vm, waiting⟩ ⟨.host (stateAfter capture vm), waiting⟩
  /-- The host begins a run. -/
  | begin {vm : Vm} {r : Run} {waiting : List Run} :
      host.begins vm r → Next host ⟨.host vm, waiting⟩ ⟨.run r, waiting⟩
  /-- A run takes a step. -/
  | step {r r' : Run} {waiting : List Run} :
      r.step = some r' → Next host ⟨.run r, waiting⟩ ⟨.run r', waiting⟩
  /-- A run asks the host. -/
  | ask {r : Run} {waiting : List Run} :
      r.WaitsForHost → Next host ⟨.run r, waiting⟩ ⟨.host r.vm, r :: waiting⟩
  /-- The host answers with what a hook of its has come to. -/
  | hook {vm : Vm} {r : Run} {waiting : List Run} {id : HookNumber} {hook : Hook}
      {ids : List HookNumber} {result : Except Fault HookVerdict} :
      r.phase = .atHook id hook ids → host.judges result →
      Next host ⟨.host vm, r :: waiting⟩ ⟨.run (r.answerHook vm result), waiting⟩
  /-- The host answers with what a function of its has come to. -/
  | answer {vm : Vm} {r : Run} {waiting : List Run} {name : String} {args : Arguments}
      {result : Except Fault Value} :
      r.phase = .atHost name args → host.answers result →
      Next host ⟨.host vm, r :: waiting⟩ ⟨.run (r.answerHost vm result), waiting⟩
  /-- A run has ended. -/
  | done {r : Run} {waiting : List Run} :
      r.Over → Next host ⟨.run r, waiting⟩ ⟨.host r.vm, waiting⟩

/-- Any number of steps. -/
def Reaches (host : Host) : Session → Session → Prop :=
  Relation.ReflTransGen (Next host)

end Session

/-! ## §2. What the parts of a step do to hooks and resumes. -/

namespace Run

variable {vm vm' : Vm} {pending : List Pending} {outer : List Opened} {r s : Run}

/-- What resumes work on, with other runs under this one. -/
def arms (r : Run) (outer : List Opened) : ArmState :=
  ⟨r.vm.hooks, r.vm.armed, r.opened ++ outer⟩

/-- A run that does not wait for a hook has its resumes open. -/
theorem opened_of_phase (h : ∀ id hook ids, r.phase ≠ .atHook id hook ids) :
    r.opened = r.pending.filterMap Pending.opened? := by
  unfold opened
  cases hphase : r.phase with
  | atHook id hook ids => exact absurd hphase (h id hook ids)
  | _ => rfl

theorem arms_eq_of_works (h : vm.Works vm') (hphase : ∀ id hook ids, r.phase ≠ .atHook id hook ids)
    (hvm : r.vm = vm') (hpending : r.pending = pending) :
    r.arms outer = ⟨vm.hooks, vm.armed, pending.filterMap Pending.opened? ++ outer⟩ := by
  unfold arms
  rw [opened_of_phase hphase, hvm, hpending, h.hooks_eq, h.armed_eq]

/-- Going on in a frame, or leaving it. -/
theorem arms_follow (h : vm.Works vm') (pending : List Pending) (result : Except Fault Flow) :
    (follow vm' pending result).arms outer
      = ⟨vm.hooks, vm.armed, pending.filterMap Pending.opened? ++ outer⟩ := by
  have hpending := pending_follow vm' pending result
  obtain ⟨hw, hphase⟩ | ⟨result', hl, hphase⟩ := follow_cases h pending result
  · refine arms_eq_of_works hw ?_ rfl hpending
    intro id hook ids hat
    rw [hphase] at hat
    cases hat
  · unfold arms
    rw [opened_of_phase ?_, hpending, hl.hooks_eq, hl.armed_eq]
    intro id hook ids hat
    rw [hphase] at hat
    cases hat

/-- Executing the next instruction. -/
theorem arms_stepFrame (vm : Vm) (pending : List Pending) :
    (stepFrame vm pending).arms outer
      = ⟨vm.hooks, vm.armed, pending.filterMap Pending.opened? ++ outer⟩ := by
  unfold stepFrame
  cases hframes : vm.frames with
  | nil => rfl
  | cons f rest =>
      dsimp only
      split
      · rfl
      · cases hfetch : onFrame FrameAction.fetch vm with
        | error e u =>
            have hw := (keeps_onFrame FrameAction.keeps_fetch).of_error hfetch
            show ArmState.mk u.hooks u.armed _ = _
            rw [hw.hooks_eq, hw.armed_eq]
            rfl
        | ok i u =>
            have hw := (keeps_onFrame FrameAction.keeps_fetch).of_ok hfetch
            dsimp only
            unfold perform
            cases he : execute i u with
            | error e w => exact arms_follow (hw.trans ((keeps_execute i).of_error he)) _ _
            | ok outcome w =>
                have hw' := hw.trans ((keeps_execute i).of_ok he)
                cases outcome with
                | flow flow => exact arms_follow hw' _ _
                | call request =>
                    show ArmState.mk w.hooks w.armed _ = _
                    rw [hw'.hooks_eq, hw'.armed_eq]
                    rfl
                | breakOff =>
                    show ArmState.mk w.hooks w.armed _ = _
                    rw [hw'.hooks_eq, hw'.armed_eq]
                    rfl

/-- Entering a frame, if there is room for it. -/
theorem arms_enterFrame (vm : Vm) (pending : List Pending) (f : Frame) :
    (enterFrame vm pending f).arms outer
      = ⟨vm.hooks, vm.armed, pending.filterMap Pending.opened? ++ outer⟩ := by
  unfold enterFrame
  dsimp only
  split <;> rfl

/-- A capture that succeeds answers a value. -/
theorem callCapture_value {args : Arguments} {outcome : NativeOutcome}
    (h : callNative .capture args vm = .ok outcome vm') : ∃ v, outcome = .value v := by
  obtain ⟨_, _, -, h⟩ := action_bind_ok.mp h
  obtain ⟨_, _, -, h⟩ := action_bind_ok.mp h
  obtain ⟨v, _, -, h⟩ := action_bind_ok.mp h
  exact ⟨v, (action_pure_ok.mp h).1⟩

theorem disarmed_eq (vm : Vm) (opened : List Opened) :
    ArmState.disarmed ⟨vm.hooks, vm.armed, opened⟩
      = ⟨vm.dropArmed.hooks, vm.dropArmed.armed, opened⟩ := by
  unfold ArmState.disarmed Vm.dropArmed
  cases harmed : vm.armed with
  | none => simp [harmed]
  | some id => rfl

/-- The start of a resume, if there is anything to resume. -/
theorem arms_beginResume {k : Continuation} (hk : k.records ≠ []) (vm : Vm)
    (pending : List Pending) :
    (beginResume vm pending k).arms outer
      = ArmState.begun ⟨vm.hooks, vm.armed, pending.filterMap Pending.opened? ++ outer⟩
          k.records.reverse := by
  obtain ⟨outermost, hout⟩ : ∃ outermost, k.outermost? = some outermost := by
    cases ho : k.outermost? with
    | some outermost => exact ⟨outermost, rfl⟩
    | none => exact absurd (List.getLast?_eq_none_iff.mp ho) hk
  rw [beginResume_eq hout, arms_enterFrame]
  unfold ArmState.begun
  rw [disarmed_eq]
  rfl

theorem move_beginResume (vm : Vm) (pending : List Pending) (k : Continuation) :
    ArmState.Move ⟨vm.hooks, vm.armed, pending.filterMap Pending.opened? ++ outer⟩
      ((beginResume vm pending k).arms outer) := by
  by_cases hk : k.records = []
  · have hout : k.outermost? = none := List.getLast?_eq_none_iff.mpr hk
    unfold beginResume
    rw [hout]
    exact .stay _
  · rw [arms_beginResume hk]
    exact .begin _ _

/-- What does not touch the hooks is no move. -/
theorem move_of_works {u : Vm} {phase : Phase} (h : vm.Works u)
    (hphase : ∀ id hook ids, phase ≠ .atHook id hook ids) (pending : List Pending) :
    ArmState.Move ⟨vm.hooks, vm.armed, pending.filterMap Pending.opened? ++ outer⟩
      (arms ⟨u, pending, phase⟩ outer) := by
  rw [arms_eq_of_works (r := ⟨u, pending, phase⟩) h hphase rfl rfl]
  exact .stay _

/-- A capture that gets as far as meets the armed resume. -/
theorem move_of_meets {u : Vm} {phase : Phase} (h : vm.dropArmed.Works u)
    (hphase : ∀ id hook ids, phase ≠ .atHook id hook ids) (pending : List Pending) :
    ArmState.Move ⟨vm.hooks, vm.armed, pending.filterMap Pending.opened? ++ outer⟩
      (arms ⟨u, pending, phase⟩ outer) := by
  rw [arms_eq_of_works (r := ⟨u, pending, phase⟩) h hphase rfl rfl, ← disarmed_eq]
  exact .meet _

/-- A call. -/
theorem move_beginCall (vm : Vm) (pending : List Pending) (callee : Value) (args : Arguments) :
    ArmState.Move ⟨vm.hooks, vm.armed, pending.filterMap Pending.opened? ++ outer⟩
      ((beginCall vm pending callee args).arms outer) := by
  have hreturned (result : Except Fault Value) :
      ∀ id hook ids, Phase.returned result ≠ .atHook id hook ids := by
    intro id hook ids hat
    cases hat
  unfold beginCall
  split
  · next fn =>
      cases hl : lift ((fn.code.bind args).mapError Cause.badArguments) vm with
      | ok locals u =>
          obtain ⟨-, rfl⟩ := lift_ok.mp hl
          dsimp only
          rw [arms_enterFrame]
          exact .stay _
      | error e u => exact move_of_works ((Vm.Works.steady.keeps_lift _).of_error hl) (hreturned _) pending
  · next b =>
      by_cases hc : b.native = .capture
      · rw [hc]
        cases hn : callNative .capture args vm with
        | error e u =>
            -- a capture may meet the armed resume, also when it fails afterwards
            rcases (keeps_callCapture args).of_error hn with hw | hw
            · exact move_of_works hw (hreturned _) pending
            · exact move_of_meets hw (hreturned _) pending
        | ok outcome u =>
            obtain ⟨k, rfl⟩ := callCapture_value hn
            rcases (keeps_callCapture args).of_ok hn with hw | hw
            · exact move_of_works hw (hreturned _) pending
            · exact move_of_meets hw (hreturned _) pending
      · cases hn : callNative b.native args vm with
        | error e u =>
            exact move_of_works ((keeps_callNative hc args).of_error hn) (hreturned _) pending
        | ok outcome u =>
            have hw := (keeps_callNative hc args).of_ok hn
            cases outcome with
            | value v => exact move_of_works hw (hreturned _) pending
            | ask name =>
                refine move_of_works hw ?_ pending
                intro id hook ids hat
                cases hat
            | resume k =>
                obtain ⟨-, rfl, -⟩ := callNative_resume_ok hn
                exact move_beginResume u pending k
  · exact move_of_works (Vm.Works.steady.keeps_raise (α := Value) (.notCallable callee.typeName) vm)
      (hreturned _) pending

/-- The end of a hook's turn. -/
theorem arms_hookEnded {result : Except Fault HookVerdict} (h : result ≠ .ok .remove) (vm : Vm)
    (pending : List Pending) (id : HookNumber) (hook : Hook) (ids : List HookNumber) :
    (hookEnded vm pending id hook ids result).arms outer
      = ⟨vm.hooks.finish id hook, vm.armed, pending.filterMap Pending.opened? ++ outer⟩ := by
  unfold hookEnded
  split
  · rfl
  · exact absurd rfl h
  · rfl

/-- The hooks see the frame just entered. -/
theorem move_runHooks (vm : Vm) (pending : List Pending) (ids : List HookNumber) :
    ArmState.Move ⟨vm.hooks, vm.armed, pending.filterMap Pending.opened? ++ outer⟩
      ((runHooks vm pending ids).arms outer) := by
  unfold runHooks
  split
  · exact .stay _
  · next id ids =>
      cases hs : vm.hooks.start? id with
      | none => exact .stay _
      | some found =>
          obtain ⟨hook, hooks⟩ := found
          cases hook with
          | host name key => exact .ask hs
          | rebuild records =>
              -- a record is put into the frame, or the frame fails; the hook goes after the last
              have hturn (u : Vm) (hu : u.hooks = hooks) (ha : u.armed = vm.armed)
                  (left : List Record) (e : Fault) :
                  ArmState.Move ⟨vm.hooks, vm.armed, pending.filterMap Pending.opened? ++ outer⟩
                    ((hookEnded u pending id (.rebuild left) ids (.error e)).arms outer) := by
                rw [arms_hookEnded (by intro heq; cases heq), hu, ha]
                exact .turn left hs
              dsimp only
              unfold rebuildFrame
              split
              · exact .lastTurn hs
              · exact hturn { vm with hooks := hooks } rfl rfl _ _
              · next record left f outer' hframes =>
                  cases f.putRecord record with
                  | error e => exact hturn { vm with hooks := hooks } rfl rfl _ _
                  | ok g =>
                      dsimp only
                      split
                      · exact .lastTurn hs
                      · exact .turn left hs

/-- A result goes to what waits for it. -/
theorem move_deliver (vm : Vm) (waits : Pending) (pending : List Pending)
    (result : Except Fault Value) :
    ArmState.Move ⟨vm.hooks, vm.armed, (waits :: pending).filterMap Pending.opened? ++ outer⟩
      ((deliver vm waits pending result).arms outer) := by
  have hsite (slots : Nat) : vm.Works (siteFlow vm slots result).2 := by
    unfold siteFlow
    cases result with
    | error e => exact Vm.Works.refl _
    | ok v =>
        dsimp only
        cases hf : finishCall slots v vm with
        | ok a u => exact (keeps_finishCall slots v).of_ok hf
        | error e u => exact (keeps_finishCall slots v).of_error hf
  cases waits with
  | site slots =>
      show ArmState.Move _ ((follow (siteFlow vm slots result).2 pending _).arms outer)
      rw [arms_follow (hsite slots)]
      exact .stay _
  | lone slots =>
      refine move_of_works (hsite slots) ?_ pending
      intro id hook ids hat
      cases hat
  | resume id =>
      have hend : (deliver vm (.resume id) pending result).arms outer
          = ArmState.finished ⟨vm.hooks, vm.armed,
              (Pending.resume id :: pending).filterMap Pending.opened? ++ outer⟩ id
              (pending.filterMap Pending.opened? ++ outer) := by
        show ArmState.mk (endResume vm id).hooks (endResume vm id).armed _ = _
        unfold endResume ArmState.finished
        dsimp only
        split <;> rfl
      rw [hend]
      exact .finish rfl

/-- **A step of a run is a move**, whatever runs wait under it. -/
theorem move_of_step (hs : r.step = some s) (outer : List Opened) :
    ArmState.Move (r.arms outer) (s.arms outer) := by
  -- what is open changes with the pending calls alone, unless a hook is running
  have hopened (h : ∀ id hook ids, r.phase ≠ .atHook id hook ids) :
      r.arms outer = ⟨r.vm.hooks, r.vm.armed, r.pending.filterMap Pending.opened? ++ outer⟩ := by
    unfold arms
    rw [opened_of_phase h]
  unfold step at hs
  cases hphase : r.phase with
  | loop =>
      rw [hphase] at hs
      obtain rfl := Option.some.inj hs
      rw [hopened (by intro id hook ids hat; rw [hphase] at hat; cases hat), arms_stepFrame]
      exact .stay _
  | call callee args =>
      rw [hphase] at hs
      obtain rfl := Option.some.inj hs
      rw [hopened (by intro id hook ids hat; rw [hphase] at hat; cases hat)]
      exact move_beginCall ..
  | enter ids =>
      rw [hphase] at hs
      obtain rfl := Option.some.inj hs
      rw [hopened (by intro id hook ids hat; rw [hphase] at hat; cases hat)]
      exact move_runHooks ..
  | returned result =>
      rw [hphase] at hs
      rw [hopened (by intro id hook ids hat; rw [hphase] at hat; cases hat)]
      cases hpending : r.pending with
      | nil =>
          rw [hpending] at hs
          cases hs
      | cons waits pending =>
          rw [hpending] at hs
          obtain rfl := Option.some.inj hs
          exact move_deliver ..
  | atHook id hook ids =>
      rw [hphase] at hs
      cases hs
  | atHost name args =>
      rw [hphase] at hs
      cases hs
  | ended result =>
      rw [hphase] at hs
      cases hs
  | brokenOff =>
      rw [hphase] at hs
      cases hs

/-- Beginning a run is a move. -/
theorem move_of_begunOn (h : r.BegunOn vm) (outer : List Opened) :
    ArmState.Move ⟨vm.hooks, vm.armed, outer⟩ (r.arms outer) := by
  cases h with
  | call callee args => exact .stay _
  | global name args =>
      unfold ofGlobal
      cases vm.globals.find? name with
      | some callee => exact .stay _
      | none => exact .stay _
  | code c =>
      unfold ofCode
      dsimp only
      rw [arms_enterFrame]
      exact .stay _
  | frame f =>
      unfold ofFrame
      rw [arms_enterFrame]
      exact .stay _
  | continuation k => exact move_beginResume vm [] k
  | instruction i =>
      unfold ofInstruction
      cases he : execute i vm with
      | error e u =>
          have hw := (keeps_execute i).of_error he
          show ArmState.Move _ (ArmState.mk u.hooks u.armed _)
          rw [hw.hooks_eq, hw.armed_eq]
          exact .stay _
      | ok outcome u =>
          have hw := (keeps_execute i).of_ok he
          cases outcome <;>
            · show ArmState.Move _ (ArmState.mk u.hooks u.armed _)
              rw [hw.hooks_eq, hw.armed_eq]
              exact .stay _

end Run

namespace Session

variable {chain : EntryHooks} {start : Vm} {s t : Session} {id : HookNumber} {k : Continuation}

/-- The steps of a run are steps of the session. -/
theorem reaches_steps (host : Host) (n : Nat) (r : Run) (waiting : List Run) :
    Reaches host ⟨.run r, waiting⟩ ⟨.run (Run.steps n r), waiting⟩ := by
  induction n generalizing r with
  | zero => exact .refl
  | succ n ih =>
      cases hs : r.step with
      | none =>
          rw [Run.steps_of_step_eq_none hs]
          exact .refl
      | some r' =>
          rw [Run.steps_succ_of_step hs]
          exact .head (.step hs) (ih r')

/-! ## §3. A session keeps the chain in order. -/

/-- **Each step of a session is a move.** -/
theorem move_of_next (h : Next .free s t) : ArmState.Move s.arms t.arms := by
  cases h with
  | @touch vm vm' waiting hsame =>
      obtain ⟨hhooks, harmed⟩ := hsame
      show ArmState.Move ⟨vm.hooks, vm.armed, _⟩ ⟨vm'.hooks, vm'.armed, _⟩
      rw [hhooks, harmed]
      exact .stay _
  | @take vm waiting =>
      rw [stateAfter_capture]
      show ArmState.Move ⟨vm.hooks, vm.armed, _⟩ ⟨vm.dropArmed.hooks, vm.dropArmed.armed, _⟩
      rw [← Run.disarmed_eq]
      exact .meet _
  | begin hbegun => exact Run.move_of_begunOn hbegun _
  | step hstep => exact Run.move_of_step hstep _
  | ask hasks => exact .stay _
  | @hook vm r waiting id hook ids result hphase hkept =>
      -- the answer of a hook settles the innermost thing that is open
      have hopened : r.opened = .hook id hook :: r.pending.filterMap Pending.opened? := by
        unfold Run.opened
        rw [hphase]
        rfl
      show ArmState.Move ⟨vm.hooks, vm.armed, r.opened ++ waiting.flatMap Run.opened⟩
        ((r.answerHook vm result).arms _)
      rw [Run.answerHook_eq hphase, Run.arms_hookEnded hkept, hopened]
      exact .reply rfl
  | @answer vm r waiting name args result hphase _ =>
      have hopened : r.opened = r.pending.filterMap Pending.opened? := by
        apply Run.opened_of_phase
        intro id hook ids hat
        rw [hphase] at hat
        cases hat
      show ArmState.Move ⟨vm.hooks, vm.armed, r.opened ++ waiting.flatMap Run.opened⟩
        ((r.answerHost vm result).arms _)
      rw [Run.answerHost_eq hphase, hopened]
      exact .stay _
  | @done r waiting hover =>
      obtain ⟨hpending, hphase⟩ := hover
      have hopened : r.opened = [] := by
        rw [Run.opened_of_phase, hpending]
        · rfl
        · intro id hook ids hat
          rw [hat] at hphase
          rcases hphase with ⟨_, h⟩ | ⟨_, h⟩ <;> cases h
      show ArmState.Move ⟨r.vm.hooks, r.vm.armed, r.opened ++ _⟩ _
      rw [hopened]
      exact .stay _

/-- A session that the host starts with nothing armed. -/
theorem orderly_of_reaches (hchain : start.hooks.OnlyHost) (harmed : start.armed = none)
    (h : Reaches .free ⟨.host start, []⟩ s) : ArmState.Orderly start.hooks s.arms := by
  induction h with
  | refl =>
      show ArmState.Orderly _ ⟨start.hooks, start.armed, []⟩
      rw [harmed]
      exact ArmState.orderly_start _
  | tail _ hnext ih => exact ih.move hchain (move_of_next hnext)

theorem past_of_reaches (hpast : ArmState.Past id s.arms) (h : Reaches .free s t) :
    ArmState.Past id t.arms := by
  induction h with
  | refl => exact hpast
  | tail _ hnext ih => exact ih.move (move_of_next hnext)

theorem under_of_reaches {base : List Opened} (hchain : chain.OnlyHost)
    (horder : ArmState.Orderly chain s.arms) (hunder : ArmState.Under id base s.arms)
    (h : Reaches .free s t) :
    ArmState.Under id base t.arms ∧ ArmState.Orderly chain t.arms := by
  induction h with
  | refl => exact ⟨hunder, horder⟩
  | tail _ hnext ih =>
      have hmove := move_of_next hnext
      exact ⟨ih.1.move ih.2 hmove, ih.2.move hchain hmove⟩

/-! ## §4. Resumes that begin and return. -/

/-- A resume of a continuation that is not empty begins. -/
inductive Begins : Session → HookNumber → Session → Prop
  /-- A run calls the native resume. -/
  | called {vm : Vm} {pending : List Pending} {b : Builtin} {args : Arguments} {place : Address}
      {others : List Value} {waiting : List Run} :
      b.native = .resume →
      args.requirePositional "resume" 1 1 = .ok (.continuation place :: others) →
      (vm.store.continuation place).records ≠ [] →
      Begins ⟨.run ⟨vm, pending, .call (.builtin b) args⟩, waiting⟩ vm.dropArmed.hooks.nextId
        ⟨.run (Run.beginResume vm pending (vm.store.continuation place)), waiting⟩
  /-- The host resumes. -/
  | host {vm : Vm} {k : Continuation} {waiting : List Run} :
      k.records ≠ [] →
      Begins ⟨.host vm, waiting⟩ vm.dropArmed.hooks.nextId ⟨.run (Run.ofContinuation vm k), waiting⟩

/-- A resume returns. -/
inductive Returns : Session → HookNumber → Session → Prop
  | intro {vm : Vm} {pending : List Pending} {id : HookNumber} {result : Except Fault Value}
      {waiting : List Run} :
      Returns ⟨.run ⟨vm, .resume id :: pending, .returned result⟩, waiting⟩ id
        ⟨.run (Run.withResult (Run.endResume vm id) pending result), waiting⟩

theorem Begins.next (h : s.Begins id t) : Next .free s t := by
  cases h with
  | called hb hpos hk => exact .step (Run.step_of_resume hb hpos)
  | host hk => exact .begin (.continuation _)

/-- A resume that has begun is open over what was open. -/
theorem Begins.opened_eq (h : s.Begins id t) : t.opened = .resume id :: s.opened := by
  have hbegun (k : Continuation) (hk : k.records ≠ []) (vm : Vm) (pending : List Pending)
      (outer : List Opened) : (Run.beginResume vm pending k).opened ++ outer
        = .resume vm.dropArmed.hooks.nextId :: (pending.filterMap Pending.opened? ++ outer) := by
    have harms : (Run.beginResume vm pending k).arms outer = _ := Run.arms_beginResume hk vm pending
    have hopened := congrArg ArmState.opened harms
    unfold ArmState.begun at hopened
    rw [Run.disarmed_eq] at hopened
    exact hopened
  cases h with
  | called hb hpos hk => exact hbegun _ hk ..
  | host hk => exact hbegun _ hk _ [] _

theorem Returns.opened_eq (h : s.Returns id t) : s.opened = .resume id :: t.opened := by
  cases h with
  | intro => rfl

theorem Returns.arms_eq (h : s.Returns id t) : t.arms = s.arms.finished id t.opened := by
  cases h with
  | @intro vm pending id result waiting =>
      show ArmState.mk (Run.endResume vm id).hooks (Run.endResume vm id).armed _ = _
      unfold Run.endResume ArmState.finished
      dsimp only
      split
      · next harmed => simp [arms, Session.vm, Floor.vm, harmed, Vm.removeHook]
      · next harmed => simp [arms, Session.vm, Floor.vm, harmed, Vm.removeHook]

/-- A resume returns with no resume armed, and with the chain it began with but
for the hook of the resume that was armed. -/
theorem hooks_of_returns {s' t' : Session} (hchain : chain.OnlyHost)
    (horder : ArmState.Orderly chain s.arms) (hbegins : s.Begins id s') (hreach : Reaches .free s' t)
    (hreturns : t.Returns id t') :
    t'.vm.armed = none
      ∧ t'.vm.hooks.entries = s.vm.hooks.entries.filter (fun e => s.vm.armed ≠ some e.id) := by
  have horder' := horder.move hchain (move_of_next hbegins.next)
  have hunder : ArmState.Under id s.opened s'.arms := .inl ⟨[], hbegins.opened_eq⟩
  obtain ⟨hunder', hend⟩ := under_of_reaches hchain horder' hunder hreach
  have hopened : t'.opened = s.opened := hunder'.eq_of_opened hend hreturns.opened_eq
  obtain ⟨harmed, hentries⟩ := hend.finished_eq hchain hreturns.opened_eq
  rw [← hreturns.arms_eq] at harmed hentries
  refine ⟨harmed, hentries.trans ?_⟩
  rw [hopened]
  exact (horder.filter_armed_entries hchain).symm

/-! ## §5. Captures that succeed. -/

/-- A capture answers a continuation. -/
inductive Takes : Session → Session → Continuation → Prop
  /-- A run calls the native capture. -/
  | called {r r' : Run} {b : Builtin} {args : Arguments} {place : Address} {waiting : List Run} :
      r.phase = .call (.builtin b) args → b.native = .capture → r.step = some r' →
      r'.phase = .returned (.ok (.continuation place)) →
      Takes ⟨.run r, waiting⟩ ⟨.run r', waiting⟩ (r'.vm.store.continuation place)
  /-- The host captures. -/
  | host {vm vm' : Vm} {k : Continuation} {waiting : List Run} :
      capture vm = .ok k vm' → Takes ⟨.host vm, waiting⟩ ⟨.host vm', waiting⟩ k

/-- The call at hand is that of a call instruction. -/
def CallsFromBody (s : Session) : Prop :=
  ∃ r callee args slots rest, s.floor = .run r ∧ r.phase = .call callee args
    ∧ (r.pending = .site slots :: rest ∨ r.pending = .lone slots :: rest)

/-- A capture of a run that succeeds, and what the resume that is armed makes of it. -/
theorem takes_of_step {r r' : Run} {b : Builtin} {args : Arguments} {place : Address}
    (hphase : r.phase = .call (.builtin b) args) (hb : b.native = .capture)
    (hstep : r.step = some r') (hreturned : r'.phase = .returned (.ok (.continuation place))) :
    r'.vm.hooks = r.vm.dropArmed.hooks ∧ r'.vm.armed = none
      ∧ (r.vm.armed ≠ none → r'.vm.store.continuation place = {})
      ∧ (r.vm.armed = none → r.vm.liveContinuation = .ok (r'.vm.store.continuation place)) := by
  have hrun : Run.beginCall r.vm r.pending (.builtin b) args = r' := by
    unfold Run.step at hstep
    rw [hphase] at hstep
    exact Option.some.inj hstep
  simp only [Run.beginCall, hb] at hrun
  cases hn : callNative .capture args r.vm with
  | error e u =>
      rw [hn] at hrun
      subst hrun
      cases hreturned
  | ok outcome u =>
      rw [hn] at hrun
      cases harmed : r.vm.armed with
      | none =>
          -- with nothing armed the live frames are kept
          obtain ⟨-, k, hlive, rfl, rfl⟩ := callCapture_ok hn harmed
          subst hrun
          obtain rfl : r.vm.store.continuations.size = place := by
            simpa [Run.withResult] using hreturned
          have hdrop : r.vm.dropArmed = r.vm := by
            unfold Vm.dropArmed
            rw [harmed]
          refine ⟨by rw [hdrop]; rfl, harmed, fun hne => absurd rfl hne, fun _ => ?_⟩
          rw [hlive]
          exact congrArg Except.ok (Store.continuation_makeContinuation _ _).symm
      | some id =>
          -- an armed resume is met: the answer is the empty continuation
          obtain ⟨positional, _, hpos, -⟩ := action_bind_ok.mp hn
          rw [callCapture_armed (lift_ok.mp hpos).1 harmed] at hn
          obtain ⟨rfl, rfl⟩ := EStateM.Result.ok.inj hn
          subst hrun
          obtain rfl : r.vm.store.continuations.size = place := by
            simpa [Run.withResult] using hreturned
          refine ⟨rfl, ?_, fun _ => Store.continuation_makeContinuation _ _, fun hnone => ?_⟩
          · show r.vm.dropArmed.armed = none
            unfold Vm.dropArmed
            rw [harmed]
          · cases hnone

/-- A capture that succeeds is a step, after which no resume is armed. -/
theorem Takes.next (h : s.Takes t k) : Next .free s t ∧ t.vm.armed = none := by
  cases h with
  | called hphase hb hstep hreturned =>
      exact ⟨.step hstep, (takes_of_step hphase hb hstep hreturned).2.1⟩
  | @host vm vm' k waiting hcapture =>
      have hafter : stateAfter capture vm = vm' := by
        unfold stateAfter
        rw [hcapture]
      subst hafter
      refine ⟨.take, ?_⟩
      show (stateAfter capture vm).armed = none
      rw [stateAfter_capture]
      unfold Vm.dropArmed
      split
      · rfl
      · assumption

/-- The continuation of live frames is not empty. -/
theorem ne_of_liveContinuation {vm : Vm} (hlive : vm.frames ≠ [])
    (h : vm.liveContinuation = .ok k) : k ≠ {} := by
  obtain ⟨records, hrecords, h⟩ := except_bind_ok.mp h
  obtain rfl := Except.ok.inj h
  cases hframes : vm.frames with
  | nil => exact absurd hframes hlive
  | cons f rest =>
      have hdepth : vm.depth = rest.length + 1 := congrArg List.length hframes
      have htop : vm.topIndex? = some rest.length := by
        unfold Vm.topIndex?
        rw [hdepth]
        rfl
      rw [htop, hdepth, Vm.recordsFrom] at hrecords
      cases hat : vm.frameAt? rest.length with
      | none =>
          rw [hat] at hrecords
          cases hrecords
      | some g =>
          rw [hat] at hrecords
          obtain ⟨record, -, hrecords⟩ := except_bind_ok.mp hrecords
          obtain ⟨outer, -, hrecords⟩ := except_bind_ok.mp hrecords
          obtain rfl := Except.ok.inj hrecords
          intro heq
          cases congrArg Continuation.records heq

/-- A run calls a value only from a frame, but for its first call. -/
def Grounded (s : Session) : Prop :=
  ∀ r, s.floor = .run r → r.phase.isCall = true → r.vm.frames ≠ [] ∨ r.pending = []

theorem grounded_of_isCall {r : Run} {waiting : List Run} (h : r.phase.isCall = false) :
    Grounded ⟨.run r, waiting⟩ := by
  intro r' hr hcall
  obtain rfl := Floor.run.inj hr
  rw [h] at hcall
  cases hcall

/-- Nothing is called by an instruction without a frame. -/
theorem grounded_ofInstruction (vm : Vm) (i : Instruction) (waiting : List Run) :
    Grounded ⟨.run (Run.ofInstruction vm i), waiting⟩ := by
  cases he : execute i vm with
  | error e u =>
      apply grounded_of_isCall
      unfold Run.ofInstruction
      rw [he]
      rfl
  | ok outcome u =>
      cases outcome with
      | flow flow =>
          apply grounded_of_isCall
          unfold Run.ofInstruction
          rw [he]
          rfl
      | breakOff =>
          apply grounded_of_isCall
          unfold Run.ofInstruction
          rw [he]
          rfl
      | call request =>
          intro r hr _
          obtain rfl := Floor.run.inj hr
          left
          have hrun : Run.ofInstruction vm i
              = ⟨u, [.lone request.slots], .call request.callee request.args⟩ := by
            unfold Run.ofInstruction
            rw [he]
          rw [hrun]
          have hrequest := (execute_call_ok he).2
          rw [callRequest_eq] at hrequest
          obtain ⟨slots, w, hslots, -⟩ := action_bind_ok.mp hrequest
          cases hframes : vm.frames with
          | nil =>
              unfold onFrame at hslots
              rw [hframes] at hslots
              cases hslots
          | cons f rest =>
              obtain ⟨rfl, -⟩ := (callRequest_ok hframes).mp (execute_call_ok he).2
              rw [hframes]
              exact List.cons_ne_nil _ _

theorem Grounded.next (h : s.Grounded) (hnext : Next .free s t) : t.Grounded := by
  cases hnext with
  | touch hsame =>
      intro r hr
      cases hr
  | take =>
      intro r hr
      cases hr
  | @begin vm r waiting hbegun =>
      -- a run begins with a call, or in a frame that was just entered
      cases hbegun with
      | call callee args =>
          intro r hr _
          obtain rfl := Floor.run.inj hr
          exact .inr rfl
      | global name args =>
          unfold Run.ofGlobal
          cases vm.globals.find? name with
          | some callee =>
              intro r hr _
              obtain rfl := Floor.run.inj hr
              exact .inr rfl
          | none => exact grounded_of_isCall rfl
      | code c => exact grounded_of_isCall (Run.depth_enterFrame ..).2
      | frame f => exact grounded_of_isCall (Run.depth_enterFrame ..).2
      | continuation k => exact grounded_of_isCall (Run.depth_beginResume ..).2
      | instruction i => exact grounded_ofInstruction vm i waiting
  | @step r r' waiting hstep =>
      rcases Run.depth_of_step hstep with ⟨-, hcall⟩ | ⟨⟨i, hi⟩, -, hdepth, -⟩ | ⟨-, ⟨f, rfl⟩ | ⟨k, rfl⟩⟩
      · exact grounded_of_isCall hcall
      · -- the instruction was fetched from a frame
        intro r'' hr _
        obtain rfl := Floor.run.inj hr
        left
        intro hnil
        have hzero : r.vm.depth = 0 := hdepth.symm.trans (congrArg List.length hnil)
        unfold Run.fetched? at hi
        rw [List.length_eq_zero_iff.mp hzero] at hi
        split at hi
        · next heq => cases heq
        · cases hi
      · exact grounded_of_isCall (Run.depth_enterFrame ..).2
      · exact grounded_of_isCall (Run.depth_beginResume ..).2
  | ask hasks =>
      intro r hr
      cases hr
  | @hook vm r waiting id hook ids result hphase hkept =>
      apply grounded_of_isCall
      rw [Run.answerHook_eq hphase]
      exact Run.isCall_hookEnded ..
  | @answer vm r waiting name args result hphase _ =>
      apply grounded_of_isCall
      rw [Run.answerHost_eq hphase]
      rfl
  | done hover =>
      intro r hr
      cases hr

theorem grounded_of_reaches (h : Reaches .free ⟨.host start, []⟩ s) : s.Grounded := by
  induction h with
  | refl =>
      intro r hr
      cases hr
  | tail _ hnext ih => exact ih.next hnext

/-- A capture of a body answers the empty continuation exactly when it meets an
armed resume. -/
theorem Takes.eq_empty_iff (h : s.Takes t k) (hbody : s.CallsFromBody) (hgrounded : s.Grounded) :
    k = {} ↔ s.vm.armed ≠ none := by
  obtain ⟨r, callee, args, slots, rest, hfloor, hcalls, hpending⟩ := hbody
  have hlive : r.vm.frames ≠ [] := by
    rcases hgrounded r hfloor (by rw [hcalls]; rfl) with hlive | hnone
    · exact hlive
    · rw [hnone] at hpending
      rcases hpending with hpending | hpending <;> cases hpending
  cases h with
  | called hphase hb hstep hreturned =>
      obtain rfl := Floor.run.inj hfloor
      obtain ⟨-, -, hempty, hkeeps⟩ := takes_of_step hphase hb hstep hreturned
      refine ⟨?_, hempty⟩
      intro hk harmed
      exact ne_of_liveContinuation hlive (hkeeps harmed) hk
  | host hcapture => cases hfloor

/-! ## §6. The protocol. -/

/-- What holds in every state `s` of a session that started with the hooks `chain`. -/
structure KeepsProtocol (chain : EntryHooks) (s : Session) : Prop where
  /-- The hook of a resume that is in the chain is that of the armed one. -/
  only_armed : ∀ id ∈ s.vm.hooks.ids, id ∉ chain.ids → s.vm.armed = some id
  /-- There is at most one such hook. -/
  at_most_one : (s.vm.hooks.ids.filter (fun id => id ∉ chain.ids)).length ≤ 1
  /-- A resume that begins here returns with no resume armed, and with the chain
  as it is here but for the hook of the resume that is armed here. -/
  resume_returns : ∀ {id s' t t'}, s.Begins id s' → Reaches .free s' t → t.Returns id t' →
    t'.vm.armed = none
      ∧ t'.vm.hooks.entries = s.vm.hooks.entries.filter (fun e => s.vm.armed ≠ some e.id)
  /-- A capture that meets a resume here is the last that meets this resume. -/
  meets_once : ∀ {id s' t t' k k'}, s.Takes s' k → s.vm.armed = some id → Reaches .free s' t →
    t.Takes t' k' → t.vm.armed ≠ some id
  /-- A capture called here from a body answers the empty continuation exactly when
  a resume is armed. -/
  empty_iff : ∀ {t k}, s.Takes t k → s.CallsFromBody → (k = {} ↔ s.vm.armed ≠ none)
  /-- With no run under way no resume is armed. -/
  idle : ∀ vm, s = ⟨.host vm, []⟩ → vm.armed = none

/-- **The protocol of armed resumes and their hooks**, in every state of every
session in which only resumes install and remove hooks. -/
theorem arm_protocol (start : Vm) (hchain : start.hooks.OnlyHost) (harmed : start.armed = none)
    (s : Session) (hreach : Reaches .free ⟨.host start, []⟩ s) : s.KeepsProtocol start.hooks := by
  have horder := orderly_of_reaches hchain harmed hreach
  refine ⟨fun id hid hnot => horder.armed_of_mem hid hnot, horder.length_filter_le, ?_, ?_, ?_, ?_⟩
  · intro id s' t t' hbegins hrun hreturns
    exact hooks_of_returns hchain horder hbegins hrun hreturns
  · intro id s' t t' k k' htakes hid hrun _
    obtain ⟨hnext, hnone⟩ := htakes.next
    -- the number of a resume is not given out again, so it is never armed again
    have hfresh := (horder.resumes_fresh id (horder.armed_mem hid)).2
    have hpast : ArmState.Past id s'.arms := by
      refine ⟨?_, Nat.lt_of_lt_of_le hfresh (move_of_next hnext).nextId_le⟩
      show s'.vm.armed ≠ some id
      rw [hnone]
      intro h
      cases h
    exact (past_of_reaches hpast hrun).1
  · intro t k htakes hbody
    exact htakes.eq_empty_iff hbody (grounded_of_reaches hreach)
  · rintro vm rfl
    cases hvm : vm.armed with
    | none => rfl
    | some id =>
        -- an armed resume is open, and with no run under way nothing is
        have hopen := horder.armed_open id hvm
        cases hopen

/-- A body has captured and returned, and its continuation has just been resumed:
the resume is armed and its hook is in the chain. -/
theorem arm_protocol_retaker :
    KeepsProtocol {} ⟨.run (Run.ofContinuation (Run.steps 15 (Run.takeRun Run.retaker)).vm
        ((Run.steps 15 (Run.takeRun Run.retaker)).vm.store.continuation 0)), []⟩
      ∧ (Run.ofContinuation (Run.steps 15 (Run.takeRun Run.retaker)).vm
        ((Run.steps 15 (Run.takeRun Run.retaker)).vm.store.continuation 0)).vm.armed = some 0
      ∧ (Run.ofContinuation (Run.steps 15 (Run.takeRun Run.retaker)).vm
        ((Run.steps 15 (Run.takeRun Run.retaker)).vm.store.continuation 0)).vm.hooks.ids = [0] := by
  have hchain : (Run.takeRun Run.retaker).vm.hooks.OnlyHost := by
    refine ⟨List.nodup_nil, ?_, ?_⟩
    · intro id hid
      cases hid
    · intro e he
      cases he
  have hreach : Reaches .free ⟨.host (Run.takeRun Run.retaker).vm, []⟩
      ⟨.run (Run.ofContinuation (Run.steps 15 (Run.takeRun Run.retaker)).vm
        ((Run.steps 15 (Run.takeRun Run.retaker)).vm.store.continuation 0)), []⟩ := by
    refine .tail (.tail (.trans (.single (.begin (.call (.function ⟨2, Run.retaker⟩) {})))
      (reaches_steps .free 15 (Run.takeRun Run.retaker) [])) (.done ⟨?_, .inl ⟨.ok (.int 7), ?_⟩⟩))
      (.begin (.continuation _))
    · decide +kernel
    · cbv
  exact ⟨arm_protocol _ hchain rfl _ hreach, by decide +kernel, by decide +kernel⟩

end Session

end Resumable
