/-
  Resumable.Proofs.CallIsolation
  ──────────────────────────────
  **A CALL LEAVES THE FRAMES BELOW IT ALONE.**

  A run works on the frames it has entered itself, on top of those it found:

      own frames            one for each call instruction that waits for a result,
                            and one more while a frame is at work or just entered
      frames it found       not one field of them is touched

  Work in a frame changes the innermost one only, and a run that does such work has
  one of its own; every way out of a frame takes off one frame and goes on with one
  result less to wait for.  When nothing waits any more nothing of its own is left,
  whatever the result is.  A host that calls back in while a run waits for it starts
  the same game on top of the frames of that run.

  Frames are entered in one place, and only while there is room.

  Main results:
    • `Run.Above.step`         — a step keeps the frames below,
    • `Session.calls_isolated` — calls, depth and the limit in every state of a session.
-/
import Resumable.Proofs.Untouched

namespace Resumable

open VmAction

/-! ## §1. The frames of a run. -/

/-- The result of a call waits for a frame. -/
def Pending.isSite : Pending → Bool
  | .site _ => true
  | _ => false

/-- The innermost frame is at work or has just been entered, or it was at work when the
program broke off. -/
def Phase.isInFrame : Phase → Bool
  | .loop | .enter _ | .atHook _ _ _ | .brokenOff => true
  | _ => false

/-- The number of calls that wait for a result. -/
def callsIn (pending : List Pending) : Nat :=
  pending.countP Pending.isSite

@[simp] theorem callsIn_nil : callsIn [] = 0 :=
  rfl

@[simp] theorem callsIn_site (slots : Nat) (pending : List Pending) :
    callsIn (.site slots :: pending) = callsIn pending + 1 :=
  List.countP_cons_of_pos rfl

@[simp] theorem callsIn_resume (id : HookNumber) (pending : List Pending) :
    callsIn (.resume id :: pending) = callsIn pending :=
  List.countP_cons_of_neg fun h => by cases h

/-- The number of frames a run has entered and not left. -/
def Run.ownFrames (r : Run) : Nat :=
  callsIn r.pending + if r.phase.isInFrame then 1 else 0

/-- A number of frames stand on top of others. -/
def StandsOn (frames : List Frame) (count : Nat) (below : List Frame) : Prop :=
  ∃ own, frames = own ++ below ∧ own.length = count

namespace StandsOn

variable {frames below : List Frame} {count : Nat}

theorem zero_iff : StandsOn frames 0 below ↔ frames = below := by
  constructor
  · rintro ⟨own, rfl, hlength⟩
    rw [List.length_eq_zero_iff.mp hlength]
    rfl
  · rintro rfl
    exact ⟨[], rfl, rfl⟩

theorem cons (h : StandsOn frames count below) (f : Frame) :
    StandsOn (f :: frames) (count + 1) below := by
  obtain ⟨own, rfl, hlength⟩ := h
  exact ⟨f :: own, rfl, by rw [List.length_cons, hlength]⟩

theorem tail (h : StandsOn frames (count + 1) below) : StandsOn frames.tail count below := by
  obtain ⟨own, rfl, hlength⟩ := h
  cases own with
  | nil => cases hlength
  | cons f own => exact ⟨own, rfl, Nat.succ.inj hlength⟩

/-- Work in the innermost frame does not reach below. -/
theorem sameTop {frames' : List Frame} (h : StandsOn frames (count + 1) below)
    (hsame : Frame.SameTop frames frames') : StandsOn frames' (count + 1) below := by
  obtain ⟨own, rfl, hlength⟩ := h
  cases own with
  | nil => cases hlength
  | cons f own =>
      obtain ⟨g, -, rfl⟩ := Frame.SameTop.cons_iff.mp hsame
      exact ⟨g :: own, rfl, hlength⟩

theorem ne_nil (h : StandsOn frames (count + 1) below) : ∃ f rest, frames = f :: rest := by
  obtain ⟨own, rfl, hlength⟩ := h
  cases own with
  | nil => cases hlength
  | cons f own => exact ⟨f, own ++ below, rfl⟩

theorem suffix (h : StandsOn frames count below) : below <:+ frames := by
  obtain ⟨own, rfl, -⟩ := h
  exact List.suffix_append ..

end StandsOn

namespace Run

/-- A run of calls on top of frames that are not its own. -/
structure Above (below : List Frame) (r : Run) : Prop where
  stands : StandsOn r.vm.frames r.ownFrames below
  calls : OnlyCalls r.pending
  live : ∀ flow, r.phase ≠ .ended flow

/-! ## §2. The parts of a step. -/

variable {vm vm' : Vm} {pending : List Pending} {below : List Frame} {r s : Run}

theorem above_withResult (h : StandsOn vm.frames (callsIn pending) below)
    (hcalls : OnlyCalls pending) (result : Except Fault Value) :
    (withResult vm pending result).Above below :=
  ⟨h, hcalls, fun _ heq => by cases heq⟩

/-- The innermost frame is left. -/
theorem above_leaveFrame (h : StandsOn vm.frames (callsIn pending + 1) below)
    (hcalls : OnlyCalls pending) (result : Except Fault Value) :
    (leaveFrame vm pending result).Above below :=
  above_withResult h.tail hcalls result

/-- It goes on. -/
theorem above_loop (h : StandsOn vm.frames (callsIn pending + 1) below)
    (hcalls : OnlyCalls pending) : Above below ⟨vm, pending, .loop⟩ :=
  ⟨h, hcalls, fun _ heq => by cases heq⟩

theorem above_enter (h : StandsOn vm.frames (callsIn pending + 1) below)
    (hcalls : OnlyCalls pending) (ids : List HookNumber) :
    Above below ⟨vm, pending, .enter ids⟩ :=
  ⟨h, hcalls, fun _ heq => by cases heq⟩

/-- A frame is entered, if there is room. -/
theorem above_enterFrame (h : StandsOn vm.frames (callsIn pending) below)
    (hcalls : OnlyCalls pending) (f : Frame) : (enterFrame vm pending f).Above below := by
  unfold enterFrame
  dsimp only
  split
  · exact above_withResult h hcalls _
  · exact above_enter (h.cons f) hcalls _

theorem above_beginResume (h : StandsOn vm.frames (callsIn pending) below)
    (hcalls : OnlyCalls pending) (k : Continuation) : (beginResume vm pending k).Above below := by
  cases hout : k.outermost? with
  | none =>
      unfold beginResume
      rw [hout]
      exact above_withResult h hcalls _
  | some outermost =>
      rw [beginResume_eq hout]
      refine above_enterFrame ?_ (hcalls.resume _) _
      rw [callsIn_resume, vm.frames_rebuilding]
      exact h

theorem above_raiseInFrame (h : StandsOn vm.frames (callsIn pending + 1) below)
    (hcalls : OnlyCalls pending) (exc : Value) : (raiseInFrame vm pending exc).Above below := by
  unfold raiseInFrame
  cases hunwind : unwind exc vm with
  | ok a u => exact above_loop (h.sameTop ((keeps_unwind exc).of_ok hunwind).frames) hcalls
  | error e u =>
      exact above_leaveFrame (h.sameTop ((keeps_unwind exc).of_error hunwind).frames) hcalls _

theorem above_follow (h : StandsOn vm.frames (callsIn pending + 1) below)
    (hcalls : OnlyCalls pending) (result : Except Fault Flow) :
    (follow vm pending result).Above below := by
  cases result with
  | error e =>
      cases e with
      | exception exc => exact above_raiseInFrame h hcalls exc
      | _ => exact above_leaveFrame h hcalls _
  | ok flow =>
      cases flow with
      | next => exact above_loop h hcalls
      | «return» value => exact above_leaveFrame h hcalls _
      | raise exc => exact above_raiseInFrame h hcalls exc
      | jump target =>
          obtain ⟨f, rest, hframes⟩ := h.ne_nil
          rw [follow_jump hframes]
          refine above_loop (h.sameTop ?_) hcalls
          rw [hframes]
          exact ⟨⟨rfl, rfl, rfl⟩, rfl⟩

/-- The innermost frame executes its next instruction. -/
theorem above_stepFrame (h : StandsOn vm.frames (callsIn pending + 1) below)
    (hcalls : OnlyCalls pending) : (stepFrame vm pending).Above below := by
  obtain ⟨f, rest, hframes⟩ := h.ne_nil
  unfold stepFrame
  rw [hframes]
  dsimp only
  by_cases hdone : f.isDone = true
  · rw [if_pos hdone]
    exact above_leaveFrame h hcalls _
  · rw [if_neg hdone]
    cases hfetch : onFrame FrameAction.fetch vm with
    | error e u =>
        have hworks := (keeps_onFrame FrameAction.keeps_fetch).of_error hfetch
        exact above_leaveFrame (h.sameTop hworks.frames) hcalls _
    | ok i u =>
        have hworks := (keeps_onFrame FrameAction.keeps_fetch).of_ok hfetch
        dsimp only
        unfold perform
        cases hexecute : execute i u with
        | error e w =>
            have hall := hworks.trans ((keeps_execute i).of_error hexecute)
            exact above_follow (h.sameTop hall.frames) hcalls _
        | ok outcome w =>
            have hall := hworks.trans ((keeps_execute i).of_ok hexecute)
            cases outcome with
            | flow flow => exact above_follow (h.sameTop hall.frames) hcalls _
            | breakOff => exact ⟨h.sameTop hall.frames, hcalls, fun _ heq => by cases heq⟩
            | call request =>
                -- the frame that was at work waits from now on
                refine ⟨?_, hcalls.site _, fun _ heq => by cases heq⟩
                show StandsOn w.frames (callsIn (.site request.slots :: pending)) below
                rw [callsIn_site]
                exact h.sameTop hall.frames

/-- A value is called. -/
theorem above_beginCall (h : StandsOn vm.frames (callsIn pending) below)
    (hcalls : OnlyCalls pending) (callee : Value) (args : Arguments) :
    (beginCall vm pending callee args).Above below := by
  unfold beginCall
  split
  · next fn =>
      cases hlift : lift ((fn.code.bind args).mapError Cause.badArguments) vm with
      | ok locals u =>
          obtain ⟨-, rfl⟩ := lift_ok.mp hlift
          exact above_enterFrame h hcalls _
      | error e u =>
          have hsame : u.frames = vm.frames := (SameFrames.steady.keeps_lift _).of_error hlift
          exact above_withResult (hsame ▸ h) hcalls _
  · next b =>
      have hsame := frames_callNative b.native args vm
      unfold stateAfter at hsame
      cases hnative : callNative b.native args vm with
      | error e u =>
          rw [hnative] at hsame
          exact above_withResult (hsame ▸ h) hcalls _
      | ok outcome u =>
          rw [hnative] at hsame
          have hstands : StandsOn u.frames (callsIn pending) below := by
            rw [show u.frames = vm.frames from hsame]
            exact h
          cases outcome with
          | value v => exact above_withResult hstands hcalls _
          | resume k => exact above_beginResume hstands hcalls k
          | ask name => exact ⟨hstands, hcalls, fun _ heq => by cases heq⟩
  · refine above_withResult ?_ hcalls _
    exact h

theorem above_hookEnded (h : StandsOn vm.frames (callsIn pending + 1) below)
    (hcalls : OnlyCalls pending) (id : HookNumber) (hook : Hook) (ids : List HookNumber)
    (result : Except Fault HookVerdict) : (hookEnded vm pending id hook ids result).Above below := by
  unfold hookEnded
  split
  · refine above_enter ?_ hcalls ids
    exact h
  · refine above_enter ?_ hcalls ids
    exact h
  · refine above_leaveFrame ?_ hcalls _
    exact h

theorem above_rebuildFrame (h : StandsOn vm.frames (callsIn pending + 1) below)
    (hcalls : OnlyCalls pending) (id : HookNumber) (records : List Record) (ids : List HookNumber) :
    (rebuildFrame vm pending id records ids).Above below := by
  unfold rebuildFrame
  split
  · exact above_hookEnded h hcalls ..
  · exact above_hookEnded h hcalls ..
  · next record left f outer hframes =>
      split
      · exact above_hookEnded h hcalls ..
      · next g _ =>
          refine above_hookEnded ?_ hcalls ..
          rw [hframes] at h
          exact h.tail.cons g

/-- The hooks see the frame just entered, and may fill it. -/
theorem above_runHooks (h : StandsOn vm.frames (callsIn pending + 1) below)
    (hcalls : OnlyCalls pending) (ids : List HookNumber) : (runHooks vm pending ids).Above below := by
  unfold runHooks
  split
  · exact above_loop h hcalls
  · next id ids =>
      split
      · exact above_enter h hcalls ids
      · next hook hooks _ =>
          cases hook with
          | host name key => exact ⟨h, hcalls, fun _ heq => by cases heq⟩
          | rebuild records =>
              refine above_rebuildFrame ?_ hcalls ..
              exact h

/-- A result is handed on. -/
theorem above_deliver {waiting : Pending} {result : Except Fault Value}
    (h : StandsOn vm.frames (callsIn (waiting :: pending)) below)
    (hcalls : OnlyCalls (waiting :: pending)) :
    (deliver vm waiting pending result).Above below := by
  cases waiting with
  | lone slots => exact absurd (List.mem_cons_self ..) (hcalls slots)
  | resume id =>
      rw [callsIn_resume, ← frames_endResume vm id] at h
      exact above_withResult h hcalls.tail _
  | site slots =>
      rw [callsIn_site] at h
      show (follow (siteFlow vm slots result).2 pending (siteFlow vm slots result).1).Above below
      refine above_follow ?_ hcalls.tail _
      unfold siteFlow
      cases result with
      | error e => exact h
      | ok v =>
          dsimp only
          cases hfinish : finishCall slots v vm with
          | ok a u => exact h.sameTop ((keeps_finishCall slots v).of_ok hfinish).frames
          | error e u => exact h.sameTop ((keeps_finishCall slots v).of_error hfinish).frames

/-- **A step of a run keeps the frames below it.** -/
theorem Above.step (h : r.Above below) (hs : r.step = some s) : s.Above below := by
  obtain ⟨vm, pending, phase⟩ := r
  obtain ⟨hstands, hcalls, hlive⟩ := h
  cases phase with
  | loop => exact Option.some.inj hs ▸ above_stepFrame hstands hcalls
  | call callee args => exact Option.some.inj hs ▸ above_beginCall hstands hcalls callee args
  | enter ids => exact Option.some.inj hs ▸ above_runHooks hstands hcalls ids
  | atHook id hook ids => cases hs
  | atHost name args => cases hs
  | ended flow => cases hs
  | brokenOff => cases hs
  | returned result =>
      cases pending with
      | nil => cases hs
      | cons waiting pending => exact Option.some.inj hs ▸ above_deliver hstands hcalls

/-- A call that is made has no frames of its own yet, or its first one. -/
theorem CalledOn.above (h : r.CalledOn vm) : r.Above vm.frames := by
  have hnone : StandsOn vm.frames (callsIn []) vm.frames := StandsOn.zero_iff.mpr rfl
  have hnil : OnlyCalls [] := fun slots hmem => by cases hmem
  cases h with
  | call callee args => exact ⟨hnone, hnil, fun _ heq => by cases heq⟩
  | global name args =>
      unfold ofGlobal
      split
      · exact ⟨hnone, hnil, fun _ heq => by cases heq⟩
      · refine above_withResult ?_ hnil _
        exact hnone
  | code c =>
      refine above_enterFrame ?_ hnil _
      exact hnone
  | frame f => exact above_enterFrame hnone hnil f
  | continuation k => exact above_beginResume hnone hnil k

/-! ## §3. The limit. -/

/-- A frame is entered only while there are fewer than there may be. -/
theorem room_enterFrame (hroom : vm.depth ≤ vm.config.frameLimit) (pending : List Pending)
    (f : Frame) : (enterFrame vm pending f).vm.depth ≤ vm.config.frameLimit
      ∧ (vm.depth < (enterFrame vm pending f).vm.depth → vm.depth < vm.config.frameLimit) := by
  unfold enterFrame
  dsimp only
  split
  · exact ⟨hroom, fun hlt => absurd hlt (Nat.lt_irrefl _)⟩
  · next hfull =>
      refine ⟨?_, fun _ => by omega⟩
      show (f :: vm.frames).length ≤ _
      rw [List.length_cons]
      unfold Vm.depth at hfull
      omega

/-- Otherwise it is refused, and nothing has happened. -/
theorem enterFrame_full (hfull : vm.depth = vm.config.frameLimit) (pending : List Pending)
    (f : Frame) : enterFrame vm pending f
      = ⟨vm, pending, .returned (.error (.frameLimit vm.config.frameLimit))⟩ := by
  unfold enterFrame
  dsimp only
  rw [if_pos (Nat.le_of_eq hfull.symm)]
  rfl

theorem room_beginResume (hroom : vm.depth ≤ vm.config.frameLimit) (pending : List Pending)
    (k : Continuation) : (beginResume vm pending k).vm.depth ≤ vm.config.frameLimit
      ∧ (vm.depth < (beginResume vm pending k).vm.depth → vm.depth < vm.config.frameLimit) := by
  cases hout : k.outermost? with
  | none =>
      unfold beginResume
      rw [hout]
      exact ⟨hroom, fun hlt => absurd hlt (Nat.lt_irrefl _)⟩
  | some outermost =>
      have hconfig : (vm.rebuilding k.records.reverse).config = vm.config := vm.config_dropArmed
      have hdepth : (vm.rebuilding k.records.reverse).depth = vm.depth :=
        congrArg List.length (vm.frames_rebuilding _)
      rw [beginResume_eq hout, ← hdepth, ← hconfig]
      refine room_enterFrame ?_ _ _
      rw [hdepth, hconfig]
      exact hroom

/-- A continuation that is not empty needs a frame as well. -/
theorem beginResume_full {k : Continuation} (hk : k.records ≠ [])
    (hfull : vm.depth = vm.config.frameLimit) (pending : List Pending) :
    ∃ u waits, beginResume vm pending k
        = ⟨u, waits, .returned (.error (.frameLimit vm.config.frameLimit))⟩
      ∧ u.frames = vm.frames := by
  obtain ⟨outermost, hout⟩ : ∃ outermost, k.outermost? = some outermost := by
    cases hout : k.outermost? with
    | some outermost => exact ⟨outermost, rfl⟩
    | none => exact absurd (List.getLast?_eq_none_iff.mp hout) hk
  have hconfig : (vm.rebuilding k.records.reverse).config = vm.config := vm.config_dropArmed
  have hdepth : (vm.rebuilding k.records.reverse).depth = vm.depth :=
    congrArg List.length (vm.frames_rebuilding _)
  refine ⟨vm.rebuilding k.records.reverse, .resume vm.dropArmed.hooks.nextId :: pending, ?_,
    vm.frames_rebuilding _⟩
  rw [beginResume_eq hout, enterFrame_full, hconfig]
  rw [hdepth, hconfig]
  exact hfull

/-- A run is about to enter a frame: the first one of a function or a continuation. -/
inductive Enters : Run → Prop
  | function {vm : Vm} {pending : List Pending} {fn : Function} {args : Arguments}
      {locals : Slots} : fn.code.bind args = .ok locals →
      Enters ⟨vm, pending, .call (.function fn) args⟩
  | continuation {vm u : Vm} {pending : List Pending} {b : Builtin} {args : Arguments}
      {k : Continuation} : callNative b.native args vm = .ok (.resume k) u → k.records ≠ [] →
      Enters ⟨vm, pending, .call (.builtin b) args⟩

/-- The host lets a run enter a frame. -/
inductive EntersOn (vm : Vm) : Run → Prop
  | code (c : Code) : EntersOn vm (ofCode vm c)
  | frame (f : Frame) : EntersOn vm (ofFrame vm f)
  | continuation {k : Continuation} : k.records ≠ [] → EntersOn vm (ofContinuation vm k)

/-- A run that has been refused a frame. -/
def Refused (vm : Vm) (r : Run) : Prop :=
  r.phase = .returned (.error (.frameLimit vm.config.frameLimit)) ∧ r.vm.frames = vm.frames

theorem refused_of_enters (h : r.Enters) (hfull : r.vm.depth = r.vm.config.frameLimit) :
    ∃ s, r.step = some s ∧ s.Refused r.vm := by
  cases h with
  | @function vm pending fn args locals hbind =>
      refine ⟨_, rfl, ?_⟩
      unfold beginCall
      dsimp only
      rw [hbind]
      dsimp only [Except.mapError, lift, pure, EStateM.pure]
      rw [enterFrame_full hfull]
      exact ⟨rfl, rfl⟩
  | @continuation vm u pending b args k hnative hk =>
      obtain ⟨-, rfl, -⟩ := callNative_resume_ok hnative
      obtain ⟨w, waits, hresume, hframes⟩ := beginResume_full hk hfull pending
      refine ⟨_, rfl, ?_⟩
      unfold beginCall
      dsimp only
      rw [hnative]
      dsimp only
      rw [hresume]
      exact ⟨rfl, hframes⟩

theorem refused_of_entersOn (h : r.EntersOn vm) (hfull : vm.depth = vm.config.frameLimit) :
    r.Refused vm := by
  cases h with
  | code c =>
      unfold ofCode
      dsimp only
      rw [enterFrame_full]
      · exact ⟨rfl, rfl⟩
      · exact hfull
  | frame f =>
      unfold ofFrame
      rw [enterFrame_full hfull]
      exact ⟨rfl, rfl⟩
  | continuation hk =>
      obtain ⟨w, waits, hresume, hframes⟩ := beginResume_full hk hfull []
      unfold ofContinuation
      rw [hresume]
      exact ⟨rfl, hframes⟩

/-- The depth after a step. -/
theorem room_step (hroom : r.vm.depth ≤ r.vm.config.frameLimit) (hs : r.step = some s) :
    s.vm.depth ≤ r.vm.config.frameLimit
      ∧ (r.vm.depth < s.vm.depth → r.vm.depth < r.vm.config.frameLimit) := by
  rcases depth_of_step hs with ⟨hle, -⟩ | ⟨-, -, heq, -⟩ | ⟨-, ⟨f, rfl⟩ | ⟨k, rfl⟩⟩
  · exact ⟨by omega, fun hlt => by omega⟩
  · exact ⟨by omega, fun hlt => by omega⟩
  · exact room_enterFrame hroom r.pending f
  · exact room_beginResume hroom r.pending k

theorem CalledOn.room (h : r.CalledOn vm) (hroom : vm.depth ≤ vm.config.frameLimit) :
    r.vm.depth ≤ vm.config.frameLimit ∧ r.vm.config = vm.config := by
  cases h with
  | call callee args => exact ⟨hroom, rfl⟩
  | global name args =>
      unfold ofGlobal
      split
      · exact ⟨hroom, rfl⟩
      · exact ⟨hroom, rfl⟩
  | code c =>
      show (enterFrame { vm with store := (vm.store.makeFunction c).2 } [] _).vm.depth ≤ _ ∧ _
      refine ⟨(room_enterFrame ?_ [] _).1, config_enterFrame ..⟩
      exact hroom
  | frame f => exact ⟨(room_enterFrame hroom [] f).1, config_enterFrame ..⟩
  | continuation k => exact ⟨(room_beginResume hroom [] k).1, config_beginResume ..⟩

end Run

/-! ## §4. Sessions. -/

/-- A host that leaves frames and settings alone, and makes calls. -/
def Host.calling : Host where
  touches vm vm' := vm'.frames = vm.frames ∧ vm'.config = vm.config
  begins vm r := r.CalledOn vm
  judges _ := True
  answers _ := True

namespace Session

open Run

/-- The runs that wait for the host stand on one another, over `base`. -/
inductive Rests (base : List Frame) : List Run → List Frame → Prop
  | none : Rests base [] base
  | run {r : Run} {waiting : List Run} {below : List Frame} :
      r.Above below → Rests base waiting below → Rests base (r :: waiting) r.vm.frames

/-- Who has the machine stands on the runs that wait. -/
def StandsOver (base : List Frame) (s : Session) : Prop :=
  match s.floor with
  | .host vm => Rests base s.waiting vm.frames
  | .run r => ∃ below, r.Above below ∧ Rests base s.waiting below

variable {base : List Frame} {start : Vm} {s t : Session}

theorem Rests.suffix {waiting : List Run} {frames : List Frame} (h : Rests base waiting frames) :
    base <:+ frames := by
  induction h with
  | none => exact List.suffix_refl _
  | run habove hrest ih => exact ih.trans habove.stands.suffix

theorem StandsOver.suffix (h : s.StandsOver base) : base <:+ s.vm.frames := by
  obtain ⟨floor, waiting⟩ := s
  cases floor with
  | host vm => exact Rests.suffix h
  | run r =>
      obtain ⟨below, habove, hrest⟩ := h
      exact hrest.suffix.trans habove.stands.suffix

/-- A run that is over has no frames of its own left. -/
theorem frames_of_over {below : List Frame} {r : Run} (h : r.Above below) (hover : r.Over) :
    r.vm.frames = below := by
  obtain ⟨hpending, hphase⟩ := hover
  have hown : r.ownFrames = 0 := by
    unfold ownFrames
    rcases hphase with ⟨result, hphase⟩ | ⟨flow, hphase⟩
    · rw [hpending, hphase]
      rfl
    · exact absurd hphase (h.live flow)
  exact StandsOn.zero_iff.mp (hown ▸ h.stands)

/-- **Every step of a session keeps the frames below.** -/
theorem StandsOver.next (h : s.StandsOver base) (hnext : s.Next .calling t) : t.StandsOver base := by
  cases hnext with
  | @touch vm vm' waiting htouches =>
      replace h : Rests base waiting vm.frames := h
      show Rests base waiting vm'.frames
      rw [htouches.1]
      exact h
  | @take vm waiting =>
      replace h : Rests base waiting vm.frames := h
      show Rests base waiting (stateAfter capture vm).frames
      rw [stateAfter_capture, vm.frames_dropArmed]
      exact h
  | begin hcalled => exact ⟨_, hcalled.above, h⟩
  | step hstep =>
      obtain ⟨below, habove, hrest⟩ := h
      exact ⟨below, habove.step hstep, hrest⟩
  | ask hasks =>
      obtain ⟨below, habove, hrest⟩ := h
      exact .run habove hrest
  | @hook vm r waiting id hook ids result hphase hjudges =>
      -- the frames the host gives back are those of the run that asked
      obtain ⟨frames, hframes⟩ : ∃ frames, vm.frames = frames := ⟨_, rfl⟩
      replace h : Rests base (r :: waiting) vm.frames := h
      rw [hframes] at h
      cases h with
      | @run _ _ below habove hrest =>
          refine ⟨below, ?_, hrest⟩
          show (r.answerHook vm result).Above below
          rw [answerHook_eq hphase]
          have hstands := habove.stands
          unfold ownFrames at hstands
          rw [hphase, ← hframes] at hstands
          exact above_hookEnded hstands habove.calls ..
  | @answer vm r waiting name args result hphase hanswers =>
      obtain ⟨frames, hframes⟩ : ∃ frames, vm.frames = frames := ⟨_, rfl⟩
      replace h : Rests base (r :: waiting) vm.frames := h
      rw [hframes] at h
      cases h with
      | @run _ _ below habove hrest =>
          refine ⟨below, ?_, hrest⟩
          show (r.answerHost vm result).Above below
          rw [answerHost_eq hphase]
          have hstands := habove.stands
          unfold ownFrames at hstands
          rw [hphase, ← hframes] at hstands
          exact above_withResult hstands habove.calls _
  | @done r waiting hover =>
      obtain ⟨below, habove, hrest⟩ := h
      show Rests base waiting r.vm.frames
      rw [frames_of_over habove hover]
      exact hrest

/-- There is room for the frames of a session, under the settings it started with. -/
structure Fits (config : Config) (s : Session) : Prop where
  config_eq : s.vm.config = config
  depth_le : s.vm.depth ≤ config.frameLimit

theorem Fits.next {config : Config} (h : s.Fits config) (hnext : s.Next .calling t) :
    t.Fits config := by
  obtain ⟨hconfig, hdepth⟩ := h
  cases hnext with
  | @touch vm vm' waiting htouches =>
      refine ⟨htouches.2.trans hconfig, ?_⟩
      show vm'.frames.length ≤ _
      rw [htouches.1]
      exact hdepth
  | @take vm waiting =>
      refine ⟨?_, ?_⟩
      · show (stateAfter capture vm).config = config
        rw [stateAfter_capture, vm.config_dropArmed]
        exact hconfig
      · show (stateAfter capture vm).depth ≤ _
        rw [stateAfter_capture, vm.depth_dropArmed]
        exact hdepth
  | @begin vm r waiting hcalled =>
      replace hconfig : vm.config = config := hconfig
      obtain ⟨hroom, hsame⟩ := hcalled.room (hconfig ▸ hdepth)
      exact ⟨hsame.trans hconfig, hconfig ▸ hroom⟩
  | @step r r' waiting hstep =>
      replace hconfig : r.vm.config = config := hconfig
      exact ⟨(config_step hstep).trans hconfig, hconfig ▸ (room_step (hconfig ▸ hdepth) hstep).1⟩
  | ask hasks => exact ⟨hconfig, hdepth⟩
  | @hook vm r waiting id hook ids result hphase hjudges =>
      replace hconfig : vm.config = config := hconfig
      replace hdepth : vm.frames.length ≤ config.frameLimit := hdepth
      rw [answerHook_eq hphase]
      exact ⟨(config_hookEnded ..).trans hconfig, Nat.le_trans (depth_hookEnded ..) hdepth⟩
  | @answer vm r waiting name args result hphase hanswers =>
      rw [answerHost_eq hphase]
      exact ⟨hconfig, hdepth⟩
  | done hover => exact ⟨hconfig, hdepth⟩

/-- What calls leave alone in a state `s` of a session that started on a machine. -/
structure Isolates (start : Vm) (s : Session) : Prop where
  /-- The frames there were are there, below all others. -/
  below : start.frames <:+ s.vm.frames
  /-- A call that has returned, whatever its result is, has left no other. -/
  returns : ∀ vm result, s = ⟨.run ⟨vm, [], .returned result⟩, []⟩ → vm.frames = start.frames
  /-- Between two calls there is no other. -/
  idle : ∀ vm, s = ⟨.host vm, []⟩ → vm.frames = start.frames
  /-- There are never more than there may be. -/
  room : s.vm.depth ≤ start.config.frameLimit
  /-- A step enters a frame only while there are fewer. -/
  enters : ∀ r r' : Run, s.floor = .run r → r.step = some r' → r.vm.depth < r'.vm.depth →
    r.vm.depth < start.config.frameLimit
  /-- At the limit it is refused, to a run … -/
  refuses : ∀ r : Run, s.floor = .run r → r.Enters → r.vm.depth = start.config.frameLimit →
    ∃ r', r.step = some r' ∧ r'.vm.frames = r.vm.frames
      ∧ r'.phase = .returned (.error (.frameLimit start.config.frameLimit))
  /-- … and to the host. -/
  refuses_host : ∀ vm, ∀ r : Run, s.floor = .host vm → r.EntersOn vm →
    vm.depth = start.config.frameLimit → r.vm.frames = vm.frames
      ∧ r.phase = .returned (.error (.frameLimit start.config.frameLimit))

/-- **Calls are isolated**: in every state of every session in which the host only makes
calls, on whatever machine it starts. -/
theorem calls_isolated (hroom : start.depth ≤ start.config.frameLimit)
    (hreach : Reaches .calling ⟨.host start, []⟩ s) : s.Isolates start := by
  -- standing over the frames of the start and fitting the limit are kept step by step
  have hall : s.StandsOver start.frames ∧ s.Fits start.config := by
    induction hreach with
    | refl => exact ⟨.none, rfl, hroom⟩
    | tail _ hnext ih => exact ⟨ih.1.next hnext, ih.2.next hnext⟩
  obtain ⟨hstands, hfits⟩ := hall
  refine ⟨hstands.suffix, ?_, ?_, hfits.depth_le, ?_, ?_, ?_⟩
  · rintro vm result rfl
    obtain ⟨below, habove, hrest⟩ := hstands
    cases hrest
    exact frames_of_over habove ⟨rfl, .inl ⟨result, rfl⟩⟩
  · rintro vm rfl
    obtain ⟨frames, hframes⟩ : ∃ frames, vm.frames = frames := ⟨_, rfl⟩
    replace hstands : Rests start.frames [] vm.frames := hstands
    rw [hframes] at hstands ⊢
    cases hstands
    rfl
  · intro r r' hfloor hstep hmore
    obtain ⟨hconfig, hdepth⟩ := hfits
    rw [Session.vm, hfloor] at hconfig hdepth
    replace hconfig : r.vm.config = start.config := hconfig
    rw [← hconfig] at hdepth ⊢
    exact (room_step hdepth hstep).2 hmore
  · intro r hfloor henters hfull
    have hconfig := hfits.config_eq
    rw [Session.vm, hfloor] at hconfig
    replace hconfig : r.vm.config = start.config := hconfig
    rw [← hconfig] at hfull ⊢
    obtain ⟨r', hstep, hphase, hframes⟩ := refused_of_enters henters hfull
    exact ⟨r', hstep, hframes, hphase⟩
  · intro vm r hfloor henters hfull
    have hconfig := hfits.config_eq
    rw [Session.vm, hfloor] at hconfig
    replace hconfig : vm.config = start.config := hconfig
    rw [← hconfig] at hfull ⊢
    obtain ⟨hphase, hframes⟩ := refused_of_entersOn henters hfull
    exact ⟨hframes, hphase⟩

/-- A body that calls itself has reached the limit of two frames and is about to call
itself once more. -/
theorem calls_isolated_recursing :
    Isolates recursingRun.vm ⟨.run (steps 10 recursingRun), []⟩
      ∧ (steps 10 recursingRun).vm.depth = recursingRun.vm.config.frameLimit := by
  have hreach : Reaches .calling ⟨.host recursingRun.vm, []⟩ ⟨.run (steps 10 recursingRun), []⟩ :=
    .trans (.single (.begin (CalledOn.call (.function ⟨0, recursing⟩) {})))
      (reaches_steps _ 10 recursingRun [])
  exact ⟨calls_isolated (by decide +kernel) hreach, by decide +kernel⟩

end Session

end Resumable
