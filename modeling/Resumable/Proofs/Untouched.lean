/-
  Resumable.Proofs.Untouched
  ──────────────────────────
  **WHAT PROGRAMS LEAVE ALONE.**

  A program changes its frames, its data and the hooks of its resumes.  Two things
  of a machine are out of its reach, or nearly so:

      the settings              nothing changes them
      the exception handled     only closing and entering handlers changes it

  `Spares` says that an action changes neither.  No data and no frame holds either of
  them, so all actions spare them but two: leaving a handler and unwinding, which
  leave at least the settings alone.

  Main results:
    • `spares_execute`, `spares_callNative` — all instructions but one, all natives,
    • `Run.config_step`                     — the settings of a run never change.
-/
import Resumable.Proofs.FatalFaults
import Resumable.Proofs.HeldActions
import Resumable.Proofs.Sessions

namespace Resumable

/-- The settings are the same. -/
def Vm.SameConfig (vm vm' : Vm) : Prop :=
  vm'.config = vm.config

/-- So is the exception being handled. -/
structure Vm.Spares (vm vm' : Vm) : Prop where
  config_eq : vm.SameConfig vm'
  handled_eq : vm'.handled = vm.handled

namespace VmAction

open Vm (Spares SameConfig)

variable {α : Type}

/-! ## §1. Actions. -/

/-- A frame has neither settings nor a handled exception, whatever is done to it. -/
theorem spares_onFrame (x : FrameAction α) : Keeps Spares (onFrame x) := by
  intro vm
  unfold stateAfter
  cases hframes : vm.frames with
  | nil =>
      rw [show onFrame x vm = .error (.internal .noActiveFrame) vm by simp only [onFrame, hframes]]
      exact ⟨rfl, rfl⟩
  | cons f rest =>
      rw [onFrame_apply hframes]
      cases x f with
      | ok a g => exact ⟨rfl, rfl⟩
      | error e g => exact ⟨rfl, rfl⟩

/-- The settings belong to no frame. -/
theorem sameConfig_onFrame (x : FrameAction α) : Keeps SameConfig (onFrame x) :=
  fun vm => (spares_onFrame x vm).config_eq

end VmAction

/-- Neither data nor frames hold the settings or the exception that is handled. -/
theorem Vm.Spares.admits (written : Option Nat) : Vm.Admits written Vm.Spares where
  trans := fun h₁ h₂ => ⟨h₂.config_eq.trans h₁.config_eq, h₂.handled_eq.trans h₁.handled_eq⟩
  data := fun _ _ _ hconfig hhandled => ⟨hconfig, hhandled⟩
  keeps_onFrame := fun {_ x} _ => VmAction.spares_onFrame x

/-- No action has them to change. -/
theorem Vm.SameConfig.admits (written : Option Nat) : Vm.Admits written Vm.SameConfig where
  trans := fun h₁ h₂ => Eq.trans h₂ h₁
  data := fun _ _ _ hconfig _ => hconfig
  keeps_onFrame := fun {_ x} _ => VmAction.sameConfig_onFrame x

/-! ## §2. Instructions and natives. -/

namespace VmAction

open Vm (Spares SameConfig)

/-- **Only leaving a handler changes the exception that is handled.** -/
theorem spares_execute {i : Instruction} (h : i.opcode ≠ .popExcept) : Keeps Spares (execute i) :=
  (Spares.admits _).keeps_execute fun hleave => absurd hleave h

/-- Taking the result of a call handles no exception. -/
theorem spares_finishCall (slots : Nat) (result : Value) : Keeps Spares (finishCall slots result) :=
  spares_onFrame _

/-- **No native changes it.** -/
theorem spares_callNative (native : Native) (args : Arguments) :
    Keeps Spares (callNative native args) := by
  refine (Spares.admits none).keeps_callNative (fun _ vm => ?_) args
  unfold Vm.dropArmed
  split <;> exact ⟨rfl, rfl⟩

/-- And no native works on a frame. -/
theorem frames_callNative (native : Native) (args : Arguments) (vm : Vm) :
    (stateAfter (callNative native args) vm).frames = vm.frames :=
  sameFrames_callNative native args vm

/-- **No instruction changes the settings.** -/
theorem sameConfig_execute (i : Instruction) : Keeps SameConfig (execute i) :=
  (SameConfig.admits _).keeps_execute fun _ _ _ => rfl

theorem sameConfig_unwind (exc : Value) : Keeps SameConfig (unwind exc) :=
  (SameConfig.admits none).keeps_unwind (fun _ _ => rfl) exc

end VmAction

/-! ## §3. The settings. -/

open VmAction

namespace Run

variable {vm vm' : Vm} {r s : Run}

theorem config_raiseInFrame (vm : Vm) (pending : List Pending) (exc : Value) :
    (raiseInFrame vm pending exc).vm.config = vm.config := by
  unfold raiseInFrame
  cases hunwind : unwind exc vm with
  | ok a u => exact (sameConfig_unwind exc).of_ok hunwind
  | error e u =>
      show u.config = vm.config
      exact (sameConfig_unwind exc).of_error hunwind

/-- Whatever follows an instruction, the settings stay. -/
theorem config_follow (vm : Vm) (pending : List Pending) (result : Except Fault Flow) :
    (follow vm pending result).vm.config = vm.config := by
  cases result with
  | error e =>
      cases e with
      | exception exc => exact config_raiseInFrame vm pending exc
      | _ => rfl
  | ok flow =>
      cases flow with
      | next => rfl
      | «return» value => rfl
      | raise exc => exact config_raiseInFrame vm pending exc
      | jump target =>
          unfold follow
          dsimp only
          cases hjump : onFrame (modify fun f => { f with next := target }) vm with
          | ok a u => exact (sameConfig_onFrame _).of_ok hjump
          | error e u =>
              show u.config = vm.config
              exact (sameConfig_onFrame _).of_error hjump

theorem config_stepFrame (vm : Vm) (pending : List Pending) :
    (stepFrame vm pending).vm.config = vm.config := by
  unfold stepFrame
  split
  · rfl
  · split
    · rfl
    · cases hfetch : onFrame FrameAction.fetch vm with
      | error e u =>
          show u.config = vm.config
          exact (sameConfig_onFrame _).of_error hfetch
      | ok i u =>
          have hfetched : u.config = vm.config := (sameConfig_onFrame _).of_ok hfetch
          dsimp only
          unfold perform
          cases hexecute : execute i u with
          | error e w =>
              have hexecuted : w.config = u.config := (sameConfig_execute i).of_error hexecute
              exact (config_follow ..).trans (hexecuted.trans hfetched)
          | ok outcome w =>
              have hexecuted : w.config = u.config := (sameConfig_execute i).of_ok hexecute
              cases outcome with
              | call request => exact hexecuted.trans hfetched
              | flow flow => exact (config_follow ..).trans (hexecuted.trans hfetched)
              | breakOff => exact hexecuted.trans hfetched

@[simp] theorem config_enterFrame (vm : Vm) (pending : List Pending) (f : Frame) :
    (enterFrame vm pending f).vm.config = vm.config := by
  unfold enterFrame
  dsimp only
  split <;> rfl

/-- A resume begins with the settings it found. -/
@[simp] theorem config_beginResume (vm : Vm) (pending : List Pending) (k : Continuation) :
    (beginResume vm pending k).vm.config = vm.config := by
  cases hout : k.outermost? with
  | none =>
      unfold beginResume
      rw [hout]
      rfl
  | some outermost =>
      rw [beginResume_eq hout, config_enterFrame]
      exact vm.config_dropArmed

/-- So does a call. -/
theorem config_beginCall (vm : Vm) (pending : List Pending) (callee : Value) (args : Arguments) :
    (beginCall vm pending callee args).vm.config = vm.config := by
  unfold beginCall
  split
  · next fn =>
      cases hlift : lift ((fn.code.bind args).mapError Cause.badArguments) vm with
      | ok locals u =>
          obtain ⟨-, rfl⟩ := lift_ok.mp hlift
          exact config_enterFrame ..
      | error e u => exact ((Vm.SameConfig.admits none).keeps_lift _).of_error hlift
  · next b =>
      have hsame : Keeps Vm.SameConfig (callNative b.native args) :=
        fun vm => (spares_callNative b.native args vm).config_eq
      cases hnative : callNative b.native args vm with
      | error e u => exact hsame.of_error hnative
      | ok outcome u =>
          have hcalled : u.config = vm.config := hsame.of_ok hnative
          cases outcome with
          | value v => exact hcalled
          | ask name => exact hcalled
          | resume k => exact (config_beginResume ..).trans hcalled
  · rfl

/-- Hooks change the chain and nothing of the settings. -/
@[simp] theorem config_hookEnded (vm : Vm) (pending : List Pending) (id : HookNumber) (hook : Hook)
    (ids : List HookNumber) (result : Except Fault HookVerdict) :
    (hookEnded vm pending id hook ids result).vm.config = vm.config := by
  unfold hookEnded
  split <;> rfl

theorem config_runHooks (vm : Vm) (pending : List Pending) (ids : List HookNumber) :
    (runHooks vm pending ids).vm.config = vm.config := by
  unfold runHooks rebuildFrame
  split
  · rfl
  · split
    · rfl
    · dsimp only
      split
      · split
        · exact config_hookEnded ..
        · exact config_hookEnded ..
        · split <;> exact config_hookEnded ..
      · rfl

/-- Delivering a result leaves them alone. -/
theorem config_deliver (vm : Vm) (waiting : Pending) (pending : List Pending)
    (result : Except Fault Value) : (deliver vm waiting pending result).vm.config = vm.config := by
  have hsite (slots : Nat) : (siteFlow vm slots result).2.config = vm.config := by
    unfold siteFlow
    cases result with
    | error e => rfl
    | ok v =>
        dsimp only
        cases hfinish : finishCall slots v vm with
        | ok a u => exact (sameConfig_onFrame _).of_ok hfinish
        | error e u => exact (sameConfig_onFrame _).of_error hfinish
  cases waiting with
  | site slots => exact (config_follow ..).trans (hsite slots)
  | lone slots => exact hsite slots
  | resume id =>
      show (endResume vm id).config = vm.config
      unfold endResume
      dsimp only
      split <;> rfl

/-- **The settings of a run never change.** -/
theorem config_step (hs : r.step = some s) : s.vm.config = r.vm.config := by
  unfold step at hs
  split at hs
  · exact Option.some.inj hs ▸ config_stepFrame ..
  · exact Option.some.inj hs ▸ config_beginCall ..
  · exact Option.some.inj hs ▸ config_runHooks ..
  · cases hs
  · cases hs
  · split at hs
    · cases hs
    · exact Option.some.inj hs ▸ config_deliver ..
  · cases hs
  · cases hs

end Run

end Resumable
