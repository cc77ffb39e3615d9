/-
  Resumable.Proofs.HandledBalance
  ───────────────────────────────
  **WHICH EXCEPTION IS HANDLED AFTER A CALL.**

  A handler that is left, or that an exception passes, gives back what was handled
  before it was entered.  So what is handled once every frame of a call has given back
  what it owes is settled from the start:

      account  =  what is handled now, then what each frame owes, innermost first

  and no step changes it but one: a frame that returns a value from inside a handler
  gives nothing back.  If a frame below it is inside a handler too, that one will make
  up for it; if none is (`Run.escapes`), the exception the frame was handling is still
  handled when the call has ended.

  A record that is put into a frame brings handlers with it that were entered
  elsewhere, and an instruction that takes saved slots for operands can leave anything
  in them; both are left out here (`Run.Respects`, `Run.EntersPlain`).

  Main results:
    • `Run.Balanced.step`      — a step keeps the account, or returns from a handler,
    • `Run.handled_after_call` — what is handled after a call.
-/
import Resumable.Proofs.SavedException

namespace Resumable

open VmAction

/-! ## §1. The account. -/

/-- What is handled once frames, innermost first, have given back what they owe. -/
def account (own : List Frame) (handled : Option Value) : Option Value :=
  own.foldl (fun handled f => f.restore handled) handled

theorem account_of_not_handling {own : List Frame} (h : ∀ f ∈ own, f.isHandling = false)
    (handled : Option Value) : account own handled = handled := by
  induction own generalizing handled with
  | nil => rfl
  | cons f own ih =>
      obtain ⟨hf, hown⟩ := List.forall_mem_cons.mp h
      show account own (f.restore handled) = handled
      rw [f.restore_of_not_handling hf, ih hown]

/-- A frame inside a handler makes up for whatever is handled. -/
theorem account_of_handling {own : List Frame} (h : ∃ f ∈ own, f.isHandling = true)
    (handled handled' : Option Value) : account own handled = account own handled' := by
  induction own generalizing handled handled' with
  | nil =>
      obtain ⟨f, hf, -⟩ := h
      cases hf
  | cons f own ih =>
      show account own (f.restore handled) = account own (f.restore handled')
      obtain ⟨g, hg, hhandling⟩ := h
      rcases List.mem_cons.mp hg with rfl | hg
      · rw [g.restore_of_handling hhandling handled handled']
      · exact ih ⟨g, hg, hhandling⟩ _ _

/-- A frame is being entered. -/
def Phase.isEntering : Phase → Bool
  | .enter _ | .atHook _ _ _ => true
  | _ => false

namespace Run

/-- The frames of a call that wait for results are nested below the entries of the call
instructions they are suspended in. -/
def Waits : List Pending → List Frame → Prop
  | [], own => own = []
  | .site slots :: pending, f :: own => f.Loose slots ∧ Waits pending own
  | .resume _ :: pending, own => Waits pending own
  | _, _ => False

theorem Waits.onlyCalls {pending : List Pending} {own : List Frame} (h : Waits pending own) :
    OnlyCalls pending := by
  induction pending generalizing own with
  | nil => exact fun slots hmem => by cases hmem
  | cons waiting pending ih =>
      cases waiting with
      | site slots =>
          cases own with
          | nil => cases h
          | cons f own => exact (ih h.2).site slots
      | resume id => exact (ih h).resume id
      | lone slots => cases h

/-- The frames of a call over `below` owe `owed` in the end: the innermost one is or was at
work, or has just been entered, or all wait, or a fatal fault is on its way out. -/
inductive Balanced (below : List Frame) (owed : Option Value) : Run → Prop
  | working {vm : Vm} {pending : List Pending} {phase : Phase} {f : Frame} {own : List Frame} :
      phase.isInFrame = true → vm.frames = f :: (own ++ below) → Waits pending own →
      account own (f.restore vm.handled) = owed → Balanced below owed ⟨vm, pending, phase⟩
  | waiting {vm : Vm} {pending : List Pending} {phase : Phase} {own : List Frame} :
      phase.isInFrame = false → (∀ flow, phase ≠ .ended flow) → vm.frames = own ++ below →
      Waits pending own → account own vm.handled = owed → Balanced below owed ⟨vm, pending, phase⟩
  | failing {vm : Vm} {pending : List Pending} {e : Fault} :
      e.isCatchable = false → OnlyCalls pending →
      Balanced below owed ⟨vm, pending, .returned (.error e)⟩

/-- A run whose innermost frame `f` has been left with a value, and with it what it owed. -/
structure LeftWithValue (below : List Frame) (owed handled : Option Value) (f : Frame)
    (own : List Frame) (r : Run) : Prop where
  returned : ∃ value, r.phase = .returned (.ok value)
  frames_eq : r.vm.frames = own ++ below
  waits : Waits r.pending own
  handled_eq : r.vm.handled = handled
  owed_eq : account own (f.restore handled) = owed

/-! ## §2. What is asked of a run. -/

/-- The instruction that a run executes next works on no entry that a block of its
frame relies on. -/
def Respects (r : Run) : Prop :=
  ∀ i ∈ r.fetched?, ∀ f ∈ r.vm.frames.head?, f.Loose i.reach

/-- A frame that is being entered is inside no handler. -/
def EntersPlain (r : Run) : Prop :=
  r.phase.isEntering = true → ∀ f ∈ r.vm.frames.head?, f.isHandling = false

instance (r : Run) : Decidable r.Respects :=
  inferInstanceAs (Decidable (∀ i ∈ r.fetched?, ∀ f ∈ r.vm.frames.head?, f.Loose i.reach))

instance (r : Run) : Decidable r.EntersPlain :=
  inferInstanceAs (Decidable (_ → ∀ f ∈ r.vm.frames.head?, _))

/-- The next step leaves the innermost frame with a value. -/
def leavesWithValue (r : Run) : Bool :=
  match r.phase, r.step with
  | .loop, some ⟨_, _, .returned (.ok _)⟩ => true
  | _, _ => false

/-- A frame entered since `start` returns from inside a handler, and none below it that
was entered since is inside one. -/
def escapes (start : Vm) (r : Run) : Bool :=
  r.leavesWithValue &&
    match r.vm.framesOver start with
    | f :: own => f.isHandling && own.all fun g => !g.isHandling
    | [] => false

variable {vm vm' : Vm} {pending : List Pending} {below own : List Frame} {owed : Option Value}
  {f : Frame} {r s : Run}

theorem leavesWithValue_of_not_loop (h : r.phase ≠ .loop) : r.leavesWithValue = false := by
  unfold leavesWithValue
  split
  · next hphase _ => exact absurd hphase h
  · rfl

theorem leavesWithValue_eq_false (hs : r.step = some s)
    (h : r.phase = .loop → ∀ value, s.phase ≠ .returned (.ok value)) :
    r.leavesWithValue = false := by
  unfold leavesWithValue
  rw [hs]
  split
  · next hphase heq =>
      obtain rfl := Option.some.inj heq
      exact absurd rfl (h hphase _)
  · rfl

/-! ## §3. The innermost frame at work. -/

/-- A run that owes what it owed, and has not just been given a value. -/
def GoesOn (below : List Frame) (owed : Option Value) (r : Run) : Prop :=
  r.Balanced below owed ∧ ∀ value, r.phase ≠ .returned (.ok value)

theorem goesOn_loop (hframes : vm.frames = f :: (own ++ below)) (hwaits : Waits pending own)
    (howed : account own (f.restore vm.handled) = owed) : GoesOn below owed ⟨vm, pending, .loop⟩ :=
  ⟨.working rfl hframes hwaits howed, fun _ h => by cases h⟩

theorem goesOn_fatal {e : Fault} (he : e.isCatchable = false) (hcalls : OnlyCalls pending) (vm : Vm) :
    GoesOn below owed ⟨vm, pending, .returned (.error e)⟩ :=
  ⟨.failing he hcalls, fun _ h => by cases h⟩

/-- An exception is caught, or the frame gives back what it owes. -/
theorem goesOn_raiseInFrame (hframes : vm.frames = f :: (own ++ below)) (hloose : f.Loose 0)
    (hwaits : Waits pending own) (howed : account own (f.restore vm.handled) = owed) (exc : Value) :
    GoesOn below owed (raiseInFrame vm pending exc) := by
  rw [raiseInFrame_of_inPlace hloose.inPlace hframes]
  cases hbody : f.tryBody? with
  | some body =>
      refine goesOn_loop rfl hwaits ?_
      show account own ((f.catching body (f.settle vm.handled) exc).restore (some exc)) = owed
      rw [Frame.restore_catching hloose hbody]
      exact howed
  | none =>
      refine ⟨.waiting rfl (fun _ h => by cases h) rfl hwaits ?_, fun _ h => by cases h⟩
      show account own (f.settle vm.handled) = owed
      rw [Frame.settle_eq_restore hloose hbody]
      exact howed

/-- An instruction on blocks goes on, or breaks off the run. -/
theorem goesOn_perform_andNext {i : Instruction} {action : VmAction Unit}
    (hi : execute i = andNext action) (hcalm : Calm action) (hcalls : OnlyCalls pending)
    (h : ∀ u, action vm = .ok () u → GoesOn below owed ⟨u, pending, .loop⟩) :
    GoesOn below owed (perform vm pending i) := by
  unfold perform
  cases haction : action vm with
  | ok a u =>
      have hexecute : execute i vm = .ok (.flow .next) u := by
        rw [hi]
        exact action_bind_ok.mpr ⟨a, u, haction, rfl⟩
      rw [hexecute]
      exact h u haction
  | error e u =>
      obtain ⟨b, rfl⟩ := hcalm vm e u haction
      have hexecute : execute i vm = .error (.internal b) u := by
        rw [hi]
        exact action_bind_error.mpr (.inl haction)
      rw [hexecute]
      exact goesOn_fatal rfl hcalls _

/-- Instructions that open and leave blocks. -/
theorem goesOn_perform_onBlocks {i : Instruction} (hi : i.opcode.isOnBlocks = true)
    (hframes : vm.frames = f :: (own ++ below)) (hloose : f.Loose 0) (hwaits : Waits pending own)
    (howed : account own (f.restore vm.handled) = owed) :
    GoesOn below owed (perform vm pending i) := by
  obtain ⟨offset, opcode, arg⟩ := i
  cases opcode with
  | setupExcept =>
      refine goesOn_perform_andNext rfl (Calm.openTry _) hwaits.onlyCalls fun u hopen => ?_
      rw [openTry_eq hframes] at hopen
      obtain ⟨-, rfl⟩ := EStateM.Result.ok.inj hopen
      refine goesOn_loop rfl hwaits ?_
      exact (congrArg (account own) (Frame.restore_withBlocks rfl _)).trans howed
  | popBlock =>
      refine goesOn_perform_andNext rfl Calm.closeTry hwaits.onlyCalls fun u hclose => ?_
      obtain ⟨level, handler, outer, hblocks, rfl⟩ := closeTry_ok hframes hclose
      refine goesOn_loop rfl hwaits ?_
      have houter : outermostHandler? outer = outermostHandler? f.blocks := by
        rw [hblocks]
        rfl
      exact (congrArg (account own) (Frame.restore_withBlocks houter _)).trans howed
  | popExcept =>
      refine goesOn_perform_andNext rfl Calm.leaveHandler hwaits.onlyCalls fun u hleave => ?_
      obtain ⟨level, outer, hblocks, rfl⟩ := leaveHandler_ok hframes hloose hleave
      refine goesOn_loop rfl hwaits ?_
      show account own ((f.closed level outer).restore (f.keptAt level)) = owed
      rw [Frame.restore_closed hblocks hloose vm.handled]
      exact howed
  | _ => cases hi

/-- **The instruction that a frame executes** keeps the account, or makes the frame return. -/
theorem balanced_perform {i : Instruction} (hframes : vm.frames = f :: (own ++ below))
    (hloose : f.Loose i.reach) (hwaits : Waits pending own)
    (howed : account own (f.restore vm.handled) = owed) :
    GoesOn below owed (perform vm pending i)
      ∨ LeftWithValue below owed vm.handled f own (perform vm pending i) := by
  by_cases hblocks : i.opcode.isOnBlocks = true
  · exact .inl (goesOn_perform_onBlocks hblocks hframes (hloose.mono (Nat.zero_le _)) hwaits howed)
  · have hblocks : i.opcode.isOnBlocks = false := Bool.eq_false_iff.mpr hblocks
    have hleave : i.opcode ≠ .popExcept := by
      intro hopcode
      rw [hopcode] at hblocks
      cases hblocks
    obtain ⟨g, hg, hstays, hsize, hshares⟩ := exists_frame_of_execute hblocks hframes
    have hhandled := (spares_execute hleave vm).handled_eq
    have hrestore := Frame.restore_of_shares hloose hstays hshares vm.handled
    have hloose' : g.Loose 0 := hloose.of_stays hstays (by omega)
    unfold stateAfter at hg hhandled
    unfold perform
    cases hexecute : execute i vm with
    | error e u =>
        rw [hexecute] at hg hhandled
        replace hhandled : u.handled = vm.handled := hhandled
        left
        cases e with
        | exception exc =>
            refine goesOn_raiseInFrame hg hloose' hwaits ?_ exc
            rw [hhandled, hrestore]
            exact howed
        | _ => exact goesOn_fatal rfl hwaits.onlyCalls _
    | ok outcome u =>
        rw [hexecute] at hg hhandled
        replace hhandled : u.handled = vm.handled := hhandled
        replace hg : u.frames = g :: (own ++ below) := hg
        have howed' : account own (g.restore u.handled) = owed := by
          rw [hhandled, hrestore]
          exact howed
        cases outcome with
        | breakOff => exact .inl ⟨.working rfl hg hwaits howed', fun _ h => by cases h⟩
        | call request =>
            -- the frame waits below the entries of its call
            left
            obtain ⟨hcall, hrequest⟩ := execute_call_ok hexecute
            obtain ⟨rfl, slots, htop, hreads⟩ := (callRequest_ok hframes).mp hrequest
            have hslots : request.slots = i.callSize := by
              obtain ⟨hdepth, hdrop⟩ := Frame.topSlots_ok.mp htop
              rw [hreads.callee.2, ← hdrop, List.length_drop, Array.length_toList]
              unfold Frame.depth at hdepth
              omega
            have hreach : i.reach = i.callSize := by
              unfold Instruction.reach
              revert hcall
              cases i.opcode <;> intro hcall <;> first | rfl | cases hcall
            have hwaits' : Waits (.site request.slots :: pending) (f :: own) := by
              refine ⟨?_, hwaits⟩
              rw [hslots, ← hreach]
              exact hloose
            exact ⟨.waiting rfl (fun _ h => by cases h) hframes hwaits' howed, fun _ h => by cases h⟩
        | flow flow =>
            cases flow with
            | next => exact .inl (goesOn_loop hg hwaits howed')
            | jump target =>
                left
                dsimp only
                rw [follow_jump hg]
                exact goesOn_loop rfl hwaits howed'
            | raise exc => exact .inl (goesOn_raiseInFrame hg hloose' hwaits howed' exc)
            | «return» value =>
                exact .inr ⟨⟨value, rfl⟩, congrArg List.tail hg, hwaits, hhandled, howed⟩

/-- The innermost frame executes its next instruction, or has none left. -/
theorem balanced_stepFrame (hframes : vm.frames = f :: (own ++ below))
    (hrespects : Respects ⟨vm, pending, .loop⟩) (hwaits : Waits pending own)
    (howed : account own (f.restore vm.handled) = owed) :
    GoesOn below owed (stepFrame vm pending)
      ∨ LeftWithValue below owed vm.handled f own (stepFrame vm pending) := by
  unfold stepFrame
  rw [hframes]
  dsimp only
  by_cases hdone : f.isDone = true
  · rw [if_pos hdone]
    exact .inr ⟨⟨.none, rfl⟩, congrArg List.tail hframes, hwaits, rfl, howed⟩
  · rw [if_neg hdone]
    cases hdecode : decodeAt f.code.bytes f.next with
    | error e =>
        rw [fetch_of_decodeAt_error hframes hdecode]
        exact .inl (goesOn_fatal rfl hwaits.onlyCalls _)
    | ok i =>
        have hfetched : i ∈ fetched? ⟨vm, pending, .loop⟩ := by
          unfold fetched?
          rw [hframes]
          dsimp only
          rw [hdecode]
          rfl
        have hloose : f.Loose i.reach := hrespects i hfetched f (by rw [hframes]; rfl)
        rw [fetch_of_decodeAt hframes hdecode]
        have hfetched' : ({ vm with frames := f.fetched i :: (own ++ below) } : Vm).frames
            = f.fetched i :: (own ++ below) := rfl
        rcases balanced_perform hfetched' hloose hwaits howed with hgoes | hleft
        · exact .inl hgoes
        · exact .inr ⟨hleft.returned, hleft.frames_eq, hleft.waits, hleft.handled_eq, howed⟩

/-! ## §4. Calls, entries and results. -/

theorem balanced_withResult (hframes : vm.frames = own ++ below) (hwaits : Waits pending own)
    (howed : account own vm.handled = owed) (result : Except Fault Value) :
    (withResult vm pending result).Balanced below owed :=
  .waiting rfl (fun _ h => by cases h) hframes hwaits howed

/-- A frame is entered that is inside no handler. -/
theorem balanced_enterFrame (hframes : vm.frames = own ++ below) (hwaits : Waits pending own)
    (howed : account own vm.handled = owed) (hplain : f.isHandling = false) :
    (enterFrame vm pending f).Balanced below owed := by
  unfold enterFrame
  dsimp only
  split
  · exact balanced_withResult hframes hwaits howed _
  · refine .working rfl (congrArg (f :: ·) hframes) hwaits ?_
    show account own (f.restore vm.handled) = owed
    rw [f.restore_of_not_handling hplain]
    exact howed

theorem balanced_beginResume (hframes : vm.frames = own ++ below) (hwaits : Waits pending own)
    (howed : account own vm.handled = owed) (k : Continuation) :
    (beginResume vm pending k).Balanced below owed := by
  cases hout : k.outermost? with
  | none =>
      unfold beginResume
      rw [hout]
      exact balanced_withResult hframes hwaits howed _
  | some outermost =>
      rw [beginResume_eq hout]
      refine balanced_enterFrame ((vm.frames_rebuilding _).trans hframes) ?_ ?_ rfl
      · exact hwaits
      · show account own vm.dropArmed.handled = owed
        rw [vm.handled_dropArmed]
        exact howed

/-- A value is called. -/
theorem balanced_beginCall (hframes : vm.frames = own ++ below) (hwaits : Waits pending own)
    (howed : account own vm.handled = owed) (callee : Value) (args : Arguments) :
    (beginCall vm pending callee args).Balanced below owed := by
  unfold beginCall
  split
  · next fn =>
      cases hlift : lift ((fn.code.bind args).mapError Cause.badArguments) vm with
      | ok locals u =>
          obtain ⟨-, rfl⟩ := lift_ok.mp hlift
          exact balanced_enterFrame hframes hwaits howed rfl
      | error e u =>
          have hsame : u.frames = vm.frames := (SameFrames.steady.keeps_lift _).of_error hlift
          have hhandled : u.handled = vm.handled :=
            (((Vm.Spares.admits none).keeps_lift _).of_error hlift).handled_eq
          refine balanced_withResult (hsame.trans hframes) hwaits ?_ _
          rw [hhandled]
          exact howed
  · next b =>
      have hsame := frames_callNative b.native args vm
      have hhandled := (spares_callNative b.native args vm).handled_eq
      unfold stateAfter at hsame hhandled
      cases hnative : callNative b.native args vm with
      | error e u =>
          rw [hnative] at hsame hhandled
          refine balanced_withResult (hsame.trans hframes) hwaits ?_ _
          exact (congrArg (account own) hhandled).trans howed
      | ok outcome u =>
          rw [hnative] at hsame hhandled
          have hframes' : u.frames = own ++ below := hsame.trans hframes
          have howed' : account own u.handled = owed := (congrArg (account own) hhandled).trans howed
          cases outcome with
          | value v => exact balanced_withResult hframes' hwaits howed' _
          | resume k => exact balanced_beginResume hframes' hwaits howed' k
          | ask name => exact .waiting rfl (fun _ h => by cases h) hframes' hwaits howed'
  · refine balanced_withResult ?_ hwaits ?_ _
    · exact hframes
    · exact howed

/-- A hook is done with a frame that is inside no handler. -/
theorem balanced_hookEnded (hframes : vm.frames = f :: (own ++ below)) (hwaits : Waits pending own)
    (howed : account own vm.handled = owed) {id : HookNumber} {hook : Hook} {ids : List HookNumber}
    {result : Except Fault HookVerdict}
    (hplain : (hookEnded vm pending id hook ids result).EntersPlain) :
    (hookEnded vm pending id hook ids result).Balanced below owed := by
  unfold hookEnded at hplain ⊢
  split at hplain
  · refine .working rfl hframes hwaits ?_
    show account own (f.restore vm.handled) = owed
    rw [f.restore_of_not_handling (hplain rfl f (by show f ∈ vm.frames.head?; rw [hframes]; rfl))]
    exact howed
  · refine .working rfl hframes hwaits ?_
    show account own (f.restore vm.handled) = owed
    rw [f.restore_of_not_handling (hplain rfl f (by show f ∈ vm.frames.head?; rw [hframes]; rfl))]
    exact howed
  · refine balanced_withResult ?_ hwaits ?_ _
    · exact congrArg List.tail hframes
    · exact howed

/-- The record that is put into a frame brings no handler. -/
theorem balanced_rebuildFrame (hframes : vm.frames = f :: (own ++ below))
    (hwaits : Waits pending own) (howed : account own vm.handled = owed) {id : HookNumber}
    {records : List Record} {ids : List HookNumber}
    (hplain : (rebuildFrame vm pending id records ids).EntersPlain) :
    (rebuildFrame vm pending id records ids).Balanced below owed := by
  unfold rebuildFrame at hplain ⊢
  rw [hframes] at hplain ⊢
  cases records with
  | nil => exact balanced_hookEnded hframes hwaits howed hplain
  | cons record rest =>
      dsimp only at hplain ⊢
      cases hput : f.putRecord record with
      | error e =>
          rw [hput] at hplain
          exact balanced_hookEnded hframes hwaits howed hplain
      | ok g =>
          rw [hput] at hplain
          have hframes' : ({ vm with frames := g :: (own ++ below) } : Vm).frames
              = g :: (own ++ below) := rfl
          exact balanced_hookEnded hframes' hwaits howed hplain

/-- The hooks see a frame that is inside no handler, and may fill it. -/
theorem balanced_runHooks (hframes : vm.frames = f :: (own ++ below)) (hwaits : Waits pending own)
    (howed : account own vm.handled = owed) (hplain : f.isHandling = false) {ids : List HookNumber}
    (hplain' : (runHooks vm pending ids).EntersPlain) :
    (runHooks vm pending ids).Balanced below owed := by
  have howed' : account own (f.restore vm.handled) = owed := by
    rw [f.restore_of_not_handling hplain]
    exact howed
  cases ids with
  | nil => exact .working rfl hframes hwaits howed'
  | cons id ids =>
      unfold runHooks at hplain' ⊢
      dsimp only at hplain' ⊢
      cases hstart : vm.hooks.start? id with
      | none => exact .working rfl hframes hwaits howed'
      | some started =>
          obtain ⟨hook, hooks⟩ := started
          rw [hstart] at hplain'
          cases hook with
          | host name key => exact .working rfl hframes hwaits howed'
          | rebuild records =>
              have hframes' : ({ vm with hooks := hooks } : Vm).frames = f :: (own ++ below) := hframes
              exact balanced_rebuildFrame hframes' hwaits howed hplain'

/-- A result is handed on. -/
theorem balanced_deliver {waits : Pending} {result : Except Fault Value}
    (hframes : vm.frames = own ++ below) (hwaits : Waits (waits :: pending) own)
    (howed : account own vm.handled = owed) :
    (deliver vm waits pending result).Balanced below owed := by
  cases waits with
  | lone slots => cases own <;> cases hwaits
  | resume id =>
      show (withResult (endResume vm id) pending result).Balanced below owed
      have hwaits' : Waits pending own := hwaits
      -- the end of a resume changes hooks and arm, not what is handled
      refine balanced_withResult ((frames_endResume vm id).trans hframes) hwaits' ?_ _
      rw [← howed]
      unfold endResume
      dsimp only
      split <;> rfl
  | site slots =>
      cases own with
      | nil => cases hwaits
      | cons f own =>
          obtain ⟨hloose, hwaits⟩ := hwaits
          show (follow (siteFlow vm slots result).2 pending (siteFlow vm slots result).1).Balanced
            below owed
          unfold siteFlow
          cases result with
          | error e =>
              cases e with
              | exception exc =>
                  exact (goesOn_raiseInFrame hframes (hloose.mono (Nat.zero_le _)) hwaits howed exc).1
              | _ => exact (goesOn_fatal rfl hwaits.onlyCalls _).1
          | ok v =>
              dsimp only
              cases hfinish : finishCall slots v vm with
              | error e u =>
                  obtain ⟨b, rfl⟩ := Calm.finishCall slots v vm e u hfinish
                  exact (goesOn_fatal rfl hwaits.onlyCalls _).1
              | ok a u =>
                  obtain ⟨g, hg, hstays, -, -, hshares⟩ :=
                    exists_frame_of_sized (sized_finishCall slots v) (keeps_finishCall slots v)
                      hframes hfinish
                  -- the result takes the place of the entries, above all saved slots
                  have hhandled := ((spares_finishCall slots v).of_ok hfinish).handled_eq
                  refine (goesOn_loop hg hwaits ?_).1
                  rw [hhandled, Frame.restore_of_shares hloose hstays hshares]
                  exact howed

/-! ## §5. Runs. -/

/-- **A step keeps the account**, or the innermost frame returns a value. -/
theorem Balanced.step (h : r.Balanced below owed) (hs : r.step = some s) (hrespects : r.Respects)
    (hplain : r.EntersPlain) (hplain' : s.EntersPlain) :
    (r.leavesWithValue = false ∧ s.Balanced below owed)
      ∨ r.phase = .loop ∧ ∃ f own, r.vm.frames = f :: (own ++ below)
        ∧ LeftWithValue below owed r.vm.handled f own s := by
  cases h with
  | @working vm pending phase f own hin hframes hwaits howed =>
      cases phase with
      | loop =>
          obtain rfl : stepFrame vm pending = s := Option.some.inj hs
          rcases balanced_stepFrame hframes hrespects hwaits howed with ⟨hgoes, hvalue⟩ | hleft
          · exact .inl ⟨leavesWithValue_eq_false hs fun _ => hvalue, hgoes⟩
          · exact .inr ⟨rfl, f, own, hframes, hleft⟩
      | enter ids =>
          obtain rfl : runHooks vm pending ids = s := Option.some.inj hs
          -- a frame that is entered has no handlers, unless a record puts them there
          have hf : f.isHandling = false := hplain rfl f (by show f ∈ vm.frames.head?; rw [hframes]; rfl)
          rw [f.restore_of_not_handling hf] at howed
          exact .inl ⟨leavesWithValue_of_not_loop (fun h => by cases h),
            balanced_runHooks hframes hwaits howed hf hplain'⟩
      | atHook id hook ids => cases hs
      | brokenOff => cases hs
      | call callee args => cases hin
      | atHost name args => cases hin
      | returned result => cases hin
      | ended flow => cases hin
  | @waiting vm pending phase own hout hlive hframes hwaits howed =>
      cases phase with
      | call callee args =>
          obtain rfl : beginCall vm pending callee args = s := Option.some.inj hs
          exact .inl ⟨leavesWithValue_of_not_loop (fun h => by cases h),
            balanced_beginCall hframes hwaits howed callee args⟩
      | returned result =>
          cases pending with
          | nil => cases hs
          | cons waits pending =>
              obtain rfl : deliver vm waits pending result = s := Option.some.inj hs
              exact .inl ⟨leavesWithValue_of_not_loop (fun h => by cases h),
                balanced_deliver hframes hwaits howed⟩
      | atHost name args => cases hs
      | ended flow => exact absurd rfl (hlive flow)
      | loop => cases hout
      | enter ids => cases hout
      | atHook id hook ids => cases hout
      | brokenOff => cases hout
  | @failing vm pending e he hcalls =>
      cases pending with
      | nil => cases hs
      | cons waits pending =>
          obtain ⟨vm', hdeliver, -⟩ := deliver_fatal he hcalls vm
          obtain rfl : deliver vm waits pending (.error e) = s := Option.some.inj hs
          rw [hdeliver]
          exact .inl ⟨leavesWithValue_of_not_loop (fun h => by cases h), .failing he hcalls.tail⟩

theorem leavesWithValue_of_returned {value : Value} (hloop : r.phase = .loop) (hs : r.step = some s)
    (hvalue : s.phase = .returned (.ok value)) : r.leavesWithValue = true := by
  obtain ⟨vm, pending, phase⟩ := s
  obtain rfl : phase = .returned (.ok value) := hvalue
  unfold leavesWithValue
  rw [hloop, hs]

/-- What is handled when all handlers of a call are closed, by the states it has gone
through: what was handled when a frame last took its exception along. -/
def leftHandled (start : Vm) (past : List Run) : Option Value :=
  match past.find? (·.escapes start) with
  | some q => q.vm.handled
  | none => start.handled

variable {start : Vm} {past : List Run}

theorem escapes_of_stays (h : r.leavesWithValue = false) : r.escapes start = false := by
  unfold escapes
  rw [h]
  rfl

theorem leftHandled_cons_of_not (h : r.escapes start = false) :
    leftHandled start (r :: past) = leftHandled start past := by
  unfold leftHandled
  rw [List.find?_cons, h]

theorem leftHandled_cons_of_escapes (h : r.escapes start = true) :
    leftHandled start (r :: past) = r.vm.handled := by
  unfold leftHandled
  rw [List.find?_cons, h]

theorem escapes_eq (hframes : r.vm.frames = f :: (own ++ start.frames)) :
    r.escapes start
      = (r.leavesWithValue && (f.isHandling && own.all fun g => !g.isHandling)) := by
  have hstands : StandsOn r.vm.frames (f :: own).length start.frames := ⟨f :: own, hframes, rfl⟩
  obtain ⟨hover, hlength⟩ := StandsOn.framesOver hstands
  have hover : r.vm.framesOver start = f :: own :=
    List.append_cancel_right (hover.symm.trans hframes)
  unfold escapes
  rw [hover]

/-- **What a step does to what is left to be handled.** -/
theorem Balanced.next (h : r.Balanced start.frames (leftHandled start past)) (hs : r.step = some s)
    (hrespects : r.Respects) (hplain : r.EntersPlain) (hplain' : s.EntersPlain) :
    s.Balanced start.frames (leftHandled start (r :: past)) := by
  rcases h.step hs hrespects hplain hplain' with ⟨hvalue, hbalanced⟩ | ⟨hloop, f, own, hframes, hleft⟩
  · rw [leftHandled_cons_of_not (escapes_of_stays hvalue)]
    exact hbalanced
  · obtain ⟨value, hreturned⟩ := hleft.returned
    have hescapes := escapes_eq hframes
    rw [leavesWithValue_of_returned hloop hs hreturned, Bool.true_and] at hescapes
    have hbalanced {owed : Option Value} (howed : account own s.vm.handled = owed) :
        s.Balanced start.frames owed := by
      obtain ⟨vm, pending, phase⟩ := s
      obtain rfl : phase = .returned (.ok value) := hreturned
      exact balanced_withResult hleft.frames_eq hleft.waits howed _
    have howed := hleft.owed_eq
    by_cases hf : f.isHandling = true
    · by_cases hown : ∃ g ∈ own, g.isHandling = true
      · -- a frame below makes up for it
        have hstays : r.escapes start = false := by
          obtain ⟨g, hg, hhandling⟩ := hown
          have hall : (own.all fun g => !g.isHandling) = false :=
            List.all_eq_false.mpr ⟨g, hg, by rw [hhandling]; decide⟩
          rw [hescapes, hall, Bool.and_false]
        rw [leftHandled_cons_of_not hstays]
        exact hbalanced ((account_of_handling hown _ _).trans howed)
      · have hnone : ∀ g ∈ own, g.isHandling = false := by
          intro g hg
          exact Bool.eq_false_iff.mpr fun hhandling => hown ⟨g, hg, hhandling⟩
        have hall : (own.all fun g => !g.isHandling) = true := by
          refine List.all_eq_true.mpr fun g hg => ?_
          rw [hnone g hg]
          rfl
        rw [leftHandled_cons_of_escapes (by rw [hescapes, hf, hall]; rfl)]
        exact hbalanced ((account_of_not_handling hnone _).trans hleft.handled_eq)
    · -- it was inside no handler
      have hf : f.isHandling = false := Bool.eq_false_iff.mpr hf
      rw [leftHandled_cons_of_not (by rw [hescapes, hf]; rfl)]
      rw [f.restore_of_not_handling hf, ← hleft.handled_eq] at howed
      exact hbalanced howed

/-- A call owes what is handled when it is made. -/
theorem CalledOn.balanced (h : r.CalledOn start) (hplain : r.EntersPlain) :
    r.Balanced start.frames start.handled := by
  have hframes : start.frames = [] ++ start.frames := rfl
  have hwaits : Waits [] [] := rfl
  cases h with
  | call callee args => exact .waiting rfl (fun _ h => by cases h) hframes hwaits rfl
  | global name args =>
      unfold ofGlobal
      split
      · exact .waiting rfl (fun _ h => by cases h) hframes hwaits rfl
      · refine balanced_withResult ?_ hwaits ?_ _
        · exact hframes
        · rfl
  | code c => exact balanced_enterFrame hframes hwaits rfl rfl
  | continuation k => exact balanced_beginResume hframes hwaits rfl k
  | frame f =>
      unfold ofFrame enterFrame at hplain ⊢
      dsimp only at hplain ⊢
      split at hplain
      · rw [if_pos ‹_›]
        exact balanced_withResult hframes hwaits rfl _
      · rw [if_neg ‹_›]
        refine .working rfl (congrArg (f :: ·) hframes) hwaits ?_
        exact f.restore_of_not_handling (hplain rfl f rfl) _

/-- What hooks and functions of the host leave alone: the live frames and what is handled. -/
def Passive (vm vm' : Vm) : Prop :=
  vm'.frames = vm.frames ∧ vm'.handled = vm.handled

/-- In every state of a call the account is what is left to be handled. -/
theorem balanced_of_history (h : History (·.CalledOn start) Passive (r :: past))
    (hrespects : ∀ q ∈ past, q.Respects) (hplain : ∀ q ∈ r :: past, q.EntersPlain) :
    r.Balanced start.frames (leftHandled start past) := by
  generalize hpast : r :: past = history at h
  induction h generalizing r past with
  | start hcalled =>
      obtain ⟨rfl, rfl⟩ := List.cons.inj hpast
      exact hcalled.balanced (hplain r (List.mem_cons_self ..))
  | @step q s past hhistory hstep ih =>
      obtain ⟨rfl, rfl⟩ := List.cons.inj hpast
      obtain ⟨hq, hrest⟩ := List.forall_mem_cons.mp hrespects
      obtain ⟨hs, hplain⟩ := List.forall_mem_cons.mp hplain
      -- the account goes on with what the state just left has handled
      exact (ih hrest hplain rfl).next hstep hq (hplain q (List.mem_cons_self ..)) hs
  | @hook q past vm id hook ids result hhistory hphase hpassive ih =>
      obtain ⟨rfl, rfl⟩ := List.cons.inj hpast
      obtain ⟨-, hrest⟩ := List.forall_mem_cons.mp hrespects
      obtain ⟨hs, hplain⟩ := List.forall_mem_cons.mp hplain
      obtain ⟨hframes', hhandled'⟩ := hpassive
      have hbalanced := ih hrest hplain rfl
      have hq := hplain q (List.mem_cons_self ..)
      obtain ⟨vm₀, pending, phase⟩ := q
      obtain rfl : phase = .atHook id hook ids := hphase
      have hloop : leavesWithValue ⟨vm₀, pending, .atHook id hook ids⟩ = false :=
        leavesWithValue_of_not_loop fun h => by cases h
      rw [leftHandled_cons_of_not (escapes_of_stays hloop)]
      cases hbalanced with
      | @working _ _ _ f own _ hframes hwaits howed =>
          -- the hook ran before the frame had handlers, and it handled nothing itself
          rw [f.restore_of_not_handling (hq rfl f (by show f ∈ vm₀.frames.head?; rw [hframes]; rfl)),
            ← hhandled'] at howed
          exact balanced_hookEnded (hframes'.trans hframes) hwaits howed hs
      | waiting hout => cases hout
  | @host q past vm name args result hhistory hphase hpassive ih =>
      obtain ⟨rfl, rfl⟩ := List.cons.inj hpast
      obtain ⟨-, hrest⟩ := List.forall_mem_cons.mp hrespects
      obtain ⟨hs, hplain⟩ := List.forall_mem_cons.mp hplain
      obtain ⟨hframes', hhandled'⟩ := hpassive
      have hbalanced := ih hrest hplain rfl
      obtain ⟨vm₀, pending, phase⟩ := q
      obtain rfl : phase = .atHost name args := hphase
      have hloop : leavesWithValue ⟨vm₀, pending, .atHost name args⟩ = false :=
        leavesWithValue_of_not_loop fun h => by cases h
      rw [leftHandled_cons_of_not (escapes_of_stays hloop)]
      cases hbalanced with
      | working hin => cases hin
      | @waiting _ _ _ own _ _ hframes hwaits howed =>
          rw [← hhandled'] at howed
          exact balanced_withResult (hframes'.trans hframes) hwaits howed result

/-- **What is handled after a call** that ends with a value or an exception: what was
handled before it, or what was handled when a frame of it last returned from inside a
handler with none below it inside one. -/
theorem handled_after_call {after : Vm} {result : Except Fault Value}
    (hhistory : History (·.CalledOn start) Passive (⟨after, [], .returned result⟩ :: past))
    (hresult : ∀ e, result = .error e → e.isCatchable = true)
    (hrespects : ∀ q ∈ past, q.Respects) (hplain : ∀ q ∈ past, q.EntersPlain) :
    after.handled = leftHandled start past := by
  have hlast : EntersPlain ⟨after, [], .returned result⟩ := fun h => by cases h
  have hbalanced :=
    balanced_of_history hhistory hrespects (List.forall_mem_cons.mpr ⟨hlast, hplain⟩)
  cases hbalanced with
  | working hin => cases hin
  | waiting hout hlive hframes hwaits howed =>
      obtain rfl := hwaits
      exact howed
  | failing he =>
      rw [hresult _ rfl] at he
      cases he

/-- A body that returns from inside its handler. -/
def leaving : Code where
  name := "g"
  qualname := "g"
  filename := ""
  firstLine := 1
  bytes := encodeAll
    [(.setupExcept, 9), (.loadGlobal, 0), (.callFunction, 0), (.raise, 0), (.popTop, 0),
      (.loadConst, 0), (.returnValue, 0)]
  constants := #[.int 5]
  names := #["Exception"]
  varnames := #[]
  argCount := 0
  lines := []

/-- A body that calls it inside its own handler. -/
def covering : Code where
  name := "f"
  qualname := "f"
  filename := ""
  firstLine := 1
  bytes := encodeAll
    [(.setupExcept, 9), (.loadGlobal, 0), (.callFunction, 0), (.raise, 0), (.popTop, 0),
      (.loadGlobal, 1), (.callFunction, 0), (.popTop, 0), (.popExcept, 0), (.loadConst, 0),
      (.returnValue, 0)]
  constants := #[.int 5]
  names := #["Exception", "g"]
  varnames := #[]
  argCount := 0
  lines := []

/-- A call of the body that calls in its handler. -/
def coveringRun : Run :=
  ofCall
    { globals := [("Exception", .builtin ⟨0, .exception⟩), ("g", .function ⟨1, leaving⟩)]
      store := { serial := 3 } }
    (.function ⟨2, covering⟩) {}

theorem steps_coveringRun :
    steps 27 coveringRun = ⟨(steps 27 coveringRun).vm, [], .returned (.ok (.int 5))⟩ := by
  have hpending : (steps 27 coveringRun).pending = [] := by cbv
  have hphase : (steps 27 coveringRun).phase = .returned (.ok (.int 5)) := by cbv
  rw [← hpending, ← hphase]

/-- The exception that the inner body takes along is given back by the handler of the
outer one: nothing is handled after the call, as before it. -/
theorem handled_after_call_covering :
    (∀ q ∈ (trail 27 coveringRun).tail, q.Respects ∧ q.EntersPlain)
      ∧ (steps 27 coveringRun).vm.handled
        = leftHandled coveringRun.vm (trail 27 coveringRun).tail
      ∧ (leftHandled coveringRun.vm (trail 27 coveringRun).tail).isNone = true := by
  have hquiet : ∀ q ∈ (trail 27 coveringRun).tail, q.Respects ∧ q.EntersPlain := by decide +kernel
  have hcalled : coveringRun.CalledOn coveringRun.vm := .call (.function ⟨2, covering⟩) {}
  have hhistory := history_trail Passive hcalled 27
  rw [steps_coveringRun] at hhistory
  have hhandled := handled_after_call hhistory (fun e he => by cases he)
    (fun q hq => (hquiet q hq).1) (fun q hq => (hquiet q hq).2)
  exact ⟨hquiet, hhandled, by decide +kernel⟩

/-- A call of the body that returns from its handler. -/
def leavingRun : Run :=
  ofCall
    { globals := [("Exception", .builtin ⟨0, .exception⟩)], store := { serial := 2 } }
    (.function ⟨1, leaving⟩) {}

/-- Nothing was handled before the call, and it ends with a value, but its exception is
handled after it. -/
theorem not_handled_before_call :
    History (·.CalledOn leavingRun.vm) Passive
        (steps 11 leavingRun :: (trail 11 leavingRun).tail)
      ∧ (steps 11 leavingRun).pending = []
      ∧ (steps 11 leavingRun).phase = .returned (.ok (.int 5))
      ∧ (steps 11 leavingRun).vm.handled ≠ leavingRun.vm.handled := by
  refine ⟨history_trail _ (CalledOn.call (.function ⟨1, leaving⟩) {}) 11, by cbv, by cbv, ?_⟩
  have hbefore : leavingRun.vm.handled.isSome = false := by decide +kernel
  have hafter : (steps 11 leavingRun).vm.handled.isSome = true := by decide +kernel
  intro heq
  rw [heq, hbefore] at hafter
  cases hafter

end Run

end Resumable
