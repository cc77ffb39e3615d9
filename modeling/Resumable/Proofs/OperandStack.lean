/-
  Resumable.Proofs.OperandStack
  ─────────────────────────────
  **ARBITRARY CODE KEEPS WITHIN ITS STACK.**

  A frame is entered with a slot for each of its locals.  From then on its slots
  change by the operations of its own code only:

      step of a run     the innermost frame is worked on, or left, or a frame entered
      its callers       are not touched
      a record          would bring slots of its own, so none may be put into a frame

  So whatever the bytes say, every live frame has its locals, no instruction but the
  two that set locals changes one, and an operation that asks for more than there is
  fails: it never reaches past the array.

  Main results:
    • `Session.passes_next`  — what a step of a session does to the frames,
    • `Session.stacks_kept`  — the discipline of operand stacks, in every session.
-/
import Resumable.Proofs.SlotOperations
import Resumable.Proofs.StackSizes

namespace Resumable

open VmAction

/-! ## §1. Frames from one step to the next. -/

namespace Frame

/-- What a step does to the frames: the innermost is worked on or left, or one is entered. -/
inductive Passes (written : Option Nat) : List Frame → List Frame → Prop
  | works {fs gs : List Frame} : TopWorked written fs gs → Passes written fs gs
  | leaves (fs : List Frame) : Passes written fs fs.tail
  | enters {f : Frame} (fs : List Frame) : f.HasLocals → Passes written fs (f :: fs)

variable {fs gs : List Frame} {f g : Frame} {written : Option Nat}

theorem TopWorked.tail_eq (h : TopWorked written fs gs) : gs.tail = fs.tail := by
  cases h <;> rfl

theorem Passes.same (fs : List Frame) : Passes written fs fs :=
  .works (.refl written fs)

/-- The frames there are have slots for their locals. -/
theorem Passes.hasLocals (h : Passes written fs gs) (hall : ∀ f ∈ fs, f.HasLocals) :
    ∀ g ∈ gs, g.HasLocals := by
  cases h with
  | works hwork =>
      cases hwork with
      | none => exact hall
      | @top f g rest hworked =>
          intro k hk
          rcases List.mem_cons.mp hk with rfl | hk
          · exact (hworked.keeping (hall f (List.mem_cons_self ..))).hasLocals
          · exact hall k (List.mem_cons_of_mem _ hk)
  | leaves => exact fun k hk => hall k (List.mem_of_mem_tail hk)
  | @enters f fs hf =>
      intro k hk
      rcases List.mem_cons.mp hk with rfl | hk
      · exact hf
      · exact hall k hk

/-- Counted from the outermost, the innermost frame is the last one. -/
theorem getElem?_reverse_cons (f : Frame) (rest : List Frame) (n : Nat) :
    (f :: rest).reverse[n]? = if n = rest.length then some f else rest.reverse[n]? := by
  rw [List.reverse_cons]
  by_cases hn : n = rest.length
  · rw [if_pos hn, hn, ← List.length_reverse]
    exact List.getElem?_concat_length
  · rw [if_neg hn]
    rcases Nat.lt_or_gt_of_ne hn with hlt | hgt
    · exact List.getElem?_append_left (by rwa [List.length_reverse])
    · rw [List.getElem?_eq_none, List.getElem?_eq_none]
      · rw [List.length_reverse]
        omega
      · rw [List.length_append, List.length_reverse, List.length_singleton]
        omega

/-- A frame that is live before and after keeps its locals, but for the one that the
innermost frame sets. -/
theorem Passes.sameLocals (h : Passes written fs gs) (hall : ∀ f ∈ fs, f.HasLocals) {n : Nat}
    (hf : fs.reverse[n]? = some f) (hg : gs.reverse[n]? = some g) :
    f.SameLocals (if n + 1 = fs.length then written else none) g := by
  have hsame (heq : some f = some g) :
      f.SameLocals (if n + 1 = fs.length then written else none) g := by
    rw [← Option.some.inj heq]
    exact .refl _ f
  cases h with
  | works hwork =>
      cases hwork with
      | none => cases hf
      | @top top top' rest hworked =>
          -- the frame at `n` is the innermost one, or one of its callers
          rw [getElem?_reverse_cons] at hf hg
          by_cases hn : n = rest.length
          · rw [if_pos hn] at hf hg
            cases hf
            cases hg
            rw [if_pos (by rw [hn, List.length_cons])]
            exact (hworked.keeping (hall _ (List.mem_cons_self ..))).locals
          · rw [if_neg hn] at hf hg
            exact hsame (hf.symm.trans hg)
  | leaves =>
      -- what is left are the callers
      cases fs with
      | nil => cases hf
      | cons top rest =>
          replace hg : rest.reverse[n]? = some g := hg
          rw [getElem?_reverse_cons, if_neg ?_] at hf
          · exact hsame (hf.symm.trans hg)
          · have hlt := (List.getElem?_eq_some_iff.mp hg).1
            rw [List.length_reverse] at hlt
            omega
  | @enters new fs hnew =>
      rw [getElem?_reverse_cons, if_neg ?_] at hg
      · exact hsame (hf.symm.trans hg)
      · have hlt := (List.getElem?_eq_some_iff.mp hf).1
        rw [List.length_reverse] at hlt
        omega

theorem hasLocals_blank (fn : Function) (parent : Option Nat) : (blank fn parent).HasLocals := by
  show fn.code.nlocals ≤ (Array.replicate fn.code.nlocals none).size
  rw [Array.size_replicate]

/-- Locals a call has no value for have empty slots. -/
theorem hasLocals_ofLocals (fn : Function) (parent : Option Nat) (locals : List (Option Value)) :
    (ofLocals fn parent locals).HasLocals := by
  show fn.code.nlocals ≤ (List.toArray _).size
  rw [List.size_toArray, List.length_append, List.length_replicate]
  omega

end Frame

/-! ## §2. A step of a run. -/

namespace Run

open Resumable.Frame (Passes TopWorked)

variable {vm : Vm} {pending : List Pending} {frames : List Frame} {written : Option Nat} {r s : Run}

/-- The local that the instruction at hand sets. -/
def written? (r : Run) : Option Nat :=
  r.fetched?.bind Instruction.written?

theorem passes_leaveFrame (h : TopWorked written frames vm.frames) (pending : List Pending)
    (result : Except Fault Value) :
    Passes written frames (leaveFrame vm pending result).vm.frames := by
  show Passes written frames vm.frames.tail
  rw [h.tail_eq]
  exact .leaves frames

theorem passes_raiseInFrame (h : TopWorked written frames vm.frames) (pending : List Pending)
    (exc : Value) : Passes written frames (raiseInFrame vm pending exc).vm.frames := by
  unfold raiseInFrame
  cases hu : unwind exc vm with
  | ok a u => exact .works (h.trans ((worked_unwind exc).of_ok hu))
  | error e u => exact passes_leaveFrame (h.trans ((worked_unwind exc).of_error hu)) pending _

theorem passes_follow (h : TopWorked written frames vm.frames) (pending : List Pending)
    (result : Except Fault Flow) : Passes written frames (follow vm pending result).vm.frames := by
  cases result with
  | error e =>
      cases e with
      | exception exc => exact passes_raiseInFrame h pending exc
      | _ => exact passes_leaveFrame h pending _
  | ok flow =>
      cases flow with
      | next => exact .works h
      | jump target =>
          unfold follow
          dsimp only
          cases hu : onFrame (modify fun f => { f with next := target }) vm with
          | ok a u => exact .works (h.trans ((worked_jump target).of_ok hu))
          | error e u => exact passes_leaveFrame (h.trans ((worked_jump target).of_error hu)) pending _
      | «return» value => exact passes_leaveFrame h pending _
      | raise exc => exact passes_raiseInFrame h pending exc

/-- The next instruction of the innermost frame. -/
theorem passes_stepFrame (vm : Vm) (pending : List Pending) :
    Passes (written? ⟨vm, pending, .loop⟩) vm.frames (stepFrame vm pending).vm.frames := by
  unfold stepFrame
  cases hframes : vm.frames with
  | nil =>
      show Passes _ [] vm.frames
      rw [hframes]
      exact .same []
  | cons f rest =>
      have hself : TopWorked (written? ⟨vm, pending, .loop⟩) (f :: rest) vm.frames := by
        rw [hframes]
        exact .refl _ _
      dsimp only
      split
      · exact passes_leaveFrame hself pending _
      · cases hdecodes : decodeAt f.code.bytes f.next with
        | error e =>
            rw [fetch_of_decodeAt_error hframes hdecodes]
            exact .leaves (f :: rest)
        | ok i =>
            have hwritten : written? ⟨vm, pending, .loop⟩ = i.written? := by
              unfold written? fetched?
              dsimp only
              rw [hframes]
              dsimp only
              rw [hdecodes]
              rfl
            rw [hwritten] at hself ⊢
            -- reading the instruction moves the frame on, and touches no slot
            obtain ⟨u, hu⟩ : ∃ u, u = { vm with frames := f.fetched i :: rest } := ⟨_, rfl⟩
            have hfetched : TopWorked i.written? (f :: rest) u.frames := by
              rw [hu]
              exact .top (Frame.worked_aside rfl rfl)
            rw [fetch_of_decodeAt hframes hdecodes, ← hu]
            dsimp only
            unfold perform
            cases hexecute : execute i u with
            | error e w =>
                have hall := hfetched.trans ((worked_execute i).of_error hexecute)
                exact passes_follow hall pending _
            | ok outcome w =>
                have hall := hfetched.trans ((worked_execute i).of_ok hexecute)
                cases outcome with
                | flow flow => exact passes_follow hall pending _
                | breakOff => exact .works hall
                | call request => exact .works hall

theorem passes_enterFrame {f : Frame} (hsame : vm.frames = frames) (hf : f.HasLocals)
    (pending : List Pending) : Passes written frames (enterFrame vm pending f).vm.frames := by
  subst hsame
  unfold enterFrame
  dsimp only
  split
  · exact .same _
  · exact .enters _ hf

/-- A blank frame is entered for a continuation. -/
theorem passes_beginResume (hsame : vm.frames = frames) (pending : List Pending) (k : Continuation) :
    Passes written frames (beginResume vm pending k).vm.frames := by
  cases hout : k.outermost? with
  | none =>
      unfold beginResume
      rw [hout]
      exact hsame ▸ .same _
  | some outermost =>
      rw [beginResume_eq hout]
      exact passes_enterFrame ((vm.frames_rebuilding _).trans hsame) (Frame.hasLocals_blank ..) _

theorem passes_beginCall (vm : Vm) (pending : List Pending) (callee : Value) (args : Arguments) :
    Passes written vm.frames (beginCall vm pending callee args).vm.frames := by
  unfold beginCall
  split
  · next fn =>
      cases hlift : lift ((fn.code.bind args).mapError Cause.badArguments) vm with
      | ok locals u =>
          obtain ⟨-, rfl⟩ := lift_ok.mp hlift
          exact passes_enterFrame rfl (Frame.hasLocals_ofLocals ..) pending
      | error e u =>
          have hsame : u.frames = vm.frames := (SameFrames.steady.keeps_lift _).of_error hlift
          exact hsame ▸ .same _
  · next b =>
      have hsame := frames_callNative b.native args vm
      unfold stateAfter at hsame
      cases hnative : callNative b.native args vm with
      | error e u =>
          rw [hnative] at hsame
          exact hsame ▸ .same _
      | ok outcome u =>
          rw [hnative] at hsame
          cases outcome with
          | value v => exact hsame ▸ .same _
          | resume k => exact passes_beginResume hsame pending k
          | ask name => exact hsame ▸ .same _
  · exact .same _

theorem passes_hookEnded (vm : Vm) (pending : List Pending) (id : HookNumber) (hook : Hook)
    (ids : List HookNumber) (result : Except Fault HookVerdict) :
    Passes written vm.frames (hookEnded vm pending id hook ids result).vm.frames := by
  unfold hookEnded
  split
  · exact .same _
  · exact .same _
  · exact .leaves _

/-- The hooks see the frame just entered; none of them puts a record into it. -/
theorem passes_runHooks {ids : List HookNumber}
    (hputs : Puts (fun _ _ => False) ⟨vm, pending, .enter ids⟩) :
    Passes written vm.frames (runHooks vm pending ids).vm.frames := by
  unfold runHooks
  split
  · exact .same _
  · next id ids =>
      cases hstart : vm.hooks.start? id with
      | none => exact .same _
      | some found =>
          obtain ⟨hook, hooks⟩ := found
          cases hook with
          | host name key => exact .same _
          | rebuild records =>
              show Passes written vm.frames
                (rebuildFrame { vm with hooks } pending id records ids).vm.frames
              unfold rebuildFrame
              split
              · exact passes_hookEnded { vm with hooks } ..
              · exact passes_hookEnded { vm with hooks } ..
              · -- a record would bring slots of its own
                next record left f outer hframes => exact (hputs rfl hstart hframes).elim

theorem passes_deliver (vm : Vm) (waiting : Pending) (pending : List Pending)
    (result : Except Fault Value) :
    Passes written vm.frames (deliver vm waiting pending result).vm.frames := by
  have hsite (slots : Nat) : TopWorked written vm.frames (siteFlow vm slots result).2.frames := by
    unfold siteFlow
    cases result with
    | error e => exact .refl _ _
    | ok v =>
        dsimp only
        cases hfinish : finishCall slots v vm with
        | ok a u => exact (worked_finishCall slots v).of_ok hfinish
        | error e u => exact (worked_finishCall slots v).of_error hfinish
  cases waiting with
  | site slots => exact passes_follow (hsite slots) pending _
  | lone slots => exact .works (hsite slots)
  | resume id =>
      show Passes written vm.frames (endResume vm id).frames
      rw [frames_endResume]
      exact .same _

/-- **What a step does to the frames.** -/
theorem passes_step (hputs : r.Puts fun _ _ => False) (hs : r.step = some s) :
    Passes r.written? r.vm.frames s.vm.frames := by
  obtain ⟨vm, pending, phase⟩ := r
  cases phase with
  | loop => exact Option.some.inj hs ▸ passes_stepFrame vm pending
  | call callee args => exact Option.some.inj hs ▸ passes_beginCall vm pending callee args
  | enter ids => exact Option.some.inj hs ▸ passes_runHooks hputs
  | atHook id hook ids => cases hs
  | atHost name args => cases hs
  | ended flow => cases hs
  | brokenOff => cases hs
  | returned result =>
      cases pending with
      | nil => cases hs
      | cons waiting pending => exact Option.some.inj hs ▸ passes_deliver vm waiting pending result

end Run

/-! ## §3. Sessions. -/

/-- A host that leaves the frames alone and starts programs: it calls values and globals,
and runs code. -/
def Host.starting : Host where
  touches vm vm' := vm'.frames = vm.frames
  begins vm r := (∃ callee args, r = .ofCall vm callee args)
    ∨ (∃ name args, r = .ofGlobal vm name args) ∨ ∃ code, r = .ofCode vm code
  judges _ := True
  answers _ := True

namespace Session

open Resumable.Frame (Passes TopWorked)

variable {s t : Session} {start : Vm}

/-- The local that the instruction at hand sets. -/
def written? (s : Session) : Option Nat :=
  match s.floor with
  | .host _ => none
  | .run r => r.written?

/-- **What a step of a session does to the frames.** -/
theorem passes_next (hnext : Next .starting s t) (hputs : s.Puts fun _ _ => False) :
    Passes s.written? s.vm.frames t.vm.frames := by
  cases hnext with
  | @touch vm vm' waiting htouches =>
      show Passes none vm.frames vm'.frames
      rw [show vm'.frames = vm.frames from htouches]
      exact .same _
  | @take vm waiting =>
      show Passes none vm.frames (stateAfter capture vm).frames
      rw [stateAfter_capture, vm.frames_dropArmed]
      exact .same _
  | @begin vm r waiting hbegins =>
      show Passes none vm.frames r.vm.frames
      rcases hbegins with ⟨callee, args, rfl⟩ | ⟨name, args, rfl⟩ | ⟨code, rfl⟩
      · exact .same _
      · unfold Run.ofGlobal
        split
        · exact .same _
        · exact .same _
      · refine Run.passes_enterFrame ?_ (Frame.hasLocals_blank ..) []
        rfl
  | step hstep => exact Run.passes_step (hputs _ rfl) hstep
  | ask => exact .same _
  | @hook vm r waiting id hook ids result hphase _ =>
      show Passes none vm.frames (r.answerHook vm result).vm.frames
      rw [Run.answerHook_eq hphase]
      exact Run.passes_hookEnded ..
  | @answer vm r waiting name args result hphase _ =>
      show Passes none vm.frames (r.answerHost vm result).vm.frames
      rw [Run.answerHost_eq hphase]
      exact .same _
  | done => exact .same _

/-- The discipline of operand stacks in a state `s`. -/
structure StacksKept (s : Session) : Prop where
  /-- Every live frame has slots for its locals. -/
  hasLocals : ∀ f ∈ s.vm.frames, f.nlocals ≤ f.top
  /-- An instruction works on the innermost frame only; it sets no local but its own. -/
  execute : ∀ (i : Instruction) (f : Frame) (rest : List Frame), s.vm.frames = f :: rest →
    ∃ g, (stateAfter (execute i) s.vm).frames = g :: rest ∧ f.Worked i.written? g
      ∧ f.SameLocals i.written? g
  /-- So does unwinding; it sets no local. -/
  unwind : ∀ (exc : Value) (f : Frame) (rest : List Frame), s.vm.frames = f :: rest →
    ∃ g, (stateAfter (unwind exc) s.vm).frames = g :: rest ∧ f.Worked none g ∧ f.SameLocals none g
  /-- A frame that is live before and after a step, counted from the outermost, keeps its
  locals, but for the one that the instruction of the innermost frame sets. -/
  step : ∀ t, Next .starting s t → (s.Puts fun _ _ => False) → ∀ (n : Nat) (f g : Frame),
    s.vm.frames.reverse[n]? = some f → t.vm.frames.reverse[n]? = some g →
    f.SameLocals (if n + 1 = s.vm.frames.length then s.written? else none) g
  /-- At whatever point of a sequence of operations, each of them is in range. -/
  inRange : ∀ f ∈ s.vm.frames, ∀ (written : Option Nat) (g : Frame), f.Worked written g → g.InRange

/-- Work on the innermost frame keeps its locals. -/
theorem exists_frame_of_worked {α : Type} {x : VmAction α} {written : Option Nat} {vm : Vm}
    {f : Frame} {rest : List Frame} (hx : Keeps (Vm.WorksSlots written) x)
    (hframes : vm.frames = f :: rest) (hf : f.HasLocals) :
    ∃ g, (stateAfter x vm).frames = g :: rest ∧ f.Worked written g ∧ f.SameLocals written g := by
  have hworks : TopWorked written (f :: rest) (stateAfter x vm).frames := hframes ▸ hx vm
  obtain ⟨frames, hafter⟩ : ∃ frames, (stateAfter x vm).frames = frames := ⟨_, rfl⟩
  rw [hafter] at hworks ⊢
  cases hworks with
  | top hworked => exact ⟨_, rfl, hworked, (hworked.keeping hf).locals⟩

/-- **Operand stacks are kept by arbitrary code**: in every state of every session in which
no record is put into a frame. -/
theorem stacks_kept (hstart : ∀ f ∈ start.frames, f.HasLocals)
    (hreach : Relation.ReflTransGen (fun s t => Next .starting s t ∧ s.Puts fun _ _ => False)
      ⟨.host start, []⟩ s) : s.StacksKept := by
  -- frames are entered with their locals, and every step keeps those of all that are live
  have hall : ∀ f ∈ s.vm.frames, f.HasLocals := by
    induction hreach with
    | refl => exact hstart
    | tail _ hnext ih => exact (passes_next hnext.1 hnext.2).hasLocals ih
  have hinnermost {f : Frame} {rest : List Frame} (hframes : s.vm.frames = f :: rest) : f.HasLocals :=
    hall f (hframes ▸ List.mem_cons_self ..)
  refine ⟨hall, ?_, ?_, ?_, ?_⟩
  · intro i f rest hframes
    exact exists_frame_of_worked (worked_execute i) hframes (hinnermost hframes)
  · intro exc f rest hframes
    exact exists_frame_of_worked (worked_unwind exc) hframes (hinnermost hframes)
  · intro t hnext hputs n f g hf hg
    exact (passes_next hnext hputs).sameLocals hall hf hg
  · intro f hf written g hworked
    exact (hworked.keeping (hall f hf)).hasLocals.inRange

end Session

/-! ## §4. A stack that is cut from under a try body. -/

/-- A body that takes away what was on the stack when it opened its try body, so its handler
is entered below the level it asks for; there it takes more than there is. -/
def Run.crooked : Code where
  name := "f"
  qualname := "f"
  filename := ""
  firstLine := 1
  bytes := encodeAll
    [(.buildTuple, 0), (.storeFast, 0), (.buildTuple, 0), (.setupExcept, 13), (.popTop, 0),
      (.loadGlobal, 0), (.popExcept, 0), (.popTop, 0), (.popTop, 0)]
  constants := #[]
  names := #["missing"]
  varnames := #["x"]
  argCount := 0
  lines := []

/-- A call of it. -/
def Run.crookedRun : Run :=
  ofCall { store := { serial := 1 } } (.function ⟨0, crooked⟩) {}

/-- Where a frame that has just failed asked for more than its stack had. -/
def Phase.underflow? : Phase → Option Nat
  | .returned (.error (.internal (.operandUnderflow _ offset))) => some offset
  | _ => none

/-- The last entry is taken from a stack that has none, and the frame fails. -/
theorem Session.stacks_kept_crooked :
    StacksKept ⟨.run (Run.steps 10 Run.crookedRun), []⟩
      ∧ (Run.steps 10 Run.crookedRun).vm.frames.map (fun f => (f.nlocals, f.top)) = [(1, 1)]
      ∧ (Run.steps 11 Run.crookedRun).phase.underflow? = some 15 := by
  have hquiet : ∀ k < 10, (Run.steps k Run.crookedRun).vm.hooks.entries = [] := by
    have hempty : ∀ k < 10, (Run.steps k Run.crookedRun).vm.hooks.entries.isEmpty = true := by
      decide +kernel
    exact fun k hk => List.isEmpty_iff.mp (hempty k hk)
  have hbegins : Host.starting.begins Run.crookedRun.vm Run.crookedRun :=
    .inl ⟨.function ⟨0, Run.crooked⟩, {}, rfl⟩
  have hreach : Relation.ReflTransGen (fun s t => Next .starting s t ∧ s.Puts fun _ _ => False)
      ⟨.host Run.crookedRun.vm, []⟩ ⟨.run (Run.steps 10 Run.crookedRun), []⟩ := by
    refine .head ⟨.begin hbegins, ?_⟩ (reaches_steps_puts [] hquiet)
    rintro r ⟨⟩
  have hstart : ∀ f ∈ Run.crookedRun.vm.frames, f.HasLocals := by
    rw [show Run.crookedRun.vm.frames = [] from rfl]
    exact fun f hf => absurd hf List.not_mem_nil
  exact ⟨stacks_kept hstart hreach, by decide +kernel, by decide +kernel⟩

end Resumable
