/-
  Resumable.Proofs.History
  ────────────────────────
  **WHAT A RUN HAS BEEN THROUGH.**

  A history lists the states of a run, the latest first.  Every live frame but
  the innermost is suspended in a call instruction, and the call that
  instruction read off its stack is the one that entered the frame above it.
  Arguments collected in a list were read when the instruction was executed,
  so the invariant names the store of that moment (`storeAt`), not the present
  one.

  Main results:
    • `Run.sound_of_history`     — the callers of every reachable state,
    • `Run.Captures.records`     — a continuation keeps all live frames as they are.
-/
import Resumable.Proofs.StepCases

namespace Resumable

open VmAction

/-! ## §1. Histories. -/

/-- Whether the innermost frame is about to execute an instruction. -/
def Phase.isLoop : Phase → Bool
  | .loop => true
  | _ => false

namespace Run

/-- A run as it is begun on a machine without live frames. -/
inductive Begins : Run → Prop
  | call {vm : Vm} (callee : Value) (args : Arguments) :
      vm.frames = [] → Begins (ofCall vm callee args)
  | code {vm : Vm} (c : Code) : vm.frames = [] → Begins (ofCode vm c)
  | continuation {vm : Vm} (k : Continuation) : vm.frames = [] → Begins (ofContinuation vm k)

/-- The states of a run, the latest first.  `begins` tells how it can begin and
`outside` what hooks and functions of the host may do to the machine. -/
inductive History (begins : Run → Prop) (outside : Vm → Vm → Prop) : List Run → Prop
  | start {r : Run} : begins r → History begins outside [r]
  | step {r s : Run} {past : List Run} :
      History begins outside (r :: past) → r.step = some s →
      History begins outside (s :: r :: past)
  | hook {r : Run} {past : List Run} {vm : Vm} {id : HookNumber} {hook : Hook}
      {ids : List HookNumber} (result : Except Fault HookVerdict) :
      History begins outside (r :: past) → r.phase = .atHook id hook ids → outside r.vm vm →
      History begins outside (r.answerHook vm result :: r :: past)
  | host {r : Run} {past : List Run} {vm : Vm} {name : String} {args : Arguments}
      (result : Except Fault Value) :
      History begins outside (r :: past) → r.phase = .atHost name args → outside r.vm vm →
      History begins outside (r.answerHost vm result :: r :: past)

/-- The states of a number of steps, the latest first. -/
def trail : Nat → Run → List Run
  | 0, r => [r]
  | n + 1, r =>
      match (steps n r).step with
      | none => trail n r
      | some s => s :: trail n r

theorem trail_eq : ∀ (n : Nat) (r : Run), trail n r = steps n r :: (trail n r).tail
  | 0, _ => rfl
  | n + 1, r => by
      rw [trail, steps_add n 1 r]
      cases h : (steps n r).step with
      | none =>
          rw [steps_of_step_eq_none h]
          exact trail_eq n r
      | some s =>
          rw [steps_succ_of_step h]
          rfl

/-- Steps taken one after another are a history. -/
theorem history_trail {begins : Run → Prop} (outside : Vm → Vm → Prop) {r : Run} (h : begins r) :
    ∀ n, History begins outside (steps n r :: (trail n r).tail)
  | 0 => .start h
  | n + 1 => by
      have ih := history_trail outside h n
      rw [← trail_eq, trail]
      cases hs : (steps n r).step with
      | none => exact (trail_eq n r).symm ▸ ih
      | some s => exact (trail_eq n r).symm ▸ .step ih hs

/-! ## §2. The last instruction of a frame. -/

/-- The store when the innermost of `depth` live frames last executed an instruction. -/
def storeAt (history : List Run) (depth : Nat) : Store :=
  ((history.find? fun r => r.phase.isLoop && r.vm.depth == depth).map (·.vm.store)).getD {}

theorem storeAt_cons_of_phase {s : Run} (h : s.phase.isLoop = false) (past : List Run)
    (depth : Nat) : storeAt (s :: past) depth = storeAt past depth := by
  simp [storeAt, h]

theorem storeAt_cons_of_depth {s : Run} {depth : Nat} (h : depth < s.vm.depth)
    (past : List Run) : storeAt (s :: past) depth = storeAt past depth := by
  have hne : (s.vm.depth == depth) = false := by
    simp only [beq_eq_false_iff_ne]
    omega
  simp [storeAt, hne]

theorem storeAt_of_loop {r : Run} (h : r.phase = .loop) (past : List Run) :
    storeAt (r :: past) r.vm.depth = r.vm.store := by
  simp [storeAt, h, Phase.isLoop]

end Run

/-! ## §3. Callers. -/

namespace Frame

/-- The index of the innermost of some live frames. -/
def callerIndex : List Frame → Option Nat
  | [] => none
  | _ :: outer => some outer.length

/-- How a call enters a frame: its callee is the function of the frame and the
arguments fit, or it resumes a continuation. -/
def EnteredBy (g : Frame) (req : CallRequest) : Prop :=
  (req.callee = .function g.function ∧ ∃ locals, g.code.bind req.args = .ok locals) ∨
    ∃ b place others, req.callee = .builtin b ∧ b.native = .resume
      ∧ req.args.requirePositional "resume" 1 1 = .ok (.continuation place :: others)

/-- A frame with these frames below it: its caller is the next one, and it has
the parameters of its body. -/
structure Placed (f : Frame) (rest : List Frame) : Prop where
  parent_eq : f.parent = callerIndex rest
  argCount_eq : f.argCount = f.code.argCount

/-- Each frame above another was entered by the call the other is suspended in. -/
def Suspended (history : List Run) : List Frame → Prop
  | [] => True
  | [f] => f.Placed []
  | g :: f :: rest =>
      g.Placed (f :: rest)
        ∧ (∃ i req, f.SuspendedIn (Run.storeAt history (rest.length + 1)) i req ∧ g.EnteredBy req)
        ∧ Suspended history (f :: rest)

namespace Suspended

variable {history past : List Run}

theorem placed {f : Frame} {rest : List Frame} (h : Suspended history (f :: rest)) :
    f.Placed rest := by
  cases rest with
  | nil => exact h
  | cons g rest => exact h.1

theorem tail {fs : List Frame} (h : Suspended history fs) : Suspended history fs.tail := by
  match fs, h with
  | [], h => exact h
  | [_], _ => exact trivial
  | _ :: _ :: _, h => exact h.2.2

/-- Only the stores of the suspended frames count. -/
theorem congr : ∀ {fs : List Frame}, Suspended past fs →
    (∀ depth < fs.length, Run.storeAt history depth = Run.storeAt past depth) →
    Suspended history fs
  | [], _, _ => trivial
  | [_], h, _ => h
  | g :: f :: rest, h, hs => by
      obtain ⟨hplaced, ⟨i, req, hsus, hent⟩, htail⟩ := h
      refine ⟨hplaced, ⟨i, req, ?_, hent⟩, htail.congr fun d hd => hs d (Nat.lt_succ_of_lt hd)⟩
      rw [show Run.storeAt history (rest.length + 1) = _ from hs _ (Nat.lt_succ_self _)]
      exact hsus

/-- The innermost frame may be worked on. -/
theorem sameTop {fs gs : List Frame} (h : Suspended history fs) (hs : SameTop fs gs) :
    Suspended history gs := by
  match fs, gs, h, hs with
  | [], [], _, _ => exact trivial
  | [f], g :: _, h, ⟨hc, heq⟩ =>
      subst heq
      exact ⟨hc.parent_eq.trans h.parent_eq,
        hc.argCount_eq.trans (h.argCount_eq.trans (by unfold code; rw [hc.function_eq]))⟩
  | f :: f' :: rest, g :: _, h, ⟨hc, heq⟩ =>
      subst heq
      obtain ⟨hplaced, ⟨i, req, hsus, hent⟩, htail⟩ := h
      refine ⟨⟨hc.parent_eq.trans hplaced.parent_eq, hc.argCount_eq.trans
        (hplaced.argCount_eq.trans (by unfold code; rw [hc.function_eq]))⟩, ⟨i, req, hsus, ?_⟩, htail⟩
      unfold EnteredBy code at *
      rw [hc.function_eq]
      exact hent

end Suspended

end Frame

theorem Vm.topIndex?_eq (vm : Vm) : vm.topIndex? = Frame.callerIndex vm.frames := by
  unfold topIndex? depth
  cases vm.frames <;> rfl

/-! ## §4. The invariant of a history. -/

namespace Run

/-- The frames of a run stand as its calls left them, and the call it is about
to make is the one its innermost frame asks for. -/
structure Sound (history : List Run) (r : Run) : Prop where
  suspended : Frame.Suspended history r.vm.frames
  asked : ∀ {callee args f rest}, r.phase = .call callee args → r.vm.frames = f :: rest →
    ∃ i req, f.SuspendedIn (storeAt history (rest.length + 1)) i req
      ∧ req.callee = callee ∧ req.args = args

/-- A state that is not about to call owes its frames only. -/
theorem Sound.of_frames {r s : Run} {past : List Run} (h : Sound past r)
    (hs : Frame.SameTop r.vm.frames s.vm.frames) (hc : ∀ callee args, s.phase ≠ .call callee args) :
    Sound (s :: past) s where
  suspended := by
    refine (h.suspended.sameTop hs).congr fun d hd => ?_
    exact storeAt_cons_of_depth hd past
  asked := fun hphase => absurd hphase (hc _ _)

/-- The innermost frame is left. -/
theorem Sound.of_tail {r s : Run} {past : List Run} (h : Sound past r)
    (hs : s.vm.frames = r.vm.frames.tail) {result : Except Fault Value}
    (hp : s.phase = .returned result) : Sound (s :: past) s where
  suspended := by
    rw [hs]
    refine h.suspended.tail.congr fun d _ => storeAt_cons_of_phase ?_ past d
    rw [hp]
    rfl
  asked := fun hphase => by
    rw [hp] at hphase
    exact nomatch hphase

/-- A frame is entered, if there is room for it. -/
theorem Sound.of_enterFrame {past : List Run} {vm : Vm}
    (hsus : Frame.Suspended past vm.frames) {g : Frame} (hplaced : g.Placed vm.frames)
    (hent : ∀ {f rest}, vm.frames = f :: rest →
      ∃ i req, f.SuspendedIn (storeAt past (rest.length + 1)) i req ∧ g.EnteredBy req)
    (pending : List Pending) :
    Sound (enterFrame vm pending g :: past) (enterFrame vm pending g) := by
  unfold enterFrame
  dsimp only
  split
  · exact ⟨hsus.congr fun d _ => storeAt_cons_of_phase rfl past d, fun hc => nomatch hc⟩
  · refine ⟨?_, fun hc => nomatch hc⟩
    show Frame.Suspended _ (g :: vm.frames)
    have hsame (d : Nat) : storeAt
        (⟨{ vm with frames := g :: vm.frames }, pending, .enter vm.hooks.ids⟩ :: past) d
          = storeAt past d :=
      storeAt_cons_of_phase rfl past d
    revert hsus hplaced hent hsame
    cases vm.frames with
    | nil => exact fun _ hplaced _ _ => hplaced
    | cons f rest =>
        intro hsus hplaced hent hsame
        obtain ⟨i, req, hcall, hg⟩ := hent rfl
        refine ⟨hplaced, ⟨i, req, ?_, hg⟩, hsus.congr fun d _ => hsame d⟩
        rw [hsame]
        exact hcall

theorem placed_ofLocals (fn : Function) (vm : Vm) (locals : List (Option Value)) :
    (Frame.ofLocals fn vm.topIndex? locals).Placed vm.frames :=
  ⟨vm.topIndex?_eq, rfl⟩

theorem placed_blank (fn : Function) (vm : Vm) : (Frame.blank fn vm.topIndex?).Placed vm.frames :=
  ⟨vm.topIndex?_eq, rfl⟩

/-- The outermost frame of a continuation is entered. -/
theorem Sound.of_beginResume {past : List Run} {vm : Vm}
    (hsus : Frame.Suspended past vm.frames)
    (hent : ∀ {f rest} (g : Frame), vm.frames = f :: rest →
      ∃ i req, f.SuspendedIn (storeAt past (rest.length + 1)) i req ∧ g.EnteredBy req)
    (pending : List Pending) (k : Continuation) :
    Sound (beginResume vm pending k :: past) (beginResume vm pending k) := by
  cases ho : k.outermost? with
  | none =>
      unfold beginResume
      rw [ho]
      exact ⟨hsus.congr fun d _ => storeAt_cons_of_phase rfl past d, fun hc => nomatch hc⟩
  | some outermost =>
      rw [beginResume_eq ho]
      refine of_enterFrame ?_ (placed_blank _ _) (fun hf => ?_) _
      · rw [Vm.frames_rebuilding]
        exact hsus
      · rw [Vm.frames_rebuilding] at hf
        exact hent _ hf

/-- The hooks see the innermost frame and may fail it. -/
theorem Sound.of_hookEnded {r : Run} {past : List Run} (h : Sound past r) {vm : Vm}
    (hvm : Frame.SameTop r.vm.frames vm.frames) (pending : List Pending) (id : HookNumber)
    (hook : Hook) (ids : List HookNumber) (result : Except Fault HookVerdict) :
    Sound (hookEnded vm pending id hook ids result :: past)
      (hookEnded vm pending id hook ids result) := by
  unfold hookEnded
  split
  · exact h.of_frames hvm fun _ _ hc => nomatch hc
  · exact h.of_frames hvm fun _ _ hc => nomatch hc
  · exact h.of_tail hvm.tail_eq rfl

theorem Sound.of_rebuildFrame {r : Run} {past : List Run} (h : Sound past r) (vm : Vm)
    (hvm : vm.frames = r.vm.frames) (pending : List Pending) (id : HookNumber)
    (records : List Record) (ids : List HookNumber) :
    Sound (rebuildFrame vm pending id records ids :: past)
      (rebuildFrame vm pending id records ids) := by
  have hsame : Frame.SameTop r.vm.frames vm.frames := hvm ▸ Frame.SameTop.refl _
  unfold rebuildFrame
  split
  · exact h.of_hookEnded hsame ..
  · exact h.of_hookEnded hsame ..
  · next record rest f outer hf =>
      split
      · exact h.of_hookEnded hsame ..
      · next g hg =>
          refine h.of_hookEnded ?_ ..
          obtain rfl := Frame.eq_withRecord_of_putRecord hg
          rw [← hvm, hf]
          exact ⟨⟨rfl, rfl, rfl⟩, rfl⟩

theorem Sound.of_runHooks {r : Run} {past : List Run} (h : Sound past r)
    (ids : List HookNumber) :
    Sound (runHooks r.vm r.pending ids :: past) (runHooks r.vm r.pending ids) := by
  unfold runHooks
  split
  · exact h.of_frames (Frame.SameTop.refl _) fun _ _ hc => nomatch hc
  · split
    · exact h.of_frames (Frame.SameTop.refl _) fun _ _ hc => nomatch hc
    · next hook hooks _ =>
      dsimp only
      split
      · exact h.of_rebuildFrame { r.vm with hooks := hooks } rfl ..
      · exact h.of_frames (Frame.SameTop.refl _) fun _ _ hc => nomatch hc

/-- Every step keeps the invariant. -/
theorem Sound.step {r s : Run} {past : List Run} (h : Sound (r :: past) r)
    (hs : r.step = some s) : Sound (s :: r :: past) s := by
  cases change_of_step hs with
  | works work quiet =>
      refine h.of_frames work.frames fun callee args hc => ?_
      rw [hc] at quiet
      cases quiet
  | leaves left phase_eq => exact h.of_tail left.frames_eq phase_eq
  | @asks f rest i req slots phase_eq frames_eq decodes isCall slots_eq reads run_eq =>
      subst run_eq
      -- a step that only makes a call changes no earlier store
      have hlast (d : Nat) : storeAt (⟨{ r.vm with frames := f.fetched i :: rest },
          .site req.slots :: r.pending, .call req.callee req.args⟩ :: r :: past) d
            = storeAt (r :: past) d :=
        storeAt_cons_of_phase rfl _ d
      refine ⟨?_, ?_⟩
      · refine (h.suspended.sameTop ?_).congr fun d _ => hlast d
        rw [frames_eq]
        exact ⟨⟨rfl, rfl, rfl⟩, rfl⟩
      · rintro callee args g outer hphase hframes
        obtain ⟨rfl, rfl⟩ := Phase.call.inj hphase
        obtain ⟨rfl, rfl⟩ := List.cons.inj hframes
        refine ⟨i, req, ⟨decodes, isCall, rfl, slots, ?_, ?_⟩, rfl, rfl⟩
        · exact Frame.topSlots_ok_congr (f := f) (g := f.fetched i) rfl rfl slots_eq
        · have hdepth : rest.length + 1 = r.vm.depth := by
            rw [Vm.depth, frames_eq, List.length_cons]
          rw [hlast, hdepth, storeAt_of_loop phase_eq]
          exact reads
  | @enters fn args locals phase_eq bound run_eq =>
      subst run_eq
      refine Sound.of_enterFrame h.suspended (placed_ofLocals ..) (fun hf => ?_) _
      -- the frame below has asked for this call, so the new one is the answer
      obtain ⟨i, req, hcall, hcallee, rfl⟩ := h.asked phase_eq hf
      exact ⟨i, req, hcall, .inl ⟨hcallee, locals, bound⟩⟩
  | @resumes b args place others phase_eq native_eq positional run_eq =>
      subst run_eq
      refine Sound.of_beginResume h.suspended (fun g hf => ?_) _ _
      obtain ⟨i, req, hcall, hcallee, rfl⟩ := h.asked phase_eq hf
      exact ⟨i, req, hcall, .inr ⟨b, place, others, hcallee, native_eq, positional⟩⟩
  | meets phase_eq native_eq met returned =>
      refine h.of_frames (r.vm.frames_dropArmed ▸ met.frames) fun callee args hc => ?_
      rw [hc] at returned
      cases returned
  | hooked phase_eq run_eq =>
      subst run_eq
      exact h.of_runHooks _
  | ends vm_eq returned =>
      refine h.of_frames ?_ fun callee args hc => ?_
      · rw [vm_eq, frames_endResume]
        exact Frame.SameTop.refl _
      · rw [hc] at returned
        cases returned

/-- A run as it is begun has one frame at most. -/
theorem Sound.of_begins {r : Run} (h : r.Begins) : Sound [r] r := by
  have hempty {vm : Vm} (hvm : vm.frames = []) : Frame.Suspended [] vm.frames := by
    rw [hvm]
    trivial
  cases h with
  | @call vm callee args hvm =>
      refine ⟨?_, fun _ hf => nomatch hvm.symm.trans hf⟩
      show Frame.Suspended _ vm.frames
      rw [hvm]
      trivial
  | @code vm c hvm =>
      have hvm' : { vm with store := (vm.store.makeFunction c).2 }.frames = [] := hvm
      exact of_enterFrame (hempty hvm') (placed_blank _ vm) (fun hf => nomatch hvm'.symm.trans hf) []
  | continuation k hvm =>
      exact of_beginResume (hempty hvm) (fun _ hf => nomatch hvm.symm.trans hf) [] k

/-- What the world outside does keeps the invariant, if it leaves the frames alone. -/
theorem Sound.of_answerHook {r : Run} {past : List Run} (h : Sound (r :: past) r) {vm : Vm}
    (hvm : vm.frames = r.vm.frames) {id : HookNumber} {hook : Hook} {ids : List HookNumber}
    (hphase : r.phase = .atHook id hook ids) (result : Except Fault HookVerdict) :
    Sound (r.answerHook vm result :: r :: past) (r.answerHook vm result) := by
  rw [answerHook_eq hphase]
  exact h.of_hookEnded (hvm ▸ Frame.SameTop.refl _) ..

theorem Sound.of_answerHost {r : Run} {past : List Run} (h : Sound (r :: past) r) {vm : Vm}
    (hvm : vm.frames = r.vm.frames) {name : String} {args : Arguments}
    (hphase : r.phase = .atHost name args) (result : Except Fault Value) :
    Sound (r.answerHost vm result :: r :: past) (r.answerHost vm result) := by
  rw [answerHost_eq hphase]
  refine h.of_frames ?_ fun _ _ hc => nomatch hc
  show Frame.SameTop _ vm.frames
  rw [hvm]
  exact Frame.SameTop.refl _

/-- **The callers of every reachable state.** -/
theorem sound_of_history {outside : Vm → Vm → Prop} {r : Run} {past : List Run}
    (hout : ∀ vm vm', outside vm vm' → vm'.frames = vm.frames)
    (h : History Begins outside (r :: past)) : Sound (r :: past) r := by
  generalize heq : r :: past = history at h
  induction h generalizing r past with
  | start hb =>
      obtain ⟨rfl, rfl⟩ := List.cons.inj heq
      exact .of_begins hb
  | step _ hs ih =>
      obtain ⟨rfl, rfl⟩ := List.cons.inj heq
      exact (ih rfl).step hs
  | hook result _ hphase hvm ih =>
      obtain ⟨rfl, rfl⟩ := List.cons.inj heq
      exact (ih rfl).of_answerHook (hout _ _ hvm) hphase result
  | host result _ hphase hvm ih =>
      obtain ⟨rfl, rfl⟩ := List.cons.inj heq
      exact (ih rfl).of_answerHost (hout _ _ hvm) hphase result

end Run

/-! ## §5. What a capture keeps. -/

theorem Frame.toRecord_ok {f : Frame} {record : Record} (h : f.toRecord = .ok record) :
    record = f.asRecord := by
  unfold toRecord at h
  split at h
  · exact nomatch h
  · obtain ⟨needed, -, h⟩ := except_bind_ok.mp h
    dsimp only at h
    split at h
    · exact nomatch h
    · exact (Except.ok.inj h).symm

namespace Vm

/-- The frame with an index, counted from the outermost. -/
theorem frameAt?_append {vm : Vm} {inner rest : List Frame} {f : Frame}
    (h : vm.frames = inner ++ f :: rest) : vm.frameAt? rest.length = some f := by
  have hdepth : vm.depth = inner.length + (rest.length + 1) := by
    rw [depth, h, List.length_append, List.length_cons]
  have hposition : vm.positionOf? rest.length = some inner.length := by
    unfold positionOf?
    rw [if_pos (by omega)]
    congr 1
    omega
  rw [frameAt?, hposition]
  show vm.frames[inner.length]? = some f
  rw [h, List.getElem?_append_right (Nat.le_refl _), Nat.sub_self]
  rfl

/-- From any frame outwards, the records are those of the frames as they are. -/
theorem recordsFrom_ok {vm : Vm} {history : List Run} :
    ∀ {fs inner : List Frame} {limit : Nat} {records : List Record},
      vm.frames = inner ++ fs → Frame.Suspended history fs →
      vm.recordsFrom limit (Frame.callerIndex fs) = .ok records →
      records = fs.map Frame.asRecord
  | [], _, limit, records, _, _, h => by
      unfold recordsFrom Frame.callerIndex at h
      exact (Except.ok.inj h).symm
  | f :: rest, inner, 0, records, _, _, h => nomatch h
  | f :: rest, inner, limit + 1, records, hf, hsus, h => by
      have hat := frameAt?_append hf
      simp only [Frame.callerIndex, recordsFrom, hat, except_bind_ok] at h
      obtain ⟨record, hrecord, outer, houter, h⟩ := h
      rw [hsus.placed.parent_eq] at houter
      have hf' : vm.frames = (inner ++ [f]) ++ rest := by
        rw [hf, List.append_assoc]
        rfl
      have hrest := recordsFrom_ok hf' hsus.tail houter
      obtain rfl := Except.ok.inj h
      -- a frame that can be kept is kept as it is
      have hkept : record = f.asRecord := by
        cases ht : f.toRecord with
        | error e =>
            rw [ht] at hrecord
            exact nomatch hrecord
        | ok record' =>
            rw [ht] at hrecord
            obtain rfl := Except.ok.inj hrecord
            exact f.toRecord_ok ht
      rw [hkept, hrest]
      rfl

/-- A continuation keeps all live frames as they are. -/
theorem liveContinuation_ok {vm : Vm} {history : List Run} {k : Continuation}
    (hsus : Frame.Suspended history vm.frames) (h : vm.liveContinuation = .ok k) :
    k = ⟨vm.frames.map Frame.asRecord⟩ := by
  unfold liveContinuation at h
  obtain ⟨records, hrecords, h⟩ := except_bind_ok.mp h
  obtain rfl := Except.ok.inj h
  rw [topIndex?_eq] at hrecords
  have hall : vm.frames = [] ++ vm.frames := rfl
  rw [recordsFrom_ok hall hsus hrecords]

end Vm

@[simp] theorem Store.continuation_makeContinuation (s : Store) (k : Continuation) :
    (s.makeContinuation k).2.continuation s.continuations.size = k := by
  simp [makeContinuation, continuation]

/-- A capture with no resume armed keeps the live frames. -/
theorem callCapture_ok {args : Arguments} {vm vm' : Vm} {outcome : NativeOutcome}
    (h : callNative .capture args vm = .ok outcome vm') (harmed : vm.armed = none) :
    (∃ positional, args.requirePositional "capture" 0 0 = .ok positional) ∧
      ∃ k, vm.liveContinuation = .ok k
        ∧ outcome = .value (.continuation vm.store.continuations.size)
        ∧ vm' = { vm with store := (vm.store.makeContinuation k).2 } := by
  obtain ⟨positional, u, hl, hcapture⟩ := action_bind_ok.mp h
  obtain ⟨hpos, rfl⟩ := lift_ok.mp hl
  refine ⟨⟨positional, hpos⟩, ?_⟩
  obtain ⟨k, w, hk, hmake⟩ := action_bind_ok.mp hcapture
  obtain ⟨v, x, hv, hpure⟩ := action_bind_ok.mp hmake
  obtain ⟨rfl, rfl⟩ := action_pure_ok.mp hpure
  obtain ⟨vm₁, vm₂, hget, hlive⟩ := action_bind_ok.mp hk
  obtain ⟨rfl, rfl⟩ := action_get_ok.mp hget
  simp only [harmed] at hlive
  cases hk' : vm₂.liveContinuation with
  | error e =>
      rw [hk'] at hlive
      exact nomatch hlive
  | ok k' =>
      rw [hk'] at hlive
      obtain ⟨rfl, rfl⟩ := action_pure_ok.mp hlive
      rw [onStore_apply] at hv
      obtain ⟨rfl, rfl⟩ := EStateM.Result.ok.inj hv
      exact ⟨k, rfl, rfl, rfl⟩

/-- A capture that meets an armed resume gets the empty continuation. -/
theorem callCapture_armed {args : Arguments} {vm : Vm} {positional : List Value}
    {id : HookNumber} (hpos : args.requirePositional "capture" 0 0 = .ok positional)
    (harmed : vm.armed = some id) :
    callNative .capture args vm =
      .ok (.value (.continuation vm.store.continuations.size))
        { vm.dropArmed with store := (vm.store.makeContinuation {}).2 } := by
  simp only [callNative, capture, hpos, lift, harmed, bind, EStateM.bind, pure, EStateM.pure, get,
    getThe, MonadStateOf.get, EStateM.get, set, MonadStateOf.set, EStateM.set, onStore_apply]
  rw [← vm.store_dropArmed]
  rfl

/-- Whether a capture is called. -/
def Phase.isCapture : Phase → Bool
  | .call (.builtin b) _ => b.native == .capture
  | _ => false

/-- A step in which a program executes a capture, with no resume armed, that
answers a continuation. -/
structure Run.Captures (r s : Run) (k : Continuation) : Prop where
  calls : ∃ b args, r.phase = .call (.builtin b) args ∧ b.native = .capture
  armed_eq : r.vm.armed = none
  live : r.vm.frames ≠ []
  step_eq : r.step = some s
  answers : ∃ place, s.phase = .returned (.ok (.continuation place))
    ∧ s.vm.store.continuation place = k

/-- The step of a capture: it answers the continuation of the live frames. -/
theorem Run.Captures.step_cases {r s : Run} {k : Continuation} (h : r.Captures s k) :
    ∃ b args positional, r.phase = .call (.builtin b) args ∧ b.native = .capture
      ∧ args.requirePositional "capture" 0 0 = .ok positional ∧ r.vm.liveContinuation = .ok k
      ∧ s = ⟨{ r.vm with store := (r.vm.store.makeContinuation k).2 }, r.pending,
        .returned (.ok (.continuation r.vm.store.continuations.size))⟩ := by
  obtain ⟨b, args, hphase, hb⟩ := h.calls
  obtain ⟨place, hresult, hplace⟩ := h.answers
  have hs := h.step_eq
  unfold step at hs
  rw [hphase] at hs
  obtain rfl := Option.some.inj hs
  simp only [beginCall, hb] at hresult hplace ⊢
  cases hn : callNative .capture args r.vm with
  | error e u =>
      rw [hn] at hresult
      exact nomatch hresult
  | ok outcome u =>
      obtain ⟨⟨positional, hpos⟩, k', hlive, rfl, rfl⟩ := callCapture_ok hn h.armed_eq
      rw [hn] at hresult hplace
      obtain rfl : r.vm.store.continuations.size = place := by
        simpa [withResult] using hresult
      obtain rfl : k' = k := (Store.continuation_makeContinuation _ _).symm.trans hplace
      exact ⟨b, args, positional, hphase, hb, hpos, hlive, rfl⟩

/-- **A continuation keeps all live frames as they are**, and the innermost one
is suspended in the call of the capture. -/
theorem Run.Captures.records {outside : Vm → Vm → Prop} {r s : Run} {past : List Run}
    {k : Continuation} (h : r.Captures s k)
    (hout : ∀ vm vm', outside vm vm' → vm'.frames = vm.frames)
    (hhistory : History Begins outside (r :: past)) :
    ∃ f rest i req b positional, r.vm.frames = f :: rest
      ∧ k = ⟨r.vm.frames.map Frame.asRecord⟩
      ∧ f.SuspendedIn (storeAt (r :: past) (rest.length + 1)) i req
      ∧ req.callee = .builtin b ∧ b.native = .capture
      ∧ req.args.requirePositional "capture" 0 0 = .ok positional := by
  obtain ⟨b, args, positional, hphase, hb, hpos, hlive, -⟩ := h.step_cases
  have hsound := sound_of_history hout hhistory
  cases hf : r.vm.frames with
  | nil => exact absurd hf h.live
  | cons f rest =>
      obtain ⟨i, req, hsus, hcallee, rfl⟩ := hsound.asked hphase hf
      refine ⟨f, rest, i, req, b, positional, rfl, ?_, hsus, hcallee, hb, hpos⟩
      rw [← hf]
      exact Vm.liveContinuation_ok hsound.suspended hlive

end Resumable
