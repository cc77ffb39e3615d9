/-
  Resumable.Proofs.ExceptionRoutes
  ────────────────────────────────
  **WHERE AN EXCEPTION GOES.**

  An exception looks for a try body through the frames its call has entered, from
  the innermost one outwards:

      frame without a try body     its handlers are closed, the frame is left
      frame with a try body        the handlers inside the body are closed, the frame
                                   goes on in the handler of the body
      no frame left                the call ends with the exception

  A handler that is closed on the way cuts the stack back to where it was entered and
  gives back the exception it kept, so of several only the outermost one matters:

      locals | … | type | value | trace | …            slots of the frame
               ^ where the outermost handler closed was entered

  A body that drops entries which were there before it cannot have them back: where
  a handler inside it was entered below the level of the body, the stack that the
  exception leaves is cut down to there (`not_cut_to_level`).

  The induction is on what waits for results, next to the frames that wait.

  Main results:
    • `raiseInFrame_of_inPlace` — what an exception does to one frame,
    • `Run.exception_routed`    — and to the frames of a call.
-/
import Resumable.Proofs.CallIsolation

namespace Resumable

open VmAction

/-! ## §1. What handlers keep. -/

/-- A try body that is open: its level, where its handler starts, and the blocks
around it. -/
structure TryBody where
  level : Nat
  handler : Nat
  outer : List Block

/-- The innermost try body among blocks. -/
def tryBodyIn : List Block → Option TryBody
  | [] => none
  | .handling _ :: outer => tryBodyIn outer
  | .guarded level handler :: outer => some ⟨level, handler, outer⟩

/-- Where the saved slots of a handler start, if it is the innermost block and `top`
slots are live: at its level, or lower if it was entered on a shorter stack. -/
def savedStart (top level : Nat) : Nat :=
  min level (top - savedSlots)

/-- Of `top` slots, those that are left when the handlers inside the innermost try body
are closed. -/
def settledTop : Nat → List Block → Nat
  | top, .handling level :: outer => settledTop (savedStart top level) outer
  | top, _ => top

/-- Of `top` slots, three are the saved ones of each handler among blocks, above the
locals and below those of the handlers inside it. -/
def SavedBelow (nlocals : Nat) : Nat → List Block → Prop
  | _, [] => True
  | top, .handling level :: outer =>
      nlocals ≤ level ∧ nlocals + savedSlots ≤ top ∧ SavedBelow nlocals (savedStart top level) outer
  | top, .guarded _ _ :: outer => SavedBelow nlocals top outer

/-- Whether the saved slots are there can be computed. -/
instance decidableSavedBelow (nlocals : Nat) :
    (top : Nat) → (blocks : List Block) → Decidable (SavedBelow nlocals top blocks)
  | _, [] => .isTrue trivial
  | top, .handling level :: outer =>
      have := decidableSavedBelow nlocals (savedStart top level) outer
      inferInstanceAs (Decidable (nlocals ≤ level ∧ nlocals + savedSlots ≤ top ∧ _))
  | top, .guarded _ _ :: outer => decidableSavedBelow nlocals top outer

namespace Frame

/-- The saved slots of every handler of the frame are in place. -/
def InPlace (f : Frame) : Prop :=
  SavedBelow f.nlocals f.slots.size f.blocks

instance (f : Frame) : Decidable f.InPlace :=
  decidableSavedBelow f.nlocals f.slots.size f.blocks

/-- The innermost try body of the frame. -/
def tryBody? (f : Frame) : Option TryBody :=
  tryBodyIn f.blocks

/-- The exception in saved slots. -/
def keptAt (f : Frame) (start : Nat) : Option Value :=
  (f.slots[start + 1]?).join

/-- What is handled when the handlers inside the innermost try body are closed: what
the outermost of them kept. -/
def settle (f : Frame) (handled : Option Value) : Option Value :=
  match f.blocks with
  | .handling _ :: _ => f.keptAt (settledTop f.slots.size f.blocks)
  | _ => handled

/-- The slots that are left when they are closed. -/
def settledSlots (f : Frame) : Slots :=
  f.slots.take (settledTop f.slots.size f.blocks)

/-- The frame in the handler of a try body. -/
def catching (f : Frame) (body : TryBody) (previous : Option Value) (exc : Value) : Frame :=
  { f with
    next := body.handler
    blocks := .handling body.level :: body.outer
    slots := f.settledSlots.take (max body.level f.nlocals) ++ savedTriplet previous ++ [some exc] }

end Frame

variable {f : Frame} {rest : List Frame} {vm : Vm} {level : Nat} {exc : Value}

/-! ## §2. One frame. -/

/-- Taking the top entry of a stack that has been cut. -/
theorem popSlot_take {n : Nat} (hlocals : f.nlocals ≤ n) (h : n < f.slots.size) :
    FrameAction.popSlot { f with slots := f.slots.take (n + 1) }
      = .ok (f.slots[n]?).join { f with slots := f.slots.take n } := by
  have hroom : ¬ (f.slots.take (n + 1)).size ≤ f.nlocals := by
    rw [size_take_of_le h]
    omega
  rw [FrameAction.popSlot_apply]
  refine (if_neg hroom).trans ?_
  show EStateM.Result.ok (f.slots.take (n + 1)).back?.join
    { f with slots := (f.slots.take (n + 1)).pop } = _
  rw [back?_take_succ h, pop_take_succ h]

/-- A handler whose saved slots are in place gives back what it kept. -/
theorem popSaved_of_le (hlocals : f.nlocals ≤ level)
    (htop : f.nlocals + savedSlots ≤ f.slots.size) :
    popSaved level f = .ok (f.keptAt (savedStart f.slots.size level))
      { f with slots := f.slots.take (savedStart f.slots.size level) } := by
  obtain ⟨start, hstart⟩ : ∃ start, savedStart f.slots.size level = start := ⟨_, rfl⟩
  have hmin := hstart
  unfold savedStart savedSlots at hmin
  unfold savedSlots at htop
  have hcut : f.truncated (level + savedSlots) = { f with slots := f.slots.take (start + 3) } := by
    unfold Frame.truncated savedSlots
    rw [Nat.max_eq_left (by omega), take_eq_take_min (level + 3), take_eq_take_min (start + 3),
      show min (level + 3) f.slots.size = min (start + 3) f.slots.size by omega]
  have htrace := popSlot_take (f := f) (n := start + 2) (by omega) (by omega)
  have hvalue := popSlot_take (f := f) (n := start + 1) (by omega) (by omega)
  have htype := popSlot_take (f := f) (n := start) (by omega) (by omega)
  rw [hstart]
  simp only [popSaved, FrameAction.truncate, bind, EStateM.bind, modify, modifyGet,
    MonadStateOf.modifyGet, EStateM.modifyGet, hcut, htrace, hvalue, htype]
  rfl

/-- Closing handlers leaves no more slots than there are. -/
theorem settledTop_le (top : Nat) (blocks : List Block) : settledTop top blocks ≤ top := by
  induction blocks generalizing top with
  | nil => exact Nat.le_refl _
  | cons b outer ih =>
      cases b with
      | guarded level handler => exact Nat.le_refl _
      | handling level =>
          have hle := ih (savedStart top level)
          unfold savedStart at hle
          show settledTop (savedStart top level) outer ≤ top
          unfold savedStart
          omega

/-- The frame after its innermost handler has been closed. -/
def Frame.closed (f : Frame) (level : Nat) (outer : List Block) : Frame :=
  { f with blocks := outer, slots := f.slots.take (savedStart f.slots.size level) }

section Closing

variable {outer : List Block} (hblocks : f.blocks = .handling level :: outer) (hplace : f.InPlace)

include hblocks hplace

theorem Frame.InPlace.level_le :
    f.nlocals ≤ level ∧ f.nlocals + savedSlots ≤ f.slots.size
      ∧ SavedBelow f.nlocals (savedStart f.slots.size level) outer := by
  unfold Frame.InPlace at hplace
  rw [hblocks] at hplace
  exact hplace

omit hblocks hplace in
theorem Frame.size_closed (f : Frame) (level : Nat) (outer : List Block) :
    (f.closed level outer).slots.size = savedStart f.slots.size level := by
  refine size_take_of_le ?_
  unfold savedStart
  omega

theorem Frame.inPlace_closed : (f.closed level outer).InPlace := by
  obtain ⟨-, -, houter⟩ := hplace.level_le hblocks
  unfold Frame.InPlace
  rw [Frame.size_closed]
  exact houter

omit hplace in
theorem Frame.settledTop_closed :
    settledTop (f.closed level outer).slots.size outer = settledTop f.slots.size f.blocks := by
  rw [Frame.size_closed, hblocks]
  rfl

/-- Closing one more handler settles the frame no further. -/
theorem Frame.settle_closed (handled : Option Value) :
    (f.closed level outer).settle (f.keptAt (savedStart f.slots.size level)) = f.settle handled := by
  obtain ⟨-, -, houter⟩ := hplace.level_le hblocks
  have hsettle : f.settle handled = f.keptAt (settledTop f.slots.size f.blocks) := by
    unfold Frame.settle
    rw [hblocks]
  rw [hsettle, ← Frame.settledTop_closed hblocks]
  unfold Frame.settle
  show (match outer with
    | .handling _ :: _ => (f.closed level outer).keptAt (settledTop (f.closed level outer).slots.size outer)
    | _ => _) = _
  rw [Frame.size_closed]
  split
  · next l rest =>
      -- the slots of an outer handler are not cut off
      obtain ⟨-, htop, -⟩ := houter
      have hle := settledTop_le (savedStart (savedStart f.slots.size level) l) rest
      unfold savedSlots at htop
      have hlt : savedStart (savedStart f.slots.size level) l + 3 ≤ savedStart f.slots.size level := by
        unfold savedStart savedSlots at htop ⊢
        omega
      show ((f.slots.take _)[settledTop (savedStart (savedStart f.slots.size level) l) rest + 1]?).join = _
      rw [getElem?_take_of_lt (by omega)]
      rfl
  · next hnone =>
      have hrest : settledTop (savedStart f.slots.size level) outer = savedStart f.slots.size level := by
        cases outer with
        | nil => rfl
        | cons b rest =>
            cases b with
            | guarded l handler => rfl
            | handling l => exact absurd rfl (hnone l rest)
      rw [hrest]

omit hplace in
theorem Frame.settledSlots_closed : (f.closed level outer).settledSlots = f.settledSlots := by
  have hle := settledTop_le (f.closed level outer).slots.size outer
  unfold Frame.settledSlots
  rw [← Frame.settledTop_closed hblocks]
  refine take_take_of_le (Nat.le_trans hle ?_)
  rw [Frame.size_closed]

omit hplace in
theorem Frame.catching_closed (body : TryBody) (previous : Option Value) (exc : Value) :
    (f.closed level outer).catching body previous exc = f.catching body previous exc := by
  unfold Frame.catching
  rw [Frame.settledSlots_closed hblocks]
  rfl

/-- A handler on the way of an exception is closed. -/
theorem unwindThrough_handling (hframes : vm.frames = f :: rest) (exc : Value) :
    unwindThrough exc f.blocks vm
      = unwindThrough exc outer
        { vm with
          frames := f.closed level outer :: rest
          handled := f.keptAt (savedStart f.slots.size level) } := by
  obtain ⟨hlocals, htop, -⟩ := hplace.level_le hblocks
  have hsaved := popSaved_of_le (f := { f with blocks := outer }) hlocals htop
  have hrest : ({ vm with frames := { f with blocks := outer } :: rest } : Vm).frames
      = { f with blocks := outer } :: rest := rfl
  rw [hblocks]
  simp only [unwindThrough, bind, EStateM.bind, onFrame_apply hframes, FrameAction.popBlock,
    modifyGet, MonadStateOf.modifyGet, EStateM.modifyGet, hblocks, List.tail_cons,
    onFrame_apply hrest, hsaved, modify]
  rfl

end Closing

/-- **An exception goes to the innermost try body of a frame**, past the handlers in it. -/
theorem unwindThrough_caught {body : TryBody} (hplace : f.InPlace)
    (hbody : f.tryBody? = some body) (hframes : vm.frames = f :: rest) (exc : Value) :
    unwindThrough exc f.blocks vm = .ok ()
      { vm with frames := f.catching body (f.settle vm.handled) exc :: rest, handled := some exc } := by
  induction hblocks : f.blocks generalizing f vm with
  | nil =>
      unfold Frame.tryBody? at hbody
      rw [hblocks] at hbody
      cases hbody
  | cons b outer ih =>
      unfold Frame.tryBody? at hbody
      rw [hblocks] at hbody
      cases b with
      | handling level =>
          -- a handler on the way is closed, and the search goes on in the frame without it
          rw [← hblocks, unwindThrough_handling hblocks hplace hframes]
          refine (ih (Frame.inPlace_closed hblocks hplace) hbody rfl rfl).trans ?_
          rw [Frame.catching_closed hblocks, Frame.settle_closed hblocks hplace vm.handled]
      | guarded level handler =>
          obtain rfl := Option.some.inj hbody
          have hsettle : f.settle vm.handled = vm.handled := by
            unfold Frame.settle
            rw [hblocks]
          have hslots : f.settledSlots = f.slots := by
            unfold Frame.settledSlots
            rw [hblocks]
            exact take_size
          unfold Frame.catching
          rw [hsettle, hslots]
          simp only [unwindThrough, bind, EStateM.bind, onFrame_apply hframes, FrameAction.popBlock,
            modifyGet, MonadStateOf.modifyGet, EStateM.modifyGet, hblocks, List.tail_cons, get,
            getThe, MonadStateOf.get, EStateM.get]
          rfl

/-- Without a try body, its handlers are closed and the exception goes on. -/
theorem unwindThrough_uncaught (hplace : f.InPlace) (hbody : f.tryBody? = none)
    (hframes : vm.frames = f :: rest) (exc : Value) :
    unwindThrough exc f.blocks vm = .error (.exception exc)
      { vm with
        frames := { f with blocks := [], slots := f.settledSlots } :: rest
        handled := f.settle vm.handled } := by
  induction hblocks : f.blocks generalizing f vm with
  | nil =>
      have hsettle : f.settle vm.handled = vm.handled := by
        unfold Frame.settle
        rw [hblocks]
      have hslots : f.settledSlots = f.slots := by
        unfold Frame.settledSlots
        rw [hblocks]
        exact take_size
      rw [hsettle, hslots, ← hblocks, ← hframes, hblocks]
      rfl
  | cons b outer ih =>
      unfold Frame.tryBody? at hbody
      rw [hblocks] at hbody
      cases b with
      | handling level =>
          rw [← hblocks, unwindThrough_handling hblocks hplace hframes]
          refine (ih (Frame.inPlace_closed hblocks hplace) hbody rfl rfl).trans ?_
          rw [Frame.settledSlots_closed hblocks, Frame.settle_closed hblocks hplace vm.handled]
          rfl
      | guarded level handler => cases hbody

theorem unwind_eq (hframes : vm.frames = f :: rest) (exc : Value) :
    unwind exc vm = unwindThrough exc f.blocks vm := by
  obtain ⟨config, store, frames, globals, hooks, armed, handled, output⟩ := vm
  obtain rfl : frames = f :: rest := hframes
  rfl

/-- **What an exception does to the innermost frame.** -/
theorem raiseInFrame_of_inPlace (hplace : f.InPlace) (hframes : vm.frames = f :: rest)
    (pending : List Pending) (exc : Value) :
    Run.raiseInFrame vm pending exc =
      match f.tryBody? with
      | some body => ⟨{ vm with
          frames := f.catching body (f.settle vm.handled) exc :: rest
          handled := some exc }, pending, .loop⟩
      | none => ⟨{ vm with frames := rest, handled := f.settle vm.handled }, pending,
          .returned (.error (.exception exc))⟩ := by
  unfold Run.raiseInFrame
  rw [unwind_eq hframes]
  cases hbody : f.tryBody? with
  | some body => rw [unwindThrough_caught hplace hbody hframes exc]
  | none =>
      rw [unwindThrough_uncaught hplace hbody hframes exc]
      rfl

/-! ## §3. The frames of a call. -/

/-- The live frames that have been entered over those of another machine. -/
def Vm.framesOver (vm base : Vm) : List Frame :=
  vm.frames.take (vm.depth - base.depth)

namespace Run

/-- The exception that an instruction raises, and the machine on which it does. -/
def raisedBy (i : Instruction) (vm : Vm) : Option (Value × Vm) :=
  match execute i vm with
  | .ok (.flow (.raise exc)) raised => some (exc, raised)
  | .error (.exception exc) raised => some (exc, raised)
  | _ => none

/-- The exception that a run has come by, and the machine on which it has: the next
instruction raises it, or a call has ended with it. -/
def thrown? (r : Run) : Option (Value × Vm) :=
  match r.phase, r.vm.frames with
  | .loop, f :: _ =>
      if f.isDone then none
      else
        match onFrame FrameAction.fetch r.vm with
        | .ok i vm => raisedBy i vm
        | .error _ _ => none
  | .returned (.error (.exception exc)), _ => some (exc, r.vm)
  | _, _ => none

theorem raises_of_raisedBy {i : Instruction} {raised : Vm} (h : raisedBy i vm = some (exc, raised)) :
    Raises vm i exc raised := by
  unfold raisedBy at h
  split at h
  · next hexecute =>
      obtain ⟨rfl, rfl⟩ := Prod.mk.inj (Option.some.inj h)
      exact .inl hexecute
  · next hexecute =>
      obtain ⟨rfl, rfl⟩ := Prod.mk.inj (Option.some.inj h)
      exact .inr hexecute
  · cases h

/-- A run comes by an exception in one of these two ways. -/
theorem thrown?_cases {r : Run} {raised : Vm} (h : r.thrown? = some (exc, raised)) :
    (∃ pending i u, r = ⟨r.vm, pending, .loop⟩ ∧ Fetches r.vm i u ∧ Raises u i exc raised)
      ∨ ∃ pending, r = ⟨raised, pending, .returned (.error (.exception exc))⟩ := by
  obtain ⟨vm, pending, phase⟩ := r
  unfold thrown? at h
  split at h
  · next f rest hphase hframes =>
      obtain rfl : phase = .loop := hphase
      split at h
      · cases h
      · next hdone =>
          split at h
          · next i u hfetch =>
              refine .inl ⟨pending, i, u, rfl, ⟨f, rest, hframes, ?_, hfetch⟩, raises_of_raisedBy h⟩
              exact Bool.eq_false_iff.mpr hdone
          · cases h
  · next hphase =>
      obtain rfl : phase = _ := hphase
      obtain ⟨rfl, rfl⟩ := Prod.mk.inj (Option.some.inj h)
      exact .inr ⟨pending, rfl⟩
  · cases h

/-- Where an exception ends up that is raised on top of `own` frames, the frames of a
call entered over `below`, while `handled` is handled. -/
inductive Arrives (below : List Frame) (exc : Value) (own : List Frame) (handled : Option Value) :
    Run → Prop
  /-- In the handler of the innermost try body, the frames above it left and those below
  it as they were. -/
  | caught {left outer : List Frame} {f : Frame} {body : TryBody} {vm : Vm}
      {pending : List Pending} :
      own = left ++ f :: outer → (∀ g ∈ left, g.tryBody? = none) → f.tryBody? = some body →
      vm.frames = f.catching body (f.settle (left.foldl (fun h g => g.settle h) handled)) exc
        :: (outer ++ below) →
      vm.handled = some exc → Arrives below exc own handled ⟨vm, pending, .loop⟩
  /-- There is none: the call ends with it. -/
  | uncaught {vm : Vm} :
      (∀ g ∈ own, g.tryBody? = none) → vm.frames = below →
      Arrives below exc own handled ⟨vm, [], .returned (.error (.exception exc))⟩

variable {below own : List Frame} {handled : Option Value} {pending : List Pending} {r s : Run}

/-- A frame without a try body is left behind. -/
theorem Arrives.passes {t : Run} (h : Arrives below exc own (f.settle handled) t)
    (hbody : f.tryBody? = none) : Arrives below exc (f :: own) handled t := by
  cases h with
  | @caught left outer g body vm pending hown hleft hg hframes hhandled =>
      subst hown
      have hown : f :: (left ++ g :: outer) = (f :: left) ++ g :: outer := rfl
      refine .caught hown ?_ hg hframes hhandled
      intro k hk
      rcases List.mem_cons.mp hk with rfl | hk
      · exact hbody
      · exact hleft k hk
  | @uncaught vm hown hframes =>
      refine .uncaught ?_ hframes
      intro k hk
      rcases List.mem_cons.mp hk with rfl | hk
      · exact hbody
      · exact hown k hk

/-- A call that has ended with an exception hands it on until it arrives. -/
theorem arrives_of_returned (hplace : ∀ f ∈ own, f.InPlace) (hframes : vm.frames = own ++ below)
    (hown : own.length = callsIn pending) (hcalls : OnlyCalls pending) (exc : Value) :
    ∃ n, executed n ⟨vm, pending, .returned (.error (.exception exc))⟩ = []
      ∧ Arrives below exc own vm.handled
        (steps n ⟨vm, pending, .returned (.error (.exception exc))⟩) := by
  induction pending generalizing vm own with
  | nil =>
      obtain rfl := List.length_eq_zero_iff.mp hown
      refine ⟨0, rfl, .uncaught ?_ hframes⟩
      intro g hg
      cases hg
  | cons waiting pending ih =>
      cases waiting with
      | lone slots => exact absurd (List.mem_cons_self ..) (hcalls slots)
      | resume id =>
          rw [callsIn_resume] at hown
          have hstep : step ⟨vm, .resume id :: pending, .returned (.error (.exception exc))⟩
              = some ⟨endResume vm id, pending, .returned (.error (.exception exc))⟩ := rfl
          -- the end of a resume on the way touches neither frames nor what is handled
          have hhandled : (endResume vm id).handled = vm.handled := by
            unfold endResume
            dsimp only
            split <;> rfl
          obtain ⟨n, hexecuted, harrives⟩ :=
            ih hplace ((frames_endResume vm id).trans hframes) hown hcalls.tail
          refine ⟨n + 1, ?_, ?_⟩
          · rw [executed_succ hstep, hexecuted]
            rfl
          · rw [steps_succ_of_step hstep, ← hhandled]
            exact harrives
      | site slots =>
          rw [callsIn_site] at hown
          cases own with
          | nil => cases hown
          | cons f own =>
              obtain ⟨hf, hrest⟩ := List.forall_mem_cons.mp hplace
              have hstep : step ⟨vm, .site slots :: pending, .returned (.error (.exception exc))⟩
                  = some (raiseInFrame vm pending exc) := rfl
              rw [raiseInFrame_of_inPlace hf hframes] at hstep
              -- the frame that made the call either has a try body for it or is left as well
              cases hbody : f.tryBody? with
              | some body =>
                  rw [hbody] at hstep
                  refine ⟨1, ?_, ?_⟩
                  · rw [executed_succ hstep]
                    rfl
                  · rw [steps_succ_of_step hstep]
                    exact .caught (List.nil_append (f :: own)).symm (fun g hg => by cases hg) hbody rfl rfl
              | none =>
                  rw [hbody] at hstep
                  have hleft : ({ vm with frames := own ++ below, handled := f.settle vm.handled } :
                      Vm).frames = own ++ below := rfl
                  obtain ⟨n, hexecuted, harrives⟩ := ih hrest hleft (Nat.succ.inj hown) hcalls.tail
                  refine ⟨n + 1, ?_, ?_⟩
                  · rw [executed_succ hstep]
                    exact hexecuted
                  · rw [steps_succ_of_step hstep]
                    exact harrives.passes hbody

/-- And so does one that an instruction raises. -/
theorem arrives_of_raiseInFrame (hplace : ∀ f ∈ own, f.InPlace) (hframes : vm.frames = own ++ below)
    (hown : own.length = callsIn pending + 1) (hcalls : OnlyCalls pending) (exc : Value) :
    ∃ n, executed n (raiseInFrame vm pending exc) = []
      ∧ Arrives below exc own vm.handled (steps n (raiseInFrame vm pending exc)) := by
  -- it is as if a call of the frame had ended with the exception
  obtain ⟨n, hexecuted, harrives⟩ :=
    arrives_of_returned hplace hframes (hown.trans (callsIn_site 0 pending).symm) (hcalls.site 0) exc
  have hstep : step ⟨vm, .site 0 :: pending, .returned (.error (.exception exc))⟩
      = some (raiseInFrame vm pending exc) := rfl
  cases n with
  | zero => cases harrives
  | succ n =>
      rw [executed_succ hstep] at hexecuted
      rw [steps_succ_of_step hstep] at harrives
      exact ⟨n, (List.append_eq_nil_iff.mp hexecuted).2, harrives⟩

/-- The call that a state belongs to keeps the frames it found. -/
theorem above_of_history {start : Vm} {past : List Run}
    (h : History (·.CalledOn start) (fun vm vm' => vm'.frames = vm.frames) (r :: past)) :
    r.Above start.frames := by
  generalize hpast : r :: past = history at h
  induction h generalizing r past with
  | start hcalled =>
      obtain ⟨rfl, -⟩ := List.cons.inj hpast
      exact hcalled.above
  | step _ hstep ih =>
      obtain ⟨rfl, -⟩ := List.cons.inj hpast
      exact (ih rfl).step hstep
  | @hook q past vm id hook ids result _ hphase hout ih =>
      obtain ⟨rfl, -⟩ := List.cons.inj hpast
      have habove := ih rfl
      have hstands := habove.stands
      unfold ownFrames at hstands
      rw [hphase, ← hout] at hstands
      rw [answerHook_eq hphase]
      exact above_hookEnded hstands habove.calls ..
  | @host q past vm name args result _ hphase hout ih =>
      obtain ⟨rfl, -⟩ := List.cons.inj hpast
      have habove := ih rfl
      have hstands := habove.stands
      unfold ownFrames at hstands
      rw [hphase, ← hout] at hstands
      rw [answerHost_eq hphase]
      exact above_withResult hstands habove.calls _

theorem StandsOn.framesOver {count : Nat} {base : Vm} (h : StandsOn vm.frames count base.frames) :
    vm.frames = vm.framesOver base ++ base.frames ∧ (vm.framesOver base).length = count := by
  obtain ⟨own, hframes, hlength⟩ := h
  have hover : vm.framesOver base = own := by
    unfold Vm.framesOver Vm.depth
    rw [hframes, List.length_append, Nat.add_sub_cancel, List.take_left]
  rw [hover]
  exact ⟨hframes, hlength⟩

/-- **An exception goes to the innermost try body among the frames of its call**, or ends
the call, and nothing is executed on the way: whenever a run of a call comes by one while
the saved slots of the handlers are in place. -/
theorem exception_routed {start raised : Vm} {past : List Run}
    (hhistory : History (·.CalledOn start) (fun vm vm' => vm'.frames = vm.frames) (r :: past))
    (hthrown : r.thrown? = some (exc, raised)) (hplace : ∀ f ∈ raised.framesOver start, f.InPlace) :
    raised.frames = raised.framesOver start ++ start.frames
      ∧ raised.frames.tail = r.vm.frames.tail
      ∧ ∃ n, executed n r = r.fetched?.toList
        ∧ Arrives start.frames exc (raised.framesOver start) raised.handled (steps n r) := by
  obtain ⟨hstands, hcalls, -⟩ := above_of_history hhistory
  rcases thrown?_cases hthrown with ⟨pending, i, u, hr, hfetches, hraises⟩ | ⟨pending, hr⟩
  · rw [hr] at hcalls
    unfold ownFrames at hstands
    rw [hr] at hstands
    -- fetching and executing work in the innermost frame, so the frames of the call are the same
    have hworks : r.vm.Works raised := by
      obtain ⟨f, rest, -, -, hfetch⟩ := hfetches
      have hfetched := (keeps_onFrame FrameAction.keeps_fetch).of_ok hfetch
      rcases hraises with hraise | hraise
      · exact hfetched.trans ((keeps_execute i).of_ok hraise)
      · exact hfetched.trans ((keeps_execute i).of_error hraise)
    have hstep : r.step = some (raiseInFrame raised pending exc) := by
      rw [hr]
      show some (stepFrame r.vm pending) = _
      rw [stepFrame_of_fetches hfetches, perform]
      rcases hraises with hraise | hraise
      · rw [hraise]
        rfl
      · rw [hraise]
        rfl
    obtain ⟨hframes, hlength⟩ := StandsOn.framesOver (hstands.sameTop hworks.frames)
    obtain ⟨n, hexecuted, harrives⟩ := arrives_of_raiseInFrame hplace hframes hlength hcalls exc
    refine ⟨hframes, hworks.frames.tail_eq, n + 1, ?_, ?_⟩
    · rw [executed_succ hstep, hexecuted, List.append_nil]
    · rw [steps_succ_of_step hstep]
      exact harrives
  · subst hr
    obtain ⟨hframes, hlength⟩ := StandsOn.framesOver hstands
    obtain ⟨n, hexecuted, harrives⟩ := arrives_of_returned hplace hframes hlength hcalls exc
    exact ⟨hframes, rfl, n, hexecuted, harrives⟩

/-- A body that raises an exception, and raises it again in the handler. -/
def rethrowing : Code where
  name := "g"
  qualname := "g"
  filename := ""
  firstLine := 1
  bytes := encodeAll
    [(.setupExcept, 9), (.loadGlobal, 0), (.callFunction, 0), (.raise, 0), (.raise, 0)]
  constants := #[]
  names := #["Exception"]
  varnames := #[]
  argCount := 0
  lines := []

/-- A body that calls it in a try body. -/
def guarding : Code where
  name := "f"
  qualname := "f"
  filename := ""
  firstLine := 1
  bytes := encodeAll
    [(.setupExcept, 9), (.loadGlobal, 0), (.callFunction, 0), (.returnValue, 0), (.popTop, 0),
      (.popExcept, 0), (.loadConst, 0), (.returnValue, 0)]
  constants := #[.int 5]
  names := #["g"]
  varnames := #[]
  argCount := 0
  lines := []

/-- A call of the body that calls in a try body. -/
def guardingRun : Run :=
  ofCall
    { globals := [("g", .function ⟨0, rethrowing⟩), ("Exception", .builtin ⟨1, .exception⟩)]
      store := { serial := 3 } }
    (.function ⟨2, guarding⟩) {}

/-- The exception that is raised again passes its frame and arrives in the caller's handler. -/
theorem exception_routed_guarding :
    ∃ exc raised, (steps 13 guardingRun).thrown? = some (exc, raised)
      ∧ (∀ f ∈ raised.framesOver guardingRun.vm, f.InPlace)
      ∧ ∃ n, executed n (steps 13 guardingRun) = (steps 13 guardingRun).fetched?.toList
        ∧ Arrives [] exc (raised.framesOver guardingRun.vm) raised.handled
          (steps n (steps 13 guardingRun)) := by
  have hsome : (steps 13 guardingRun).thrown?.isSome = true := by decide +kernel
  have htest : (steps 13 guardingRun).thrown?.all
      (fun thrown => decide (∀ f ∈ thrown.2.framesOver guardingRun.vm, f.InPlace)) = true := by
    decide +kernel
  obtain ⟨⟨exc, raised⟩, hthrown⟩ := Option.isSome_iff_exists.mp hsome
  rw [hthrown] at htest
  have hplace : ∀ f ∈ raised.framesOver guardingRun.vm, f.InPlace := of_decide_eq_true htest
  have hhistory := history_trail (fun vm vm' => vm'.frames = vm.frames)
    (CalledOn.call (.function ⟨2, guarding⟩) {} : guardingRun.CalledOn guardingRun.vm) 13
  obtain ⟨-, -, harrives⟩ := exception_routed hhistory hthrown hplace
  exact ⟨exc, raised, hthrown, hplace, harrives⟩

/-- A try body that drops the entry below it before it opens another one, whose handler
raises the exception again. -/
def dropping : Code where
  name := "f"
  qualname := "f"
  filename := ""
  firstLine := 1
  bytes := encodeAll
    [(.loadConst, 0), (.setupExcept, 17), (.popTop, 0), (.setupExcept, 16), (.loadGlobal, 0),
      (.callFunction, 0), (.raise, 0), (.raise, 0), (.popTop, 0), (.popExcept, 0), (.loadConst, 0),
      (.returnValue, 0)]
  constants := #[.int 5]
  names := #["Exception"]
  varnames := #[]
  argCount := 0
  lines := []

/-- A call of it. -/
def droppingRun : Run :=
  ofCall
    { globals := [("Exception", .builtin ⟨0, .exception⟩)], store := { serial := 2 } }
    (.function ⟨1, dropping⟩) {}

/-- The exception arrives in the handler of the outer try body, but the stack is not cut
to the level of that body: the inner handler was entered below it. -/
theorem not_cut_to_level :
    History (·.CalledOn droppingRun.vm) (fun vm vm' => vm'.frames = vm.frames)
        (steps 11 droppingRun :: (trail 11 droppingRun).tail)
      ∧ ∃ exc raised f body g, (steps 11 droppingRun).thrown? = some (exc, raised)
        ∧ raised.framesOver droppingRun.vm = [f] ∧ f.InPlace ∧ f.tryBody? = some body
        ∧ (steps 12 droppingRun).phase = .loop ∧ (steps 12 droppingRun).vm.frames = [g]
        ∧ g.next = body.handler
        ∧ ∀ previous, g.slots
          ≠ f.slots.take (max body.level f.nlocals) ++ savedTriplet previous ++ [some exc] := by
  refine ⟨history_trail _ (CalledOn.call (.function ⟨1, dropping⟩) {}) 11, ?_⟩
  have hsome : (steps 11 droppingRun).thrown?.isSome = true := by decide +kernel
  have hbefore : (steps 11 droppingRun).thrown?.all (fun thrown =>
      decide ((thrown.2.framesOver droppingRun.vm).length = 1
        ∧ ∀ f ∈ thrown.2.framesOver droppingRun.vm, f.InPlace ∧ f.slots.size = 3 ∧ f.nlocals = 0
          ∧ f.tryBody?.map (fun body => (body.level, body.handler)) = some (1, 17))) = true := by
    decide +kernel
  have hafter : (steps 12 droppingRun).vm.frames.length = 1
      ∧ ∀ g ∈ (steps 12 droppingRun).vm.frames, g.next = 17 ∧ g.slots.size = 4 := by decide +kernel
  obtain ⟨⟨exc, raised⟩, hthrown⟩ := Option.isSome_iff_exists.mp hsome
  rw [hthrown] at hbefore
  obtain ⟨hone, hbefore⟩ := of_decide_eq_true hbefore
  obtain ⟨f, hf⟩ := List.length_eq_one_iff.mp hone
  obtain ⟨g, hg⟩ := List.length_eq_one_iff.mp hafter.1
  obtain ⟨hplace, hsize, hlocals, hbody⟩ := hbefore f (hf ▸ List.mem_singleton_self f)
  obtain ⟨hnext, hsize'⟩ := hafter.2 g (hg ▸ List.mem_singleton_self g)
  obtain ⟨⟨level, handler, outer⟩, hbody, heq⟩ := Option.map_eq_some_iff.mp hbody
  obtain ⟨rfl, rfl⟩ := Prod.mk.inj heq
  refine ⟨exc, raised, f, _, g, hthrown, hf, hplace, hbody, by cbv, hg, hnext, ?_⟩
  intro previous hslots
  -- one entry, the three saved slots and the exception would be five slots
  have hcount := congrArg (·.toList.length) hslots
  simp only [hlocals, Array.toList_appendList, List.length_append, length_savedTriplet, toList_take,
    List.length_take, Array.length_toList, hsize, hsize', List.length_singleton] at hcount
  omega

end Run

end Resumable
