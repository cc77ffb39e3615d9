/-
  Resumable.Proofs.DisciplinedRun
  ───────────────────────────────
  **ONE STEP OF A RUN OBEYS.**

  A run obeys a discipline when all its frames do: the one at work between two
  instructions, and those that wait where they are.  Each phase hands the frames on
  to the next one:

      loop ──▸ loop        the instruction leads where it may  (runs_of_led)
      loop ──▸ call        a frame at work waits for a call
      call ──▸ enter       a new frame waits for the hooks
      enter ──▸ loop       the hooks have left it where it may stand
      returned ──▸ loop    the call is replaced by its result

  Main result:
    • `Run.Obeys.step`.
-/
import Resumable.Proofs.Discipline

namespace Resumable

open VmAction

variable {D : Discipline} {vm vm' : Vm} {f : Frame} {rest : List Frame} {pending : List Pending}
  {outer : List (Option Pending)}

namespace Run

/-! ## §1. Instructions. -/

theorem bodies_leaveFrame {B : Bodies} {K : Array Continuation} {result : Except Fault Value}
    (h : vm.Holds B K) (pending : List Pending) : (leaveFrame vm pending result).vm.Holds B K :=
  ⟨h.store, h.continuations_eq, fun f hf => h.frames f (List.mem_of_mem_tail hf), h.globals, h.handled⟩

theorem bodies_raiseInFrame {B : Bodies} {K : Array Continuation} {exc : Value} (h : vm.Holds B K)
    (hexc : Within B exc) (pending : List Pending) :
    (raiseInFrame vm pending exc).vm.Holds B K ∧ Within B (raiseInFrame vm pending exc).phase := by
  unfold raiseInFrame
  cases hu : unwind exc vm with
  | ok a u => exact ⟨((yields_unwind hexc).of_ok h hu).1, within_of_leaves_nil rfl⟩
  | error e u =>
      obtain ⟨hu, he⟩ := (yields_unwind hexc).of_error h hu
      exact ⟨bodies_leaveFrame hu pending, he⟩

theorem bodies_follow {B : Bodies} {K : Array Continuation} {result : Except Fault Flow}
    (h : vm.Holds B K) (hresult : Within B result) (pending : List Pending) :
    (follow vm pending result).vm.Holds B K ∧ Within B (follow vm pending result).phase := by
  cases result with
  | error e =>
      cases e with
      | exception exc => exact bodies_raiseInFrame h hresult pending
      | _ => exact ⟨bodies_leaveFrame h pending, within_of_leaves_nil rfl⟩
  | ok flow =>
      cases flow with
      | next => exact ⟨h, within_of_leaves_nil rfl⟩
      | jump target =>
          have hjump : Yields B (Vm.Holds B K)
              (onFrame (modify fun f => { f with next := target } : FrameAction PUnit)) :=
            yields_onFrame (yields_modify fun _ hf => within_withSlots hf rfl fun _ => .inl)
          unfold follow
          dsimp only
          cases hrun : onFrame (modify fun f => { f with next := target }) vm with
          | ok a u => exact ⟨(hjump.of_ok h hrun).1, within_of_leaves_nil rfl⟩
          | error e u =>
              obtain ⟨hu, he⟩ := hjump.of_error h hrun
              exact ⟨bodies_leaveFrame hu pending, he⟩
      | «return» value => exact ⟨bodies_leaveFrame h pending, hresult⟩
      | raise exc => exact bodies_raiseInFrame h hresult pending

/-- The innermost frame goes on, or is left. -/
theorem obeys_follow {result : Except Fault Flow} (hholds : D.Holds vm) (hworks : vm.Works vm')
    (hbodies : vm'.Holds D.bodies vm.store.continuations) (hresult : Within D.bodies result)
    (hframes : vm.frames = f :: rest) (hstacked : Frame.Stacked (f :: rest))
    (hcallers : List.Forall₂ D.Waits rest (pending.filterMap Pending.awaited? ++ outer))
    (hled : (follow vm' pending result).phase = .loop → ∃ g,
      (follow vm' pending result).vm.frames = g :: rest ∧ D.Runs g ∧ g.parent = f.parent) :
    (follow vm' pending result).Obeys D outer := by
  obtain ⟨hafter, hphase⟩ := bodies_follow hbodies hresult pending
  have hpending := pending_follow vm' pending result
  rcases follow_cases hworks pending result with ⟨hw, hloop⟩ | ⟨result', hleaves, hreturned⟩
  · obtain ⟨g, hg, hruns, hparent⟩ := hled hloop
    refine ⟨?_, ?_, hholds.of_work hafter hw.hooks_eq, hphase, ?_⟩
    · rw [hpending, hloop]
      exact ⟨g, rest, hg, hruns, hcallers⟩
    · rw [hg]
      exact hstacked.of_parent hparent
    · intro id hook ids hat
      rw [hloop] at hat
      cases hat
  · have hrest : (follow vm' pending result).vm.frames = rest := by
      rw [hleaves.frames_eq, hframes]
      rfl
    refine ⟨?_, ?_, hholds.of_work hafter hleaves.hooks_eq, hphase, ?_⟩
    · rw [hpending, hreturned, hrest]
      exact hcallers
    · rw [hrest]
      exact hstacked.tail
    · intro id hook ids hat
      rw [hreturned] at hat
      cases hat

/-- The innermost frame executes an instruction it has fetched. -/
theorem obeys_perform {i : Instruction} (hholds : D.Holds vm) (hframes : vm.frames = f :: rest)
    (hstacked : Frame.Stacked (f :: rest))
    (hcallers : List.Forall₂ D.Waits rest (pending.filterMap Pending.awaited? ++ outer))
    (hnext : f.next = i.next) (hat : f.current = i.offset)
    (hdecodes : decodeAt f.code.bytes i.offset = .ok i) (hallows : D.Allows f f.current) :
    (perform vm pending i).Obeys D outer := by
  have hled (hloop : (perform vm pending i).phase = .loop) : ∃ g,
      (perform vm pending i).vm.frames = g :: rest ∧ D.Runs g ∧ g.parent = f.parent := by
    obtain ⟨g, hg, hled⟩ := led_of_perform pending hframes hnext hloop
    exact ⟨g, hg, Discipline.runs_of_led hat hdecodes hallows hled, hled.parent_eq⟩
  unfold perform at hled ⊢
  cases he : execute i vm with
  | error e u =>
      rw [he] at hled
      obtain ⟨hu, hfault⟩ := (yields_execute i).of_error hholds.bodies he
      exact obeys_follow hholds ((keeps_execute i).of_error he) hu hfault hframes hstacked hcallers hled
  | ok outcome u =>
      rw [he] at hled
      obtain ⟨hu, houtcome⟩ := (yields_execute i).of_ok hholds.bodies he
      cases outcome with
      | flow flow =>
          exact obeys_follow hholds ((keeps_execute i).of_ok he) hu houtcome hframes hstacked hcallers
            hled
      | breakOff =>
          -- the frame stays at the product, of which the machine has its operands no more
          obtain ⟨g, hg, hstays, hparent⟩ := exists_frame_of_breakOff hframes he
          have hcode : g.code = f.code := congrArg (·.code) hstays.function_eq
          refine ⟨⟨g, rest, hg, .inr ⟨⟨i, ?_⟩, fun hc => ?_⟩, hcallers⟩, ?_, ?_, houtcome, ?_⟩
          · rw [hcode, hstays.current_eq, hat]
            exact hdecodes
          · rw [hcode] at hc ⊢
            rw [hstays.current_eq]
            exact ⟨_, _, hallows hc⟩
          · rw [hg]
            exact hstacked.of_parent hparent
          · exact hholds.of_work hu ((keeps_execute i).of_ok he).hooks_eq
          · intro id hook ids hatHook
            cases hatHook
      | call request =>
          obtain ⟨hcall, hreq⟩ := execute_call_ok he
          obtain ⟨rfl, slots, hslots, hreads⟩ := (callRequest_ok hframes).mp hreq
          -- a call is only read: its entries stay, and the frame is suspended in it
          have hsus : f.SuspendedIn u.store i request :=
            ⟨by rw [hat]; exact hdecodes, hcall, hnext, slots, hslots, hreads⟩
          refine ⟨?_, ?_, hholds, houtcome, ?_⟩
          · show List.Forall₂ D.Waits u.frames (some (.site request.slots) :: _)
            rw [hframes]
            exact .cons (.site hsus hallows) hcallers
          · show Frame.Stacked u.frames
            rw [hframes]
            exact hstacked
          · intro id hook ids hatHook
            cases hatHook

/-- A frame in a loop. -/
theorem obeys_stepFrame (h : Run.Obeys D outer ⟨vm, pending, .loop⟩) :
    (stepFrame vm pending).Obeys D outer := by
  obtain ⟨f, rest, hframes, hruns, hcallers⟩ := h.places
  have hstacked : Frame.Stacked (f :: rest) := hframes ▸ h.stacked
  -- a frame that is left hands its result to the callers, which wait
  have hleave (vm' : Vm) (hholds : D.Holds vm') (hrest : vm'.frames.tail = rest)
      (result : Except Fault Value) (hresult : Within D.bodies result) :
      (leaveFrame vm' pending result).Obeys D outer := by
    refine ⟨?_, ?_, hholds.leave, hresult, ?_⟩
    · show List.Forall₂ D.Waits vm'.frames.tail _
      rw [hrest]
      exact hcallers
    · show Frame.Stacked vm'.frames.tail
      rw [hrest]
      exact hstacked.tail
    · intro id hook ids hat
      cases hat
  have htail : vm.frames.tail = rest := by rw [hframes]; rfl
  unfold stepFrame
  rw [hframes]
  dsimp only
  by_cases hdone : f.isDone = true
  · rw [if_pos hdone]
    exact hleave vm h.holds htail _ (within_of_isInert rfl)
  · rw [if_neg hdone]
    cases hi : decodeAt f.code.bytes f.next with
    | error e =>
        rw [fetch_of_decodeAt_error hframes hi, ← hframes]
        exact hleave vm h.holds htail _ (within_of_leaves_nil rfl)
    | ok i =>
        rw [fetch_of_decodeAt hframes hi]
        have hoffset : i.offset = f.next := offset_of_decodeAt hi
        have hfetched : Within D.bodies (f.fetched i) :=
          within_withSlots (h.holds.bodies.frames f (hframes ▸ List.mem_cons_self ..)) rfl fun _ => .inl
        have hframes' : ∀ g ∈ f.fetched i :: rest, Within D.bodies g :=
          List.forall_mem_cons.mpr ⟨hfetched, fun g hg =>
            h.holds.bodies.frames g (hframes ▸ List.mem_cons_of_mem _ hg)⟩
        refine obeys_perform (f := f.fetched i) (h.holds.of_frames hframes' h.holds.hooks) rfl
          (hstacked.of_parent rfl) hcallers rfl hoffset.symm ?_ hruns.allowed
        rw [hoffset]
        exact hi

/-! ## §2. Calls. -/

/-- A result is handed on. -/
theorem obeys_withResult {result : Except Fault Value} (hholds : D.Holds vm)
    (hstacked : Frame.Stacked vm.frames)
    (hcallers : List.Forall₂ D.Waits vm.frames (pending.filterMap Pending.awaited? ++ outer))
    (hresult : Within D.bodies result) : (withResult vm pending result).Obeys D outer := by
  refine ⟨hcallers, hstacked, hholds, hresult, ?_⟩
  intro id hook ids hat
  cases hat

/-- A frame is entered, if there is room for it. -/
theorem obeys_enterFrame {g : Frame} (hholds : D.Holds vm) (hstacked : Frame.Stacked vm.frames)
    (hcallers : List.Forall₂ D.Waits vm.frames (pending.filterMap Pending.awaited? ++ outer))
    (hparent : g.parent = vm.topIndex?) (hg : Within D.bodies g) (hwaits : D.Waits g none) :
    (enterFrame vm pending g).Obeys D outer := by
  unfold enterFrame
  dsimp only
  split
  · exact obeys_withResult hholds hstacked hcallers (within_of_leaves_nil rfl)
  · refine ⟨.cons hwaits hcallers, ⟨?_, hstacked⟩,
      hholds.of_frames (List.forall_mem_cons.mpr ⟨hg, hholds.bodies.frames⟩) hholds.hooks,
      within_of_leaves_nil rfl, ?_⟩
    · rw [hparent, Vm.topIndex?_eq]
    · intro id hook ids hat
      cases hat

theorem within_blank {B : Bodies} {fn : Function} (h : Within B fn) (parent : Option Nat) :
    Within B (Frame.blank fn parent) := by
  refine within_frame.mpr ⟨h, fun slot hslot => ?_⟩
  rw [(Array.mem_replicate.mp hslot).2]
  exact within_none

theorem within_ofLocals {B : Bodies} {fn : Function} (h : Within B fn) (parent : Option Nat)
    {locals : List (Option Value)} (hlocals : ∀ slot ∈ locals, Within B slot) :
    Within B (Frame.ofLocals fn parent locals) := by
  refine within_frame.mpr ⟨h, fun slot hslot => ?_⟩
  rcases List.mem_append.mp (List.mem_toArray.mp hslot) with hgiven | hblank
  · exact hlocals slot (List.mem_of_mem_take hgiven)
  · rw [List.eq_of_mem_replicate hblank]
    exact within_none

/-- A continuation of records that can be kept is resumed. -/
theorem obeys_beginResume {k : Continuation} (hholds : D.Holds vm)
    (hstacked : Frame.Stacked vm.frames)
    (hcallers : List.Forall₂ D.Waits vm.frames (pending.filterMap Pending.awaited? ++ outer))
    (hk : ∀ record ∈ k.records, D.Keeps record) : (beginResume vm pending k).Obeys D outer := by
  cases hout : k.outermost? with
  | none =>
      unfold beginResume
      rw [hout]
      exact obeys_withResult hholds hstacked hcallers (within_of_isInert rfl)
  | some outermost =>
      have hmem : outermost ∈ k.records := List.mem_of_getLast? hout
      have hdrop := hholds.dropArmed
      have hrebuilding : D.Holds (vm.rebuilding k.records.reverse) := by
        refine hdrop.of_hooks fun e he hook hsome => ?_
        rcases List.mem_cons.mp he with rfl | hold
        · obtain rfl := Option.some.inj hsome
          intro record hrecord
          exact hk record (List.mem_reverse.mp hrecord)
        · exact hdrop.hooks e hold hook hsome
      rw [beginResume_eq hout]
      refine obeys_enterFrame hrebuilding ?_ ?_ rfl
        (within_blank (within_prod.mp (hk outermost hmem).within).1 _) (Discipline.waits_blank _ _)
      · rw [Vm.frames_rebuilding]
        exact hstacked
      · rw [Vm.frames_rebuilding]
        exact hcallers

/-- A call. -/
theorem obeys_beginCall {callee : Value} {args : Arguments}
    (h : Run.Obeys D outer ⟨vm, pending, .call callee args⟩) :
    (beginCall vm pending callee args).Obeys D outer := by
  obtain ⟨hcallee, hargs⟩ := within_call.mp h.phase
  have hcallers : List.Forall₂ D.Waits vm.frames (pending.filterMap Pending.awaited? ++ outer) :=
    h.places
  -- natives and refused calls come back at once, to the frames that were there
  have hreturned {u : Vm} (hu : D.Holds u) (hframes : u.frames = vm.frames)
      {result : Except Fault Value} (hresult : Within D.bodies result) :
      (withResult u pending result).Obeys D outer := by
    refine obeys_withResult hu ?_ ?_ hresult
    · rw [hframes]
      exact h.stacked
    · rw [hframes]
      exact hcallers
  have hraise (c : Cause) : (withResult (stateAfter (raise c : VmAction Value) vm) pending
      (.error (.exception (vm.store.makeException c.typeName c.message).1))).Obeys D outer := by
    have hafter : D.Holds (stateAfter (raise c : VmAction Value) vm) :=
      h.holds.of_work (h.holds.bodies.withStore (h.holds.bodies.store.withSerial _) rfl) rfl
    refine hreturned hafter rfl ?_
    exact within_of_isInert (v := (vm.store.makeException c.typeName c.message).1) rfl
  cases callee with
  | function fn =>
      unfold beginCall
      dsimp only
      cases hb : fn.code.bind args with
      | error e => exact hraise (.badArguments e)
      | ok locals =>
          refine obeys_enterFrame h.holds h.stacked hcallers rfl ?_ (Discipline.waits_ofLocals ..)
          refine within_ofLocals (within_functionValue.mp hcallee) _ fun slot hslot => ?_
          exact within_bind hargs hb slot (Array.mem_toList_iff.mp hslot)
  | builtin b =>
      unfold beginCall
      dsimp only
      -- a capture is the one native that may end a resume, so it has its own lemma
      by_cases hcapture : b.native = .capture
      · rw [hcapture]
        have hcaptured := h.holds.callCapture args h.stacked fun f hf =>
          ⟨h.holds.bodies.frames f hf, Discipline.allows_of_mem hcallers f hf⟩
        cases hn : callNative .capture args vm with
        | error e u =>
            rw [hn] at hcaptured
            obtain ⟨hu, hframes, he⟩ := hcaptured
            exact hreturned hu hframes he
        | ok outcome u =>
            rw [hn] at hcaptured
            obtain ⟨hu, hframes, place, rfl⟩ := hcaptured
            exact hreturned hu hframes (within_of_isInert rfl)
      · have hyields := yields_callNative (K := vm.store.continuations) hcapture hargs
        cases hn : callNative b.native args vm with
        | error e u =>
            obtain ⟨hu, he⟩ := hyields.of_error h.holds.bodies hn
            have hworks := (keeps_callNative hcapture args).of_error hn
            have hframes := (sameFrames_callNative _ args).of_error hn
            exact hreturned (h.holds.of_work hu hworks.hooks_eq) hframes he
        | ok outcome u =>
            obtain ⟨hu, houtcome⟩ := hyields.of_ok h.holds.bodies hn
            have hworks := (keeps_callNative hcapture args).of_ok hn
            have hframes := (sameFrames_callNative _ args).of_ok hn
            have hholds := h.holds.of_work hu hworks.hooks_eq
            cases outcome with
            | value v => exact hreturned hholds hframes houtcome
            | ask name =>
                refine ⟨?_, ?_, hholds, hargs, ?_⟩
                · show List.Forall₂ D.Waits u.frames _
                  rw [hframes]
                  exact hcallers
                · show Frame.Stacked u.frames
                  rw [hframes]
                  exact h.stacked
                · intro id hook ids hat
                  cases hat
            | resume k =>
                obtain ⟨-, rfl, place, rest, -, rfl⟩ := callNative_resume_ok hn
                exact obeys_beginResume h.holds h.stacked hcallers (h.holds.continuation place)
  | _ => exact hraise (.notCallable _)

/-! ## §3. Hooks. -/

/-- A hook has seen the frame just entered. -/
theorem obeys_hookEnded {id : HookNumber} {hook : Hook} {ids : List HookNumber}
    {result : Except Fault HookVerdict} (hholds : D.Holds vm) (hstacked : Frame.Stacked vm.frames)
    (hcallers : List.Forall₂ D.Waits vm.frames
      (none :: (pending.filterMap Pending.awaited? ++ outer)))
    (hhook : ∀ record ∈ hook.records, D.Keeps record)
    (hresult : ∀ e, result = .error e → Within D.bodies e) :
    (hookEnded vm pending id hook ids result).Obeys D outer := by
  unfold hookEnded
  split
  · refine ⟨hcallers, hstacked, hholds.finish id hhook, within_of_leaves_nil rfl, ?_⟩
    intro id hook ids hat
    cases hat
  · refine ⟨hcallers, hstacked, hholds.removeHook id, within_of_leaves_nil rfl, ?_⟩
    intro id hook ids hat
    cases hat
  · next e =>
      refine ⟨?_, hstacked.tail, (hholds.finish id hhook).leave, hresult e rfl, ?_⟩
      · obtain ⟨f, rest, -, hrest, hframes⟩ := List.forall₂_cons_right_iff.mp hcallers
        show List.Forall₂ D.Waits vm.frames.tail _
        rw [hframes]
        exact hrest
      · intro id hook ids hat
        cases hat

/-- The next record goes into the frame just entered. -/
theorem obeys_rebuildFrame {id : HookNumber} {records : List Record} {ids : List HookNumber}
    (hholds : D.Holds vm) (hstacked : Frame.Stacked vm.frames)
    (hcallers : List.Forall₂ D.Waits vm.frames
      (none :: (pending.filterMap Pending.awaited? ++ outer)))
    (hrecords : ∀ record ∈ records, D.Keeps record)
    (hputs : ∀ record left f rest, records = record :: left → vm.frames = f :: rest →
      D.exchanges record.function.code f.code) :
    (rebuildFrame vm pending id records ids).Obeys D outer := by
  obtain ⟨f, rest, -, hrest, hframes⟩ := List.forall₂_cons_right_iff.mp hcallers
  cases records with
  | nil =>
      have hnone : ∀ record ∈ (Hook.rebuild []).records, D.Keeps record := hrecords
      unfold rebuildFrame
      refine obeys_hookEnded hholds hstacked hcallers hnone ?_
      intro e he
      cases he
  | cons record left =>
      obtain ⟨hrecord, hleft⟩ := List.forall_mem_cons.mp hrecords
      have hleft : ∀ record ∈ (Hook.rebuild left).records, D.Keeps record := hleft
      unfold rebuildFrame
      rw [hframes]
      dsimp only
      cases hput : f.putRecord record with
      | error e =>
          refine obeys_hookEnded hholds hstacked hcallers hleft ?_
          intro e' he
          obtain rfl := Except.error.inj he
          exact within_of_leaves_nil rfl
      | ok g =>
          -- the frame now waits as the recorded one did
          have hg := Discipline.waits_of_putRecord hrecord (hputs record left f rest rfl hframes) hput
          obtain rfl := Frame.eq_withRecord_of_putRecord hput
          have hold := hholds.bodies.frames
          rw [hframes, List.forall_mem_cons] at hold
          have hwithin : Within D.bodies (f.withRecord record) :=
            (within_prod (p := (f.function, record.slots))).mpr
              ⟨(within_frame.mp hold.1).1, (within_prod.mp hrecord.within).2⟩
          have hafter : D.Holds { vm with frames := f.withRecord record :: rest } :=
            hholds.of_frames (List.forall_mem_cons.mpr ⟨hwithin, hold.2⟩) hholds.hooks
          rw [hframes] at hstacked
          refine obeys_hookEnded hafter (hstacked.of_parent rfl) (.cons hg hrest) hleft ?_
          intro e he
          cases he

/-- The hooks see the frame just entered. -/
theorem obeys_runHooks {ids : List HookNumber}
    (h : Run.Obeys D outer ⟨vm, pending, .enter ids⟩)
    (hputs : Run.Puts D.exchanges ⟨vm, pending, .enter ids⟩) :
    (runHooks vm pending ids).Obeys D outer := by
  have hcallers : List.Forall₂ D.Waits vm.frames
    (none :: (pending.filterMap Pending.awaited? ++ outer)) := h.places
  cases ids with
  | nil =>
      -- the frame starts where the hooks have left it
      obtain ⟨f, rest, hf, hrest, hframes⟩ := List.forall₂_cons_right_iff.mp hcallers
      refine ⟨⟨f, rest, hframes, ⟨?_, hf.visits⟩, hrest⟩, h.stacked, h.holds,
        within_of_leaves_nil rfl, ?_⟩
      · cases hf with
        | hooks hnext hallows _ =>
            rw [hnext]
            exact hallows
      · intro id hook ids hat
        cases hat
  | cons id ids =>
      unfold runHooks
      dsimp only
      cases hs : vm.hooks.start? id with
      | none =>
          refine ⟨hcallers, h.stacked, h.holds, within_of_leaves_nil rfl, ?_⟩
          intro id hook ids hat
          cases hat
      | some found =>
          obtain ⟨hook, hooks⟩ := found
          obtain ⟨hholds, hhook⟩ := h.holds.start hs
          cases hook with
          | rebuild records =>
              refine obeys_rebuildFrame hholds h.stacked hcallers hhook ?_
              rintro record left f rest rfl hframes
              exact hputs rfl hs hframes
          | host name key =>
              refine ⟨hcallers, h.stacked, hholds, within_of_leaves_nil rfl, ?_⟩
              rintro id' hook' ids' hat
              obtain ⟨rfl, rfl, rfl⟩ := Phase.atHook.inj hat
              exact hhook

/-! ## §4. Results. -/

/-- A result goes to the call that waits for it, or ends a resume. -/
theorem obeys_deliver {waiting : Pending} {result : Except Fault Value}
    (h : Run.Obeys D outer ⟨vm, waiting :: pending, .returned result⟩) :
    (deliver vm waiting pending result).Obeys D outer := by
  have hresult : Within D.bodies result := h.phase
  cases waiting with
  | resume id =>
      have hcallers : List.Forall₂ D.Waits vm.frames (pending.filterMap Pending.awaited? ++ outer) :=
        h.places
      have hholds : D.Holds (endResume vm id) := by
        unfold endResume
        split
        · exact (h.holds.of_hooks h.holds.hooks).removeHook id
        · exact h.holds.removeHook id
      refine obeys_withResult hholds ?_ ?_ hresult
      · rw [frames_endResume]
        exact h.stacked
      · rw [frames_endResume]
        exact hcallers
  | lone slots =>
      -- no frame waits for the end of an instruction on its own
      obtain ⟨f, rest, hf, -, -⟩ := List.forall₂_cons_right_iff.mp h.places
      cases hf
  | site slots =>
      obtain ⟨f, rest, hf, hrest, hframes⟩ := List.forall₂_cons_right_iff.mp h.places
      cases hf with
      | @site s i req hsus hallows =>
          have hled (hloop : (deliver vm (.site req.slots) pending result).phase = .loop) :
              ∃ g, (deliver vm (.site req.slots) pending result).vm.frames = g :: rest
                ∧ D.Runs g ∧ g.parent = f.parent := by
            obtain ⟨g, hg, hled⟩ := led_of_site pending hframes hsus hloop
            have hoffset := offset_of_decodeAt hsus.decodes
            refine ⟨g, hg, Discipline.runs_of_led hoffset.symm ?_ hallows hled, hled.parent_eq⟩
            rw [hoffset]
            exact hsus.decodes
          have hstacked : Frame.Stacked (f :: rest) := hframes ▸ h.stacked
          unfold deliver siteFlow at hled ⊢
          cases result with
          | error e =>
              exact obeys_follow h.holds (Vm.Works.refl vm) h.holds.bodies hresult hframes hstacked
                hrest hled
          | ok v =>
              have hyields := yields_finishCall (K := vm.store.continuations) req.slots hresult
              dsimp only at hled ⊢
              cases hrun : finishCall req.slots v vm with
              | error e u =>
                  rw [hrun] at hled
                  obtain ⟨hu, he⟩ := hyields.of_error h.holds.bodies hrun
                  exact obeys_follow h.holds ((keeps_finishCall _ v).of_error hrun) hu he hframes
                    hstacked hrest hled
              | ok a u =>
                  rw [hrun] at hled
                  obtain ⟨hu, -⟩ := hyields.of_ok h.holds.bodies hrun
                  exact obeys_follow h.holds ((keeps_finishCall _ v).of_ok hrun) hu
                    (within_of_leaves_nil rfl) hframes hstacked hrest hled

/-- **Every step of a run obeys.** -/
theorem Obeys.step {r s : Run} (h : r.Obeys D outer) (hputs : r.Puts D.exchanges)
    (hstep : r.step = some s) : s.Obeys D outer := by
  obtain ⟨vm, pending, phase⟩ := r
  cases phase with
  | loop =>
      obtain rfl := Option.some.inj hstep
      exact obeys_stepFrame h
  | call callee args =>
      obtain rfl := Option.some.inj hstep
      exact obeys_beginCall h
  | enter ids =>
      obtain rfl := Option.some.inj hstep
      exact obeys_runHooks h hputs
  | returned result =>
      cases pending with
      | nil => cases hstep
      | cons waiting pending =>
          obtain rfl := Option.some.inj hstep
          exact obeys_deliver h
  | atHook id hook ids => cases hstep
  | atHost name args => cases hstep
  | ended result => cases hstep
  | brokenOff => cases hstep

end Run

end Resumable
