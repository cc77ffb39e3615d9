/-
  Resumable.Proofs.CallsInFlight
  ──────────────────────────────
  **WHAT WAITS WHILE A CALL IS IN FLIGHT.**

  In a run that resumes nothing, every live frame but the innermost is
  suspended in the call that entered the frame above it, and for each of these
  calls one entry of the list of pending results waits:

      frames    g      f      e
      pending          site   site

  While a value is called, the innermost frame waits too; how many entries its
  own call has taken off the stack counts only until the call has ended.

  Main result: `Run.Stacked.step` (every step keeps it so, as long as no list
  changes that a call in flight takes its arguments from).
-/
import Resumable.Proofs.Replay

namespace Resumable

open VmAction

/-! ## §1. Chains of calls. -/

namespace Frame.Linked

variable {s s' : Store} {fs gs : List Frame}

theorem tail (h : Linked s fs) : Linked s fs.tail := by
  match fs, h with
  | [], h => exact h
  | [_], _ => exact trivial
  | _ :: _ :: _, h => exact h.2.2

/-- The innermost frame may be worked on. -/
theorem sameTop (h : Linked s fs) (hs : SameTop fs gs) : Linked s gs := by
  match fs, gs, h, hs with
  | [], [], _, _ => exact trivial
  | [f], g :: _, h, ⟨hc, heq⟩ =>
      subst heq
      have hplaced : f.Placed [] := h
      refine ⟨hc.parent_eq.trans hplaced.parent_eq, hc.argCount_eq.trans ?_⟩
      unfold code
      rw [hc.function_eq]
      exact hplaced.argCount_eq
  | f :: f' :: rest, g :: _, h, ⟨hc, heq⟩ =>
      subst heq
      obtain ⟨hplaced, ⟨i, args, n, locals, hsus, hbind⟩, htail⟩ := h
      have hcode : g.code = f.code := by
        unfold code
        rw [hc.function_eq]
      refine ⟨⟨hc.parent_eq.trans hplaced.parent_eq, hc.argCount_eq.trans ?_⟩,
        ⟨i, args, n, locals, ?_, hcode ▸ hbind⟩, htail⟩
      · rw [hcode]
        exact hplaced.argCount_eq
      · rw [hc.function_eq]
        exact hsus

/-- Only the lists and dicts count that the calls in flight take their arguments from. -/
theorem congr : ∀ {fs : List Frame}, Linked s fs →
    (∀ f ∈ fs.tail, ∀ c ∈ f.collected, s'.contents c = s.contents c) → Linked s' fs
  | [], _, _ => trivial
  | [_], h, _ => h
  | _ :: f :: rest, h, hkept => by
      obtain ⟨hplaced, ⟨i, args, n, locals, hsus, hbind⟩, htail⟩ := h
      refine ⟨hplaced, ⟨i, args, n, locals, ?_, hbind⟩, htail.congr fun g hg => ?_⟩
      · exact hsus.congr (hkept f (List.mem_cons_self ..))
      · exact hkept g (List.mem_cons_of_mem _ hg)

end Frame.Linked

/-! ## §2. What waits. -/

namespace Run

/-- The results that the live frames wait for, while the innermost one works. -/
def callers (r : Run) : List Pending :=
  r.vm.frames.tail.map Frame.waiting

/-- The call a run is about to make is the one its innermost frame asks for. -/
def Asks (r : Run) (callee : Value) (args : Arguments) : Prop :=
  r.vm.frames = [] ∨ ∃ f rest i req, r.vm.frames = f :: rest ∧ f.SuspendedIn r.vm.store i req
    ∧ req.callee = callee ∧ req.args = args

/-- The calls in flight of a run that resumes nothing. -/
structure Stacked (r : Run) : Prop where
  room : r.vm.depth ≤ r.vm.config.frameLimit
  linked : Frame.Linked r.vm.store r.vm.frames
  works : r.phase.isInCall = false → r.pending = r.callers
  inCall : r.phase.isInCall = true →
    (r.vm.frames = [] ∧ r.pending = []) ∨ ∃ n, r.vm.frames ≠ [] ∧ r.pending = .site n :: r.callers
  calls : ∀ {callee args}, r.phase = .call callee args →
    r.pending = r.vm.frames.map Frame.waiting ∧ r.Asks callee args

namespace Stacked

variable {r s : Run}

/-- A run as it is begun on a machine without live frames. -/
theorem of_call {vm : Vm} (h : vm.frames = []) (callee : Value) (args : Arguments) :
    (ofCall vm callee args).Stacked where
  room := by
    show vm.frames.length ≤ _
    rw [h]
    exact Nat.zero_le _
  linked := by
    show Frame.Linked vm.store vm.frames
    rw [h]
    trivial
  works := fun hcall => nomatch hcall
  inCall := fun _ => .inl ⟨h, rfl⟩
  calls := fun _ => ⟨(congrArg (List.map Frame.waiting) h).symm, .inl h⟩

/-- Only calls wait. -/
theorem sites (h : r.Stacked) : ∀ p ∈ r.pending, ∃ n, p = .site n := by
  have hcallers : ∀ p ∈ r.callers, ∃ n, p = .site n := by
    intro p hp
    obtain ⟨f, -, rfl⟩ := List.mem_map.mp hp
    exact ⟨_, rfl⟩
  cases hin : r.phase.isInCall with
  | false =>
      rw [h.works hin]
      exact hcallers
  | true =>
      obtain ⟨-, hpending⟩ | ⟨n, -, hpending⟩ := h.inCall hin
      · rw [hpending]
        exact fun _ hp => nomatch hp
      · rw [hpending]
        intro p hp
        obtain rfl | hp := List.mem_cons.mp hp
        · exact ⟨n, rfl⟩
        · exact hcallers p hp

/-- Without live frames nothing waits. -/
theorem pending_eq_nil (h : r.Stacked) (hframes : r.vm.frames = []) : r.pending = [] := by
  cases hin : r.phase.isInCall with
  | false => rw [h.works hin, callers, hframes, List.tail_nil, List.map_nil]
  | true =>
      obtain ⟨-, hpending⟩ | ⟨n, hne, -⟩ := h.inCall hin
      · exact hpending
      · exact absurd hframes hne

/-- Once the result at hand is handed on, what waits is what the callers wait for. -/
theorem waiting_eq (h : r.Stacked) (hcall : r.phase.isCall = false)
    (hhost : ∀ name args, r.phase ≠ .atHost name args) : r.waiting = r.callers := by
  cases hphase : r.phase with
  | call callee args =>
      rw [hphase] at hcall
      exact nomatch hcall
  | atHost name args => exact absurd hphase (hhost name args)
  | returned result =>
      have hin := h.inCall (by rw [hphase]; rfl)
      rw [waiting, hphase]
      obtain ⟨hframes, hpending⟩ | ⟨n, -, hpending⟩ := hin
      · rw [hpending, callers, hframes]
        rfl
      · rw [hpending]
        rfl
  | _ =>
      rw [waiting, hphase]
      exact h.works (by rw [hphase]; rfl)

/-- The innermost frame is worked on, or the value called in it ends. -/
theorem of_sameTop (h : r.Stacked) (hs : Frame.SameTop r.vm.frames s.vm.frames)
    (hkept : ∀ f ∈ r.vm.frames.tail, ∀ c ∈ f.collected,
      s.vm.store.contents c = r.vm.store.contents c)
    (hconfig : s.vm.config = r.vm.config) (hcall : s.phase.isCall = false)
    (hwaits : s.pending = r.waiting)
    (hworks : s.phase.isInCall = false → r.waiting = r.callers)
    (hin : s.phase.isInCall = true → r.vm.frames ≠ [] → r.phase.isCall = true) : s.Stacked := by
  have hcallers : s.callers = r.callers := by
    rw [callers, callers, hs.tail_eq]
  refine ⟨?_, (h.linked.congr hkept).sameTop hs, fun hw => ?_, fun hw => ?_, fun hphase => ?_⟩
  · rw [hconfig, Vm.depth, hs.length_eq]
    exact h.room
  · rw [hcallers, hwaits, hworks hw]
  · rw [hcallers, hwaits]
    -- in a call the host made there is no frame, and nothing is pending
    by_cases hframes : r.vm.frames = []
    · refine .inl ⟨List.length_eq_zero_iff.mp ?_, ?_⟩
      · rw [hs.length_eq, hframes]
        rfl
      · rw [waiting, h.pending_eq_nil hframes]
        split <;> rfl
    · have hturn := hin hw hframes
      have hne : s.vm.frames ≠ [] := by
        intro hnone
        have hlength := hs.length_eq
        rw [hnone] at hlength
        exact hframes (List.length_eq_zero_iff.mp hlength.symm)
      have hwaiting : r.waiting = r.pending := by
        rw [waiting]
        cases hphase : r.phase with
        | returned result =>
            rw [hphase] at hturn
            cases hturn
        | _ => rfl
      rw [hwaiting]
      have hphase : r.phase.isInCall = true := by
        cases hp : r.phase <;> rw [hp] at hturn <;> first | rfl | cases hturn
      obtain ⟨hnone, -⟩ | ⟨n, -, hpending⟩ := h.inCall hphase
      · exact absurd hnone hframes
      · exact .inr ⟨n, hne, hpending⟩
  · rw [hphase] at hcall
    cases hcall

/-- The innermost frame is left. -/
theorem of_tail (h : r.Stacked) (hs : s.vm.frames = r.vm.frames.tail)
    (hkept : ∀ f ∈ r.vm.frames.tail, ∀ c ∈ f.collected,
      s.vm.store.contents c = r.vm.store.contents c)
    (hconfig : s.vm.config = r.vm.config) {result : Except Fault Value}
    (hphase : s.phase = .returned result) (hwaits : s.pending = r.callers) : s.Stacked where
  room := by
    have hroom := h.room
    rw [hconfig, Vm.depth, hs, List.length_tail]
    unfold Vm.depth at hroom
    omega
  linked := hs ▸ (h.linked.congr hkept).tail
  works := fun hw => by
    rw [hphase] at hw
    cases hw
  inCall := fun _ => by
    rw [hwaits, callers, callers, hs]
    cases r.vm.frames.tail with
    | nil => exact .inl ⟨rfl, rfl⟩
    | cons f rest => exact .inr ⟨_, List.cons_ne_nil _ _, rfl⟩
  calls := fun hc => by cases hphase.symm.trans hc

/-- A call instruction asks for its call. -/
theorem of_asks (h : r.Stacked) {f : Frame} {rest : List Frame} {i : Instruction}
    {req : CallRequest} {slots : List (Option Value)} (hphase : r.phase = .loop)
    (hframes : r.vm.frames = f :: rest) (hi : decodeAt f.code.bytes f.next = .ok i)
    (hc : i.opcode.isCall = true) (hslots : f.topSlots i.callSize = .ok slots)
    (hreads : i.ReadsAs r.vm.store slots req) :
    Stacked ⟨{ r.vm with frames := f.fetched i :: rest }, .site req.slots :: r.pending,
      .call req.callee req.args⟩ := by
  have hlinked := h.linked
  have hpending := h.works (by rw [hphase]; rfl)
  rw [callers, hframes, List.tail_cons] at hpending
  rw [hframes] at hlinked
  have hsus : (f.fetched i).SuspendedIn r.vm.store i req :=
    ⟨hi, hc, rfl, slots, Frame.topSlots_ok_congr (f := f) (g := f.fetched i) rfl rfl hslots, hreads⟩
  refine ⟨?_, hlinked.sameTop ⟨⟨rfl, rfl, rfl⟩, rfl⟩, fun hw => (nomatch hw), fun _ => .inr ?_, ?_⟩
  · have hroom := h.room
    rw [Vm.depth, hframes] at hroom
    exact hroom
  · exact ⟨req.slots, List.cons_ne_nil _ _, congrArg _ hpending⟩
  · intro callee args hcall
    obtain ⟨rfl, rfl⟩ := Phase.call.inj hcall
    refine ⟨?_, .inr ⟨f.fetched i, rest, i, req, rfl, hsus, rfl, rfl⟩⟩
    rw [List.map_cons, hsus.waiting_eq, hpending]

/-- A frame is entered, if there is room for it. -/
theorem of_enterFrame (h : r.Stacked) {fn : Function} {args : Arguments} {locals : Slots}
    (hphase : r.phase = .call (.function fn) args) (hbind : fn.code.bind args = .ok locals) :
    (enterFrame r.vm r.pending (.ofLocals fn r.vm.topIndex? locals.toList)).Stacked := by
  obtain ⟨hpending, hasks⟩ := h.calls hphase
  have hplaced := placed_ofLocals fn r.vm locals.toList
  unfold enterFrame
  dsimp only
  split
  · refine ⟨h.room, h.linked, fun hw => (nomatch hw), fun _ => ?_, fun hc => nomatch hc⟩
    exact h.inCall (by rw [hphase]; rfl)
  · next hlimit =>
    refine ⟨Nat.lt_of_not_le hlimit, ?_, fun _ => hpending, fun hw => (nomatch hw),
      fun hc => nomatch hc⟩
    show Frame.Linked r.vm.store (Frame.ofLocals fn r.vm.topIndex? locals.toList :: r.vm.frames)
    obtain hnone | ⟨f, rest, i, req, hframes, hsus, hcallee, rfl⟩ := hasks
    · rw [hnone] at hplaced ⊢
      exact hplaced
    · have hlinked := h.linked
      rw [hframes] at hplaced hlinked ⊢
      refine ⟨hplaced, ⟨i, req.args, req.slots, locals, ?_, hbind⟩, hlinked⟩
      show f.SuspendedIn r.vm.store i ⟨.function fn, req.args, req.slots⟩
      rw [← hcallee]
      exact hsus

/-- **Every step keeps the calls in flight in order**, if it resumes nothing,
meets no hook and leaves the lists and dicts alone that calls in flight take
their arguments from. -/
theorem step (h : r.Stacked) (hs : r.step = some s)
    (hkept : ∀ f ∈ r.vm.frames.tail, ∀ c ∈ f.collected,
      s.vm.store.contents c = r.vm.store.contents c)
    (hconfig : s.vm.config = r.vm.config)
    (hresume : ∀ b args, r.phase = .call (.builtin b) args → b.native ≠ .resume)
    (hhooks : ∀ ids, r.phase = .enter ids → ids = []) : s.Stacked := by
  have hhost : ∀ name args, r.phase ≠ .atHost name args := by
    intro name args hphase
    rw [Run.step, hphase] at hs
    cases hs
  cases change_of_step hs with
  | works work quiet turn waits =>
      have hcall : s.phase.isCall = false := by
        cases hphase : s.phase <;> rw [hphase] at quiet <;> first | rfl | cases quiet
      refine h.of_sameTop work.frames hkept hconfig hcall waits (fun hw => ?_) fun hw hframes => ?_
      · obtain hturn | hframes := turn
        · exact h.waiting_eq (hturn.symm.trans hw) hhost
        · rw [callers, hframes, waiting, h.pending_eq_nil hframes]
          split <;> rfl
      · exact (turn.resolve_right hframes).symm.trans hw
  | leaves left phase_eq turn waits =>
      exact h.of_tail left.frames_eq hkept hconfig phase_eq (waits.trans (h.waiting_eq turn hhost))
  | asks phase_eq frames_eq decodes isCall slots_eq reads run_eq =>
      subst run_eq
      exact h.of_asks phase_eq frames_eq decodes isCall slots_eq reads
  | enters phase_eq bound run_eq =>
      subst run_eq
      exact h.of_enterFrame phase_eq bound
  | resumes phase_eq native_eq positional run_eq => exact absurd native_eq (hresume _ _ phase_eq)
  | meets phase_eq native_eq met returned waits =>
      have hsame : Frame.SameTop r.vm.frames s.vm.frames := r.vm.frames_dropArmed ▸ met.frames
      refine h.of_sameTop hsame hkept hconfig (by rw [returned]; rfl) ?_ (fun hw => ?_) fun _ _ => ?_
      · rw [waits, waiting, phase_eq]
      · rw [returned] at hw
        cases hw
      · rw [phase_eq]
        rfl
  | @hooked ids phase_eq run_eq =>
      obtain rfl := hhooks ids phase_eq
      subst run_eq
      have hworks := h.works (by rw [phase_eq]; rfl)
      exact ⟨h.room, h.linked, fun _ => hworks, fun hw => (by cases hw), fun hc => by cases hc⟩
  | ends vm_eq returned waited =>
      -- the end of a resume would be pending, but only calls are
      obtain ⟨n, hn⟩ := h.sites _ (waited ▸ List.mem_cons_self ..)
      cases hn

end Stacked

end Run

end Resumable
