/-
  Resumable.Proofs.RecordOrder
  ────────────────────────────
  **WHICH FRAME TAKES WHICH RECORD.**

  The hook of a resume knows nothing of the calls that enter frames: it counts.
  The frames entered while it is installed take the records in order, the
  outermost first, whether a body calls them or the host does while one of its
  functions runs.  A frame that has taken its record executes the call of the
  record before anything else, so when that call enters a frame, it is the frame
  of the next record.  When the call ends without entering one, the next record
  stays for whatever frame is entered next, and a frame of another body fails on
  it.

  Between two steps of a session the hook of a resume is in one of two states:

      live   the only hook of the chain, the records left in it, the resume armed
      gone   out of the chain, its number never given out again

  A live hook owes a record to the frame that the latest step has entered, and to
  no other frame.

  Main results:
    • `Session.Standing.next`    — live or gone, a step of a session,
    • `Session.records_in_order` — the frame entered as number `e` takes record `e`.
-/
import Resumable.Proofs.Sessions

namespace Resumable

open VmAction

/-! ## §1. A hook that is gone stays gone. -/

/-- A hook is out of the chain, and its number is not given out again. -/
structure EntryHooks.Gone (c : EntryHooks) (id : HookNumber) : Prop where
  absent : id ∉ c.ids
  fresh : id < c.nextId

namespace EntryHooks.Gone

variable {c : EntryHooks} {id : HookNumber}

theorem withHook (h : c.Gone id) (other : HookNumber) (hook : Option Hook) :
    (c.withHook other hook).Gone id :=
  ⟨by rw [ids_withHook]; exact h.absent, h.fresh⟩

theorem remove (h : c.Gone id) (other : HookNumber) : (c.remove other).Gone id := by
  refine ⟨fun hmem => ?_, h.fresh⟩
  rw [ids_remove] at hmem
  exact h.absent (List.mem_filter.mp hmem).1

/-- A hook that is put first gets a new id. -/
theorem install (h : c.Gone id) (hook : Hook) : (c.install .first hook).2.Gone id := by
  refine ⟨fun hmem => ?_, Nat.lt_succ_of_lt h.fresh⟩
  rw [ids_install_first] at hmem
  rcases List.mem_cons.mp hmem with rfl | hmem
  · exact Nat.lt_irrefl _ h.fresh
  · exact h.absent hmem

end EntryHooks.Gone

namespace Vm

/-- A removed hook is gone. -/
theorem gone_removeHook {vm : Vm} {id : HookNumber} (h : id < vm.hooks.nextId) :
    (vm.removeHook id).hooks.Gone id := by
  refine ⟨fun hmem => ?_, h⟩
  rw [removeHook, EntryHooks.ids_remove] at hmem
  simpa using (List.mem_filter.mp hmem).2

/-- What ends or begins a resume brings no hook back either. -/
theorem gone_dropArmed {vm : Vm} {id : HookNumber} (h : vm.hooks.Gone id) :
    vm.dropArmed.hooks.Gone id := by
  unfold dropArmed
  split
  · exact h.remove _
  · exact h

theorem gone_endResume {vm : Vm} {id : HookNumber} (h : vm.hooks.Gone id) (other : HookNumber) :
    (Run.endResume vm other).hooks.Gone id := by
  unfold Run.endResume
  dsimp only
  split
  · exact h.remove _
  · exact h.remove _

end Vm

namespace Run

/-- Entering a frame leaves the chain to the hooks that look at it. -/
theorem hooks_enterFrame (vm : Vm) (pending : List Pending) (f : Frame) :
    (enterFrame vm pending f).vm.hooks = vm.hooks := by
  unfold enterFrame
  dsimp only
  split <;> rfl

theorem gone_beginResume {vm : Vm} {id : HookNumber} (h : vm.dropArmed.hooks.Gone id)
    (pending : List Pending) {k : Continuation} {outermost : Record}
    (hk : k.outermost? = some outermost) : (beginResume vm pending k).vm.hooks.Gone id := by
  rw [beginResume_eq hk, hooks_enterFrame]
  exact h.install _

/-- A hook that ran is put back under its own id, and only if it is still listed. -/
theorem gone_hookEnded {vm : Vm} {id : HookNumber} (h : vm.hooks.Gone id) (pending : List Pending)
    (other : HookNumber) (hook : Hook) (ids : List HookNumber)
    (result : Except Fault HookVerdict) :
    (hookEnded vm pending other hook ids result).vm.hooks.Gone id := by
  unfold hookEnded
  split
  · exact h.withHook _ _
  · exact h.remove _
  · exact h.withHook _ _

theorem gone_runHooks {vm : Vm} {id : HookNumber} (h : vm.hooks.Gone id) (pending : List Pending)
    (ids : List HookNumber) : (runHooks vm pending ids).vm.hooks.Gone id := by
  unfold runHooks
  split
  · exact h
  · next other ids =>
      cases hs : vm.hooks.start? other with
      | none => exact h
      | some found =>
          obtain ⟨hook, hooks⟩ := found
          have hhooks : hooks.Gone id := by
            unfold EntryHooks.start? at hs
            split at hs
            · obtain ⟨-, rfl⟩ := Prod.mk.inj (Option.some.inj hs)
              exact h.withHook _ _
            · exact nomatch hs
          cases hook with
          | host name key => exact hhooks
          | rebuild records =>
              dsimp only
              unfold rebuildFrame
              split
              · exact gone_hookEnded hhooks ..
              · exact gone_hookEnded hhooks ..
              · split
                · exact gone_hookEnded hhooks ..
                · exact gone_hookEnded hhooks ..

/-- Whatever a run does next, a hook that is gone stays gone. -/
theorem gone_step {r s : Run} {id : HookNumber} (hgone : r.vm.hooks.Gone id)
    (hs : r.step = some s) : s.vm.hooks.Gone id := by
  cases change_of_step hs with
  | works work quiet => exact work.hooks_eq ▸ hgone
  | leaves left phase_eq => exact left.hooks_eq ▸ hgone
  | asks phase_eq frames_eq decodes isCall slots_eq reads run_eq => exact run_eq ▸ hgone
  | enters phase_eq bound run_eq =>
      rw [run_eq, hooks_enterFrame]
      exact hgone
  | @resumes b args place others phase_eq native_eq positional run_eq =>
      rw [run_eq]
      cases ho : (r.vm.store.continuation place).outermost? with
      | none =>
          unfold beginResume
          rw [ho]
          exact hgone
      | some outermost => exact gone_beginResume (Vm.gone_dropArmed hgone) _ ho
  | meets phase_eq native_eq met returned => exact met.hooks_eq ▸ Vm.gone_dropArmed hgone
  | hooked phase_eq run_eq =>
      rw [run_eq]
      exact gone_runHooks hgone _ _
  | ends vm_eq returned =>
      rw [vm_eq]
      exact Vm.gone_endResume hgone _

end Run

/-! ## §2. The hook of a resume in a run. -/

/-- The hook of a resume is the only one, it has the records from number `e` on, and the
resume is armed. -/
structure Vm.Owes (records : List Record) (id : HookNumber) (e : Nat) (vm : Vm) : Prop where
  hooks_eq : vm.hooks = ⟨[⟨id, some (.rebuild (records.drop e))⟩], id + 1⟩
  armed_eq : vm.armed = some id

/-- A machine that stands deeper than some call has a frame. -/
theorem Vm.frames_ne_nil {vm : Vm} {n : Nat} (h : n < vm.depth) : vm.frames ≠ [] :=
  List.ne_nil_of_length_pos (Nat.zero_lt_of_lt h)

namespace Vm.Owes

variable {records : List Record} {id : HookNumber} {e : Nat} {vm vm' : Vm}

/-- Only the chain and the armed resume count for what is owed. -/
theorem of_eq (h : vm.Owes records id e) (hhooks : vm'.hooks = vm.hooks)
    (harmed : vm'.armed = vm.armed) : vm'.Owes records id e :=
  ⟨hhooks.trans h.hooks_eq, harmed.trans h.armed_eq⟩

/-- The hook that owes was installed before. -/
theorem fresh (h : vm.Owes records id e) : id < vm.hooks.nextId := by
  rw [h.hooks_eq]
  exact Nat.lt_succ_self id

/-- A capture or another resume takes the place of the armed one. -/
theorem gone_dropArmed (h : vm.Owes records id e) : vm.dropArmed.hooks.Gone id := by
  unfold dropArmed
  rw [h.armed_eq]
  exact gone_removeHook h.fresh

end Vm.Owes

/-- No hook has its turn. -/
def Phase.isUnseen : Phase → Bool
  | .enter ids => ids.isEmpty
  | .atHook _ _ _ => false
  | _ => true

theorem Phase.isUnseen_of_isQuiet {phase : Phase} (h : phase.isQuiet = true) :
    phase.isUnseen = true := by
  cases phase <;> first | rfl | exact nomatch h

namespace Run

/-- Another resume that ends leaves the live hook and its arm alone. -/
theorem endResume_of_ne {vm : Vm} {id other next : HookNumber} {hook : Option Hook}
    (hooks_eq : vm.hooks = ⟨[⟨id, hook⟩], next⟩) (armed_eq : vm.armed = some id)
    (hother : other ≠ id) : endResume vm other = vm := by
  have hne : vm.armed ≠ some other := by
    rw [armed_eq]
    exact fun h => hother (Option.some.inj h).symm
  have hhooks : vm.hooks.remove other = vm.hooks := by
    rw [EntryHooks.remove, hooks_eq]
    simp [Ne.symm hother]
  unfold endResume
  rw [if_neg hne, Vm.removeHook, hhooks]

/-- The hook of a resume after a step of a run that found `before` live frames, with `count`
frames entered before that step: live, and if the step has entered a frame, that frame is
going to be seen and is owed record number `count`; or gone. -/
inductive Standing (records : List Record) (id : HookNumber) (before count : Nat) (r : Run) : Prop
  | live (owes : r.vm.Owes records id count) (depth_le : r.vm.depth ≤ before)
      (unseen : r.phase.isUnseen = true)
  | turn (owes : r.vm.Owes records id count) (depth_lt : before < r.vm.depth)
      (phase_eq : r.phase = .enter [id])
  | gone (gone : r.vm.hooks.Gone id)

namespace Standing

variable {records : List Record} {id : HookNumber} {r s : Run} {before count : Nat}

/-- The frame just entered takes the next record; with the last one the hook goes. -/
theorem of_turn (owes : r.vm.Owes records id count) (hframes : r.vm.frames ≠ []) :
    Standing records id r.vm.depth (count + 1) (runHooks r.vm r.pending [id]) := by
  have hooks_eq := owes.hooks_eq
  cases hd : records.drop count with
  | nil =>
      rw [hd] at hooks_eq
      rw [runHooks_turn_nil r.pending hooks_eq]
      exact .gone (Vm.gone_removeHook owes.fresh)
  | cons record left =>
      have hleft : left = records.drop (count + 1) := by
        rw [← List.tail_drop, hd]
        rfl
      rw [hd] at hooks_eq
      cases hf : r.vm.frames with
      | nil => exact absurd hf hframes
      | cons f rest =>
          rw [runHooks_turn r.pending hf hooks_eq]
          cases f.putRecord record with
          | error err =>
              -- the frame is left, and its record is gone with it
              refine .live ⟨by rw [← hleft], owes.armed_eq⟩ ?_ rfl
              show rest.length ≤ r.vm.frames.length
              rw [hf]
              exact Nat.le_succ _
          | ok g =>
              have hdepth : (g :: rest).length ≤ r.vm.frames.length := by
                rw [hf]
                exact Nat.le_refl _
              cases left with
              | nil => exact .gone ⟨List.not_mem_nil, Nat.lt_succ_self id⟩
              | cons next others => exact .live ⟨by rw [← hleft]; rfl, owes.armed_eq⟩ hdepth rfl

/-- A frame is entered, if there is room for it, and the live hook is going to see it. -/
theorem of_enterFrame {vm : Vm} (owes : vm.Owes records id count) (pending : List Pending)
    (f : Frame) : Standing records id vm.depth count (enterFrame vm pending f) := by
  unfold enterFrame
  dsimp only
  split
  · exact .live owes (Nat.le_refl _) rfl
  · refine .turn ⟨owes.hooks_eq, owes.armed_eq⟩ (Nat.lt_succ_self _) ?_
    show Phase.enter vm.hooks.ids = _
    rw [owes.hooks_eq]
    rfl

/-- Another resume takes the place of a live one; that of nothing does nothing. -/
theorem of_other {vm : Vm} (owes : vm.Owes records id count) (pending : List Pending)
    (k : Continuation) : Standing records id vm.depth count (beginResume vm pending k) := by
  cases hout : k.outermost? with
  | some outermost => exact .gone (gone_beginResume owes.gone_dropArmed pending hout)
  | none =>
      unfold beginResume
      rw [hout]
      exact .live owes (Nat.le_refl _) rfl

/-- **A step of a run.** -/
theorem step (h : Standing records id before count r) (hs : r.step = some s) :
    Standing records id r.vm.depth (count + if before < r.vm.depth then 1 else 0) s := by
  cases h with
  | gone hgone => exact .gone (gone_step hgone hs)
  | turn owes depth_lt phase_eq =>
      unfold Run.step at hs
      rw [phase_eq] at hs
      obtain rfl := Option.some.inj hs
      rw [if_pos depth_lt]
      exact of_turn owes (Vm.frames_ne_nil depth_lt)
  | live owes depth_le unseen =>
      -- the latest step entered nothing, so the count stays and no hook has its turn
      rw [if_neg (Nat.not_lt.mpr depth_le), Nat.add_zero]
      cases change_of_step hs with
      | works work quiet =>
          exact .live (owes.of_eq work.hooks_eq work.armed_eq) (Nat.le_of_eq work.frames.length_eq)
            (Phase.isUnseen_of_isQuiet quiet)
      | leaves left phase_eq =>
          refine .live (owes.of_eq left.hooks_eq left.armed_eq) ?_ (by rw [phase_eq]; rfl)
          unfold Vm.depth
          rw [left.frames_eq, List.length_tail]
          omega
      | asks phase_eq frames_eq decodes isCall slots_eq reads run_eq =>
          subst run_eq
          refine .live (owes.of_eq rfl rfl) ?_ rfl
          simp [Vm.depth, frames_eq]
      | enters phase_eq bound run_eq =>
          subst run_eq
          exact of_enterFrame owes _ _
      | resumes phase_eq native_eq positional run_eq =>
          subst run_eq
          exact of_other owes _ _
      | meets phase_eq native_eq met returned => exact .gone (met.hooks_eq ▸ owes.gone_dropArmed)
      | @hooked ids phase_eq run_eq =>
          rw [phase_eq] at unseen
          obtain rfl := List.isEmpty_iff.mp unseen
          subst run_eq
          exact .live owes (Nat.le_refl _) rfl
      | @ends other result vm_eq returned =>
          -- the end of this resume takes its hook; that of another one finds nothing to take
          by_cases hother : other = id
          · subst hother
            refine .gone ?_
            rw [vm_eq]
            unfold endResume
            rw [owes.armed_eq, if_pos rfl]
            exact Vm.gone_removeHook owes.fresh
          · rw [endResume_of_ne owes.hooks_eq owes.armed_eq hother] at vm_eq
            exact .live (vm_eq ▸ owes) (Nat.le_of_eq (congrArg Vm.depth vm_eq))
              (by rw [returned]; rfl)

/-- A resume has installed its hook and entered one frame, if there was room. -/
theorem of_beginResume {vm : Vm} {k : Continuation} (hhooks : vm.dropArmed.hooks.entries = [])
    (hk : k.records ≠ []) (pending : List Pending) :
    Standing k.records.reverse vm.dropArmed.hooks.nextId vm.depth 0 (beginResume vm pending k) := by
  obtain ⟨outermost, ho⟩ : ∃ outermost, k.outermost? = some outermost := by
    cases h : k.outermost? with
    | none => exact absurd (List.getLast?_eq_none_iff.mp h) hk
    | some outermost => exact ⟨outermost, rfl⟩
  have howes : (vm.rebuilding k.records.reverse).Owes k.records.reverse vm.dropArmed.hooks.nextId 0 := by
    refine ⟨?_, rfl⟩
    simp only [Vm.rebuilding, EntryHooks.install, hhooks, List.drop_zero]
  have hdepth : (vm.rebuilding k.records.reverse).depth = vm.depth := by
    unfold Vm.depth
    rw [Vm.frames_rebuilding]
  rw [beginResume_eq ho, ← hdepth]
  exact of_enterFrame howes _ _

/-- The host begins a run. -/
theorem of_begunOn {vm : Vm} (owes : vm.Owes records id count) (h : r.BegunOn vm) :
    Standing records id vm.depth count r := by
  cases h with
  | call callee args => exact .live owes (Nat.le_refl _) rfl
  | global name args =>
      unfold ofGlobal
      split
      · exact .live owes (Nat.le_refl _) rfl
      · exact .live (owes.of_eq rfl rfl) (Nat.le_refl _) rfl
  | code c =>
      have howes : ({ vm with store := (vm.store.makeFunction c).2 } : Vm).Owes records id count :=
        owes.of_eq rfl rfl
      exact of_enterFrame howes [] _
  | frame f => exact of_enterFrame owes [] f
  | continuation k => exact of_other owes [] k
  | instruction i =>
      unfold ofInstruction
      cases he : execute i vm with
      | error e u =>
          have hworks := (keeps_execute i).of_error he
          exact .live (owes.of_eq hworks.hooks_eq hworks.armed_eq)
            (Nat.le_of_eq hworks.frames.length_eq) rfl
      | ok outcome u =>
          have hworks := (keeps_execute i).of_ok he
          have howes := owes.of_eq hworks.hooks_eq hworks.armed_eq
          cases outcome <;> exact .live howes (Nat.le_of_eq hworks.frames.length_eq) rfl

end Standing

/-- Nor does a run that the host begins bring back a hook that is gone. -/
theorem BegunOn.gone {vm : Vm} {r : Run} {id : HookNumber} (h : r.BegunOn vm)
    (hgone : vm.hooks.Gone id) : r.vm.hooks.Gone id := by
  cases h with
  | call callee args => exact hgone
  | global name args =>
      unfold ofGlobal
      split
      · exact hgone
      · exact hgone
  | code c =>
      unfold ofCode
      dsimp only
      rw [hooks_enterFrame]
      exact hgone
  | frame f =>
      unfold ofFrame
      rw [hooks_enterFrame]
      exact hgone
  | continuation k =>
      cases hout : k.outermost? with
      | some outermost => exact gone_beginResume (Vm.gone_dropArmed hgone) [] hout
      | none =>
          unfold ofContinuation beginResume
          rw [hout]
          exact hgone
  | instruction i =>
      unfold ofInstruction
      cases he : execute i vm with
      | error e u => exact ((keeps_execute i).of_error he).hooks_eq ▸ hgone
      | ok outcome u =>
          have hhooks := ((keeps_execute i).of_ok he).hooks_eq
          cases outcome <;> exact hhooks ▸ hgone

end Run

/-! ## §3. The hook of a resume in a session. -/

/-- A host that begins what runs it likes and leaves it to them to enter and leave frames, and
to install and remove hooks. -/
def Host.reentrant : Host where
  touches vm vm' := vm'.depth = vm.depth ∧ vm'.hooks = vm.hooks ∧ vm'.armed = vm.armed
  begins vm r := r.BegunOn vm
  judges _ := True
  answers _ := True

namespace Session

variable {records : List Record} {id : HookNumber} {base : List Run} {before count : Nat}
  {s t : Session}

/-- Whatever a session does next, a hook that is gone stays gone. -/
theorem gone_next (hgone : s.vm.hooks.Gone id) (hnext : s.Next .reentrant t) :
    t.vm.hooks.Gone id := by
  cases hnext with
  | touch htouches => exact htouches.2.1 ▸ hgone
  | take =>
      rw [stateAfter_capture]
      exact Vm.gone_dropArmed hgone
  | begin hbegun => exact hbegun.gone hgone
  | step hstep => exact Run.gone_step hgone hstep
  | ask hasks => exact hgone
  | hook hphase hjudges =>
      rw [Run.answerHook_eq hphase]
      exact Run.gone_hookEnded hgone ..
  | answer hphase hanswers =>
      rw [Run.answerHost_eq hphase]
      exact hgone
  | done hover => exact hgone

/-- Over the runs of `base`, runs wait for functions of the host, and for no hook. -/
def AskedOver (base waiting : List Run) : Prop :=
  ∃ inner, waiting = inner ++ base ∧ ∀ r ∈ inner, r.phase.isUnseen = true

/-- The latest run that waits is not one of `base`, if these wait on when it is answered. -/
theorem AskedOver.answered {r : Run} {waiting : List Run} (h : AskedOver base (r :: waiting))
    (hbase : base <:+ waiting) : r.phase.isUnseen = true ∧ AskedOver base waiting := by
  obtain ⟨inner, hwaiting, hunseen⟩ := h
  cases inner with
  | nil =>
      obtain rfl : r :: waiting = base := hwaiting
      exact absurd hbase.length_le (Nat.not_succ_le_self _)
  | cons other inner =>
      obtain ⟨rfl, rfl⟩ := List.cons.inj hwaiting
      obtain ⟨hr, hinner⟩ := List.forall_mem_cons.mp hunseen
      exact ⟨hr, inner, rfl, hinner⟩

/-- The hook of a resume after a step of a session, as after one of a run. -/
inductive Standing (records : List Record) (id : HookNumber) (base : List Run)
    (before count : Nat) : Session → Prop
  | host {vm : Vm} {waiting : List Run} : vm.Owes records id count → vm.depth ≤ before →
      AskedOver base waiting → Standing records id base before count ⟨.host vm, waiting⟩
  | run {r : Run} {waiting : List Run} : r.Standing records id before count →
      AskedOver base waiting → Standing records id base before count ⟨.run r, waiting⟩
  | gone {s : Session} : s.vm.hooks.Gone id → Standing records id base before count s

/-- **A step of a session.** -/
theorem Standing.next (h : s.Standing records id base before count) (hnext : s.Next .reentrant t)
    (hbase : base <:+ t.waiting) :
    t.Standing records id base s.vm.depth (count + if before < s.vm.depth then 1 else 0) := by
  have hnone (hle : s.vm.depth ≤ before) :
      count + (if before < s.vm.depth then 1 else 0) = count := by
    rw [if_neg (Nat.not_lt.mpr hle), Nat.add_zero]
  cases h with
  | gone hgone => exact .gone (gone_next hgone hnext)
  | @host vm waiting owes depth_le hasked =>
      rw [hnone depth_le]
      cases hnext with
      | touch htouches =>
          obtain ⟨hdepth, hhooks, harmed⟩ := htouches
          exact .host (owes.of_eq hhooks harmed) (Nat.le_of_eq hdepth) hasked
      | take =>
          refine .gone ?_
          show (stateAfter capture vm).hooks.Gone id
          rw [stateAfter_capture]
          exact owes.gone_dropArmed
      | begin hbegun => exact .run (.of_begunOn owes hbegun) hasked
      | hook hphase hjudges =>
          -- while the hook is live no run waits for another one
          obtain ⟨hunseen, -⟩ := hasked.answered hbase
          rw [hphase] at hunseen
          exact nomatch hunseen
      | answer hphase hanswers =>
          rw [Run.answerHost_eq hphase]
          exact .run (.live owes (Nat.le_refl _) rfl) (hasked.answered hbase).2
  | @run r waiting hstanding hasked =>
      cases hnext with
      | step hstep => exact .run (hstanding.step hstep) hasked
      | ask hasks =>
          cases hstanding with
          | gone hgone => exact .gone hgone
          | turn owes depth_lt phase_eq =>
              rcases hasks with ⟨_, _, _, hphase⟩ | ⟨_, _, hphase⟩ <;>
                exact nomatch phase_eq.symm.trans hphase
          | live owes depth_le unseen =>
              rw [hnone depth_le]
              obtain ⟨inner, rfl, hinner⟩ := hasked
              exact .host owes (Nat.le_refl _)
                ⟨r :: inner, rfl, List.forall_mem_cons.mpr ⟨unseen, hinner⟩⟩
      | done hover =>
          cases hstanding with
          | gone hgone => exact .gone hgone
          | turn owes depth_lt phase_eq =>
              rcases hover.2 with ⟨_, hphase⟩ | ⟨_, hphase⟩ <;>
                exact nomatch phase_eq.symm.trans hphase
          | live owes depth_le unseen =>
              rw [hnone depth_le]
              exact .host owes (Nat.le_refl _) hasked

/-! ## §4. Frames and their records. -/

/-- What a session comes to, the latest state first, as long as the runs wait that wait when it
begins. -/
inductive Course (host : Host) (start : Session) : List Session → Prop
  | start : Course host start [start]
  | next {s t : Session} {past : List Session} : Course host start (s :: past) →
      s.Next host t → start.waiting <:+ t.waiting → Course host start (t :: s :: past)

/-- The number of live frames before a step, after `past` on top of `base` frames. -/
def depthAfter (base : Nat) : List Session → Nat
  | [] => base
  | s :: _ => s.vm.depth

/-- The latest step has entered a frame. -/
def JustEntered (base : Nat) : List Session → Prop
  | [] => False
  | s :: past => depthAfter base past < s.vm.depth

instance (base : Nat) : ∀ states : List Session, Decidable (JustEntered base states)
  | [] => inferInstanceAs (Decidable False)
  | s :: past => inferInstanceAs (Decidable (depthAfter base past < s.vm.depth))

/-- How many of the steps have entered a frame. -/
def entered (base : Nat) : List Session → Nat
  | [] => 0
  | s :: past => entered base past + if depthAfter base past < s.vm.depth then 1 else 0

/-- Live or gone, in every state from the beginning of a resume on. -/
theorem standing_of_course {vm : Vm} {k : Continuation} {pending : List Pending}
    {waiting : List Run} {past : List Session} (hhooks : vm.dropArmed.hooks.entries = [])
    (hk : k.records ≠ [])
    (h : Course .reentrant ⟨.run (Run.beginResume vm pending k), waiting⟩ (s :: past)) :
    s.Standing k.records.reverse vm.dropArmed.hooks.nextId waiting (depthAfter vm.depth past)
      (entered vm.depth past) := by
  generalize heq : s :: past = states at h
  induction h generalizing s past with
  | start =>
      obtain ⟨rfl, rfl⟩ := List.cons.inj heq
      exact .run (.of_beginResume hhooks hk pending) ⟨[], rfl, List.forall_mem_nil _⟩
  | next _ hnext hbase ih =>
      obtain ⟨rfl, rfl⟩ := List.cons.inj heq
      exact (ih rfl).next hnext hbase

end Session

namespace Run

/-- The frame just entered takes a record, and what it executes first, before
any other frame can be entered, is the call of that record; a frame that cannot
take the record fails. -/
def TakesRecord (r : Run) (record : Record) : Prop :=
  ∃ f rest, r.vm.frames = f :: rest ∧
    match f.putRecord record with
    | .ok g =>
        (steps 2 r).phase = .loop ∧ (steps 2 r).vm.frames = g :: rest
          ∧ g.next = record.position ∧ (steps 3 r).vm.depth ≤ r.vm.depth
    | .error e =>
        ∃ s, r.step = some s ∧ s.phase = .returned (.error (.continuation e))
          ∧ s.vm.frames = rest

/-- Executing an instruction enters no frame. -/
theorem depth_of_loop {r s : Run} (hphase : r.phase = .loop) (hs : r.step = some s) :
    s.vm.depth ≤ r.vm.depth := by
  rcases depth_of_step hs with ⟨hle, -⟩ | ⟨-, -, heq, -⟩ | ⟨hcall, -⟩
  · exact hle
  · exact Nat.le_of_eq heq
  · rw [hphase] at hcall
    exact nomatch hcall

/-- The turn of the hook is where a record is taken. -/
theorem takesRecord_of_turn {r : Run} {id next : HookNumber} {record : Record}
    {left : List Record} (hphase : r.phase = .enter [id]) (hframes : r.vm.frames ≠ [])
    (hhooks : r.vm.hooks = ⟨[⟨id, some (.rebuild (record :: left))⟩], next⟩) :
    TakesRecord r record := by
  cases hf : r.vm.frames with
  | nil => exact absurd hf hframes
  | cons f rest =>
      have hstep : r.step = some (runHooks r.vm r.pending [id]) := by rw [step, hphase]
      rw [runHooks_turn r.pending hf hhooks] at hstep
      -- one step gives the record to the frame, one ends the hooks, one executes
      refine ⟨f, rest, hf, ?_⟩
      cases hput : f.putRecord record with
      | error e =>
          rw [hput] at hstep
          exact ⟨_, hstep, rfl, rfl⟩
      | ok g =>
          rw [hput] at hstep
          have hnext : g.next = record.position := by
            rw [Frame.eq_withRecord_of_putRecord hput]
            rfl
          rw [steps_succ_of_step hstep, steps_succ_of_step hstep]
          refine ⟨rfl, rfl, hnext, ?_⟩
          generalize hloop : (⟨{ r.vm with
            frames := g :: rest, hooks := ⟨rebuildEntries id left, next⟩ }, r.pending, .loop⟩ : Run)
              = u
          have hreach : steps 2 ⟨{ r.vm with
              frames := g :: rest, hooks := ⟨rebuildEntries id left, next⟩ }, r.pending,
                .enter []⟩ = steps 1 u := by
            rw [← hloop]
            rfl
          have hdepth : u.vm.depth = r.vm.depth := by
            rw [← hloop]
            simp [Vm.depth, hf]
          have hu : u.phase = .loop := by rw [← hloop]
          have hlast : u.step = some (stepFrame u.vm u.pending) := by rw [step, hu]
          rw [hreach, steps_succ_of_step hlast]
          exact hdepth ▸ depth_of_loop hu hlast

end Run

namespace Session

/-- **The frames entered during a resume take its records in order.**  The hook
of the resume sees the frames just entered and nothing else; the one entered as
number `e`, whoever enters it, takes record `e`, or fails if it has another body. -/
theorem records_in_order {vm : Vm} {k : Continuation} {pending : List Pending}
    {waiting : List Run} {s : Session} {past : List Session}
    (hhooks : vm.dropArmed.hooks.entries = []) (hk : k.records ≠ [])
    (h : Course .reentrant ⟨.run (Run.beginResume vm pending k), waiting⟩ (s :: past))
    (hinstalled : vm.dropArmed.hooks.nextId ∈ s.vm.hooks.ids) :
    (JustEntered vm.depth (s :: past) ↔ ∃ r ids, s.floor = .run r ∧ r.phase = .enter ids
        ∧ vm.dropArmed.hooks.nextId ∈ ids)
      ∧ (JustEntered vm.depth (s :: past) → ∃ r, s.floor = .run r
        ∧ (∀ record, k.records.reverse[entered vm.depth past]? = some record → r.TakesRecord record)
        ∧ (k.records.reverse[entered vm.depth past]? = none → ∃ r', r.step = some r'
          ∧ r'.vm.frames = r.vm.frames ∧ vm.dropArmed.hooks.nextId ∉ r'.vm.hooks.ids)) := by
  have hstanding := standing_of_course hhooks hk h
  cases hstanding with
  | gone hgone => exact absurd hinstalled hgone.absent
  | @host vm' waiting' owes depth_le _ =>
      -- while the host has control nothing was just entered and no hook has its turn
      have hnot : ¬ JustEntered vm.depth (⟨.host vm', waiting'⟩ :: past) := Nat.not_lt.mpr depth_le
      exact ⟨⟨fun hentered => absurd hentered hnot, fun ⟨_, _, hfloor, _⟩ => nomatch hfloor⟩,
        fun hentered => absurd hentered hnot⟩
  | @run r waiting' hrun _ =>
      cases hrun with
      | gone hgone => exact absurd hinstalled hgone.absent
      | live owes depth_le unseen =>
          have hnot : ¬ JustEntered vm.depth (⟨.run r, waiting'⟩ :: past) := Nat.not_lt.mpr depth_le
          refine ⟨⟨fun hentered => absurd hentered hnot, ?_⟩, fun hentered => absurd hentered hnot⟩
          rintro ⟨_, ids, hfloor, hphase, hmem⟩
          obtain rfl := Floor.run.inj hfloor
          rw [hphase] at unseen
          rw [List.isEmpty_iff.mp unseen] at hmem
          exact nomatch hmem
      | turn owes depth_lt phase_eq =>
          have hooks_eq := owes.hooks_eq
          refine ⟨⟨fun _ => ⟨r, _, rfl, phase_eq, List.mem_cons_self ..⟩, fun _ => depth_lt⟩,
            fun _ => ⟨r, rfl, fun record hrecord => ?_, fun hnone => ?_⟩⟩
          · obtain ⟨hlt, hget⟩ := List.getElem?_eq_some_iff.mp hrecord
            rw [List.drop_eq_getElem_cons hlt, hget] at hooks_eq
            exact Run.takesRecord_of_turn phase_eq (Vm.frames_ne_nil depth_lt) hooks_eq
          · rw [List.drop_eq_nil_of_le (List.getElem?_eq_none_iff.mp hnone)] at hooks_eq
            have hstep : r.step = some (Run.runHooks r.vm r.pending [vm.dropArmed.hooks.nextId]) := by
              rw [Run.step, phase_eq]
            rw [Run.runHooks_turn_nil r.pending hooks_eq] at hstep
            exact ⟨_, hstep, rfl, (Vm.gone_removeHook owes.fresh).absent⟩

/-- The states of a run that takes some steps, over runs that wait. -/
theorem course_trail (host : Host) (r : Run) (waiting : List Run) :
    ∀ n, Course host ⟨.run r, waiting⟩
      (⟨.run (Run.steps n r), waiting⟩ :: (Run.trail n r).tail.map fun r => ⟨.run r, waiting⟩)
  | 0 => .start
  | n + 1 => by
      have ih := course_trail host r waiting n
      have hcons := Run.trail_eq n r
      rw [← List.map_cons (f := fun r => (⟨.run r, waiting⟩ : Session)), ← Run.trail_eq, Run.trail]
      cases hs : (Run.steps n r).step with
      | none => exact hcons ▸ ih
      | some s => exact hcons ▸ .next ih (.step hs) (List.suffix_refl _)

end Session

/-! ## §5. A function of the host that calls back. -/

namespace Run

/-- A body that returns `apply(g)`. -/
def applier : Code where
  name := "f"
  qualname := "f"
  filename := ""
  firstLine := 1
  bytes := encodeAll [(.loadGlobal, 0), (.loadGlobal, 1), (.callFunction, 1), (.returnValue, 0)]
  constants := #[]
  names := #["apply", "g"]
  varnames := #[]
  argCount := 0
  lines := []

/-- The function that it applies captures. -/
def applied : Function :=
  ⟨1, catcher #[] []⟩

/-- A run of it, in which `apply` is a function of the host. -/
def applyRun : Run :=
  ofCall
    { globals := [("apply", .builtin ⟨3, .host "apply"⟩), ("capture", .builtin ⟨0, .capture⟩),
        ("g", .function applied)],
      store := { serial := 4 } }
    (.function ⟨2, applier⟩) {}

/-- The host has called `g`, which has captured and returned. -/
def appliedRun : Run :=
  steps 9 (ofCall (steps 6 applyRun).vm (.function applied) {})

/-- The body has returned what `g` has returned. -/
def applyEnd : Run :=
  steps 2 ((steps 6 applyRun).answerHost appliedRun.vm (.ok (.int 5)))

/-- The resume of what `g` has captured … -/
def reapply : Run :=
  beginResume applyEnd.vm [] (applyEnd.vm.store.continuation 0)

/-- … asks the host to apply `g` again … -/
def reasked : Run :=
  steps 4 reapply

/-- … which calls it. -/
def recalled : Run :=
  ofCall reasked.vm (.function applied) {}

end Run

namespace Session

/-- The frame that the host enters while its function runs takes the record of `g`. -/
theorem records_in_order_callback :
    ∃ past, Course .reentrant ⟨.run Run.reapply, []⟩
        (⟨.run (Run.steps 1 Run.recalled), [Run.reasked]⟩ :: past)
      ∧ ((Run.applyEnd.vm.store.continuation 0).records.reverse[entered Run.applyEnd.vm.depth past]?).map
          (·.function.code.name) = some "g"
      ∧ ∀ record,
          (Run.applyEnd.vm.store.continuation 0).records.reverse[entered Run.applyEnd.vm.depth past]?
            = some record → (Run.steps 1 Run.recalled).TakesRecord record := by
  have hhooks : Run.applyEnd.vm.dropArmed.hooks.entries = [] :=
    List.length_eq_zero_iff.mp (by decide +kernel)
  have hk : (Run.applyEnd.vm.store.continuation 0).records ≠ [] :=
    fun h => absurd (congrArg List.length h) (by decide +kernel)
  have hasks : Run.reasked.WaitsForHost := .inr ⟨"apply", _, by cbv⟩
  have hstep : Run.recalled.step = some (Run.steps 1 Run.recalled) := rfl
  have hresumed := course_trail .reentrant Run.reapply [] 4
  have hcourse := ((hresumed.next (.ask hasks) (List.nil_suffix ..)).next
    (.begin (.call (.function Run.applied) {})) (List.nil_suffix ..)).next
    (.step hstep) (List.nil_suffix ..)
  have hinstalled : Run.applyEnd.vm.dropArmed.hooks.nextId
      ∈ (Run.steps 1 Run.recalled).vm.hooks.ids := by decide +kernel
  obtain ⟨-, htakes⟩ := records_in_order hhooks hk hcourse hinstalled
  refine ⟨_, hcourse, by decide +kernel, ?_⟩
  obtain ⟨r, hfloor, hrecord, -⟩ := htakes (by decide +kernel)
  obtain rfl := Floor.run.inj hfloor
  exact hrecord

end Session

namespace Run

/-! ## §6. A call that no longer enters its frame. -/

/-- A body that returns `g(*xs)`, or what `h()` returns if that call raises. -/
def guarded : Code where
  name := "f"
  qualname := "f"
  filename := ""
  firstLine := 1
  bytes := encodeAll
    [(.setupExcept, 13), (.loadGlobal, 0), (.loadGlobal, 1), (.callFunctionEx, 0), (.popBlock, 0),
      (.returnValue, 0), (.popTop, 0), (.popExcept, 0), (.loadGlobal, 2), (.callFunction, 0),
      (.returnValue, 0)]
  constants := #[]
  names := #["g", "xs", "h"]
  varnames := #[]
  argCount := 0
  lines := []

/-- A body that executes some instructions and returns 2. -/
def helper (before : List (Opcode × UInt16)) : Code where
  name := "h"
  qualname := "h"
  filename := ""
  firstLine := 1
  bytes := encodeAll (before ++ [(.loadConst, 0), (.returnValue, 0)])
  constants := #[.int 2]
  names := #["xs", "append"]
  varnames := #[]
  argCount := 0
  lines := []

/-- A run in which `g` captures below the guarded call. -/
def guardRun : Run :=
  ofCall
    { globals := [("capture", .builtin ⟨0, .capture⟩), ("g", .function ⟨1, catcher #["a"] []⟩),
        ("h", .function ⟨2, helper []⟩), ("xs", .list 0)],
      store := { lists := #[#[.int 1]], serial := 5 } }
    (.function ⟨3, guarded⟩) {}

/-- A later run that appends to the list. -/
def appendRun : Run :=
  ofCall (steps 19 guardRun).vm (.function ⟨4, helper appending⟩) {}

/-- The resume after that: the call `g(*xs)` raises. -/
def lateResume : Run :=
  beginResume (steps 11 appendRun).vm [] ((steps 11 appendRun).vm.store.continuation 0)

/-- The function and the sizes of the two bodies, if a call has ended because a
record met another body. -/
def mismatch? (r : Run) : Option (String × Nat × Nat) :=
  match r.phase with
  | .returned (.error (.continuation (.otherBody f expected found))) => some (f, expected, found)
  | _ => none

/-- Whether a call has ended with an exception. -/
def hasRaised (r : Run) : Bool :=
  match r.phase with
  | .returned (.error (.exception _)) => true
  | _ => false

/-- After the call `g(*xs)` has raised before it entered a frame, the frame that
the handler enters for `h` fails because of the record of `g`. -/
theorem record_reaches_handler :
    (steps 10 guardRun).Captures (steps 11 guardRun)
        ((steps 11 appendRun).vm.store.continuation 0)
      ∧ (steps 11 appendRun).vm.hooks.entries = [] ∧ (steps 11 appendRun).vm.frames = []
      ∧ ((steps 11 appendRun).vm.store.continuation 0).records.map (·.function.code.name)
        = ["g", "f"]
      ∧ (steps 4 lateResume).hasRaised = true
      ∧ (∀ t ≤ 9, (steps t lateResume).vm.depth ≤ 1)
      ∧ (steps 10 lateResume).vm.frames.map Frame.qualname = ["h", "f"]
      ∧ (steps 11 lateResume).mismatch? = some ("h", 12, 4) := by
  have hcapture : (steps 10 guardRun).Captures (steps 11 guardRun)
      ((steps 11 appendRun).vm.store.continuation 0) :=
    ⟨⟨⟨0, .capture⟩, {}, by cbv, rfl⟩, by decide +kernel,
      fun h => absurd (congrArg List.length h) (by decide +kernel), by cbv, 0, by cbv, by cbv⟩
  exact ⟨hcapture, List.length_eq_zero_iff.mp (by decide +kernel),
    List.length_eq_zero_iff.mp (by decide +kernel), by decide +kernel, by decide +kernel,
    by decide +kernel, by decide +kernel, by decide +kernel⟩

end Run

end Resumable
