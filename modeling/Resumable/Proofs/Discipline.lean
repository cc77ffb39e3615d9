/-
  Resumable.Proofs.Discipline
  ───────────────────────────
  **WHAT ALL FRAMES OF A SESSION OBEY.**

  A discipline says where a frame of some body may stand, in which blocks and with
  how many slots.  It allows a new frame, and with it everything its instructions
  lead to.  Then every frame that a session ever has is allowed, whoever suspends,
  captures and rebuilds it:

      entered ──▸ between instructions ──▸ suspended in a call ──▸ between …
         ▴                                       │
         └──────── record of a continuation ◂────┘

  What the frames wait for is listed next to them (`awaited`): a call instruction
  for its result, a frame just entered for the hooks.  Frames and list agree one
  by one, across all runs that wait for the host.

  A continuation keeps frames that wait, so what a capture takes can be put back.

  Main results:
    • `Discipline.waits_of_putRecord` — a frame that takes a record is allowed,
    • `Discipline.runs_of_led`        — so is one that executes an instruction,
    • `Discipline.Holds.callCapture`  — and what a capture keeps of the frames.
-/
import Resumable.Proofs.HeldActions
import Resumable.Proofs.Sessions

namespace Resumable

open VmAction

/-! ## §1. Disciplines. -/

/-- Where the frames of some bodies may stand. -/
structure Discipline where
  /-- The bodies that the program may hold. -/
  bodies : Bodies
  /-- The bodies it is about. -/
  concerns : Code → Prop
  /-- The offsets, blocks and slot counts of a frame before an instruction. -/
  allows : Code → Nat → List Block → Nat → Prop
  /-- Whether a record of the first body may be put into a frame of the second one. -/
  exchanges : Code → Code → Prop
  starts : ∀ {c}, concerns c → allows c 0 [] c.nlocals
  goes : ∀ {c i blocks size next blocks' size'}, concerns c →
    decodeAt c.bytes i.offset = .ok i → allows c i.offset blocks size →
    i.Goes c.nlocals blocks size next blocks' size' → allows c next blocks' size'
  exchange : ∀ {c d}, concerns c → d.bytes = c.bytes → exchanges d c →
    concerns d ∧ ∀ {offset blocks size}, allows d offset blocks size → allows c offset blocks size

namespace Discipline

variable (D : Discipline)

/-- A frame may stand at an offset as it is. -/
def Allows (f : Frame) (offset : Nat) : Prop :=
  D.concerns f.code → D.allows f.code offset f.blocks f.slots.size

/-- The instruction a frame has come to is one where it was allowed to stand. -/
def Visits (f : Frame) : Prop :=
  f.current = 0 ∨ (∃ i, decodeAt f.code.bytes f.current = .ok i)
    ∧ (D.concerns f.code → ∃ blocks size, D.allows f.code f.current blocks size)

/-- A frame between two instructions. -/
structure Runs (f : Frame) : Prop where
  allowed : D.Allows f f.next
  visits : D.Visits f

/-- A frame that waits, and what for. -/
inductive Waits : Frame → Option Pending → Prop
  /-- It is suspended in a call. -/
  | site {f : Frame} {s : Store} {i : Instruction} {req : CallRequest} :
      f.SuspendedIn s i req → D.Allows f f.current → Waits f (some (.site req.slots))
  /-- It has been entered and the hooks see it. -/
  | hooks {f : Frame} :
      f.next = f.current → D.Allows f f.current → D.Visits f → Waits f none

/-- A record that frames may take. -/
structure Keeps (record : Record) : Prop where
  within : Within D.bodies (record.function, record.slots)
  allowed : D.concerns record.function.code →
    D.allows record.function.code record.position record.blocks record.slots.size

end Discipline

/-- The records a hook has left to put into frames. -/
def Hook.records : Hook → List Record
  | .rebuild records => records
  | .host _ _ => []

/-- The caller of each frame is the next one. -/
def Frame.Stacked : List Frame → Prop
  | [] => True
  | f :: rest => f.parent = callerIndex rest ∧ Stacked rest

/-- What a frame waits for, if a frame does. -/
def Pending.awaited? : Pending → Option (Option Pending)
  | .resume _ => none
  | waiting => some (some waiting)

/-- What the frames of a run wait for, innermost first. -/
def Run.awaited (r : Run) : List (Option Pending) :=
  match r.phase with
  | .enter _ | .atHook _ _ _ => none :: r.pending.filterMap Pending.awaited?
  | _ => r.pending.filterMap Pending.awaited?

namespace Discipline

/-- All that a machine keeps, its frames aside, obeys a discipline. -/
structure Holds (D : Discipline) (vm : Vm) : Prop where
  bodies : vm.Holds D.bodies vm.store.continuations
  continuations : ∀ k ∈ vm.store.continuations, ∀ record ∈ k.records, D.Keeps record
  hooks : ∀ e ∈ vm.hooks.entries, ∀ hook, e.hook = some hook →
    ∀ record ∈ hook.records, D.Keeps record

/-- The frames of a run wait for `awaited`; in a loop the innermost one is at work, and
where the program has broken off it was. -/
def Places (D : Discipline) (frames : List Frame) (awaited : List (Option Pending)) : Phase → Prop
  | .loop => ∃ f rest, frames = f :: rest ∧ D.Runs f ∧ List.Forall₂ D.Waits rest awaited
  | .brokenOff => ∃ f rest, frames = f :: rest ∧ D.Visits f ∧ List.Forall₂ D.Waits rest awaited
  | .enter _ | .atHook _ _ _ => List.Forall₂ D.Waits frames (none :: awaited)
  | _ => List.Forall₂ D.Waits frames awaited

end Discipline

/-- A run obeys a discipline, over frames that wait for `outer`. -/
structure Run.Obeys (D : Discipline) (outer : List (Option Pending)) (r : Run) : Prop where
  places : D.Places r.vm.frames (r.pending.filterMap Pending.awaited? ++ outer) r.phase
  stacked : Frame.Stacked r.vm.frames
  holds : D.Holds r.vm
  phase : Within D.bodies r.phase
  hook : ∀ id hook ids, r.phase = .atHook id hook ids → ∀ record ∈ hook.records, D.Keeps record

/-- A record that is put into a frame in the next step is one that `exchanges` allows. -/
def Run.Puts (exchanges : Code → Code → Prop) (r : Run) : Prop :=
  ∀ {id ids record records hooks f rest}, r.phase = .enter (id :: ids) →
    r.vm.hooks.start? id = some (.rebuild (record :: records), hooks) → r.vm.frames = f :: rest →
    exchanges record.function.code f.code

variable {D : Discipline} {vm vm' : Vm} {f : Frame} {rest : List Frame} {pending : List Pending}
  {outer : List (Option Pending)}

/-! ## §2. Frames. -/

namespace Discipline

/-- A frame that waits may stand where it is. -/
theorem Waits.allows {awaited : Option Pending} (h : D.Waits f awaited) : D.Allows f f.current := by
  cases h with
  | site _ hallows => exact hallows
  | hooks _ hallows _ => exact hallows

theorem Waits.visits {awaited : Option Pending} (h : D.Waits f awaited) : D.Visits f := by
  cases h with
  | site hsus hallows => exact .inr ⟨⟨_, hsus.decodes⟩, fun hc => ⟨_, _, hallows hc⟩⟩
  | hooks _ _ hvisits => exact hvisits

/-- A frame as it is entered. -/
theorem waits_of_new (hnext : f.next = 0) (hcurrent : f.current = 0) (hblocks : f.blocks = [])
    (hsize : f.slots.size = f.nlocals) : D.Waits f none := by
  refine .hooks (hnext.trans hcurrent.symm) ?_ (.inl hcurrent)
  intro hc
  rw [hcurrent, hblocks, hsize]
  exact D.starts hc

theorem waits_blank (fn : Function) (parent : Option Nat) : D.Waits (.blank fn parent) none :=
  waits_of_new rfl rfl rfl Array.size_replicate

theorem size_ofLocals (fn : Function) (parent : Option Nat) (locals : List (Option Value)) :
    (Frame.ofLocals fn parent locals).slots.size = fn.code.nlocals := by
  simp only [Frame.ofLocals, List.size_toArray, List.length_append, List.length_replicate,
    List.length_take]
  omega

theorem waits_ofLocals (fn : Function) (parent : Option Nat) (locals : List (Option Value)) :
    D.Waits (.ofLocals fn parent locals) none :=
  waits_of_new rfl rfl rfl (size_ofLocals ..)

/-- A frame takes a record of a body with the same bytes. -/
theorem waits_of_putRecord {g : Frame} {record : Record} (hkeeps : D.Keeps record)
    (hexchanges : D.exchanges record.function.code f.code) (h : f.putRecord record = .ok g) :
    D.Waits g none := by
  have hbytes := Frame.bytes_eq_of_putRecord h
  obtain ⟨i, hi⟩ : ∃ i, decodeAt f.code.bytes record.position = .ok i := by
    unfold Frame.putRecord at h
    rw [if_pos (Code.sameBody_iff.mpr hbytes)] at h
    cases hi : decodeAt f.code.bytes record.position with
    | error e =>
        rw [hi] at h
        cases h
    | ok i => exact ⟨i, rfl⟩
  obtain rfl := Frame.eq_withRecord_of_putRecord h
  have hallows : D.Allows (f.withRecord record) record.position := by
    intro hc
    obtain ⟨hconcerns, hallow⟩ := D.exchange hc hbytes.symm hexchanges
    exact hallow (hkeeps.allowed hconcerns)
  exact .hooks rfl hallows (.inr ⟨⟨i, hi⟩, fun hc => ⟨_, _, hallows hc⟩⟩)

/-- Where an instruction leads a frame, it may stand. -/
theorem runs_of_led {i : Instruction} {g : Frame} (hat : f.current = i.offset)
    (hdecodes : decodeAt f.code.bytes i.offset = .ok i) (hallows : D.Allows f f.current)
    (h : f.Led i g) : D.Runs g := by
  have hcode : g.code = f.code := by
    unfold Frame.code
    rw [h.function_eq]
  refine ⟨fun hc => ?_, .inr ⟨⟨i, ?_⟩, fun hc => ?_⟩⟩
  · rw [hcode] at hc ⊢
    rw [hat] at hallows
    exact D.goes hc hdecodes (hallows hc) h.goes
  · rw [hcode, h.current_eq, hat]
    exact hdecodes
  · rw [hcode] at hc ⊢
    rw [h.current_eq]
    exact ⟨_, _, hallows hc⟩

theorem allows_of_mem {frames : List Frame} {awaited : List (Option Pending)}
    (h : List.Forall₂ D.Waits frames awaited) : ∀ f ∈ frames, D.Allows f f.current :=
  ((List.forall₂_and_left _ _).mp (h.imp fun _ _ hwaits => ⟨hwaits.allows, hwaits⟩)).1

end Discipline

namespace Frame

theorem Stacked.tail {frames : List Frame} (h : Stacked frames) : Stacked frames.tail := by
  cases frames with
  | nil => exact h
  | cons f rest => exact h.2

/-- Only the callers count. -/
theorem Stacked.of_parent {g : Frame} (h : Stacked (f :: rest)) (hparent : g.parent = f.parent) :
    Stacked (g :: rest) :=
  ⟨hparent.trans h.1, h.2⟩

end Frame

/-! ## §3. Machines. -/

namespace Discipline.Holds

/-- Work that leaves continuations and hooks alone. -/
theorem of_work (h : D.Holds vm) (hbodies : vm'.Holds D.bodies vm.store.continuations)
    (hhooks : vm'.hooks = vm.hooks) : D.Holds vm' := by
  have hcont := hbodies.continuations_eq
  refine ⟨?_, ?_, ?_⟩
  · rw [hcont]
    exact hbodies
  · rw [hcont]
    exact h.continuations
  · rw [hhooks]
    exact h.hooks

/-- Other frames and another armed resume. -/
theorem of_frames (h : D.Holds vm) {frames : List Frame} (hframes : ∀ f ∈ frames, Within D.bodies f)
    {hooks : EntryHooks} {armed : Option HookNumber} (hhooks : ∀ e ∈ hooks.entries, ∀ hook,
      e.hook = some hook → ∀ record ∈ hook.records, D.Keeps record) :
    D.Holds { vm with frames := frames, hooks := hooks, armed := armed } :=
  ⟨⟨h.bodies.store, rfl, hframes, h.bodies.globals, h.bodies.handled⟩, h.continuations, hhooks⟩

theorem of_hooks (h : D.Holds vm) {hooks : EntryHooks} {armed : Option HookNumber}
    (hhooks : ∀ e ∈ hooks.entries, ∀ hook, e.hook = some hook →
      ∀ record ∈ hook.records, D.Keeps record) :
    D.Holds { vm with hooks := hooks, armed := armed } :=
  h.of_frames h.bodies.frames hhooks

theorem leave (h : D.Holds vm) : D.Holds { vm with frames := vm.frames.tail } :=
  h.of_frames (fun f hf => h.bodies.frames f (List.mem_of_mem_tail hf)) h.hooks

/-- Hooks that are removed are not missed. -/
theorem removeHook (h : D.Holds vm) (id : HookNumber) : D.Holds (vm.removeHook id) :=
  h.of_hooks fun e he => h.hooks e (List.mem_of_mem_filter he)

theorem dropArmed (h : D.Holds vm) : D.Holds vm.dropArmed := by
  unfold Vm.dropArmed
  split
  · exact (h.removeHook _).of_hooks (h.removeHook _).hooks
  · exact h

/-- The continuations a machine has can be resumed. -/
theorem continuation (h : D.Holds vm) (place : Address) :
    ∀ record ∈ (vm.store.continuation place).records, D.Keeps record := by
  unfold Store.continuation
  cases hat : vm.store.continuations[place]? with
  | none =>
      intro record hrecord
      cases hrecord
  | some k => exact h.continuations k (Array.mem_of_getElem? hat)

/-- A new continuation of records that can be kept. -/
theorem makeContinuation (h : D.Holds vm) {k : Continuation}
    (hk : ∀ record ∈ k.records, D.Keeps record) :
    D.Holds { vm with store := (vm.store.makeContinuation k).2 } := by
  obtain ⟨⟨hlists, hdicts, hattrs, hcursors⟩, -, hframes, hglobals, hhandled⟩ := h.bodies
  refine ⟨⟨⟨hlists, hdicts, hattrs, hcursors⟩, rfl, hframes, hglobals, hhandled⟩, ?_, h.hooks⟩
  intro k' hmem
  rcases Array.mem_push.mp hmem with hold | rfl
  · exact h.continuations k' hold
  · exact hk

end Discipline.Holds

theorem EntryHooks.mem_withHook {c : EntryHooks} {id : HookNumber} {hook : Option Hook}
    {e : HookEntry} (h : e ∈ (c.withHook id hook).entries) : e ∈ c.entries ∨ e.hook = hook := by
  obtain ⟨e', he', rfl⟩ := List.mem_map.mp h
  split
  · exact .inr rfl
  · exact .inl he'

namespace Discipline.Holds

/-- A hook that has run is put back. -/
theorem finish (h : D.Holds vm) (id : HookNumber) {hook : Hook}
    (hhook : ∀ record ∈ hook.records, D.Keeps record) :
    D.Holds { vm with hooks := vm.hooks.finish id hook } := by
  refine h.of_hooks fun e he hook' hsome => ?_
  rcases EntryHooks.mem_withHook he with hold | hnew
  · exact h.hooks e hold hook' hsome
  · obtain rfl := Option.some.inj (hsome.symm.trans hnew)
    exact hhook

/-- A hook is taken out of its entry to run. -/
theorem start (h : D.Holds vm) {id : HookNumber} {hook : Hook} {hooks : EntryHooks}
    (hs : vm.hooks.start? id = some (hook, hooks)) :
    D.Holds { vm with hooks := hooks } ∧ ∀ record ∈ hook.records, D.Keeps record := by
  unfold EntryHooks.start? at hs
  split at hs
  · next id' hook' hfind =>
      obtain ⟨rfl, rfl⟩ := Prod.mk.inj (Option.some.inj hs)
      refine ⟨h.of_hooks fun e he hook' hsome => ?_, ?_⟩
      · rcases EntryHooks.mem_withHook he with hold | hnew
        · exact h.hooks e hold hook' hsome
        · rw [hnew] at hsome
          cases hsome
      · exact h.hooks _ (List.mem_of_find?_eq_some hfind) _ rfl
  · cases hs

end Discipline.Holds

/-! ## §4. Captures. -/

/-- The records of some frames, innermost first, or the first failure. -/
def Frame.toRecords (frames : List Frame) : Except Fault (List Record) :=
  frames.mapM fun f => f.toRecord.mapError Fault.continuation

theorem Frame.toRecords_cons (f : Frame) (rest : List Frame) :
    toRecords (f :: rest) = (do
      let record ← f.toRecord.mapError Fault.continuation
      let outer ← toRecords rest
      pure (record :: outer)) :=
  List.mapM_cons

/-- The records that are taken are those of the frames as they are. -/
theorem Frame.toRecords_ok {frames : List Frame} {records : List Record}
    (h : toRecords frames = .ok records) : records = frames.map asRecord := by
  induction frames generalizing records with
  | nil => exact (Except.ok.inj h).symm
  | cons f rest ih =>
      rw [toRecords_cons] at h
      obtain ⟨record, hrecord, h⟩ := except_bind_ok.mp h
      obtain ⟨outer, houter, h⟩ := except_bind_ok.mp h
      obtain rfl := Except.ok.inj h
      rw [ih houter, List.map_cons]
      cases ht : f.toRecord with
      | error e =>
          rw [ht] at hrecord
          cases hrecord
      | ok record' =>
          rw [ht] at hrecord
          obtain rfl := Except.ok.inj hrecord
          rw [f.toRecord_ok ht]

/-- Where there are none, a frame cannot be kept. -/
theorem Frame.toRecords_error {frames : List Frame} {e : Fault}
    (h : toRecords frames = .error e) :
    ∃ f ∈ frames, ∃ e', f.toRecord = .error e' ∧ e = .continuation e' := by
  induction frames with
  | nil => cases h
  | cons f rest ih =>
      rw [toRecords_cons] at h
      cases ht : f.toRecord with
      | error e' =>
          rw [ht] at h
          exact ⟨f, List.mem_cons_self .., e', ht, (Except.error.inj h).symm⟩
      | ok record =>
          rw [ht] at h
          cases houter : toRecords rest with
          | error e' =>
              rw [houter] at h
              obtain rfl := Except.error.inj h
              obtain ⟨g, hg, hfails⟩ := ih houter
              exact ⟨g, List.mem_cons_of_mem _ hg, hfails⟩
          | ok outer =>
              rw [houter] at h
              cases h

namespace Vm

/-- A walk along the callers meets all live frames, one after the other. -/
theorem recordsFrom_of_stacked {fs inner : List Frame} {limit : Nat} (hframes : vm.frames = inner ++ fs)
    (hstacked : Frame.Stacked fs) (hlimit : fs.length ≤ limit) :
    vm.recordsFrom limit (Frame.callerIndex fs) = Frame.toRecords fs := by
  induction fs generalizing inner limit with
  | nil =>
      unfold recordsFrom Frame.callerIndex
      rfl
  | cons f rest ih =>
      cases limit with
      | zero => cases hlimit
      | succ limit =>
          have hrest : vm.frames = (inner ++ [f]) ++ rest := by
            rw [hframes, List.append_assoc]
            rfl
          rw [Frame.callerIndex, recordsFrom, frameAt?_append hframes, Frame.toRecords_cons]
          dsimp only
          rw [hstacked.1, ih hrest hstacked.2 (Nat.le_of_succ_le_succ hlimit)]

/-- So the continuation of the live frames is made of their records. -/
theorem liveContinuation_of_stacked (h : Frame.Stacked vm.frames) :
    vm.liveContinuation = (Frame.toRecords vm.frames).map Continuation.mk := by
  have hall : vm.recordsFrom vm.depth (Frame.callerIndex vm.frames) = Frame.toRecords vm.frames :=
    recordsFrom_of_stacked (show vm.frames = [] ++ vm.frames from rfl) h (Nat.le_refl _)
  unfold liveContinuation
  rw [topIndex?_eq, hall]
  cases Frame.toRecords vm.frames <;> rfl

end Vm

/-- A capture with no resume armed. -/
theorem callCapture_live {args : Arguments} {positional : List Value}
    (hpos : args.requirePositional "capture" 0 0 = .ok positional) (harmed : vm.armed = none) :
    callNative .capture args vm =
      match vm.liveContinuation with
      | .ok k => .ok (.value (.continuation vm.store.continuations.size))
          { vm with store := (vm.store.makeContinuation k).2 }
      | .error e => .error e vm := by
  simp only [callNative, capture, hpos, lift, harmed, bind, EStateM.bind, pure, EStateM.pure, get,
    getThe, MonadStateOf.get, EStateM.get]
  cases vm.liveContinuation with
  | error e => rfl
  | ok k =>
      dsimp only [EStateM.pure]
      rw [onStore_apply, ← harmed]
      rfl

/-- What the call of a capture comes to, if all frames can be kept. -/
def Discipline.Captured (D : Discipline) (frames : List Frame) :
    EStateM.Result Fault Vm NativeOutcome → Prop
  | .ok outcome vm' => D.Holds vm' ∧ vm'.frames = frames ∧ ∃ place, outcome = .value (.continuation place)
  | .error e vm' => D.Holds vm' ∧ vm'.frames = frames ∧ Within D.bodies e

theorem Discipline.Holds.callCapture (args : Arguments) (h : D.Holds vm)
    (hstacked : Frame.Stacked vm.frames) (hkeeps : ∀ f ∈ vm.frames, D.Keeps f.asRecord) :
    D.Captured vm.frames (callNative .capture args vm) := by
  cases hpos : args.requirePositional "capture" 0 0 with
  | error c =>
      have hraise : callNative .capture args vm = (raise c : VmAction NativeOutcome) vm := by
        simp only [callNative, hpos, lift, bind, EStateM.bind]
        rfl
      rw [hraise]
      exact ⟨h.of_work (h.bodies.withStore (h.bodies.store.withSerial _) rfl) rfl, rfl,
        within_of_isInert rfl⟩
  | ok positional =>
      cases harmed : vm.armed with
      | some id =>
          rw [callCapture_armed hpos harmed]
          refine ⟨?_, vm.frames_dropArmed, _, rfl⟩
          have hmade := h.dropArmed.makeContinuation (k := {}) fun record hrecord => by cases hrecord
          rw [vm.store_dropArmed] at hmade
          exact hmade
      | none =>
          rw [callCapture_live hpos harmed, vm.liveContinuation_of_stacked hstacked]
          cases hrecords : Frame.toRecords vm.frames with
          | error e =>
              obtain ⟨f, -, e', -, rfl⟩ := Frame.toRecords_error hrecords
              exact ⟨h, rfl, within_of_leaves_nil rfl⟩
          | ok records =>
              obtain rfl := Frame.toRecords_ok hrecords
              refine ⟨h.makeContinuation fun record hrecord => ?_, rfl, _, rfl⟩
              obtain ⟨f, hf, rfl⟩ := List.mem_map.mp hrecord
              exact hkeeps f hf

end Resumable
