/-
  Resumable.Proofs.Replay
  ───────────────────────
  **A RESUME REBUILDS THE FRAMES THAT WERE CAPTURED.**

  A resume enters one blank frame and puts the outermost record into it.  From
  there on it is the program that rebuilds the chain: the restored frame
  executes its call again, which enters the next frame, which takes the next
  record.  Each frame costs four steps:

      enter [id]   the record goes into the frame
      enter []     the hooks are done
      loop         the call instruction is executed again
      call         the next frame is entered

  until the innermost frame calls the capture that the continuation came from.

  Main results:
    • `passage_of_linked`     — the frames are rebuilt one by one,
    • `continuation_replays`  — every captured chain is rebuilt as it was.
-/
import Resumable.Proofs.History

namespace Resumable

open VmAction

/-! ## §1. What a run executes. -/

namespace Run

/-- The instruction a run is about to execute. -/
def fetched? (r : Run) : Option Instruction :=
  match r.phase, r.vm.frames with
  | .loop, f :: _ => (decodeAt f.code.bytes f.next).toOption
  | _, _ => none

/-- The instructions executed in a number of steps. -/
def executed : Nat → Run → List Instruction
  | 0, _ => []
  | n + 1, r =>
      match r.step with
      | none => []
      | some s => r.fetched?.toList ++ executed n s

theorem executed_succ {r s : Run} (h : r.step = some s) (n : Nat) :
    executed (n + 1) r = r.fetched?.toList ++ executed n s := by
  rw [executed, h]

theorem executed_of_step_eq_none {r : Run} (h : r.step = none) (n : Nat) : executed n r = [] := by
  cases n with
  | zero => rfl
  | succ n => rw [executed, h]

/-- What is executed in two parts is what is executed at once. -/
theorem executed_add (m n : Nat) (r : Run) :
    executed (m + n) r = executed m r ++ executed n (steps m r) := by
  induction m generalizing r with
  | zero =>
      rw [Nat.zero_add]
      rfl
  | succ m ih =>
      cases h : r.step with
      | none =>
          rw [executed_of_step_eq_none h, executed_of_step_eq_none h, steps_of_step_eq_none h,
            executed_of_step_eq_none h]
          rfl
      | some s =>
          rw [Nat.succ_add, executed_succ h, executed_succ h, steps_succ_of_step h, ih,
            List.append_assoc]

/-! ## §2. Parts of a rebuilding run. -/

/-- From one state of a run to a later one, executing some instructions and
calling no capture; the callers are always the last of the given frames. -/
structure Passage (whole : List Frame) (r : Run) (n : Nat) (s : Run) (sites : List Instruction) :
    Prop where
  reaches : steps n r = s
  executed_eq : executed n r = sites
  callers : ∀ t ≤ n, (steps t r).vm.frames.tail <:+ whole
  first : ∀ t < n, (steps t r).phase.isCapture = false

namespace Passage

variable {whole : List Frame} {r s u : Run} {m n : Nat} {sites sites' : List Instruction}

theorem mono {more : List Frame} (h : Passage whole r n s sites) (hw : whole <:+ more) :
    Passage more r n s sites :=
  ⟨h.reaches, h.executed_eq, fun t ht => (h.callers t ht).trans hw, h.first⟩

/-- One step. -/
theorem of_step (h : r.step = some s) (hr : r.vm.frames.tail <:+ whole)
    (hs : s.vm.frames.tail <:+ whole) (hc : r.phase.isCapture = false) :
    Passage whole r 1 s r.fetched?.toList where
  reaches := steps_succ_of_step h 0
  executed_eq := by
    rw [executed_succ h]
    exact List.append_nil _
  callers := by
    intro t ht
    match t, ht with
    | 0, _ => exact hr
    | 1, _ =>
        rw [steps_succ_of_step h]
        exact hs
  first := by
    intro t ht
    obtain rfl : t = 0 := by omega
    exact hc

/-- One part after another. -/
theorem trans (h₁ : Passage whole r m s sites) (h₂ : Passage whole s n u sites') :
    Passage whole r (m + n) u (sites ++ sites') where
  reaches := by rw [steps_add, h₁.reaches, h₂.reaches]
  executed_eq := by rw [executed_add, h₁.reaches, h₁.executed_eq, h₂.executed_eq]
  callers := by
    intro t ht
    by_cases hm : t ≤ m
    · exact h₁.callers t hm
    · obtain ⟨d, rfl⟩ : ∃ d, t = m + d := ⟨t - m, by omega⟩
      rw [steps_add, h₁.reaches]
      exact h₂.callers d (by omega)
  first := by
    intro t ht
    by_cases hm : t < m
    · exact h₁.first t hm
    · obtain ⟨d, rfl⟩ : ∃ d, t = m + d := ⟨t - m, by omega⟩
      rw [steps_add, h₁.reaches]
      exact h₂.first d (by omega)

end Passage

end Run

/-! ## §3. A record goes into its frame. -/

/-- A machine in the middle of a resume. -/
def Vm.midway (vm : Vm) (frames : List Frame) (id : HookNumber) (records : List Record) : Vm :=
  { vm with frames := frames, hooks := ⟨Run.rebuildEntries id records, vm.hooks.nextId⟩ }

namespace Frame

/-- A frame with another caller. -/
def withParent (f : Frame) (parent : Option Nat) : Frame :=
  { f with parent := parent }

/-- A frame of a chain, as it stands in that chain on top of `depth` other frames. -/
def shifted (depth : Nat) (f : Frame) : Frame :=
  f.withParent <| match f.parent with
    | none => if depth = 0 then none else some (depth - 1)
    | some index => some (index + depth)

theorem callerIndex_map_append (fs : List Frame) (g : Frame → Frame) (base : List Frame) :
    callerIndex (fs.map g ++ base) =
      match callerIndex fs with
      | none => if base.length = 0 then none else some (base.length - 1)
      | some index => some (index + base.length) := by
  cases fs with
  | nil => cases base <;> rfl
  | cons f rest => simp [callerIndex]

/-- In its new place a frame has its new caller. -/
theorem Placed.shifted_eq {f : Frame} {rest : List Frame} (h : f.Placed rest) (g : Frame → Frame)
    (base : List Frame) :
    f.shifted base.length = f.withParent (callerIndex (rest.map g ++ base)) := by
  unfold shifted
  rw [h.parent_eq, callerIndex_map_append]

/-- A frame that takes the record of a suspended frame and fetches its call
again is that frame, but for its caller. -/
theorem fetched_withRecord {f g : Frame} {s : Store} {i : Instruction} {req : CallRequest}
    (hf : f.SuspendedIn s i req) (hfun : g.function = f.function)
    (hargs : g.argCount = f.argCount) :
    (g.withRecord f.asRecord).fetched i = f.withParent g.parent := by
  unfold withRecord asRecord fetched withParent
  rw [hfun, hargs, ← hf.next_eq]

end Frame

namespace Run

/-- The record of a suspended frame goes into a frame of the same function,
which then makes the call of that frame again. -/
theorem passage_of_record {vm : Vm} {f g : Frame} {below : List Frame} {id : HookNumber}
    {records : List Record} {pending : List Pending} {i : Instruction} {req : CallRequest}
    (hf : f.SuspendedIn vm.store i req) (hfun : g.function = f.function)
    (hargs : g.argCount = f.argCount) :
    Passage below ⟨vm.midway (g :: below) id (f.asRecord :: records), pending, .enter [id]⟩ 3
      ⟨vm.midway (f.withParent g.parent :: below) id records, .site req.slots :: pending,
        .call req.callee req.args⟩ [i] := by
  have hcode : g.code = f.code := by
    unfold Frame.code
    rw [hfun]
  have hput : g.putRecord f.asRecord = .ok (g.withRecord f.asRecord) := by
    have hbody : g.code.sameBody f.asRecord.function.code = true := by
      rw [hcode]
      exact Code.sameBody_iff.mpr rfl
    have hdec : decodeAt g.code.bytes f.asRecord.position = .ok i := by
      rw [hcode]
      exact hf.decodes
    unfold Frame.putRecord
    rw [if_pos hbody, hdec]
  -- three steps: the record goes into the frame, the hooks are done, the call is made again
  have h₁ : step ⟨vm.midway (g :: below) id (f.asRecord :: records), pending, .enter [id]⟩ =
      some ⟨vm.midway (g.withRecord f.asRecord :: below) id records, pending, .enter []⟩ := by
    have hframes : (vm.midway (g :: below) id (f.asRecord :: records)).frames = g :: below := rfl
    show some (runHooks _ _ _) = _
    rw [runHooks_turn pending hframes rfl, hput]
    rfl
  have h₂ : step ⟨vm.midway (g.withRecord f.asRecord :: below) id records, pending, .enter []⟩ =
      some ⟨vm.midway (g.withRecord f.asRecord :: below) id records, pending, .loop⟩ := rfl
  have hdec : decodeAt (g.withRecord f.asRecord).code.bytes (g.withRecord f.asRecord).next
      = .ok i := by
    show decodeAt g.code.bytes f.current = .ok i
    rw [hcode]
    exact hf.decodes
  have h₃ : step ⟨vm.midway (g.withRecord f.asRecord :: below) id records, pending, .loop⟩ =
      some ⟨vm.midway (f.withParent g.parent :: below) id records, .site req.slots :: pending,
        .call req.callee req.args⟩ := by
    -- the entries are those of the record, and they are read in the store of now
    obtain ⟨slots, hslots, hreads⟩ := hf.reads
    have htop : (g.withRecord f.asRecord).topSlots i.callSize = .ok slots :=
      Frame.topSlots_ok_congr (f := f) (g := g.withRecord f.asRecord) hfun rfl hslots
    have hframes : (vm.midway (g.withRecord f.asRecord :: below) id records).frames
        = g.withRecord f.asRecord :: below := rfl
    have hcall := stepFrame_of_call pending hframes hdec hf.isCall htop hreads
    rw [Frame.fetched_withRecord hf hfun hargs] at hcall
    exact congrArg some hcall
  have hsuffix : below <:+ below := List.suffix_refl below
  have hfetch : fetched? ⟨vm.midway (g.withRecord f.asRecord :: below) id records, pending, .loop⟩
      = some i := by
    show (decodeAt _ _).toOption = some i
    rw [hdec]
    rfl
  have hpart₃ := Passage.of_step h₃ hsuffix hsuffix rfl
  rw [hfetch] at hpart₃
  exact ((Passage.of_step h₁ hsuffix hsuffix rfl).trans
    (Passage.of_step h₂ hsuffix hsuffix rfl)).trans hpart₃

end Run

/-! ## §4. A chain of frames is rebuilt. -/

/-- Each frame above another was entered by the call of its function that the
other is suspended in, and the call is still the same with the lists and dicts of a
store. -/
def Frame.Linked (s : Store) : List Frame → Prop
  | [] => True
  | [f] => f.Placed []
  | g :: f :: rest =>
      g.Placed (f :: rest)
        ∧ (∃ i args n locals, f.SuspendedIn s i ⟨.function g.function, args, n⟩
          ∧ g.code.bind args = .ok locals)
        ∧ Linked s (f :: rest)

namespace Run

/-- The next frame is entered, and the record that is its turn goes into it. -/
theorem passage_of_enter {vm : Vm} {f : Frame} (below : List Frame) (id : HookNumber)
    (records : List Record) (pending : List Pending) {args args' : Arguments} {n : Nat}
    {locals : Slots} {i : Instruction} {callee : Value}
    (hf : f.SuspendedIn vm.store i ⟨callee, args', n⟩) (hargs : f.argCount = f.code.argCount)
    (hbind : f.code.bind args = .ok locals) (hroom : below.length < vm.config.frameLimit) :
    Passage below
      ⟨vm.midway below id (f.asRecord :: records), pending, .call (.function f.function) args⟩ 4
      ⟨vm.midway (f.withParent (Frame.callerIndex below) :: below) id records,
        .site n :: pending, .call callee args'⟩ [i] := by
  have hstep : step ⟨vm.midway below id (f.asRecord :: records), pending,
      .call (.function f.function) args⟩ =
        some ⟨vm.midway (.ofLocals f.function (Frame.callerIndex below) locals.toList :: below) id
          (f.asRecord :: records), pending, .enter [id]⟩ := by
    have hbind' : f.function.code.bind args = .ok locals := hbind
    simp only [step, beginCall, hbind', Except.mapError, lift, pure, EStateM.pure, enterFrame,
      Vm.topIndex?_eq]
    rw [if_neg (by simpa [Vm.midway, Vm.depth] using hroom)]
    rfl
  have htail : below.tail <:+ below := List.tail_suffix below
  exact (Passage.of_step hstep htail (List.suffix_refl below) rfl).trans
    (passage_of_record hf rfl hargs.symm)

/-- **The frames of a chain are rebuilt one by one**, the outermost first, until
the innermost makes its call again. -/
theorem passage_of_linked {vm : Vm} (base : List Frame) (id : HookNumber)
    (pending : List Pending) :
    ∀ {f : Frame} {rest : List Frame} (records : List Record) {i : Instruction}
      {req : CallRequest} {outermost : Function},
      Frame.Linked vm.store (f :: rest) → f.SuspendedIn vm.store i req →
      (f :: rest).getLast?.map Frame.function = some outermost →
      base.length + rest.length < vm.config.frameLimit →
      ∃ sites,
        sites.map some = (f :: rest).reverse.map Frame.site? ∧
        Passage (rest.map (Frame.shifted base.length) ++ base)
          ⟨vm.midway (.blank outermost (Frame.callerIndex base) :: base) id
            ((f :: rest).reverse.map Frame.asRecord ++ records), pending, .enter [id]⟩
          (4 * rest.length + 3)
          ⟨vm.midway ((f :: rest).map (Frame.shifted base.length) ++ base) id records,
            (f :: rest).map Frame.waiting ++ pending, .call req.callee req.args⟩ sites
  | f, [], records, i, req, outermost, hlinked, hf, hout, hroom => by
      -- the outermost frame was entered blank
      obtain rfl : f.function = outermost := Option.some.inj hout
      have hplaced : f.Placed [] := hlinked
      refine ⟨[i], by simp [hf.site?_eq], ?_⟩
      have hshift : f.shifted base.length = f.withParent (Frame.callerIndex base) :=
        hplaced.shifted_eq (fun g => g) base
      show Passage base _ 3 ⟨vm.midway (f.shifted base.length :: base) id records,
        f.waiting :: pending, _⟩ [i]
      rw [hshift, hf.waiting_eq]
      exact passage_of_record (g := .blank f.function (Frame.callerIndex base)) hf rfl
        hplaced.argCount_eq.symm
  | f, g :: rest, records, i, req, outermost, hlinked, hf, hout, hroom => by
      obtain ⟨hplaced, ⟨j, args, n, locals, hg, hbind⟩, hrest⟩ := hlinked
      rw [List.length_cons] at hroom
      -- the frames below have made their calls again, the last of which enters this frame
      obtain ⟨sites, hsites, hpart⟩ :=
        passage_of_linked base id pending (f.asRecord :: records) hrest hg hout (by omega)
      refine ⟨sites ++ [i], ?_, ?_⟩
      · rw [List.map_append, hsites, @List.reverse_cons _ f (g :: rest), List.map_append]
        simp [hf.site?_eq]
      · have hshift := hplaced.shifted_eq (Frame.shifted base.length) base
        have hbelow : ((g :: rest).map (Frame.shifted base.length) ++ base).length
            < vm.config.frameLimit := by
          rw [List.length_append, List.length_map, List.length_cons]
          omega
        have hlast := passage_of_enter _ id records ((g :: rest).map Frame.waiting ++ pending) hf
          hplaced.argCount_eq hbind hbelow
        rw [← hshift, ← hf.waiting_eq] at hlast
        have hboth := (hpart.mono (List.suffix_cons _ _)).trans hlast
        rw [show 4 * rest.length + 3 + 4 = 4 * (g :: rest).length + 3 by
          rw [List.length_cons]; omega] at hboth
        rw [@List.reverse_cons _ f (g :: rest), List.map_append, List.append_assoc]
        exact hboth

/-! ## §5. Captured chains. -/

/-- Every call in flight below the innermost frame is a call of the function of
the frame above it. -/
def CallsNext : List Frame → Prop
  | [] => True
  | [_] => True
  | g :: f :: rest => f.callee? = some (.function g.function) ∧ CallsNext (f :: rest)

/-- The lists and dicts that calls in flight take their arguments from hold what
they held when the calls were executed. -/
def ArgumentsKept (history : List Run) (s : Store) : List Frame → Prop
  | [] => True
  | f :: rest =>
      f.collected.map s.contents = f.collected.map (storeAt history (rest.length + 1)).contents
        ∧ ArgumentsKept history s rest

/-- A chain of suspended frames whose arguments are kept can be entered again. -/
theorem linked_of_suspended {history : List Run} {s : Store} :
    ∀ {frames : List Frame}, Frame.Suspended history frames → CallsNext frames →
      ArgumentsKept history s frames → Frame.Linked s frames
  | [], _, _, _ => trivial
  | [_], h, _, _ => h
  | g :: f :: rest, h, hcalls, hkept => by
      obtain ⟨hplaced, ⟨i, req, hf, hent⟩, hrest⟩ := h
      refine ⟨hplaced, ?_, linked_of_suspended hrest hcalls.2 hkept.2⟩
      have hcallee := hf.callee?_eq
      rw [hcalls.1] at hcallee
      have hcallee := Option.some.inj hcallee
      obtain ⟨-, locals, hbind⟩ | ⟨b, _, _, hb, -⟩ := hent
      · refine ⟨i, req.args, req.slots, locals, ?_, hbind⟩
        rw [hcallee]
        exact hf.congr (List.map_inj_left.mp hkept.2.1)
      · rw [hb] at hcallee
        exact nomatch hcallee

/-- A run that rebuilds frames on top of others: in `m` steps it executes only
the calls of the frames, in order and none of them a capture, each frame is as
it was before its callee is entered, and then a capture is called that meets
the resume. -/
structure Replays (r : Run) (base frames : List Frame) (m : Nat) : Prop where
  executed_eq : (executed m r).map some = frames.reverse.map Frame.site?
  frames_eq : (steps m r).vm.frames = frames.map (Frame.shifted base.length) ++ base
  restored : ∀ t ≤ m, (steps t r).vm.frames.tail <:+ (steps m r).vm.frames
  first : ∀ t < m, (steps t r).phase.isCapture = false
  calls : (steps m r).phase.isCapture = true
  answers : ∃ s place, (steps m r).step = some s
    ∧ s.phase = .returned (.ok (.continuation place)) ∧ s.vm.store.continuation place = {}
    ∧ s.vm.frames = (steps m r).vm.frames ∧ s.vm.armed = none ∧ s.vm.hooks.entries = []

/-- The start of a resume: a blank frame, and a hook with all records. -/
theorem beginResume_of_room {vm : Vm} {k : Continuation} {outermost : Record}
    (pending : List Pending) (hhooks : vm.dropArmed.hooks.entries = [])
    (hout : k.outermost? = some outermost) (hroom : vm.depth < vm.config.frameLimit) :
    beginResume vm pending k =
      ⟨(vm.rebuilding k.records.reverse).midway
          (.blank outermost.function (Frame.callerIndex vm.frames) :: vm.frames)
          vm.dropArmed.hooks.nextId k.records.reverse,
        .resume vm.dropArmed.hooks.nextId :: pending, .enter [vm.dropArmed.hooks.nextId]⟩ := by
  have hrecords : k.records.reverse ≠ [] := by
    intro h
    rw [List.reverse_eq_nil_iff] at h
    rw [Continuation.outermost?, h] at hout
    exact nomatch hout
  rw [beginResume_eq hout]
  unfold enterFrame
  have hlimit : ¬ (vm.rebuilding k.records.reverse).config.frameLimit
      ≤ (vm.rebuilding k.records.reverse).depth := by
    show ¬ vm.dropArmed.config.frameLimit ≤ vm.dropArmed.depth
    rw [Vm.config_dropArmed, Vm.depth_dropArmed]
    omega
  rw [if_neg hlimit, Vm.topIndex?_eq, Vm.frames_rebuilding]
  -- with no other hooks the new one is the whole chain
  have hentries : (vm.rebuilding k.records.reverse).hooks =
      ⟨rebuildEntries vm.dropArmed.hooks.nextId k.records.reverse,
        (vm.rebuilding k.records.reverse).hooks.nextId⟩ := by
    cases hr : k.records.reverse with
    | nil => exact absurd hr hrecords
    | cons record rest =>
        simp only [Vm.rebuilding, EntryHooks.install, hhooks]
        rfl
  have hids : (vm.rebuilding k.records.reverse).hooks.ids = [vm.dropArmed.hooks.nextId] := by
    simp only [Vm.rebuilding, EntryHooks.ids_install_first]
    rw [EntryHooks.ids, hhooks]
    rfl
  rw [hids]
  unfold Vm.midway
  rw [← hentries]

/-- The capture that ends a replay answers the empty continuation, and the hook
and the armed resume are gone. -/
theorem step_of_capture {vm : Vm} {frames : List Frame} {id : HookNumber} {pending : List Pending}
    {b : Builtin} {args : Arguments} {positional : List Value} (hb : b.native = .capture)
    (hpos : args.requirePositional "capture" 0 0 = .ok positional) (harmed : vm.armed = some id) :
    step ⟨vm.midway frames id [], pending, .call (.builtin b) args⟩ =
      some ⟨{ vm with
        store := (vm.store.makeContinuation {}).2, frames := frames,
        hooks := ⟨[], vm.hooks.nextId⟩, armed := none },
        pending, .returned (.ok (.continuation vm.store.continuations.size))⟩ := by
  have harmed' : (vm.midway frames id []).armed = some id := harmed
  have hdrop : (vm.midway frames id []).dropArmed =
      { vm with frames := frames, hooks := ⟨[], vm.hooks.nextId⟩, armed := none } := by
    unfold Vm.dropArmed
    rw [harmed']
    rfl
  simp only [step, beginCall, hb]
  rw [callCapture_armed hpos harmed', hdrop]
  rfl

/-- A passage that ends at the call of a capture. -/
theorem Replays.of_passage {whole base fs : List Frame} {r : Run} {m : Nat} {vm : Vm}
    {id : HookNumber} {pending : List Pending} {b : Builtin} {args : Arguments}
    {sites : List Instruction} {positional : List Value}
    (hpart : Passage whole r m
      ⟨vm.midway (fs.map (Frame.shifted base.length) ++ base) id [], pending,
        .call (.builtin b) args⟩ sites)
    (hwhole : whole <:+ fs.map (Frame.shifted base.length) ++ base)
    (hsites : sites.map some = fs.reverse.map Frame.site?) (hb : b.native = .capture)
    (hpos : args.requirePositional "capture" 0 0 = .ok positional) (harmed : vm.armed = some id) :
    Replays r base fs m where
  executed_eq := by rw [hpart.executed_eq, hsites]
  frames_eq := by
    rw [hpart.reaches]
    rfl
  restored := by
    intro t ht
    rw [hpart.reaches]
    exact (hpart.callers t ht).trans hwhole
  first := hpart.first
  calls := by
    rw [hpart.reaches]
    show (b.native == Native.capture) = true
    rw [hb]
    rfl
  answers := by
    rw [hpart.reaches]
    exact ⟨_, _, step_of_capture hb hpos harmed, rfl, Store.continuation_makeContinuation _ _, rfl,
      rfl, rfl⟩

/-- Wherever there is room, on a machine with a given store and no other hooks,
a resume of the continuation rebuilds some frames. -/
def Rebuilds (k : Continuation) (s : Store) (frames : List Frame) : Prop :=
  ∀ (vm : Vm) (pending : List Pending), vm.store = s → vm.dropArmed.hooks.entries = [] →
    vm.depth + frames.length ≤ vm.config.frameLimit →
    ∃ m, (beginResume vm pending k).Replays vm.frames frames m

/-- A resume starts with the outermost record, whatever the others are. -/
theorem passage_of_records {vm : Vm} {k : Continuation} {f : Frame} {rest : List Frame}
    {records : List Record} {i : Instruction} {req : CallRequest} (pending : List Pending)
    (hk : k.records.reverse = (f :: rest).reverse.map Frame.asRecord ++ records)
    (hlinked : Frame.Linked vm.store (f :: rest)) (hf : f.SuspendedIn vm.store i req)
    (hhooks : vm.dropArmed.hooks.entries = [])
    (hroom : vm.depth + rest.length < vm.config.frameLimit) :
    ∃ sites, sites.map some = (f :: rest).reverse.map Frame.site? ∧
      Passage (rest.map (Frame.shifted vm.depth) ++ vm.frames) (beginResume vm pending k)
        (4 * rest.length + 3)
        ⟨(vm.rebuilding k.records.reverse).midway
            ((f :: rest).map (Frame.shifted vm.depth) ++ vm.frames)
            vm.dropArmed.hooks.nextId records,
          (f :: rest).map Frame.waiting ++ .resume vm.dropArmed.hooks.nextId :: pending,
          .call req.callee req.args⟩ sites := by
  obtain ⟨last, hlast⟩ : ∃ last, (f :: rest).getLast? = some last := by
    cases h : (f :: rest).getLast? with
    | none => exact nomatch List.getLast?_eq_none_iff.mp h
    | some last => exact ⟨last, rfl⟩
  -- the resume enters a frame of the record that is last in the list
  have hmost : k.outermost? = some last.asRecord := by
    have hhead := congrArg List.head? hk
    rw [List.head?_reverse, List.head?_append, List.head?_map, List.head?_reverse, hlast] at hhead
    exact hhead
  have hstore : (vm.rebuilding k.records.reverse).store = vm.store := vm.store_dropArmed
  have hplaces : vm.frames.length + rest.length
      < (vm.rebuilding k.records.reverse).config.frameLimit := by
    show _ < vm.dropArmed.config.frameLimit
    rw [Vm.config_dropArmed]
    exact hroom
  rw [← hstore] at hlinked hf
  obtain ⟨sites, hsites, hpart⟩ :=
    passage_of_linked vm.frames vm.dropArmed.hooks.nextId
      (.resume vm.dropArmed.hooks.nextId :: pending) records hlinked hf
      (by rw [hlast]; rfl) hplaces
  refine ⟨sites, hsites, ?_⟩
  rw [beginResume_of_room pending hhooks hmost (by omega)]
  rw [← hk] at hpart
  exact hpart

/-- A chain whose innermost frame is suspended in a capture is rebuilt. -/
theorem rebuilds_of_linked {k : Continuation} {s : Store} {f : Frame} {rest : List Frame}
    {i : Instruction} {req : CallRequest} {b : Builtin} {positional : List Value}
    (hk : k = ⟨(f :: rest).map Frame.asRecord⟩) (hlinked : Frame.Linked s (f :: rest))
    (hf : f.SuspendedIn s i req) (hcallee : req.callee = .builtin b) (hb : b.native = .capture)
    (hpos : req.args.requirePositional "capture" 0 0 = .ok positional) :
    Rebuilds k s (f :: rest) := by
  intro vm pending hstore hhooks hroom
  subst hstore
  rw [List.length_cons] at hroom
  have hrecords : k.records.reverse = (f :: rest).reverse.map Frame.asRecord ++ [] := by
    rw [hk, List.append_nil, List.map_reverse]
  obtain ⟨sites, hsites, hpart⟩ :=
    passage_of_records pending hrecords hlinked hf hhooks (by omega)
  rw [hcallee] at hpart
  exact ⟨_, .of_passage hpart (List.suffix_cons _ _) hsites hb hpos rfl⟩

/-- **A captured chain is rebuilt as it was.**  On any later machine with room
for the frames and without other hooks, a resume replays them, provided that
the lists and dicts the calls in flight take their arguments from hold what they
held when those calls were executed. -/
theorem continuation_replays {outside : Vm → Vm → Prop} {r s : Run} {past : List Run}
    {k : Continuation} (hout : ∀ vm vm', outside vm vm' → vm'.frames = vm.frames)
    (hhistory : History Begins outside (r :: past)) (hcapture : r.Captures s k)
    (hcalls : CallsNext r.vm.frames) {vm : Vm} (pending : List Pending)
    (hkept : ArgumentsKept (r :: past) vm.store r.vm.frames)
    (hhooks : vm.dropArmed.hooks.entries = [])
    (hroom : vm.depth + r.vm.depth ≤ vm.config.frameLimit) :
    ∃ m, (beginResume vm pending k).Replays vm.frames r.vm.frames m := by
  obtain ⟨f, rest, i, req, b, positional, hframes, hk, hf, hcallee, hb, hpos⟩ :=
    hcapture.records hout hhistory
  have hsus := (sound_of_history hout hhistory).suspended
  rw [hframes] at hsus hcalls hkept hk ⊢
  have hinner := hf.congr (List.map_inj_left.mp hkept.1)
  refine rebuilds_of_linked hk (linked_of_suspended hsus hcalls hkept) hinner hcallee hb hpos
    vm pending rfl hhooks ?_
  rw [← hframes]
  exact hroom

/-! ## §6. A call with collected arguments. -/

/-- A body that calls `g(*xs)`, or `g(*xs, **ys)`. -/
def spreader (named : Bool) : Code where
  name := "f"
  qualname := "f"
  filename := ""
  firstLine := 1
  bytes := encodeAll <|
    if named then
      [(.loadGlobal, 0), (.loadGlobal, 1), (.loadGlobal, 2), (.callFunctionEx, 1), (.returnValue, 0)]
    else [(.loadGlobal, 0), (.loadGlobal, 1), (.callFunctionEx, 0), (.returnValue, 0)]
  constants := #[]
  names := #["g", "xs", "ys"]
  varnames := #[]
  argCount := 0
  lines := []

/-- A body with some parameters that executes some instructions, then captures,
and returns 5. -/
def catcher (params : Array String) (before : List (Opcode × UInt16)) : Code where
  name := "g"
  qualname := "g"
  filename := ""
  firstLine := 1
  bytes := encodeAll (before ++
    [(.loadGlobal, 2), (.callFunction, 0), (.storeGlobal, 3), (.loadConst, 1), (.returnValue, 0)])
  constants := #[.int 2, .int 5]
  names := #["xs", "append", "capture", "k"]
  varnames := params
  argCount := params.size
  lines := []

/-- The instructions of `xs.append(2)`. -/
def appending : List (Opcode × UInt16) :=
  [(.loadGlobal, 0), (.loadMethod, 1), (.loadConst, 0), (.callMethod, 1), (.popTop, 0)]

/-- A machine with a list `xs` of one item, a dict `ys` of one entry and a
function `g`. -/
def spreadVm (g : Code) : Vm where
  globals := [("capture", .builtin ⟨0, .capture⟩), ("g", .function ⟨1, g⟩), ("xs", .list 0),
    ("ys", .dict 0)]
  store := { lists := #[#[.int 1]], dicts := #[[("b", .int 2)]], serial := 3 }

/-- A call of the body that calls `g(*xs)`, or `g(*xs, **ys)`. -/
def spreadRun (named : Bool) (before : List (Opcode × UInt16)) : Run :=
  ofCall (spreadVm (catcher (if named then #["a", "b"] else #["a"]) before))
    (.function ⟨2, spreader named⟩) {}

theorem begins_spreadRun (named : Bool) (before : List (Opcode × UInt16)) :
    Begins (spreadRun named before) :=
  Begins.call (.function ⟨2, spreader named⟩) {} rfl

/-- A list and a dict that nobody changes are the same at the resume: the call
`g(*xs, **ys)` and the frame it enters are replayed. -/
theorem continuation_replays_spread :
    ∃ m, (beginResume (steps 18 (spreadRun true [])).vm []
      ((steps 11 (spreadRun true [])).vm.store.continuation 0)).Replays
        (steps 18 (spreadRun true [])).vm.frames (steps 10 (spreadRun true [])).vm.frames m := by
  have hhistory := history_trail (fun vm vm' => vm'.frames = vm.frames) (begins_spreadRun true []) 10
  have hcapture : (steps 10 (spreadRun true [])).Captures (steps 11 (spreadRun true []))
      ((steps 11 (spreadRun true [])).vm.store.continuation 0) :=
    ⟨⟨⟨0, .capture⟩, {}, by cbv, rfl⟩, by decide +kernel,
      fun h => absurd (congrArg List.length h) (by decide +kernel), by cbv, 0, by cbv, rfl⟩
  have hcalls : CallsNext (steps 10 (spreadRun true [])).vm.frames := by cbv
  have hkept : ArgumentsKept (steps 10 (spreadRun true []) :: (trail 10 (spreadRun true [])).tail)
      (steps 18 (spreadRun true [])).vm.store (steps 10 (spreadRun true [])).vm.frames := by cbv
  have hhooks : (steps 18 (spreadRun true [])).vm.dropArmed.hooks.entries = [] :=
    List.length_eq_zero_iff.mp (by decide +kernel)
  exact continuation_replays (fun _ _ h => h) hhistory hcapture hcalls [] hkept hhooks
    (by decide +kernel)

/-- What holds of a run until it comes to rest holds of it ever after. -/
theorem forall_steps_of_rest {p : Run → Prop} {n : Nat} {r : Run}
    (hrest : (steps n r).step = none) (h : ∀ t ≤ n, p (steps t r)) (m : Nat) : p (steps m r) := by
  by_cases hm : m ≤ n
  · exact h m hm
  · obtain ⟨d, rfl⟩ : ∃ d, m = n + d := ⟨m - n, by omega⟩
    rw [steps_add, steps_of_step_eq_none hrest]
    exact h n (Nat.le_refl n)

/-- A list that `g` itself appends to before it captures is the same list ever
after, but the call `g(*xs)` now passes two arguments: nothing is replayed. -/
theorem not_replays_of_append :
    History Begins (fun vm vm' => vm'.frames = vm.frames)
        (steps 16 (spreadRun false appending) :: (trail 16 (spreadRun false appending)).tail)
      ∧ (steps 16 (spreadRun false appending)).Captures (steps 17 (spreadRun false appending))
        ((steps 17 (spreadRun false appending)).vm.store.continuation 0)
      ∧ CallsNext (steps 16 (spreadRun false appending)).vm.frames
      ∧ (steps 23 (spreadRun false appending)).vm.store.lists
        = (steps 16 (spreadRun false appending)).vm.store.lists
      ∧ (steps 23 (spreadRun false appending)).vm.store.dicts
        = (steps 16 (spreadRun false appending)).vm.store.dicts
      ∧ (steps 23 (spreadRun false appending)).vm.hooks.entries = []
      ∧ (steps 23 (spreadRun false appending)).vm.frames = []
      ∧ ¬ ∃ m, (beginResume (steps 23 (spreadRun false appending)).vm []
          ((steps 17 (spreadRun false appending)).vm.store.continuation 0)).Replays []
            (steps 16 (spreadRun false appending)).vm.frames m := by
  have hcapture : (steps 16 (spreadRun false appending)).Captures (steps 17 (spreadRun false appending))
      ((steps 17 (spreadRun false appending)).vm.store.continuation 0) :=
    ⟨⟨⟨0, .capture⟩, {}, by cbv, rfl⟩, by decide +kernel,
      fun h => absurd (congrArg List.length h) (by decide +kernel), by cbv, 0, by cbv, rfl⟩
  refine ⟨history_trail _ (begins_spreadRun _ _) 16, hcapture, by cbv, by cbv, by cbv,
    List.length_eq_zero_iff.mp (by decide +kernel),
    List.length_eq_zero_iff.mp (by decide +kernel), ?_⟩
  rintro ⟨m, h⟩
  have hnone := forall_steps_of_rest (p := fun r => r.phase.isCapture = false) (n := 12)
    (r := beginResume (steps 23 (spreadRun false appending)).vm []
      ((steps 17 (spreadRun false appending)).vm.store.continuation 0))
    (Option.isNone_iff_eq_none.mp (by decide +kernel)) (by decide +kernel) m
  rw [h.calls] at hnone
  cases hnone

end Run

end Resumable
