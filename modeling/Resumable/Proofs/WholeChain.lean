/-
  Resumable.Proofs.WholeChain
  ───────────────────────────
  **A CAPTURE SEES THE WHOLE CHAIN.**

  While all bodies are well formed, every frame stays where its body lists an
  instruction: instructions lead from one to the next, jumps to their targets, and
  exceptions to handlers that were jump targets when their try body was opened.
  A continuation keeps such a place too, and may only be put back into the same
  bytes.

      decode        i₀ ── i₁ ── i₂ ── i₃ ── …
      the frame               ▴ current

  So what a suspended frame stands at is the call it executed, and a capture finds
  a call in every live frame, from the innermost to the outermost.

  Main results:
    • `Discipline.track`         — staying on track, as a discipline,
    • `Frame.toRecord_suspended` — what can go wrong with the record of a frame,
    • `Session.whole_chain`      — frames and captures in every state of a session.
-/
import Resumable.Proofs.Boundaries
import Resumable.Proofs.DisciplinedSession

namespace Resumable

open VmAction

/-! ## §1. Staying on track. -/

/-- The handlers of the open try bodies are on track. -/
def HandlersOnTrack (bytes : Bytes) (blocks : List Block) : Prop :=
  ∀ {level handler}, Block.guarded level handler ∈ blocks → OnTrack bytes handler

theorem HandlersOnTrack.tail {bytes : Bytes} {block : Block} {blocks : List Block}
    (h : HandlersOnTrack bytes (block :: blocks)) : HandlersOnTrack bytes blocks :=
  fun hmem => h (List.mem_cons_of_mem _ hmem)

/-- A handler that catches is that of an open try body. -/
theorem onTrack_of_unwinds {bytes : Bytes} {nlocals size next slots : Nat}
    {blocks handlers : List Block} (h : Unwinds nlocals blocks size next handlers slots)
    (hblocks : HandlersOnTrack bytes blocks) : OnTrack bytes next ∧ HandlersOnTrack bytes handlers := by
  induction h with
  | @enter level handler size rest =>
      refine ⟨hblocks (List.mem_cons_self ..), fun hmem => ?_⟩
      rcases List.mem_cons.mp hmem with heq | hmem
      · cases heq
      · exact hblocks.tail hmem
  | leave hkept hrest ih => exact ih hblocks.tail

/-- The bodies of a program that are all well formed. -/
def Bodies.wellFormed : Bodies where
  holds := Code.WellFormed
  nested h hinner := h.nested hinner

/-- The frames of sound bodies stay where their body lists an instruction. -/
def Discipline.track : Discipline where
  bodies := .wellFormed
  concerns := Code.Sound
  allows c offset blocks _ := OnTrack c.bytes offset ∧ HandlersOnTrack c.bytes blocks
  exchanges _ _ := True
  starts h := ⟨h.onTrack_zero, fun hmem => by cases hmem⟩
  goes {c i blocks size next blocks' size'} hsound hdecodes hallows hgoes := by
    obtain ⟨hoffset, hblocks⟩ := hallows
    have hlisted := hoffset.listedAt hdecodes
    have hjump (h : i.opcode.isJump = true) : OnTrack c.bytes i.arg.toNat :=
      hsound.onTrack_target hlisted h
    cases hgoes with
    | plain => exact ⟨hlisted.onTrack_next, hblocks⟩
    | jump hop => exact ⟨hjump (by rw [hop]; rfl), hblocks⟩
    | branch hop hnext =>
        rcases hnext with rfl | rfl
        · exact ⟨hlisted.onTrack_next, hblocks⟩
        · refine ⟨hjump ?_, hblocks⟩
          rcases hop with hop | hop <;> rw [hop] <;> rfl
    | item => exact ⟨hlisted.onTrack_next, hblocks⟩
    | exhausted hop => exact ⟨hjump (by rw [hop]; rfl), hblocks⟩
    | opens hop =>
        refine ⟨hlisted.onTrack_next, fun hmem => ?_⟩
        rcases List.mem_cons.mp hmem with heq | hmem
        · obtain ⟨rfl, rfl⟩ := Block.guarded.inj heq
          exact hjump (by rw [hop]; rfl)
        · exact hblocks hmem
    | closes hop heq =>
        subst heq
        exact ⟨hlisted.onTrack_next, hblocks.tail⟩
    | leaves hop heq =>
        subst heq
        exact ⟨hlisted.onTrack_next, hblocks.tail⟩
    | called => exact ⟨hlisted.onTrack_next, hblocks⟩
    | caught _ hunwinds => exact onTrack_of_unwinds hunwinds hblocks
  exchange hsound hbytes _ := ⟨hsound.congr hbytes, fun h => hbytes ▸ h⟩

/-! ## §2. The record of a suspended frame. -/

/-- A tuple of names has as many items as there are names. -/
theorem Value.length_of_asNames? {items : List Value} {names : List String}
    (h : (Value.tuple items).asNames? = some names) : names.length = items.length := by
  replace h : items.mapM asStr? = some names := h
  induction items generalizing names with
  | nil =>
      obtain rfl := Option.some.inj h
      rfl
  | cons item rest ih =>
      rw [List.mapM_cons] at h
      obtain ⟨name, -, h⟩ := Option.bind_eq_some_iff.mp h
      obtain ⟨others, hothers, h⟩ := Option.bind_eq_some_iff.mp h
      obtain rfl := Option.some.inj h
      rw [List.length_cons, List.length_cons, ih hothers]

namespace Frame

variable {f : Frame} {s : Store} {i : Instruction} {req : CallRequest}

/-- The names a call by keywords has read are as many as its operand tells. -/
theorem nameCount_of_reads {slots : List (Option Value)} (hop : i.opcode = .callFunctionKw)
    (hslots : f.topSlots i.callSize = .ok slots) (hreads : i.ReadsAs s slots req) :
    f.nameCount = i.arg.toNat := by
  unfold Instruction.ReadsAs Instruction.read at hreads
  rw [hop] at hreads
  obtain ⟨hrequest, -⟩ := ofExcept_ok.mp hreads
  unfold keywordRequest at hrequest
  cases hnames : namesOnTop? i.arg.toNat slots with
  | none =>
      rw [hnames] at hrequest
      cases hrequest
  | some names =>
      obtain ⟨hfound, hcount⟩ := Option.filter_eq_some_iff.mp hnames
      obtain ⟨v, htop, hv⟩ := Option.bind_eq_some_iff.mp hfound
      -- the top of the entries is the top of the stack
      obtain ⟨hsize, hdrop⟩ := topSlots_ok.mp hslots
      have hcallSize : 0 < i.callSize := by
        unfold Instruction.callSize
        rw [hop]
        exact Nat.succ_pos _
      have hback : f.slots.back? = slots.getLast? := by
        rw [← hdrop, List.getLast?_drop, if_neg, Array.getLast?_toList]
        rw [Array.length_toList]
        unfold depth at hsize
        omega
      rw [Option.join_eq_some_iff] at htop
      unfold nameCount
      rw [hback, htop]
      cases v with
      | tuple items =>
          rw [beq_iff_eq] at hcount
          exact (Value.length_of_asNames? hv).symm.trans hcount
      | _ => cases hv

/-- The slots of the call a frame is suspended in can be told. -/
theorem slotsOfCall_suspended (hsus : f.SuspendedIn s i req) :
    f.slotsOfCall i = .ok i.callSize := by
  obtain ⟨slots, hslots, hreads⟩ := hsus.reads
  have hcall := hsus.isCall
  unfold slotsOfCall Instruction.callSize
  cases hop : i.opcode with
  | callFunction =>
      dsimp only
      rw [Nat.add_comm]
  | callMethod =>
      dsimp only
      rw [Nat.add_comm]
  | callFunctionKw =>
      dsimp only
      rw [if_pos (nameCount_of_reads hop hslots hreads), Nat.add_comm]
  | callFunctionEx => rfl
  | _ =>
      rw [hop] at hcall
      cases hcall

/-- **What can go wrong with the record of a suspended frame**: it holds fewer slots
than the loops and handlers around its call are taken to need. -/
theorem toRecord_suspended (hsus : f.SuspendedIn s i req)
    (hlisted : ListedAt f.code.bytes f.current i) :
    f.toRecord = .ok f.asRecord ∨ ∃ needed, f.top < needed
      ∧ f.toRecord = .error (.tooFewSlots f.qualname f.current needed f.top) := by
  obtain ⟨code, hcode, -⟩ := id hlisted
  have hsite : f.callSite code = .ok i := by
    unfold callSite
    rw [hlisted.instructionAt_eq hcode]
    dsimp only
    rw [if_pos hsus.isCall]
  have hneeded : ∃ needed, f.neededSlots code = .ok needed := by
    refine ⟨_, except_bind_ok.mpr ⟨i, hsite, except_bind_ok.mpr ⟨_, slotsOfCall_suspended hsus, rfl⟩⟩⟩
  obtain ⟨needed, hneeded⟩ := hneeded
  unfold toRecord
  rw [hcode]
  dsimp only
  rw [hneeded]
  by_cases hfew : f.top < needed
  · refine .inr ⟨needed, hfew, ?_⟩
    simp only [bind, Except.bind, if_pos hfew]
    rfl
  · refine .inl ?_
    simp only [bind, Except.bind, if_neg hfew]
    rfl

end Frame

/-- The records that are taken are those of the frames, one by one. -/
theorem Frame.forall₂_of_toRecords {frames : List Frame} {records : List Record}
    (h : toRecords frames = .ok records) :
    List.Forall₂ (fun f record => f.toRecord = .ok record) frames records := by
  induction frames generalizing records with
  | nil =>
      obtain rfl := Except.ok.inj h
      exact .nil
  | cons f rest ih =>
      rw [toRecords_cons] at h
      obtain ⟨record, hrecord, h⟩ := except_bind_ok.mp h
      obtain ⟨outer, houter, h⟩ := except_bind_ok.mp h
      obtain rfl := Except.ok.inj h
      refine .cons ?_ (ih houter)
      cases ht : f.toRecord with
      | error e =>
          rw [ht] at hrecord
          cases hrecord
      | ok kept =>
          rw [ht] at hrecord
          exact congrArg Except.ok (Except.ok.inj hrecord)

/-! ## §3. The frames of a session. -/

/-- The frame with an index stands over as many others. -/
theorem Vm.frames_eq_of_frameAt? {vm : Vm} {index : Nat} {f : Frame}
    (h : vm.frameAt? index = some f) :
    ∃ inner rest, vm.frames = inner ++ f :: rest ∧ rest.length = index := by
  unfold frameAt? positionOf? depth at h
  split at h
  · next hlt =>
      obtain ⟨hposition, hf⟩ := List.getElem?_eq_some_iff.mp h
      refine ⟨vm.frames.take (vm.frames.length - 1 - index),
        vm.frames.drop (vm.frames.length - 1 - index + 1), ?_, ?_⟩
      · rw [← hf, ← List.drop_eq_getElem_cons hposition, List.take_append_drop]
      · rw [List.length_drop]
        omega
  · cases h

/-- The frame at a place of the list, by its index. -/
theorem Vm.frameAt?_of_getElem? {vm : Vm} {n : Nat} {f : Frame} (h : vm.frames[n]? = some f) :
    vm.frameAt? (vm.depth - 1 - n) = some f := by
  have hn : n < vm.depth := (List.getElem?_eq_some_iff.mp h).1
  have hposition : vm.positionOf? (vm.depth - 1 - n) = some n := by
    unfold positionOf?
    rw [if_pos (by omega)]
    congr 1
    omega
  unfold frameAt?
  rw [hposition]
  exact h

theorem Frame.Stacked.of_append {inner frames : List Frame} (h : Stacked (inner ++ frames)) :
    Stacked frames := by
  induction inner with
  | nil => exact h
  | cons f inner ih => exact ih h.2

/-- The caller of a frame is the one right below it, and the outermost frame has none. -/
theorem Frame.Stacked.parent_eq {vm : Vm} {index : Nat} {f : Frame} (h : Stacked vm.frames)
    (hat : vm.frameAt? index = some f) :
    f.parent = if index = 0 then none else some (index - 1) := by
  obtain ⟨inner, rest, hframes, rfl⟩ := Vm.frames_eq_of_frameAt? hat
  rw [hframes] at h
  have hparent : f.parent = callerIndex rest := h.of_append.1
  rw [hparent]
  cases rest with
  | nil => rfl
  | cons g outer => rfl

/-- A frame suspended at a call that its body lists. -/
def Frame.AtListedCall (f : Frame) : Prop :=
  ∃ i, ListedAt f.code.bytes f.current i ∧ i.opcode.isCall = true ∧ f.next = i.next

/-- A continuation is made of the records of all live frames, the innermost first. -/
def Vm.IsSnapshot (vm : Vm) (k : Continuation) : Prop :=
  k.records.length = vm.depth ∧ ∀ n < vm.depth, ∃ f record,
    vm.frameAt? (vm.depth - 1 - n) = some f ∧ f.toRecord = .ok record ∧ k.records[n]? = some record

/-- How a capture can fail: it was given arguments, or some frame holds fewer slots
than the loops and handlers around its call are taken to need. -/
inductive Vm.CaptureFails (vm : Vm) (args : Arguments) : Fault → Prop
  | arguments (exc : Value) : args ≠ {} → CaptureFails vm args (.exception exc)
  | slots {f : Frame} {needed : Nat} : f ∈ vm.frames → f.top < needed →
      CaptureFails vm args (.continuation (.tooFewSlots f.qualname f.current needed f.top))

/-- What the call of a capture comes to. -/
def Vm.CaptureEnds (vm : Vm) (args : Arguments) (after : Vm) : Except Fault Value → Prop
  | .ok v => ∃ place, v = .continuation place ∧ vm.IsSnapshot (after.store.continuation place)
  | .error e => vm.CaptureFails args e

namespace Discipline

variable {vm : Vm} {f : Frame} {awaited : Option Pending}

/-- A frame that waits stands where its body lists an instruction, unless that is empty. -/
theorem Waits.listed (h : track.Waits f awaited) (hsound : f.code.Sound) :
    f.code.bytes.size = 0 ∨ ∃ i, ListedAt f.code.bytes f.current i := by
  obtain ⟨honTrack, -⟩ := h.allows hsound
  rcases honTrack with hlisted | hend
  · exact .inr hlisted
  · rcases h.visits with hzero | ⟨⟨i, hi⟩, -⟩
    · left
      omega
    · have hlt := lt_size_of_decodeAt hi
      omega

/-- One that is suspended stands at a call. -/
theorem Waits.atListedCall {waiting : Pending} (h : track.Waits f (some waiting))
    (hsound : f.code.Sound) : f.AtListedCall := by
  cases h with
  | @site _ i req hsus hallows =>
      exact ⟨i, (hallows hsound).1.listedAt hsus.decodes, hsus.isCall, hsus.next_eq⟩

/-- What can go wrong with its record. -/
theorem Waits.toRecord {waiting : Pending} (h : track.Waits f (some waiting))
    (hsound : f.code.Sound) :
    f.toRecord = .ok f.asRecord ∨ ∃ needed, f.top < needed
      ∧ f.toRecord = .error (.tooFewSlots f.qualname f.current needed f.top) := by
  cases h with
  | @site _ i req hsus hallows =>
      exact Frame.toRecord_suspended hsus ((hallows hsound).1.listedAt hsus.decodes)

/-- So does a frame that has come to an instruction. -/
theorem Visits.listed (h : track.Visits f) (hsound : f.code.Sound) :
    f.code.bytes.size = 0 ∨ ∃ i, ListedAt f.code.bytes f.current i := by
  rcases h with hzero | ⟨⟨i, hi⟩, hallows⟩
  · rcases hsound.onTrack_zero with hlisted | hend
    · rw [hzero]
      exact .inr hlisted
    · left
      omega
  · obtain ⟨blocks, size, honTrack, -⟩ := hallows hsound
    exact .inr ⟨i, honTrack.listedAt hi⟩

/-- All bodies of live frames are sound. -/
theorem Holds.sound (h : track.Holds vm) {f : Frame} (hf : f ∈ vm.frames) : f.code.Sound := by
  have hwithin : Within Bodies.wellFormed (f.function, f.slots) := h.bodies.frames f hf
  exact (within_function.mp (within_prod.mp hwithin).1).sound

end Discipline

theorem List.Forall₂.exists_of_mem {α β : Type} {R : α → β → Prop} {l : List α} {l' : List β}
    (h : List.Forall₂ R l l') {a : α} (ha : a ∈ l) : ∃ b ∈ l', R a b := by
  induction h with
  | nil => cases ha
  | cons hab hrest ih =>
      rcases List.mem_cons.mp ha with rfl | ha
      · exact ⟨_, List.mem_cons_self .., hab⟩
      · obtain ⟨b, hb, hr⟩ := ih ha
        exact ⟨b, List.mem_cons_of_mem _ hb, hr⟩

/-- **A capture with no resume armed keeps all live frames**, if they are suspended
in sound bodies, or tells the one that holds too few slots. -/
theorem Vm.captureEnds_of_waits {vm : Vm} {awaited : List (Option Pending)}
    (hwaits : List.Forall₂ Discipline.track.Waits vm.frames awaited) (hnone : none ∉ awaited)
    (hstacked : Frame.Stacked vm.frames) (hholds : Discipline.track.Holds vm)
    (harmed : vm.armed = none) (pending : List Pending) {b : Builtin} (hb : b.native = .capture)
    (args : Arguments) :
    ∃ after result, Run.beginCall vm pending (.builtin b) args = ⟨after, pending, .returned result⟩
      ∧ vm.CaptureEnds args after result := by
  unfold Run.beginCall
  dsimp only
  rw [hb]
  cases hpos : args.requirePositional "capture" 0 0 with
  | error c =>
      have hraise : callNative .capture args vm = (raise c : VmAction NativeOutcome) vm := by
        simp only [callNative, hpos, lift, bind, EStateM.bind]
        rfl
      rw [hraise]
      refine ⟨_, _, rfl, .arguments _ ?_⟩
      rintro rfl
      cases hpos
  | ok positional =>
      rw [callCapture_live hpos harmed, vm.liveContinuation_of_stacked hstacked]
      cases hrecords : Frame.toRecords vm.frames with
      | ok records =>
          have hkept := Frame.forall₂_of_toRecords hrecords
          refine ⟨_, _, rfl, _, rfl, ?_⟩
          show vm.IsSnapshot (Store.continuation (vm.store.makeContinuation ⟨records⟩).2 _)
          rw [Store.continuation_makeContinuation]
          refine ⟨hkept.length_eq.symm, fun n hn => ?_⟩
          have hn' : n < records.length := hkept.length_eq ▸ hn
          exact ⟨vm.frames[n], records[n], Vm.frameAt?_of_getElem? (List.getElem?_eq_getElem hn),
            hkept.get hn hn', List.getElem?_eq_getElem hn'⟩
      | error e =>
          refine ⟨_, _, rfl, ?_⟩
          -- a suspended frame of a sound body can be kept, unless slots are missing
          obtain ⟨f, hf, e', hfails, rfl⟩ := Frame.toRecords_error hrecords
          obtain ⟨waiting, hmem, hwait⟩ := List.Forall₂.exists_of_mem hwaits hf
          cases waiting with
          | none => exact absurd hmem hnone
          | some waiting =>
              rcases hwait.toRecord (hholds.sound hf) with hok | ⟨needed, hfew, herror⟩
              · rw [hfails] at hok
                cases hok
              · obtain rfl := Except.error.inj (hfails.symm.trans herror)
                exact .slots hf hfew

/-! ## §4. Every state of a session. -/

/-- What holds in every state of a session of well formed bodies. -/
structure Session.KeepsTrack (s : Session) : Prop where
  /-- Each live frame has come to an instruction its body lists. -/
  listed : ∀ f ∈ s.vm.frames, f.code.bytes.size = 0 ∨ ∃ i, ListedAt f.code.bytes f.current i
  /-- A frame that goes on finds the instruction its body lists where it stands. -/
  fetches : ∀ r, s.floor = .run r → r.phase = .loop → ∃ f rest, r.vm.frames = f :: rest
    ∧ (f.isDone = false → ∃ i, ListedAt f.code.bytes f.next i
      ∧ onFrame FrameAction.fetch r.vm = .ok i { r.vm with frames := f.fetched i :: rest })
  /-- All frames below the innermost one are suspended at a call. -/
  suspended : ∀ f ∈ s.vm.frames.tail, f.AtListedCall
  /-- The caller of a frame is the one right below it. -/
  parents : ∀ {index f}, s.vm.frameAt? index = some f →
    f.parent = if index = 0 then none else some (index - 1)
  /-- A capture ends, and keeps all live frames if it succeeds. -/
  captures : ∀ r b args, s.floor = .run r → r.phase = .call (.builtin b) args →
    b.native = .capture → r.vm.armed = none → ∃ after result,
      r.step = some ⟨after, r.pending, .returned result⟩ ∧ r.vm.CaptureEnds args after result

namespace Session

open Discipline

variable {s : Session}

/-- Where the hooks are all those of resumes, no hook of the host runs. -/
theorem not_atHook_of_orderly {chain : EntryHooks} (hentries : chain.entries = [])
    (h : ArmState.Orderly chain s.arms) (id : HookNumber) (hook : Hook) (ids : List HookNumber) :
    (∀ r, s.floor = .run r → r.phase ≠ .atHook id hook ids)
      ∧ ∀ r ∈ s.waiting, r.phase ≠ .atHook id hook ids := by
  have hrun {r : Run} (hphase : r.phase = .atHook id hook ids) : Opened.hook id hook ∈ r.opened := by
    unfold Run.opened
    rw [hphase]
    exact List.mem_cons_self ..
  have hnever : Opened.hook id hook ∉ s.opened := by
    intro hmem
    have hentry := h.running_mem id hook hmem
    rw [hentries] at hentry
    cases hentry
  refine ⟨fun r hr hphase => hnever ?_, fun r hr hphase => hnever ?_⟩
  · refine List.mem_append_left _ ?_
    rw [hr]
    exact hrun hphase
  · exact List.mem_append_right _ (List.mem_flatMap.mpr ⟨r, hr, hrun hphase⟩)

theorem none_not_mem_pending (pending : List Pending) :
    none ∉ pending.filterMap Pending.awaited? := by
  intro hmem
  obtain ⟨waiting, -, heq⟩ := List.mem_filterMap.mp hmem
  cases waiting <;> cases heq

/-- Without hooks of the host, runs that wait for it have only suspended frames. -/
theorem none_not_mem_waiting (hasked : ∀ r ∈ s.waiting, r.WaitsForHost)
    (hhooks : ∀ r ∈ s.waiting, ∀ id hook ids, r.phase ≠ .atHook id hook ids) :
    none ∉ s.waiting.flatMap Run.awaited := by
  intro hmem
  obtain ⟨r, hr, hmem⟩ := List.mem_flatMap.mp hmem
  rcases hasked r hr with ⟨id, hook, ids, hphase⟩ | ⟨name, args, hphase⟩
  · exact hhooks r hr id hook ids hphase
  · unfold Run.awaited at hmem
    rw [hphase] at hmem
    exact none_not_mem_pending _ hmem

/-- The frames below the innermost one of a session are suspended. -/
theorem Obeys.waits_tail {D : Discipline} (h : s.Obeys D)
    (hnone : none ∉ s.waiting.flatMap Run.awaited) :
    ∃ awaited, none ∉ awaited ∧ List.Forall₂ D.Waits s.vm.frames.tail awaited := by
  have htail {frames : List Frame} {awaited : List (Option Pending)}
      (hwaits : List.Forall₂ D.Waits frames awaited) : List.Forall₂ D.Waits frames.tail awaited.tail := by
    cases hwaits with
    | nil => exact .nil
    | cons _ hrest => exact hrest
  obtain ⟨floor, waiting⟩ := s
  cases floor with
  | host vm => exact ⟨_, fun hmem => hnone (List.mem_of_mem_tail hmem), htail h.floor.1⟩
  | run r =>
      have hplaces := Run.Obeys.places h.floor
      have hnone' : none ∉ r.pending.filterMap Pending.awaited? ++ waiting.flatMap Run.awaited := by
        rw [List.mem_append]
        exact fun hmem => hmem.elim (none_not_mem_pending _) hnone
      show ∃ awaited, _ ∧ List.Forall₂ D.Waits r.vm.frames.tail awaited
      -- the innermost frame is at work, or new, or it waits like all others
      cases hphase : r.phase with
      | loop =>
          rw [hphase] at hplaces
          obtain ⟨f, rest, hframes, -, hrest⟩ := hplaces
          rw [hframes]
          exact ⟨_, hnone', hrest⟩
      | brokenOff =>
          rw [hphase] at hplaces
          obtain ⟨f, rest, hframes, -, hrest⟩ := hplaces
          rw [hframes]
          exact ⟨_, hnone', hrest⟩
      | enter ids =>
          rw [hphase] at hplaces
          exact ⟨_, hnone', htail hplaces⟩
      | atHook id hook ids =>
          rw [hphase] at hplaces
          exact ⟨_, hnone', htail hplaces⟩
      | _ =>
          rw [hphase] at hplaces
          exact ⟨_, fun hmem => hnone' (List.mem_of_mem_tail hmem), htail hplaces⟩

theorem Obeys.stacked {D : Discipline} (h : s.Obeys D) : Frame.Stacked s.vm.frames := by
  obtain ⟨floor, waiting⟩ := s
  cases floor with
  | host vm => exact h.floor.2.1
  | run r => exact Run.Obeys.stacked h.floor

theorem Obeys.holds {D : Discipline} (h : s.Obeys D) : D.Holds s.vm := by
  obtain ⟨floor, waiting⟩ := s
  cases floor with
  | host vm => exact h.floor.2.2
  | run r => exact Run.Obeys.holds h.floor

/-- Every live frame waits or has come to an instruction. -/
theorem Obeys.waits_or_visits {D : Discipline} (h : s.Obeys D) {f : Frame} (hf : f ∈ s.vm.frames) :
    (∃ awaited, D.Waits f awaited) ∨ D.Visits f := by
  have hall {frames : List Frame} {awaited : List (Option Pending)} (hf : f ∈ frames)
      (hwaits : List.Forall₂ D.Waits frames awaited) : ∃ awaited, D.Waits f awaited := by
    obtain ⟨waiting, -, hwait⟩ := List.Forall₂.exists_of_mem hwaits hf
    exact ⟨waiting, hwait⟩
  obtain ⟨floor, waiting⟩ := s
  cases floor with
  | host vm => exact .inl (hall hf h.floor.1)
  | run r =>
      have hplaces := Run.Obeys.places h.floor
      replace hf : f ∈ r.vm.frames := hf
      cases hphase : r.phase with
      | loop =>
          rw [hphase] at hplaces
          obtain ⟨g, rest, hframes, hruns, hrest⟩ := hplaces
          rw [hframes] at hf
          -- only the innermost frame is at an instruction
          rcases List.mem_cons.mp hf with rfl | hf
          · exact .inr hruns.visits
          · exact .inl (hall hf hrest)
      | brokenOff =>
          rw [hphase] at hplaces
          obtain ⟨g, rest, hframes, hvisits, hrest⟩ := hplaces
          rw [hframes] at hf
          rcases List.mem_cons.mp hf with rfl | hf
          · exact .inr hvisits
          · exact .inl (hall hf hrest)
      | _ =>
          rw [hphase] at hplaces
          exact .inl (hall hf hplaces)

/-- The steps of a session whose host obeys are those of one whose host is free. -/
theorem Reaches.free {D : Discipline} {t : Session} (h : Reaches (.obeying D) s t) :
    Reaches .free s t :=
  Relation.ReflTransGen.mono (fun _ _ hnext => hnext.free) _ _ h

/-- A record may be put into any frame with the same bytes. -/
theorem puts_track (s : Session) : s.Puts track.exchanges := by
  intro r _ id ids record records hooks f rest _ _ _
  exact trivial

/-- Without other hooks, every state that obeys keeps track. -/
theorem Obeys.keepsTrack (h : s.Obeys track)
    (hnever : ∀ id hook ids, ∀ r ∈ s.waiting, r.phase ≠ .atHook id hook ids) : s.KeepsTrack := by
  have hnone := none_not_mem_waiting h.asked fun r hr id hook ids => hnever id hook ids r hr
  refine ⟨fun f hf => ?_, fun r hfloor hloop => ?_, fun f hf => ?_, h.stacked.parent_eq, ?_⟩
  · have hsound := h.holds.sound hf
    rcases h.waits_or_visits hf with ⟨awaited, hwaits⟩ | hvisits
    · exact hwaits.listed hsound
    · exact hvisits.listed hsound
  · have hrun := h.floor
    rw [hfloor] at hrun
    have hplaces := Run.Obeys.places hrun
    rw [hloop] at hplaces
    obtain ⟨f, rest, hframes, hruns, -⟩ := hplaces
    refine ⟨f, rest, hframes, fun hdone => ?_⟩
    have hsound : f.code.Sound := hrun.holds.sound (hframes ▸ List.mem_cons_self ..)
    have hlt : f.next < f.code.bytes.size := by
      simpa [Frame.isDone] using hdone
    obtain ⟨i, hi⟩ := (hruns.allowed hsound).1.exists_listedAt hlt
    exact ⟨i, hi, fetch_of_decodeAt hframes hi.decodeAt_eq⟩
  · obtain ⟨awaited, hnone, hwaits⟩ := h.waits_tail hnone
    obtain ⟨waiting, hmem, hwait⟩ := List.Forall₂.exists_of_mem hwaits hf
    cases waiting with
    | none => exact absurd hmem hnone
    | some waiting => exact hwait.atListedCall (h.holds.sound (List.mem_of_mem_tail hf))
  · intro r b args hfloor hcall hb harmed
    have hrun := h.floor
    rw [hfloor] at hrun
    have hplaces := Run.Obeys.places hrun
    rw [hcall] at hplaces
    have hnone' : none ∉ r.pending.filterMap Pending.awaited? ++ s.waiting.flatMap Run.awaited := by
      rw [List.mem_append]
      exact fun hmem => hmem.elim (none_not_mem_pending _) hnone
    obtain ⟨after, result, hstep, hends⟩ :=
      Vm.captureEnds_of_waits hplaces hnone' hrun.stacked hrun.holds harmed r.pending hb args
    refine ⟨after, result, ?_, hends⟩
    unfold Run.step
    rw [hcall]
    exact congrArg some hstep

/-- **A capture sees the whole chain**, in every state of every session of well formed
bodies in which only resumes install hooks. -/
theorem whole_chain {start : Vm} (hframes : start.frames = []) (hentries : start.hooks.entries = [])
    (harmed : start.armed = none) (hholds : track.Holds start)
    (hreach : Reaches (.obeying track) ⟨.host start, []⟩ s) : s.KeepsTrack := by
  have hchain : start.hooks.OnlyHost := by
    refine ⟨?_, ?_, ?_⟩
    · unfold EntryHooks.ids
      rw [hentries]
      exact List.nodup_nil
    · intro id hid
      unfold EntryHooks.ids at hid
      rw [hentries] at hid
      cases hid
    · intro e he
      rw [hentries] at he
      cases he
  have hobeys : s.Obeys track := by
    refine obeys_of_reaches track.admits_obeying hframes hholds ?_
    exact Relation.ReflTransGen.mono (fun s t hnext => ⟨hnext, puts_track s⟩) _ _ hreach
  refine hobeys.keepsTrack fun id hook ids => ?_
  exact (not_atHook_of_orderly hentries (orderly_of_reaches hchain harmed hreach.free) id hook ids).2

/-- A body has caught an exception and captures in the handler. -/
theorem whole_chain_catching :
    KeepsTrack ⟨.run (Run.steps 11 Run.catchingRun), []⟩
      ∧ (Run.steps 11 Run.catchingRun).vm.depth = 1
      ∧ (Run.steps 11 Run.catchingRun).phase.isCall = true := by
  have hbody : Run.catching.WellFormed := by
    refine .intro (by decide +kernel) ?_
    intro inner hinner
    simp [Run.catching] at hinner
  have hholds : track.Holds Run.catchingRun.vm := by
    refine ⟨⟨⟨?_, ?_, ?_, ?_⟩, rfl, ?_, ?_, within_none⟩, ?_, ?_⟩
    · intro items hmem
      simp [Run.catchingRun, Run.ofCall] at hmem
    · intro entries hmem
      simp [Run.catchingRun, Run.ofCall] at hmem
    · intro o hmem
      simp [Run.catchingRun, Run.ofCall] at hmem
    · intro c hmem
      simp [Run.catchingRun, Run.ofCall] at hmem
    · intro f hf
      cases hf
    · exact within_cons.mpr ⟨within_prod.mpr ⟨within_plain _, within_of_isInert rfl⟩,
        within_cons.mpr ⟨within_prod.mpr ⟨within_plain _, within_of_isInert rfl⟩, within_nil⟩⟩
    · intro k hmem
      simp [Run.catchingRun, Run.ofCall] at hmem
    · intro e he
      cases he
  have hbegins : track.Begins Run.catchingRun.vm Run.catchingRun := by
    refine .call (within_functionValue.mpr (within_function.mpr hbody)) ?_
    exact within_arguments.mpr ⟨within_nil, within_nil⟩
  have hreach : Reaches (.obeying track) ⟨.host Run.catchingRun.vm, []⟩
      ⟨.run (Run.steps 11 Run.catchingRun), []⟩ :=
    .trans (.single (.begin hbegins)) (reaches_steps _ 11 Run.catchingRun [])
  exact ⟨whole_chain rfl rfl rfl hholds hreach, by decide +kernel, by decide +kernel⟩

end Session

end Resumable
