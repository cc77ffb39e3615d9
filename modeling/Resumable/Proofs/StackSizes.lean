/-
  Resumable.Proofs.StackSizes
  ───────────────────────────
  **WHAT A SUSPENDED FRAME HAS ON ITS STACK.**

  The frames of a structured body stand at its points, with the slots of the point:
  a new one at the first, and each instruction leads from one to another.  So a
  frame that is suspended in a call inside `l` for-loops and `h` handlers has

      locals + l + 3 · h + m + callee and arguments

  slots, with `m` operands that were pushed before the callee.  A snapshot counts
  the same loops from the jumps back and the same handlers from the blocks, so what
  it asks for is all of that but the `m` operands, and it never asks for too much.

  A record of another body with the same bytes keeps the slots of that body, its
  locals among them; so the two must have as many locals as each other.

  Main results:
    • `Body.discipline`          — standing at the points of a body, as a discipline,
    • `Session.stack_sizes`      — the slots of all frames suspended in a body's calls,
    • `Session.not_stack_sizes_of_twin` — which fail for a record of another body.
-/
import Resumable.Proofs.AssembledBodies
import Resumable.Proofs.EnclosingLoops
import Resumable.Proofs.WholeChain

namespace Resumable

open VmAction

/-- A frame that has the slots a snapshot needs is kept as it is. -/
theorem Frame.toRecord_of_neededSlots {f : Frame} {code : Array Instruction} {needed : Nat}
    (hdecode : decode f.code.bytes = .ok code) (hneeded : f.neededSlots code = .ok needed)
    (hle : needed ≤ f.top) : f.toRecord = .ok f.asRecord := by
  unfold toRecord
  rw [hdecode]
  dsimp only
  rw [hneeded]
  simp only [bind, Except.bind, if_neg (Nat.not_lt.mpr hle)]
  rfl

/-! ## §1. The spots of a body. -/

/-- Bodies of any kind. -/
def Bodies.any : Bodies where
  holds _ := True
  nested _ _ := trivial

namespace Body

/-- A frame with `nlocals` locals stands at a point of the body, or past its end. -/
def Spot (b : Body) (nlocals : Nat) : Spots := fun offset blocks size =>
  (∃ q ∈ b.points (.outside nlocals) 0 0,
    q.instr.offset = offset ∧ q.place.blocks = blocks ∧ q.size = size)
    ∨ offset = b.width ∧ blocks = [] ∧ size = nlocals + b.depthAfter 0

/-- The instructions of some code are those of the body. -/
structure ListedBy (b : Body) (c : Code) : Prop where
  decode_eq : decode c.bytes = .ok (b.listing (.outside c.nlocals) 0 0).toArray
  size_eq : c.bytes.size = b.width
  short : b.width ≤ Assembler.maxSize

theorem Assembles.listedBy {b : Body} {c : Code} (h : b.Assembles c) : b.ListedBy c := by
  obtain ⟨hdecode, hsize, hshort⟩ := h.decode (.outside c.nlocals) 0
  exact ⟨hdecode, hsize, hshort⟩

section Spots

variable {b : Body} {nlocals : Nat} {c : Code}

theorem in_spot (b : Body) (nlocals : Nat) :
    ∀ q ∈ b.points (.outside nlocals) 0 0, q.In (b.Spot nlocals) :=
  fun q hq => .inl ⟨q, hq, rfl, rfl, rfl⟩

theorem spot_end : b.Spot nlocals (0 + b.width) [] ((Place.outside nlocals).base + b.depthAfter 0) :=
  .inr ⟨Nat.zero_add _, rfl, by simp [Place.base, Place.outside]⟩

/-- Outside of all try bodies nothing is caught. -/
theorem catches_outside {K : Spots} : (Place.outside nlocals).Catches K := by
  intro kept next blocks slots _ hunwinds
  cases hunwinds

theorem spot_start (hbalanced : b.Balanced 0) : b.Spot nlocals 0 [] nlocals := by
  have h := entry hbalanced (in_spot b nlocals) spot_end
  simpa [Place.base, Place.outside] using h

/-- The point of the body at an offset has the instruction that is read there. -/
theorem ListedBy.decodeAt_point (h : b.ListedBy c) {q : Point}
    (hq : q ∈ b.points (.outside c.nlocals) 0 0) :
    q.instr ∈ (b.listing (.outside c.nlocals) 0 0).toArray
      ∧ decodeAt c.bytes q.instr.offset = .ok q.instr := by
  have hmem : q.instr ∈ (b.listing (.outside c.nlocals) 0 0).toArray := by
    rw [List.mem_toArray]
    exact List.mem_map_of_mem hq
  exact ⟨hmem, decodeAt_of_mem h.decode_eq hmem⟩

/-- Where an instruction is read there is a point. -/
theorem ListedBy.exists_point (h : b.ListedBy c) {i : Instruction} {blocks : List Block} {size : Nat}
    (hdecodes : decodeAt c.bytes i.offset = .ok i) (hspot : b.Spot c.nlocals i.offset blocks size) :
    ∃ q ∈ b.points (.outside c.nlocals) 0 0, q.instr = i ∧ q.place.blocks = blocks ∧ q.size = size := by
  rcases hspot with ⟨q, hq, hoffset, hblocks, hsize⟩ | ⟨hend, -, -⟩
  · have hat := (h.decodeAt_point hq).2
    rw [hoffset, hdecodes] at hat
    exact ⟨q, hq, (Except.ok.inj hat).symm, hblocks, hsize⟩
  · have hlt := lt_size_of_decodeAt hdecodes
    rw [h.size_eq, hend] at hlt
    exact absurd hlt (Nat.lt_irrefl _)

end Spots

/-- The frames of a body stand at its points; a record may be put into a frame with as many
locals. -/
def discipline (b : Body) (hbalanced : b.Balanced 0) : Discipline where
  bodies := .any
  concerns := b.ListedBy
  allows c := b.Spot c.nlocals
  exchanges d c := d.nlocals = c.nlocals
  starts _ := spot_start hbalanced
  goes {c i blocks size next blocks' size'} hlisted hdecodes hspot hgoes := by
    obtain ⟨q, hq, rfl, rfl, rfl⟩ := hlisted.exists_point hdecodes hspot
    have hshort : 0 + b.width ≤ Assembler.maxSize := by
      rw [Nat.zero_add]
      exact hlisted.short
    have hleads := leads_points hbalanced hshort (in_spot b c.nlocals) spot_end catches_outside q hq
    have hlocals : q.place.nlocals = c.nlocals := b.nlocals_points q hq
    rw [← hlocals] at hgoes
    exact hleads next blocks' size' hgoes
  exchange {c d} hlisted hbytes hlocals := by
    refine ⟨⟨?_, ?_, hlisted.short⟩, fun h => hlocals ▸ h⟩
    · rw [hbytes, hlocals]
      exact hlisted.decode_eq
    · rw [hbytes]
      exact hlisted.size_eq

/-- What a frame suspended in a call of a body has on its stack: under the callee and its
arguments the locals, an iterator for each for-loop around the call, three slots for each
handler around it, and `m` operands.  A snapshot needs all slots but the last, and it
keeps them all. -/
def Measures (b : Body) (f : Frame) : Prop :=
  ∃ q ∈ b.points (.outside f.nlocals) 0 0, ∃ m,
    q.instr.offset = f.current ∧ q.instr.opcode.isCall = true
      ∧ q.operands = m + q.instr.callSize
      ∧ f.top = f.nlocals + q.place.loops + savedSlots * q.place.handlers + m + q.instr.callSize
      ∧ f.handlerCount = q.place.handlers
      ∧ (∃ code, decode f.code.bytes = .ok code ∧ f.neededSlots code = .ok (f.top - m))
      ∧ f.toRecord = .ok f.asRecord

variable {b : Body} {f : Frame}

/-- The slots a snapshot needs of a frame at a point of a body. -/
theorem neededSlots_point {s : Store} {req : CallRequest} {q : Point} (hbalanced : b.Balanced 0)
    (hlisted : b.ListedBy f.code) (hq : q ∈ b.points (.outside f.nlocals) 0 0)
    (hsus : f.SuspendedIn s q.instr req) (hoffset : q.instr.offset = f.current)
    (hblocks : q.place.blocks = f.blocks) :
    f.handlerCount = q.place.handlers
      ∧ f.neededSlots (b.listing (.outside f.nlocals) 0 0).toArray
        = .ok (f.nlocals + savedSlots * q.place.handlers + q.place.loops + q.instr.callSize) := by
  have hhandlers : f.handlerCount = q.place.handlers := by
    unfold Frame.handlerCount
    rw [← hblocks]
    exact b.handlers_points rfl q hq
  have hdecode : decode f.code.bytes = .ok (b.listing (.outside f.nlocals) 0 0).toArray :=
    hlisted.decode_eq
  have hloops := loopNesting_points hdecode hbalanced hlisted.short rfl hq
  have hsite : f.callSite (b.listing (.outside f.nlocals) 0 0).toArray = .ok q.instr := by
    unfold Frame.callSite
    rw [← hoffset, instructionAt_of_mem hdecode (hlisted.decodeAt_point hq).1]
    exact if_pos hsus.isCall
  refine ⟨hhandlers, ?_⟩
  unfold Frame.neededSlots
  rw [hsite, ← hoffset, hhandlers]
  show (f.slotsOfCall q.instr >>= _) = _
  rw [Frame.slotsOfCall_suspended hsus]
  show Except.ok _ = _
  rw [← hloops]

/-- **A frame that waits for a call of the body is measured right.** -/
theorem measures_of_waits {hbalanced : b.Balanced 0} {pending : Pending} (hlisted : b.ListedBy f.code)
    (h : (b.discipline hbalanced).Waits f (some pending)) : b.Measures f := by
  cases h with
  | @site s i req hsus hallows =>
      have hoffset := offset_of_decodeAt hsus.decodes
      obtain ⟨q, hq, rfl, hblocks, hsize⟩ := hlisted.exists_point
        (by rw [hoffset]; exact hsus.decodes) (by rw [hoffset]; exact hallows hlisted)
      obtain ⟨hhandlers, hneeded⟩ := neededSlots_point hbalanced hlisted hq hsus hoffset hblocks
      -- the callee and its arguments are operands of the code the call stands in
      have hcall := callSize_points hbalanced q hq hsus.isCall
      have hoperands : q.operands = q.operands - q.instr.callSize + q.instr.callSize := by
        unfold Point.operands
        omega
      have htop : f.top = f.nlocals + q.place.loops + savedSlots * q.place.handlers
          + (q.operands - q.instr.callSize) + q.instr.callSize := by
        have hlocals : q.place.nlocals = f.nlocals := b.nlocals_points q hq
        show f.slots.size = _
        rw [← hsize, q.size_eq, hlocals]
        omega
      have hminimum : f.nlocals + savedSlots * q.place.handlers + q.place.loops + q.instr.callSize
          = f.top - (q.operands - q.instr.callSize) := by
        rw [htop]
        omega
      rw [hminimum] at hneeded
      refine ⟨q, hq, _, hoffset, hsus.isCall, hoperands, htop, hhandlers,
        ⟨_, hlisted.decode_eq, hneeded⟩, ?_⟩
      exact Frame.toRecord_of_neededSlots hlisted.decode_eq hneeded (Nat.sub_le _ _)

end Body

/-! ## §2. The frames of a session. -/

/-- What each frame of a run waits for, innermost first; the one that is or was at work does
not wait. -/
def Run.standing (r : Run) : List (Option Pending) :=
  match r.phase with
  | .loop | .brokenOff => none :: r.awaited
  | _ => r.awaited

namespace Session

/-- What the live frames wait for, innermost first. -/
def standing (s : Session) : List (Option Pending) :=
  match s.floor with
  | .host _ => s.waiting.flatMap Run.awaited
  | .run r => r.standing ++ s.waiting.flatMap Run.awaited

/-- A live frame is suspended in a call: it waits for what that call comes to. -/
def Suspends (s : Session) (f : Frame) : Prop :=
  ∃ (n : Nat) (pending : Pending), s.vm.frames[n]? = some f ∧ s.standing[n]? = some (some pending)

variable {s : Session} {D : Discipline}

/-- The frames that the run at hand stands on. -/
theorem suspends_of_standing {r : Run} {waiting : List Run} {f : Frame} {n : Nat} {pending : Pending}
    (hf : r.vm.frames[n]? = some f) (hstanding : r.standing[n]? = some (some pending)) :
    Suspends ⟨.run r, waiting⟩ f := by
  obtain ⟨hlt, -⟩ := List.getElem?_eq_some_iff.mp hstanding
  exact ⟨n, pending, hf, (List.getElem?_append_left hlt).trans hstanding⟩

/-- The frames of a session that obeys are told one by one what they wait for. -/
theorem Obeys.standing (h : s.Obeys D) :
    List.Forall₂ (fun f waiting => ∀ pending, waiting = some pending → D.Waits f (some pending))
      s.vm.frames s.standing := by
  have hwaits {frames : List Frame} {awaited : List (Option Pending)}
      (h : List.Forall₂ D.Waits frames awaited) :
      List.Forall₂ (fun f waiting => ∀ pending, waiting = some pending → D.Waits f (some pending))
        frames awaited :=
    h.imp fun f waiting hwaits pending heq => heq ▸ hwaits
  obtain ⟨floor, waiting⟩ := s
  cases floor with
  | host vm => exact hwaits h.floor.1
  | run r =>
      have hplaces := Run.Obeys.places h.floor
      show List.Forall₂ _ r.vm.frames (r.standing ++ _)
      unfold Run.standing Run.awaited
      cases hphase : r.phase with
      | loop =>
          -- the frame at work stands between instructions: it waits for nothing
          rw [hphase] at hplaces
          obtain ⟨f, rest, hframes, -, hrest⟩ := hplaces
          rw [hframes]
          exact .cons nofun (hwaits hrest)
      | brokenOff =>
          rw [hphase] at hplaces
          obtain ⟨f, rest, hframes, -, hrest⟩ := hplaces
          rw [hframes]
          exact .cons nofun (hwaits hrest)
      | _ =>
          rw [hphase] at hplaces
          exact hwaits hplaces

theorem Suspends.waits {f : Frame} (h : s.Suspends f) (hobeys : s.Obeys D) :
    ∃ pending, D.Waits f (some pending) := by
  obtain ⟨n, pending, hf, hwaiting⟩ := h
  obtain ⟨hlive, rfl⟩ := List.getElem?_eq_some_iff.mp hf
  obtain ⟨hlisted, hat⟩ := List.getElem?_eq_some_iff.mp hwaiting
  exact ⟨pending, hobeys.standing.get hlive hlisted pending hat⟩

/-- **What a frame suspended in a call has on its stack**, in every state of every session in
which records are put into frames with as many locals as they were taken with. -/
theorem stack_sizes {b : Body} (hbalanced : b.Balanced 0) {host : Host}
    (hadmits : (b.discipline hbalanced).Admits host) {start : Vm} (hframes : start.frames = [])
    (hholds : (b.discipline hbalanced).Holds start)
    (hreach : Relation.ReflTransGen
      (fun s t => Next host s t ∧ s.Puts fun kept entered => kept.nlocals = entered.nlocals)
      ⟨.host start, []⟩ s)
    {f : Frame} (hsuspended : s.Suspends f) (hassembled : b.Assembles f.code) : b.Measures f := by
  have hobeys : s.Obeys (b.discipline hbalanced) :=
    Discipline.obeys_of_reaches hadmits hframes hholds hreach
  obtain ⟨pending, hwaits⟩ := hsuspended.waits hobeys
  exact Body.measures_of_waits hassembled.listedBy hwaits

end Session

/-! ## §3. A call in a loop in a handler. -/

/-- Bodies of any kind may be held by a machine that starts without continuations and hooks. -/
theorem Body.holds_of_new {b : Body} {hbalanced : b.Balanced 0} {vm : Vm}
    (hcontinuations : vm.store.continuations = #[]) (hentries : vm.hooks.entries = []) :
    (b.discipline hbalanced).Holds vm := by
  refine ⟨⟨⟨?_, ?_, ?_, ?_⟩, rfl, ?_, ?_, ?_⟩, ?_, ?_⟩
  · exact fun _ _ _ _ => trivial
  · exact fun _ _ _ _ => trivial
  · exact fun _ _ _ _ => trivial
  · exact fun _ _ _ _ => trivial
  · exact fun _ _ _ _ => trivial
  · exact fun _ _ => trivial
  · exact fun _ _ => trivial
  · intro k hk
    rw [hcontinuations] at hk
    exact absurd hk (Array.not_mem_empty k)
  · intro e he
    rw [hentries] at he
    cases he

/-- Without hooks no record is put into a frame. -/
theorem Run.puts_of_no_entries {r : Run} (h : r.vm.hooks.entries = []) (exchanges : Code → Code → Prop) :
    r.Puts exchanges := by
  intro id ids record records hooks f rest _ hstart _
  have hnone : r.vm.hooks.start? id = none := by
    unfold EntryHooks.start?
    rw [h]
    rfl
  rw [hnone] at hstart
  cases hstart

/-- The steps of a run that has no hooks put no records into frames. -/
theorem Session.reaches_steps_puts {host : Host} {exchanges : Code → Code → Prop} (waiting : List Run)
    {n : Nat} {r : Run} (h : ∀ k < n, (Run.steps k r).vm.hooks.entries = []) :
    Relation.ReflTransGen (fun s t => Next host s t ∧ s.Puts exchanges)
      ⟨.run r, waiting⟩ ⟨.run (Run.steps n r), waiting⟩ := by
  induction n generalizing r with
  | zero => exact .refl
  | succ n ih =>
      cases hs : r.step with
      | none => rw [Run.steps_of_step_eq_none hs]
      | some r' =>
          rw [Run.steps_succ_of_step hs]
          refine .head ⟨.step hs, ?_⟩ (ih fun k hk => ?_)
          · rintro _ ⟨rfl⟩
            exact Run.puts_of_no_entries (h 0 (Nat.succ_pos n)) exchanges
          · have := h (k + 1) (Nat.succ_lt_succ hk)
            rwa [Run.steps_succ_of_step hs] at this

/-- Whether two bodies have no constants and the same of all else. -/
def Code.isPlain (c d : Code) : Bool :=
  c.constants.isEmpty && d.constants.isEmpty && c.name == d.name && c.qualname == d.qualname
    && c.filename == d.filename && c.firstLine == d.firstLine && c.bytes == d.bytes
    && c.names == d.names && c.varnames == d.varnames && c.argCount == d.argCount
    && decide (c.lines = d.lines)

theorem Code.eq_of_isPlain {c d : Code} (h : c.isPlain d = true) : c = d := by
  obtain ⟨⟩ := c
  obtain ⟨⟩ := d
  simp_all [isPlain, and_assoc]

/-- A body that catches an exception, and captures in a loop of the handler with an operand
below the call. -/
def Body.looping : Body :=
  .tryExcept (.raises [.emit .buildTuple 0])
    (.forLoop [.emit .buildTuple 0, .emit .buildList 1] none
      (.straight [.emit .buildTuple 0, .emit .loadGlobal 0, .emit .callFunction 0,
        .emit .popTop 0, .emit .popTop 0]))

namespace Run

/-- Its code. -/
def looping : Code where
  name := "f"
  qualname := "f"
  filename := ""
  firstLine := 1
  bytes := (bytesOf (Body.looping.listing (.outside 0) 0 0)).toArray
  constants := #[]
  names := #["capture"]
  varnames := #[]
  argCount := 0
  lines := [⟨0, Body.looping.width, 1⟩]

/-- A call of it. -/
def loopingRun : Run :=
  ofCall { globals := [("capture", .builtin ⟨0, .capture⟩)], store := { serial := 2 } }
    (.function ⟨1, looping⟩) {}

open Assembler in
theorem assembles_looping : Body.looping.Assembles looping := by
  have h := Body.assembles_of (a := { name := "f", filename := "", names := #["capture"] })
    Body.looping rfl rfl
  simp only [Body.looping, Body.assemble, Op.assembleAll, Op.assemble, Op.ofTarget, after_bind,
    after_pure, after_emit, after_emitJump, after_createLabel, answer_createLabel, after_bindLabel,
    List.cons_append, List.nil_append] at h
  exact h rfl (by decide)

end Run

namespace Session

/-- The frame has an iterator, the three slots of the handler, the operand and the callee. -/
theorem stack_sizes_looping : ∃ f, Suspends ⟨.run (Run.steps 14 Run.loopingRun), []⟩ f
    ∧ Body.looping.Measures f ∧ f.top = 1 + 3 + 1 + 1 := by
  obtain ⟨f, hf⟩ : ∃ f, (Run.steps 14 Run.loopingRun).vm.frames[0]? = some f :=
    Option.isSome_iff_exists.mp (by decide +kernel)
  -- equality of constants is not decidable, so the code is compared without them
  have hlive : ∀ g ∈ (Run.steps 14 Run.loopingRun).vm.frames,
      g.code.isPlain Run.looping = true ∧ g.top = 6 := by decide +kernel
  obtain ⟨hplain, htop⟩ := hlive f (List.mem_of_getElem? hf)
  have hcode := Code.eq_of_isPlain hplain
  have hstanding : (Run.steps 14 Run.loopingRun).standing[0]? = some (some (.site 1)) := by
    decide +kernel
  have hsuspended : Suspends ⟨.run (Run.steps 14 Run.loopingRun), []⟩ f :=
    suspends_of_standing hf hstanding
  have hquiet : ∀ k < 14, (Run.steps k Run.loopingRun).vm.hooks.entries = [] := by
    have hempty : ∀ k < 14, (Run.steps k Run.loopingRun).vm.hooks.entries.isEmpty = true := by
      decide +kernel
    exact fun k hk => List.isEmpty_iff.mp (hempty k hk)
  have hbalanced : Body.looping.Balanced 0 := by decide
  have hbegins : (Body.looping.discipline hbalanced).Begins Run.loopingRun.vm Run.loopingRun :=
    .call (fun _ _ => trivial) (fun _ _ => trivial)
  have hframes : Run.loopingRun.vm.frames = [] := rfl
  have hholds : (Body.looping.discipline hbalanced).Holds Run.loopingRun.vm := Body.holds_of_new rfl rfl
  have hreach : Relation.ReflTransGen
      (fun s t => Next (.obeying (Body.looping.discipline hbalanced)) s t
        ∧ s.Puts fun kept entered => kept.nlocals = entered.nlocals)
      ⟨.host Run.loopingRun.vm, []⟩ ⟨.run (Run.steps 14 Run.loopingRun), []⟩ := by
    refine .head ⟨.begin hbegins, ?_⟩ (reaches_steps_puts [] hquiet)
    rintro r ⟨⟩
  have hassembled : Body.looping.Assembles f.code := by
    rw [hcode]
    exact Run.assembles_looping
  exact ⟨f, hsuspended, stack_sizes hbalanced (Discipline.admits_obeying _) hframes hholds hreach
    hsuspended hassembled, htop⟩

end Session

/-! ## §4. Records of another body. -/

/-- A body that captures. -/
def Body.twin : Body :=
  .returns [.emit .loadGlobal 0, .emit .callFunction 0, .emit .storeGlobal 1, .emit .buildTuple 0]

namespace Run

/-- Its code under some name, with some locals that it does not use. -/
def twin (name : String) (varnames : Array String) : Code where
  name := name
  qualname := name
  filename := ""
  firstLine := 1
  bytes := (bytesOf (Body.twin.listing (.outside 0) 0 0)).toArray
  constants := #[]
  names := #["capture", "k"]
  varnames := varnames
  argCount := 0
  lines := [⟨0, Body.twin.width, 1⟩]

/-- A body that calls `g(*xs)` and then lets `xs` grow, or returns what `h()` returns if that
call raises. -/
def growing : Code where
  name := "f"
  qualname := "f"
  filename := ""
  firstLine := 1
  bytes := encodeAll
    [(.setupExcept, 24), (.loadGlobal, 0), (.loadGlobal, 1), (.callFunctionEx, 0), (.popTop, 0),
      (.popBlock, 0), (.loadGlobal, 1), (.loadMethod, 2), (.buildTuple, 0), (.callMethod, 1),
      (.returnValue, 0), (.popTop, 0), (.popExcept, 0), (.loadGlobal, 3), (.callFunction, 0),
      (.returnValue, 0)]
  constants := #[]
  names := #["g", "xs", "append", "h"]
  varnames := #[]
  argCount := 0
  lines := []

/-- A call of it, where `h` has a twin `g` with a local. -/
def twinRun : Run :=
  ofCall
    { globals := [("capture", .builtin ⟨0, .capture⟩), ("g", .function ⟨1, twin "g" #["x"]⟩),
        ("h", .function ⟨2, twin "h" #[]⟩), ("xs", .list 0)],
      store := { lists := #[#[]], serial := 4 } }
    (.function ⟨3, growing⟩) {}

/-- The call of a resume of what `g` has captured. -/
def twinResume : Run :=
  ofCall (steps 25 twinRun).vm (.builtin ⟨5, .resume⟩) { positional := [.continuation 0] }

open Assembler in
theorem assembles_twin : Body.twin.Assembles (twin "h" #[]) := by
  have h := Body.assembles_of (a := { name := "h", filename := "", names := #["capture", "k"] })
    Body.twin rfl rfl
  simp only [Body.twin, Body.assemble, Op.assembleAll, Op.assemble, after_bind, after_pure,
    after_emit] at h
  exact h rfl (by decide)

end Run

namespace Session

/-- Resumed, the call `g(*xs)` raises before it enters a frame, and the frame that the handler
enters for `h` takes the record of `g`, with its local: it has one slot too many. -/
theorem not_stack_sizes_of_twin :
    ∃ (b : Body) (hbalanced : b.Balanced 0) (start : Vm) (s : Session) (f : Frame),
      start.frames = [] ∧ (b.discipline hbalanced).Holds start
        ∧ Reaches (.obeying (b.discipline hbalanced)) ⟨.host start, []⟩ s
        ∧ s.Suspends f ∧ b.Assembles f.code ∧ ¬ b.Measures f := by
  have hbalanced : Body.twin.Balanced 0 := by decide
  have hreach : Reaches (.obeying (Body.twin.discipline hbalanced)) ⟨.host Run.twinRun.vm, []⟩
      ⟨.run (Run.steps 14 Run.twinResume), []⟩ := by
    have hfirst : Reaches (.obeying (Body.twin.discipline hbalanced)) ⟨.host Run.twinRun.vm, []⟩
        ⟨.run (Run.steps 25 Run.twinRun), []⟩ :=
      .trans (.single (.begin (.call (fun _ _ => trivial) (fun _ _ => trivial))))
        (reaches_steps _ 25 Run.twinRun [])
    have hover : (Run.steps 25 Run.twinRun).Over :=
      ⟨by decide +kernel, .inl ⟨.ok .none, by cbv⟩⟩
    exact .trans (.tail (.tail hfirst (.done hover))
      (.begin (.call (fun _ _ => trivial) (fun _ _ => trivial)))) (reaches_steps _ 14 Run.twinResume [])
  obtain ⟨f, hf⟩ : ∃ f, (Run.steps 14 Run.twinResume).vm.frames[0]? = some f :=
    Option.isSome_iff_exists.mp (by decide +kernel)
  have hframes : ∀ g ∈ (Run.steps 14 Run.twinResume).vm.frames[0]?.toList,
      g.code.isPlain (Run.twin "h" #[]) = true ∧ g.current = 3 ∧ g.top = 2 := by decide +kernel
  obtain ⟨hplain, hcurrent, htop⟩ := hframes f (by rw [hf]; exact List.mem_singleton_self f)
  have hcode := Code.eq_of_isPlain hplain
  have hstanding : (Run.steps 14 Run.twinResume).standing[0]? = some (some (.site 1)) := by
    decide +kernel
  have hsuspended : Suspends ⟨.run (Run.steps 14 Run.twinResume), []⟩ f :=
    suspends_of_standing hf hstanding
  have hassembled : Body.twin.Assembles f.code := by
    rw [hcode]
    exact Run.assembles_twin
  have hstart : Run.twinRun.vm.frames = [] := rfl
  have hholds : (Body.twin.discipline hbalanced).Holds Run.twinRun.vm := Body.holds_of_new rfl rfl
  refine ⟨Body.twin, hbalanced, _, _, f, hstart, hholds, hreach, hsuspended, hassembled, ?_⟩
  -- the only point at the call has one slot, and the frame has two
  rintro ⟨q, hq, m, hoffset, -, hoperands, hsize, -⟩
  have hlocals : f.nlocals = 0 := by
    unfold Frame.nlocals
    rw [hcode]
    rfl
  have hpoints : ∀ q ∈ Body.twin.points (.outside 0) 0 0, q.instr.offset = 3 → q.size = 1 := by
    decide
  rw [hlocals] at hq hsize
  have hone := hpoints q hq (hoffset.trans hcurrent)
  have hplace : q.place.nlocals = 0 := Body.twin.nlocals_points q hq
  rw [q.size_eq] at hone
  omega

end Session

end Resumable
