/-
  Resumable.Proofs.RecordRoundTrip
  ────────────────────────────────
  **A RECORD PUTS BACK THE FRAME IT WAS TAKEN FROM.**

  To take a record, the whole body is decoded and the call looked up in the list; to
  put it into a frame, one instruction is read at one offset.  The two find the same
  call, so a record that could be taken can be put into every frame that runs its
  bytes:

      f  ── toRecord ──▸  record  ── putRecord ──▸  g, with the slots and blocks of f
                                                    and about to make its call again

  What must hold of a frame for a record to be taken is told by its body, its slots,
  its blocks and where it stands, so the same record can be taken of `g` if it has
  the body of `f`.

  The bytes are all that is compared.  Two bodies with equal bytes can declare other
  locals, and then the slots of one are not split into locals and operands as those
  of the other (`operands_putRecord`).

  Main results:
    • `putRecord_toRecord`  — taking a record and putting it into a frame,
    • `operands_putRecord`  — which of the slots are operands afterwards.
-/
import Resumable.Proofs.StackSizes

namespace Resumable.Frame

variable {f g g' : Frame} {r : Record} {code : Array Instruction} {call : Instruction}

/-! ## §1. Taking a record. -/

/-- The call of a frame, looked up in its decoded body, is the one read where it stands. -/
theorem decodeAt_callSite (hdecode : decode f.code.bytes = .ok code)
    (hsite : f.callSite code = .ok call) :
    decodeAt f.code.bytes f.current = .ok call ∧ call.opcode.isCall = true := by
  unfold callSite at hsite
  cases hfound : instructionAt code f.current with
  | none =>
      rw [hfound] at hsite
      cases hsite
  | some i =>
      rw [hfound] at hsite
      dsimp only at hsite
      split at hsite
      · next hcall =>
          obtain rfl := Except.ok.inj hsite
          have hoffset : i.offset = f.current := by
            simpa using Array.find?_some hfound
          have hmem : i ∈ code := Array.mem_of_find?_eq_some hfound
          exact ⟨hoffset ▸ decodeAt_of_mem hdecode hmem, hcall⟩
      · cases hsite

/-- A record is taken of a frame whose body lists the call it stands at, and which has the
slots that this call needs. -/
theorem toRecord_eq_ok_iff :
    f.toRecord = .ok r ↔ r = f.asRecord ∧ ∃ code needed, decode f.code.bytes = .ok code
      ∧ f.neededSlots code = .ok needed ∧ needed ≤ f.top := by
  constructor
  · intro h
    refine ⟨toRecord_ok h, ?_⟩
    unfold toRecord at h
    cases hdecode : decode f.code.bytes with
    | error e =>
        rw [hdecode] at h
        cases h
    | ok code =>
        rw [hdecode] at h
        obtain ⟨needed, hneeded, h⟩ := except_bind_ok.mp h
        refine ⟨code, needed, rfl, hneeded, ?_⟩
        by_contra hfew
        rw [if_pos (Nat.not_le.mp hfew)] at h
        cases h
  · rintro ⟨rfl, code, needed, hdecode, hneeded, hle⟩
    exact toRecord_of_neededSlots hdecode hneeded hle

/-- A frame of which a record is taken stands at a call. -/
theorem exists_callSite (h : f.toRecord = .ok r) :
    ∃ code call, decode f.code.bytes = .ok code ∧ f.callSite code = .ok call
      ∧ decodeAt f.code.bytes f.current = .ok call ∧ call.opcode.isCall = true := by
  obtain ⟨-, code, needed, hdecode, hneeded, -⟩ := toRecord_eq_ok_iff.mp h
  obtain ⟨call, hsite, -⟩ := except_bind_ok.mp hneeded
  exact ⟨code, call, hdecode, hsite, decodeAt_callSite hdecode hsite⟩

/-- The slots a call needs hold more than the locals. -/
theorem nlocals_lt_neededSlots {needed : Nat} (h : f.neededSlots code = .ok needed) :
    f.nlocals < needed := by
  obtain ⟨call, hsite, h⟩ := except_bind_ok.mp h
  obtain ⟨ofCall, hslots, h⟩ := except_bind_ok.mp h
  obtain rfl := Except.ok.inj h
  have hpos : 0 < ofCall := by
    unfold slotsOfCall at hslots
    dsimp only at hslots
    split at hslots
    · obtain rfl := Except.ok.inj hslots
      omega
    · obtain rfl := Except.ok.inj hslots
      omega
    · split at hslots
      · obtain rfl := Except.ok.inj hslots
        omega
      · cases hslots
    · obtain rfl := Except.ok.inj hslots
      omega
    · cases hslots
  omega

theorem nlocals_lt_top (h : f.toRecord = .ok r) : f.nlocals < f.top := by
  obtain ⟨-, code, needed, -, hneeded, hle⟩ := toRecord_eq_ok_iff.mp h
  exact Nat.lt_of_lt_of_le (nlocals_lt_neededSlots hneeded) hle

/-- What a call needs is told by the body, the slots, the blocks and the offset. -/
theorem neededSlots_congr (hcode : g.code = f.code) (hcurrent : g.current = f.current)
    (hslots : g.slots = f.slots) (hblocks : g.blocks = f.blocks) :
    g.neededSlots code = f.neededSlots code := by
  unfold neededSlots callSite slotsOfCall notAtCall nameCount handlerCount nlocals qualname
  rw [hcode, hcurrent, hslots, hblocks]

/-- And so is whether a record can be taken. -/
theorem toRecord_congr (h : f.toRecord = .ok r) (hcode : g.code = f.code)
    (hcurrent : g.current = f.current) (hslots : g.slots = f.slots)
    (hblocks : g.blocks = f.blocks) : g.toRecord = .ok g.asRecord := by
  obtain ⟨-, code, needed, hdecode, hneeded, hle⟩ := toRecord_eq_ok_iff.mp h
  refine toRecord_eq_ok_iff.mpr ⟨rfl, code, needed, ?_, ?_, ?_⟩
  · rw [hcode]
    exact hdecode
  · rw [neededSlots_congr hcode hcurrent hslots hblocks]
    exact hneeded
  · unfold top
    rw [hslots]
    exact hle

/-! ## §2. Putting it into a frame. -/

/-- A record taken of a frame goes into every frame that runs the same bytes. -/
theorem putRecord_of_bytes_eq (h : f.toRecord = .ok r) (hbytes : g.code.bytes = f.code.bytes) :
    g.putRecord r = .ok (g.withRecord r) := by
  obtain rfl := toRecord_ok h
  obtain ⟨code, call, -, -, hat, -⟩ := exists_callSite h
  have hat' : decodeAt g.code.bytes f.asRecord.position = .ok call := by
    rw [hbytes]
    exact hat
  have hbody : g.code.sameBody f.asRecord.function.code = true := Code.sameBody_iff.mpr hbytes
  unfold putRecord
  rw [if_pos hbody, hat']

/-- No record goes into a frame that runs other bytes. -/
theorem putRecord_of_bytes_ne (hbytes : g.code.bytes ≠ r.function.code.bytes) :
    g.putRecord r
      = .error (.otherBody g.qualname r.function.code.bytes.size g.code.bytes.size) := by
  unfold putRecord
  rw [if_neg fun hsame => hbytes (Code.sameBody_iff.mp hsame)]

/-- A frame fetches the instruction it stands before. -/
theorem fetch_of_decodeAt (h : decodeAt f.code.bytes f.next = .ok call) :
    FrameAction.fetch f = .ok call (f.fetched call) := by
  simp only [FrameAction.fetch, bind, EStateM.bind, get, getThe, MonadStateOf.get, EStateM.get, h]
  rfl

/-- Put a record into a frame where it is: one check after the other, then one part of the
frame after the other. -/
def takeRecord (r : Record) : EStateM ContinuationError Frame Unit := do
  let f ← get
  unless f.code.sameBody r.function.code do
    throw (.otherBody f.qualname r.function.code.bytes.size f.code.bytes.size)
  match decodeAt f.code.bytes r.position with
  | .error e => throw (.undecodable f.qualname e)
  | .ok call =>
      modify fun f => { f with next := call.offset }
      modify fun f => { f with current := call.offset }
      modify fun f => { f with slots := r.slots }
      modify fun f => { f with blocks := r.blocks }

/-- All checks come before the first change, so a frame that cannot take a record is left as
it was. -/
theorem takeRecord_eq (g : Frame) (r : Record) :
    takeRecord r g = match g.putRecord r with
      | .ok g' => .ok () g'
      | .error e => .error e g := by
  unfold takeRecord putRecord
  simp only [bind, EStateM.bind, get, getThe, MonadStateOf.get, EStateM.get]
  cases hsame : g.code.sameBody r.function.code with
  | false => rfl
  | true =>
      cases hat : decodeAt g.code.bytes r.position with
      | error e => rfl
      | ok call =>
          show EStateM.Result.ok ()
            { g with next := call.offset, current := call.offset, slots := r.slots, blocks := r.blocks } = _
          rw [offset_of_decodeAt hat]
          rfl

/-! ## §3. Both together. -/

/-- **A record puts back what it was taken from.**  A record of `f` goes into every frame that
runs the bytes of `f`: the frame then has the slots and blocks of `f`, stands before its call and
makes it next, and keeps its own function, caller and parameters; if it has the body of `f`, the
same record can be taken of it.  It goes into no other frame, and a frame that cannot take a
record, whichever it is, is left as it was. -/
theorem putRecord_toRecord :
    (∀ (f g : Frame) (r : Record), f.toRecord = .ok r →
      (g.code.bytes = f.code.bytes → ∃ g' code call,
        g.putRecord r = .ok g'
          ∧ g' = { g with
              next := f.current, current := f.current, slots := f.slots, blocks := f.blocks }
          ∧ decode f.code.bytes = .ok code ∧ f.callSite code = .ok call
          ∧ call.opcode.isCall = true ∧ FrameAction.fetch g' = .ok call (g'.fetched call)
          ∧ (g.code = f.code → ∃ again, g'.toRecord = .ok again
            ∧ again.position = r.position ∧ again.slots = r.slots ∧ again.blocks = r.blocks
            ∧ again.function.code.bytes = r.function.code.bytes))
      ∧ (g.code.bytes ≠ f.code.bytes → g.putRecord r
          = .error (.otherBody g.qualname f.code.bytes.size g.code.bytes.size)))
    ∧ ∀ (g g' : Frame) (r : Record) (e : ContinuationError),
      takeRecord r g = .error e g' → g.putRecord r = .error e ∧ g' = g := by
  refine ⟨fun f g r h => ⟨fun hbytes => ?_, fun hbytes => ?_⟩, fun g g' r e h => ?_⟩
  · obtain ⟨code, call, hdecode, hsite, hat, hcall⟩ := exists_callSite h
    have hput := putRecord_of_bytes_eq h hbytes
    obtain rfl := toRecord_ok h
    have hnext : decodeAt (g.withRecord f.asRecord).code.bytes (g.withRecord f.asRecord).next
        = .ok call := by
      show decodeAt g.code.bytes f.current = _
      rw [hbytes]
      exact hat
    refine ⟨_, code, call, hput, rfl, hdecode, hsite, hcall, fetch_of_decodeAt hnext,
      fun hcode => ?_⟩
    -- the frame has the slots and blocks of the first, so the same record can be taken of it
    have hagain := toRecord_congr (g := g.withRecord f.asRecord) h hcode rfl rfl rfl
    exact ⟨_, hagain, rfl, rfl, rfl, hbytes⟩
  · obtain rfl := toRecord_ok h
    exact putRecord_of_bytes_ne hbytes
  · rw [takeRecord_eq] at h
    cases hput : g.putRecord r with
    | ok g'' =>
        rw [hput] at h
        cases h
    | error e' =>
        rw [hput] at h
        obtain ⟨rfl, rfl⟩ := EStateM.Result.error.inj h
        exact ⟨rfl, rfl⟩

/-- A body that adds what `g(a=x)` returns to a number, for all items `x` of `xs`. -/
def adding (name : String) (varnames : Array String) : Code where
  name := name
  qualname := name
  filename := ""
  firstLine := 1
  bytes := encodeAll
    [(.loadGlobal, 0), (.getIter, 0), (.forIter, 27), (.storeFast, 0), (.loadConst, 0),
      (.loadGlobal, 1), (.loadFast, 0), (.loadConst, 1), (.callFunctionKw, 1), (.binaryAdd, 0),
      (.popTop, 0), (.jumpAbsolute, 4), (.loadConst, 0), (.returnValue, 0)]
  constants := #[.int 100, .names ["a"]]
  names := #["xs", "g"]
  varnames := varnames
  argCount := 0
  lines := []

/-- A frame of it that is suspended in the call, inside a handler in which nothing was handled
before, with an unbound local and the number below the callee. -/
def addingCall : Frame where
  function := ⟨0, adding "f" #["x", "y"]⟩
  next := 22
  current := 20
  slots := #[some (.int 7), none, none, none, none, some (.iterator 0), some (.int 100),
    some (.builtin ⟨1, .capture⟩), some (.int 7), some (.tuple [.str "a"])]
  blocks := [.handling 2]
  parent := none
  argCount := 0

/-- Its record goes into a new frame of another function made from the body, of which it can be
taken again, and not into one that only calls. -/
theorem putRecord_toRecord_adding :
    addingCall.toRecord = .ok addingCall.asRecord
      ∧ (∃ g', (blank ⟨2, adding "f" #["x", "y"]⟩ (some 4)).putRecord addingCall.asRecord = .ok g'
        ∧ g'.slots = addingCall.slots ∧ g'.next = 20 ∧ g'.parent = some 4
        ∧ ∃ again, g'.toRecord = .ok again)
      ∧ (blank ⟨3, Run.twin "h" #[]⟩ none).putRecord addingCall.asRecord
        = .error (.otherBody "h" 31 11) := by
  have h : addingCall.toRecord = .ok addingCall.asRecord := by cbv
  have hall := putRecord_toRecord.1 addingCall
  obtain ⟨g', code, call, hput, rfl, -, -, -, -, hagain⟩ :=
    (hall (blank ⟨2, adding "f" #["x", "y"]⟩ (some 4)) _ h).1 rfl
  obtain ⟨again, hagain, -⟩ := hagain rfl
  have hother := (hall (blank ⟨3, Run.twin "h" #[]⟩ none) _ h).2 (by decide +kernel)
  exact ⟨h, ⟨_, hput, rfl, rfl, rfl, again, hagain⟩, hother⟩

/-! ## §4. Locals and operands. -/

/-- The entries of the operand stack, lowest first. -/
def operands (f : Frame) : List (Option Value) :=
  f.slots.toList.drop f.nlocals

/-- **Which slots are operands** in a frame that has taken a record of `f`.  It has the height of
`f` and keeps its own number of locals, so none of its locals is missing and its operands are
those of `f` exactly if it declares as many locals as `f`. -/
theorem operands_putRecord (h : f.toRecord = .ok r) (hput : g.putRecord r = .ok g') :
    g'.top = f.top ∧ g'.nlocals = g.nlocals
      ∧ ((g'.nlocals ≤ g'.top ∧ g'.operands = f.operands) ↔ g.nlocals = f.nlocals) := by
  have hlt := nlocals_lt_top h
  obtain rfl := toRecord_ok h
  obtain rfl := eq_withRecord_of_putRecord hput
  have hoperands : (g.withRecord f.asRecord).operands = f.slots.toList.drop g.nlocals := rfl
  refine ⟨rfl, rfl, ?_⟩
  show g.nlocals ≤ f.top ∧ _ ↔ _
  rw [hoperands]
  constructor
  · rintro ⟨hle, heq⟩
    -- a call has operands, so lists of equal lengths start at one slot
    have hlength := congrArg List.length heq
    unfold operands at hlength
    rw [List.length_drop, List.length_drop, Array.length_toList] at hlength
    unfold top at hle hlt
    omega
  · intro heq
    rw [heq]
    exact ⟨Nat.le_of_lt hlt, rfl⟩

/-- Other names of the locals change nothing. -/
theorem operands_putRecord_adding :
    addingCall.toRecord = .ok addingCall.asRecord
      ∧ ∃ g', (blank ⟨2, adding "g" #["u", "v"]⟩ none).putRecord addingCall.asRecord = .ok g'
        ∧ g'.nlocals ≤ g'.top ∧ g'.operands = addingCall.operands := by
  have h : addingCall.toRecord = .ok addingCall.asRecord := by cbv
  have hput := putRecord_of_bytes_eq (g := blank ⟨2, adding "g" #["u", "v"]⟩ none) h rfl
  exact ⟨h, _, hput, (operands_putRecord h hput).2.2.mpr rfl⟩

/-- A frame of a body without locals that is suspended in a call. -/
def twinCall : Frame where
  function := ⟨0, Run.twin "h" #[]⟩
  next := 5
  current := 3
  slots := #[some (.builtin ⟨1, .capture⟩)]
  parent := none
  argCount := 0

/-- Its record goes into a frame of a body with the same bytes that declares two locals: the frame
then has fewer slots than locals, and its operands would start elsewhere. -/
theorem locals_missing_of_twin :
    ∃ (f g g' : Frame) (r : Record), f.nlocals ≤ f.top ∧ g.nlocals ≤ g.top
      ∧ f.toRecord = .ok r ∧ g.putRecord r = .ok g' ∧ g'.top < g'.nlocals
      ∧ g'.nlocals ≠ f.nlocals := by
  have h : twinCall.toRecord = .ok twinCall.asRecord := by cbv
  have hput := putRecord_of_bytes_eq (g := blank ⟨2, Run.twin "g" #["x", "y"]⟩ none) h rfl
  exact ⟨twinCall, _, _, _, by decide, by decide, h, hput, by decide, by decide⟩

end Resumable.Frame
