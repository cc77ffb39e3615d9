/-
  Resumable.Proofs.CallSite
  ─────────────────────────
  **THE CALL A FRAME STANDS AT.**

  A call instruction reads its callee and arguments off the stack and leaves
  them there.  So the call can be read off a suspended frame at any later time:
  the instruction at `current`, the entries on top, and, where the arguments are
  collected in a list and a dict, what these hold by then.

  Main results:
    • `callRequest_ok`            — which call an instruction asks for,
    • `Frame.SuspendedIn.congr`   — the same contents ask for the same call again,
    • `Frame.SuspendedIn.callee?_eq` — the callee is the one in its slot,
    • `stepFrame_of_call`         — a frame that stands at a call executes it.
-/
import Resumable.Proofs.Footprint

namespace Resumable

/-! ## §1. Reading a call off a frame. -/

/-- The stack entries of a call instruction, as its operand tells. -/
def Instruction.callSize (i : Instruction) : Nat :=
  match i.opcode with
  | .callMethod | .callFunctionKw => i.arg.toNat + 2
  | .callFunctionEx => 2 + i.arg.toNat % 2
  | _ => i.arg.toNat + 1

namespace Frame

/-- The instruction a frame is suspended in. -/
def site? (f : Frame) : Option Instruction :=
  (decodeAt f.code.bytes f.current).toOption

/-- The stack entries of a call in progress. -/
def callSlots (f : Frame) (i : Instruction) : List (Option Value) :=
  f.slots.toList.drop (f.slots.size - i.callSize)

/-- What the callee slot of the call a frame is suspended in holds. -/
def callee? (f : Frame) : Option Value :=
  f.site?.bind fun i => (f.callSlots i).head?.join

end Frame

/-- The list or the dict a value is. -/
def Value.container? : Value → Option Container
  | .list place => some (.list place)
  | .dict place => some (.dict place)
  | _ => Option.none

/-- The items of a list, or the entries of a dict. -/
def Store.contents (s : Store) : Container → Array Value ⊕ Bindings Value
  | .list place => .inl (s.list place)
  | .dict place => .inr (s.dict place)

/-- The lists and dicts among the entries of a call that collects its arguments. -/
def Instruction.collected (i : Instruction) (slots : List (Option Value)) : List Container :=
  if i.opcode = .callFunctionEx then (slots.tail.filterMap id).filterMap Value.container?
  else []

/-- The list and the dict that hold the arguments of the call a frame is suspended
in, as far as they are collected. -/
def Frame.collected (f : Frame) : List Container :=
  match f.site? with
  | some i => i.collected (f.callSlots i)
  | none => []

/-! ## §2. Opening computations. -/

theorem except_bind_ok {ε α β : Type} {x : Except ε α} {f : α → Except ε β} {b : β} :
    (x >>= f) = .ok b ↔ ∃ a, x = .ok a ∧ f a = .ok b := by
  cases x <;> simp [bind, Except.bind]

theorem action_bind_ok {ε σ α β : Type} {x : EStateM ε σ α} {f : α → EStateM ε σ β} {s t : σ}
    {b : β} : (x >>= f) s = .ok b t ↔ ∃ a u, x s = .ok a u ∧ f a u = .ok b t := by
  show EStateM.bind x f s = _ ↔ _
  unfold EStateM.bind
  cases h : x s with
  | ok a u =>
      constructor
      · exact fun hf => ⟨a, u, rfl, hf⟩
      · rintro ⟨a', u', hx, hf⟩
        obtain ⟨rfl, rfl⟩ := EStateM.Result.ok.inj hx
        exact hf
  | error e u => simp

theorem action_get_bind {ε σ β : Type} (f : σ → EStateM ε σ β) (s : σ) :
    (get >>= f) s = f s s := rfl

theorem action_bind_of_ok {ε σ α β : Type} {x : EStateM ε σ α} {f : α → EStateM ε σ β} {s t : σ}
    {v : α} (h : x s = .ok v t) : (x >>= f) s = f v t := by
  show EStateM.bind x f s = _
  unfold EStateM.bind
  rw [h]

theorem action_bind_of_error {ε σ α β : Type} {x : EStateM ε σ α} {f : α → EStateM ε σ β}
    {s t : σ} {e : ε} (h : x s = .error e t) : (x >>= f) s = .error e t := by
  show EStateM.bind x f s = _
  unfold EStateM.bind
  rw [h]

theorem action_get_ok {ε σ : Type} {s t a : σ} :
    (get : EStateM ε σ σ) s = .ok a t ↔ a = s ∧ t = s := by
  show EStateM.Result.ok s s = .ok a t ↔ _
  simp [eq_comm]

theorem action_pure_ok {ε σ α : Type} {s t : σ} {a b : α} :
    (pure a : EStateM ε σ α) s = .ok b t ↔ b = a ∧ t = s := by
  show EStateM.Result.ok a s = .ok b t ↔ _
  simp [eq_comm]

namespace VmAction

theorem ofExcept_ok {α : Type} {r : Except Fault α} {vm vm' : Vm} {a : α} :
    ofExcept r vm = .ok a vm' ↔ r = .ok a ∧ vm' = vm := by
  cases r with
  | ok b =>
      show EStateM.Result.ok b vm = .ok a vm' ↔ _
      simp [eq_comm]
  | error e =>
      show EStateM.Result.error e vm = .ok a vm' ↔ _
      simp

theorem lift_ok {α : Type} {r : Except Cause α} {vm vm' : Vm} {a : α} :
    lift r vm = .ok a vm' ↔ r = .ok a ∧ vm' = vm := by
  cases r with
  | ok b =>
      show EStateM.Result.ok b vm = .ok a vm' ↔ _
      simp [eq_comm]
  | error c =>
      show raise c vm = .ok a vm' ↔ _
      simp only [reduceCtorEq, false_and, iff_false]
      exact fun h => nomatch h

/-- The top entries are read and nothing is changed. -/
theorem onFrame_topSlots_ok {vm vm' : Vm} {f : Frame} {rest : List Frame}
    (hf : vm.frames = f :: rest) {n : Nat} {slots : List (Option Value)} :
    onFrame (FrameAction.topSlots n) vm = .ok slots vm' ↔ f.topSlots n = .ok slots ∧ vm' = vm := by
  have hvm : { vm with frames := f :: rest } = vm := by rw [← hf]
  rw [onFrame_apply hf]
  simp only [FrameAction.topSlots, bind, EStateM.bind, get, getThe, MonadStateOf.get, EStateM.get]
  cases f.topSlots n with
  | ok l =>
      show EStateM.Result.ok l { vm with frames := f :: rest } = .ok slots vm' ↔ _
      rw [hvm]
      simp [eq_comm]
  | error e =>
      show EStateM.Result.error e { vm with frames := f :: rest } = .ok slots vm' ↔ _
      simp

end VmAction

open VmAction

/-! ## §3. The requests of the four call instructions. -/

/-- The first entry, which is a value, and the entries after it. -/
theorem firstArgument_ok {slots rest : List (Option Value)} {v : Value} :
    firstArgument slots = .ok (v, rest) ↔ slots = some v :: rest := by
  cases slots with
  | nil => simp [firstArgument]
  | cons slot tail =>
      cases slot with
      | none => simp [firstArgument, argument, Except.map]
      | some w => simp [firstArgument, argument, Except.map]

/-- The named arguments of a collected call: none, or those of a dict on top. -/
def namedOnTop (s : Store) (rest : List (Option Value)) : Option (List (String × Value)) :=
  match rest with
  | [] => some []
  | some (.dict place) :: _ => some (s.dict place)
  | _ => none

/-- Named arguments are the entries of a dict. -/
theorem namedItems_ok {s : Store} {v : Value} {keywords : List (String × Value)} :
    namedItems s v = .ok keywords ↔ ∃ place, v = .dict place ∧ s.dict place = keywords := by
  cases v <;> simp [namedItems]

/-- An entry that is not empty is an argument. -/
theorem argument_ok {slot : Option Value} {v : Value} : argument slot = .ok v ↔ slot = some v := by
  cases slot <;> simp [argument]

/-- What a collected call asks for. -/
theorem collectedRequest_ok {slots : List (Option Value)} {vm vm' : Vm} {req : CallRequest} :
    collectedRequest slots vm = .ok req vm' ↔
      vm' = vm ∧ ∃ callee sequence rest positional keywords,
        slots = some callee :: some sequence :: rest
          ∧ sequenceItems vm.store sequence = .ok positional
          ∧ namedOnTop vm.store rest = some keywords
          ∧ req = ⟨callee, { positional, keywords }, slots.length⟩ := by
  unfold collectedRequest
  simp only [action_bind_ok, ofExcept_ok, lift_ok, action_get_ok, Prod.exists, firstArgument_ok]
  constructor
  · rintro ⟨callee, _, _, ⟨rfl, rfl⟩, sequence, rest, _, ⟨rfl, rfl⟩, _, _, ⟨rfl, rfl⟩,
      positional, _, ⟨hpos, rfl⟩, hrest⟩
    cases rest with
    | nil =>
        obtain ⟨rfl, rfl⟩ := action_pure_ok.mp hrest
        exact ⟨rfl, callee, sequence, [], positional, [], rfl, hpos, rfl, rfl⟩
    | cons slot tail =>
        -- with named arguments a third entry is read, and the dict in the store
        simp only [action_bind_ok, ofExcept_ok, lift_ok, action_get_ok, action_pure_ok,
          argument_ok, namedItems_ok] at hrest
        obtain ⟨_, _, ⟨rfl, rfl⟩, _, _, ⟨rfl, rfl⟩, keywords, _, ⟨⟨place, rfl, rfl⟩, rfl⟩, rfl,
          rfl⟩ := hrest
        exact ⟨rfl, callee, sequence, _, positional, _, rfl, hpos, rfl, rfl⟩
  · rintro ⟨rfl, callee, sequence, rest, positional, keywords, rfl, hpos, hnamed, rfl⟩
    refine ⟨callee, _, _, ⟨rfl, rfl⟩, sequence, rest, _, ⟨rfl, rfl⟩, _, _, ⟨rfl, rfl⟩,
      positional, _, ⟨hpos, rfl⟩, ?_⟩
    cases rest with
    | nil =>
        obtain rfl : [] = keywords := Option.some.inj hnamed
        rfl
    | cons slot tail =>
        unfold namedOnTop at hnamed
        split at hnamed
        · next h => exact nomatch h
        · next h =>
            obtain ⟨rfl, rfl⟩ := List.cons.inj h
            obtain rfl := Option.some.inj hnamed
            rfl
        · exact nomatch hnamed

/-- The callee of a positional call is its first entry. -/
theorem functionRequest_ok {slots : List (Option Value)} {req : CallRequest}
    (h : functionRequest slots = .ok req) :
    slots.head? = some (some req.callee) ∧ req.slots = slots.length := by
  simp only [functionRequest, except_bind_ok, Prod.exists, firstArgument_ok] at h
  obtain ⟨callee, rest, rfl, positional, -, h⟩ := h
  obtain rfl := Except.ok.inj h
  exact ⟨rfl, rfl⟩

/-- The callee of a method call is its first entry. -/
theorem methodRequest_ok {slots : List (Option Value)} {req : CallRequest}
    (h : methodRequest slots = .ok req) :
    slots.head? = some (some req.callee) ∧ req.slots = slots.length := by
  simp only [methodRequest, except_bind_ok, Prod.exists, firstArgument_ok] at h
  obtain ⟨callee, rest, rfl, positional, -, h⟩ := h
  obtain rfl := Except.ok.inj h
  exact ⟨rfl, rfl⟩

/-- The callee of a call by keywords is its first entry. -/
theorem keywordRequest_ok {count : Nat} {slots : List (Option Value)} {req : CallRequest}
    (h : keywordRequest count slots = .ok req) :
    slots.head? = some (some req.callee) ∧ req.slots = slots.length := by
  unfold keywordRequest at h
  split at h
  · exact nomatch h
  · simp only [except_bind_ok, Prod.exists, firstArgument_ok] at h
    obtain ⟨callee, rest, rfl, values, -, h⟩ := h
    obtain rfl := Except.ok.inj h
    exact ⟨rfl, rfl⟩

/-! ## §4. The request of any call instruction. -/

namespace Instruction

/-- The call that a call instruction reads off its entries. -/
def read (i : Instruction) (slots : List (Option Value)) : VmAction CallRequest :=
  match i.opcode with
  | .callMethod => VmAction.ofExcept (methodRequest slots)
  | .callFunctionKw => VmAction.ofExcept (keywordRequest i.arg.toNat slots)
  | .callFunctionEx => collectedRequest slots
  | _ => VmAction.ofExcept (functionRequest slots)

/-- Which entries a call instruction reads as which call, with the lists and dicts of a
store. -/
def ReadsAs (i : Instruction) (s : Store) (slots : List (Option Value)) (req : CallRequest) :
    Prop :=
  i.read slots { store := s } = .ok req { store := s }

/-- Three of the four call instructions read nothing but their entries. -/
theorem read_cases (i : Instruction) (slots : List (Option Value)) :
    (∃ r : Except Fault CallRequest, i.read slots = VmAction.ofExcept r ∧
        ∀ req, r = .ok req → slots.head? = some (some req.callee) ∧ req.slots = slots.length) ∨
      (i.opcode = .callFunctionEx ∧ i.read slots = collectedRequest slots) := by
  unfold read
  split
  · exact .inl ⟨_, rfl, fun _ => methodRequest_ok⟩
  · exact .inl ⟨_, rfl, fun _ => keywordRequest_ok⟩
  · next ho => exact .inr ⟨ho, rfl⟩
  · exact .inl ⟨_, rfl, fun _ => functionRequest_ok⟩

theorem read_ok {i : Instruction} {slots : List (Option Value)} {vm vm' : Vm}
    {req : CallRequest} :
    i.read slots vm = .ok req vm' ↔ vm' = vm ∧ i.ReadsAs vm.store slots req := by
  unfold ReadsAs
  obtain ⟨r, hr, -⟩ | ⟨-, hr⟩ := i.read_cases slots
  · rw [hr, ofExcept_ok, ofExcept_ok]
    constructor
    · rintro ⟨h, rfl⟩
      exact ⟨rfl, h, rfl⟩
    · rintro ⟨rfl, h, -⟩
      exact ⟨h, rfl⟩
  · rw [hr, collectedRequest_ok, collectedRequest_ok]
    simp only [true_and]

/-- The callee of a call is its first entry, and the result replaces all of them. -/
theorem ReadsAs.callee {i : Instruction} {s : Store} {slots : List (Option Value)}
    {req : CallRequest} (h : i.ReadsAs s slots req) :
    slots.head? = some (some req.callee) ∧ req.slots = slots.length := by
  unfold ReadsAs at h
  obtain ⟨r, hr, hcallee⟩ | ⟨-, hr⟩ := i.read_cases slots
  · rw [hr, ofExcept_ok] at h
    exact hcallee req h.1
  · rw [hr, collectedRequest_ok] at h
    obtain ⟨-, callee, sequence, rest, positional, keywords, rfl, -, -, rfl⟩ := h
    exact ⟨rfl, rfl⟩

theorem mem_collected {i : Instruction} {slots : List (Option Value)} {c : Container} :
    c ∈ i.collected slots ↔ i.opcode = .callFunctionEx ∧
      ∃ v, some v ∈ slots.tail ∧ v.container? = some c := by
  unfold collected
  split <;> simp [*]

/-- A call reads nothing of the store but what holds its collected arguments. -/
theorem ReadsAs.congr {i : Instruction} {s s' : Store} {slots : List (Option Value)}
    {req : CallRequest} (h : i.ReadsAs s slots req)
    (hkept : ∀ c ∈ i.collected slots, s'.contents c = s.contents c) : i.ReadsAs s' slots req := by
  obtain ⟨r, hr, -⟩ | ⟨ho, hr⟩ := i.read_cases slots
  · rw [ReadsAs, hr, ofExcept_ok] at h ⊢
    exact ⟨h.1, rfl⟩
  · rw [ReadsAs, hr, collectedRequest_ok] at h ⊢
    obtain ⟨-, callee, sequence, rest, positional, keywords, rfl, hpos, hnamed, hreq⟩ := h
    refine ⟨rfl, callee, sequence, rest, positional, keywords, rfl, ?_, ?_, hreq⟩
    · cases sequence with
      | list place =>
          have hlist := hkept (.list place)
            (mem_collected.mpr ⟨ho, _, List.mem_cons_self .., rfl⟩)
          show Except.ok (s'.list place).toList = _
          rw [Sum.inl.inj hlist]
          exact hpos
      | _ => exact hpos
    · unfold namedOnTop at hnamed ⊢
      split at hnamed
      · exact hnamed
      · next place tail =>
          have hdict := hkept (.dict place)
            (mem_collected.mpr ⟨ho, _, List.mem_cons_of_mem _ (List.mem_cons_self ..), rfl⟩)
          show some (s'.dict place) = _
          rw [Sum.inr.inj hdict]
          exact hnamed
      · exact nomatch hnamed

end Instruction

theorem callRequest_eq (i : Instruction) :
    callRequest i = onFrame (FrameAction.topSlots i.callSize) >>= i.read := by
  unfold callRequest Instruction.callSize Instruction.read
  cases i.opcode <;> rfl

/-- A call instruction reads the entries of its size and changes nothing. -/
theorem callRequest_ok {i : Instruction} {vm vm' : Vm} {f : Frame} {rest : List Frame}
    (hf : vm.frames = f :: rest) {req : CallRequest} :
    callRequest i vm = .ok req vm' ↔
      vm' = vm ∧ ∃ slots, f.topSlots i.callSize = .ok slots ∧ i.ReadsAs vm.store slots req := by
  rw [callRequest_eq]
  simp only [action_bind_ok, onFrame_topSlots_ok hf, Instruction.read_ok]
  constructor
  · rintro ⟨slots, _, ⟨hs, rfl⟩, rfl, h⟩
    exact ⟨rfl, slots, hs, h⟩
  · rintro ⟨rfl, slots, hs, h⟩
    exact ⟨slots, _, ⟨hs, rfl⟩, rfl, h⟩

/-! ## §5. Suspended frames. -/

/-- A frame is suspended in a call instruction that asks for a call, with the
lists and dicts of a store. -/
structure Frame.SuspendedIn (f : Frame) (s : Store) (i : Instruction) (req : CallRequest) :
    Prop where
  decodes : decodeAt f.code.bytes f.current = .ok i
  isCall : i.opcode.isCall = true
  next_eq : f.next = i.next
  reads : ∃ slots, f.topSlots i.callSize = .ok slots ∧ i.ReadsAs s slots req

namespace Frame

theorem topSlots_ok {f : Frame} {n : Nat} {slots : List (Option Value)} :
    f.topSlots n = .ok slots ↔ n ≤ f.depth ∧ f.slots.toList.drop (f.slots.size - n) = slots := by
  unfold topSlots
  split
  · next h => simp [Nat.not_le_of_lt h]
  · next h => simp [Nat.le_of_not_lt h]

/-- The entries are read off the slots and the number of locals. -/
theorem topSlots_ok_congr {f g : Frame} (hf : g.function = f.function) (hs : g.slots = f.slots)
    {n : Nat} {slots : List (Option Value)} (h : f.topSlots n = .ok slots) :
    g.topSlots n = .ok slots := by
  obtain ⟨hn, hl⟩ := topSlots_ok.mp h
  refine topSlots_ok.mpr ⟨?_, ?_⟩
  · unfold depth nlocals code
    rw [hf, hs]
    exact hn
  · rw [hs, hl]

theorem callSlots_eq {f : Frame} {i : Instruction} {slots : List (Option Value)}
    (h : f.topSlots i.callSize = .ok slots) : f.callSlots i = slots :=
  (topSlots_ok.mp h).2

/-- What waits for the result of the call a frame is suspended in. -/
def waiting (f : Frame) : Pending :=
  .site ((f.site?.map Instruction.callSize).getD 0)

namespace SuspendedIn

variable {f : Frame} {s : Store} {i : Instruction} {req : CallRequest}

theorem site?_eq (h : f.SuspendedIn s i req) : f.site? = some i := by
  rw [site?, h.decodes]
  rfl

/-- The callee a suspended frame asks for is the one in its slot. -/
theorem callee?_eq (h : f.SuspendedIn s i req) : f.callee? = some req.callee := by
  obtain ⟨slots, hs, hr⟩ := h.reads
  rw [callee?, h.site?_eq]
  show (f.callSlots i).head?.join = _
  rw [callSlots_eq hs, hr.callee.1]
  rfl

/-- What waits for the result of the call a suspended frame asks for. -/
theorem waiting_eq (h : f.SuspendedIn s i req) : f.waiting = .site req.slots := by
  obtain ⟨slots, hs, hr⟩ := h.reads
  obtain ⟨hsize, hslots⟩ := topSlots_ok.mp hs
  have hlength : slots.length = i.callSize := by
    rw [← hslots, List.length_drop, Array.length_toList]
    unfold depth at hsize
    omega
  rw [waiting, h.site?_eq, hr.callee.2, hlength]
  rfl

/-- With the same collected arguments it asks for the same call. -/
theorem congr {s' : Store} (h : f.SuspendedIn s i req)
    (hkept : ∀ c ∈ f.collected, s'.contents c = s.contents c) : f.SuspendedIn s' i req := by
  obtain ⟨slots, hs, hr⟩ := h.reads
  refine ⟨h.decodes, h.isCall, h.next_eq, slots, hs, hr.congr fun c hc => hkept c ?_⟩
  rw [collected, h.site?_eq]
  show c ∈ i.collected (f.callSlots i)
  rwa [callSlots_eq hs]

end SuspendedIn

end Frame

/-- A call instruction executed asks for its call. -/
theorem execute_of_isCall {i : Instruction} (hi : i.opcode.isCall = true) :
    execute i = callRequest i >>= fun request => pure (.call request) := by
  unfold execute
  revert hi
  cases i.opcode <;> intro hi <;> first | rfl | exact nomatch hi

/-- A frame that has fetched its next instruction. -/
def Frame.fetched (f : Frame) (i : Instruction) : Frame :=
  { f with current := f.next, next := i.next }

theorem VmAction.fetch_of_decodeAt {vm : Vm} {f : Frame} {rest : List Frame} {i : Instruction}
    (hf : vm.frames = f :: rest) (hi : decodeAt f.code.bytes f.next = .ok i) :
    onFrame FrameAction.fetch vm = .ok i { vm with frames := f.fetched i :: rest } := by
  rw [onFrame_apply hf]
  simp only [FrameAction.fetch, bind, EStateM.bind, get, getThe, MonadStateOf.get, EStateM.get,
    hi]
  rfl

theorem VmAction.fetch_of_decodeAt_error {vm : Vm} {f : Frame} {rest : List Frame}
    {e : DecodeError} (hf : vm.frames = f :: rest) (he : decodeAt f.code.bytes f.next = .error e) :
    onFrame FrameAction.fetch vm = .error (.decode e) { vm with frames := f :: rest } := by
  rw [onFrame_apply hf]
  simp only [FrameAction.fetch, bind, EStateM.bind, get, getThe, MonadStateOf.get, EStateM.get,
    he]
  rfl

/-- A frame that stands before a call instruction asks for its call. -/
theorem Run.stepFrame_of_call (pending : List Pending) {vm : Vm} {f : Frame} {rest : List Frame}
    {i : Instruction} {slots : List (Option Value)} {req : CallRequest}
    (hf : vm.frames = f :: rest) (hi : decodeAt f.code.bytes f.next = .ok i)
    (hc : i.opcode.isCall = true) (hs : f.topSlots i.callSize = .ok slots)
    (hr : i.ReadsAs vm.store slots req) :
    stepFrame vm pending =
      ⟨{ vm with frames := f.fetched i :: rest }, .site req.slots :: pending,
        .call req.callee req.args⟩ := by
  have hdone : f.isDone = false := by
    have := lt_size_of_decodeAt hi
    simp only [Frame.isDone, decide_eq_false_iff_not]
    omega
  have hslots : (f.fetched i).topSlots i.callSize = .ok slots :=
    Frame.topSlots_ok_congr (f := f) (g := f.fetched i) rfl rfl hs
  have hreq : callRequest i { vm with frames := f.fetched i :: rest }
      = .ok req { vm with frames := f.fetched i :: rest } :=
    (callRequest_ok rfl).mpr ⟨rfl, slots, hslots, hr⟩
  unfold stepFrame
  rw [hf]
  simp only [hdone, Bool.false_eq_true, if_false, fetch_of_decodeAt hf hi, perform,
    execute_of_isCall hc, bind, EStateM.bind, hreq]
  rfl

end Resumable
