/-
  Resumable.Proofs.SavedException
  ───────────────────────────────
  **WHAT A FRAME WILL GIVE BACK.**

  A frame inside handlers owes the machine the exception that was handled before the
  outermost of them was entered.  Where the blocks of the frame are nested on its
  stack, that exception lies in one place, above the level of that handler:

      locals | … | type | value | trace | …    stack of the frame
                 ^ level  ^ owed

  and it stays there whatever the frame does, as long as no instruction takes an
  entry a block relies on (`Frame.Loose`):

      instructions      do not reach down to it
      try bodies        are opened and left above it
      handlers          a handler that is entered saves what is handled then,
                        a handler that is left gives it back

  Main results:
    • `Frame.restore_catching` — an exception that is caught leaves it as it was,
    • `Frame.settle_eq_restore` — an exception that is not gives it back,
    • `exists_frame_of_execute` — instructions keep it.
-/
import Resumable.Proofs.ExceptionRoutes

namespace Resumable

open VmAction

/-! ## §1. Nested blocks. -/

/-- Blocks are nested on a stack of `top` slots: what each relies on, its level and
the saved slots of a handler, lies below the level of the blocks inside it. -/
def Nested (nlocals : Nat) : Nat → List Block → Prop
  | _, [] => True
  | top, .handling level :: outer =>
      nlocals ≤ level ∧ level + savedSlots ≤ top ∧ Nested nlocals level outer
  | top, .guarded level _ :: outer => nlocals ≤ level ∧ level ≤ top ∧ Nested nlocals level outer

/-- Whether blocks are nested can be computed. -/
instance decidableNested (nlocals : Nat) :
    (top : Nat) → (blocks : List Block) → Decidable (Nested nlocals top blocks)
  | _, [] => .isTrue trivial
  | top, .handling level :: outer =>
      have := decidableNested nlocals level outer
      inferInstanceAs (Decidable (nlocals ≤ level ∧ level + savedSlots ≤ top ∧ _))
  | top, .guarded level _ :: outer =>
      have := decidableNested nlocals level outer
      inferInstanceAs (Decidable (nlocals ≤ level ∧ level ≤ top ∧ _))

/-- The level of the outermost handler among blocks. -/
def outermostHandler? : List Block → Option Nat
  | [] => none
  | .handling level :: outer => (outermostHandler? outer).or (some level)
  | .guarded _ _ :: outer => outermostHandler? outer

section Nesting

variable {nlocals top : Nat} {blocks : List Block}

theorem Nested.mono {top' : Nat} (h : Nested nlocals top blocks) (htop : top ≤ top') :
    Nested nlocals top' blocks := by
  cases blocks with
  | nil => trivial
  | cons b outer =>
      cases b with
      | guarded level handler => exact ⟨h.1, Nat.le_trans h.2.1 htop, h.2.2⟩
      | handling level => exact ⟨h.1, Nat.le_trans h.2.1 htop, h.2.2⟩

/-- The saved slots of the outermost handler lie on the stack. -/
theorem Nested.outermost_le {level : Nat} (h : Nested nlocals top blocks)
    (hlevel : outermostHandler? blocks = some level) :
    nlocals ≤ level ∧ level + savedSlots ≤ top := by
  induction blocks generalizing top with
  | nil => cases hlevel
  | cons b outer ih =>
      cases b with
      | guarded l handler =>
          have hrest := ih h.2.2 hlevel
          exact ⟨hrest.1, Nat.le_trans hrest.2 h.2.1⟩
      | handling l =>
          cases houter : outermostHandler? outer with
          | none =>
              unfold outermostHandler? at hlevel
              rw [houter] at hlevel
              obtain rfl := Option.some.inj hlevel
              exact ⟨h.1, h.2.1⟩
          | some k =>
              unfold outermostHandler? at hlevel
              rw [houter] at hlevel
              obtain rfl := Option.some.inj hlevel
              have hrest := ih h.2.2 houter
              have htop := h.2.1
              exact ⟨hrest.1, by omega⟩

/-- The saved slots of nested handlers start at their levels. -/
theorem Nested.savedStart_eq {level : Nat} {outer : List Block}
    (h : Nested nlocals top (.handling level :: outer)) : savedStart top level = level := by
  have htop := h.2.1
  unfold savedStart
  omega

theorem Nested.savedBelow (h : Nested nlocals top blocks) : SavedBelow nlocals top blocks := by
  induction blocks generalizing top with
  | nil => trivial
  | cons b outer ih =>
      cases b with
      | guarded level handler => exact ih (h.2.2.mono h.2.1)
      | handling level =>
          have hlocals := h.1
          have htop := h.2.1
          refine ⟨hlocals, by omega, ?_⟩
          rw [h.savedStart_eq]
          exact ih h.2.2

/-- What an exception leaves of the stack reaches up to the body that catches it. -/
theorem Nested.level_le_settledTop {body : TryBody} (h : Nested nlocals top blocks)
    (hbody : tryBodyIn blocks = some body) :
    nlocals ≤ body.level ∧ body.level ≤ settledTop top blocks
      ∧ Nested nlocals body.level body.outer := by
  induction blocks generalizing top with
  | nil => cases hbody
  | cons b outer ih =>
      cases b with
      | guarded level handler =>
          obtain rfl := Option.some.inj hbody
          exact h
      | handling level =>
          show _ ∧ _ ≤ settledTop (savedStart top level) outer ∧ _
          rw [h.savedStart_eq]
          exact ih h.2.2 hbody

/-- The outermost handler is one outside the body that catches, if there is any, or the
last one that is closed. -/
theorem Nested.outermost_eq {level : Nat} {outer : List Block}
    (h : Nested nlocals top (.handling level :: outer)) :
    outermostHandler? (.handling level :: outer)
      = ((tryBodyIn outer).bind fun body => outermostHandler? body.outer).or
          (some (settledTop level outer)) := by
  induction outer generalizing top level with
  | nil => rfl
  | cons b rest ih =>
      cases b with
      | guarded l handler => rfl
      | handling l =>
          have hrest := ih h.2.2
          show (outermostHandler? (.handling l :: rest)).or (some level)
            = ((tryBodyIn rest).bind _).or (some (settledTop (savedStart level l) rest))
          rw [hrest, h.2.2.savedStart_eq]
          cases ((tryBodyIn rest).bind fun body => outermostHandler? body.outer) <;> rfl

end Nesting

namespace Frame

/-- The blocks of the frame are nested below its top `count` entries. -/
def Loose (count : Nat) (f : Frame) : Prop :=
  Nested f.nlocals (f.slots.size - count) f.blocks

instance (count : Nat) (f : Frame) : Decidable (f.Loose count) :=
  decidableNested f.nlocals (f.slots.size - count) f.blocks

/-- Whether the frame is inside a handler. -/
def isHandling (f : Frame) : Bool :=
  (outermostHandler? f.blocks).isSome

/-- What is handled when all handlers of the frame are closed: what the outermost of
them keeps. -/
def restore (f : Frame) (handled : Option Value) : Option Value :=
  match outermostHandler? f.blocks with
  | some level => f.keptAt level
  | none => handled

variable {f g : Frame} {count count' : Nat} {handled : Option Value}

theorem restore_of_not_handling (h : f.isHandling = false) (handled : Option Value) :
    f.restore handled = handled := by
  unfold isHandling at h
  unfold restore
  cases houter : outermostHandler? f.blocks with
  | none => rfl
  | some level =>
      rw [houter] at h
      cases h

/-- Inside a handler it does not matter what is handled now. -/
theorem restore_of_handling (h : f.isHandling = true) (handled handled' : Option Value) :
    f.restore handled = f.restore handled' := by
  unfold isHandling at h
  unfold restore
  cases houter : outermostHandler? f.blocks with
  | some level => rfl
  | none =>
      rw [houter] at h
      cases h

/-! ## §2. Work in a frame. -/

theorem Loose.mono (h : f.Loose count) (hle : count' ≤ count) : f.Loose count' :=
  Nested.mono h (by omega)

theorem Loose.of_stays (h : f.Loose count) (hstays : f.Stays g)
    (hsize : f.slots.size - count ≤ g.slots.size - count') : g.Loose count' := by
  unfold Loose
  rw [hstays.nlocals_eq, hstays.blocks_eq]
  exact Nested.mono h hsize

/-- What a frame owes is kept by work above what its blocks rely on. -/
theorem restore_of_shares (h : f.Loose count) (hstays : f.Stays g)
    (hshares : f.Shares (f.slots.size - count) g) (handled : Option Value) :
    g.restore handled = f.restore handled := by
  unfold restore
  rw [hstays.blocks_eq]
  cases houter : outermostHandler? f.blocks with
  | none => rfl
  | some level =>
      obtain ⟨hlocals, htop⟩ := Nested.outermost_le h houter
      unfold savedSlots at htop
      show (g.slots[level + 1]?).join = (f.slots[level + 1]?).join
      rw [hshares (level + 1) (by omega) (by omega)]

/-- A try body makes no difference to it. -/
theorem restore_withBlocks {blocks : List Block}
    (h : outermostHandler? blocks = outermostHandler? f.blocks) (handled : Option Value) :
    ({ f with blocks := blocks } : Frame).restore handled = f.restore handled := by
  unfold restore
  show (match outermostHandler? blocks with | some level => f.keptAt level | none => handled) = _
  rw [h]

/-- A handler that is left gives back what it kept. -/
theorem restore_closed {level : Nat} {outer : List Block}
    (hblocks : f.blocks = .handling level :: outer) (h : f.Loose 0) (handled : Option Value) :
    (f.closed level outer).restore (f.keptAt level) = f.restore handled := by
  unfold Loose at h
  rw [hblocks] at h
  unfold restore
  rw [hblocks]
  show (match outermostHandler? outer with
    | some l => (f.closed level outer).keptAt l
    | none => f.keptAt level)
      = match (outermostHandler? outer).or (some level) with
        | some l => f.keptAt l
        | none => handled
  cases houter : outermostHandler? outer with
  | none => rfl
  | some l =>
      obtain ⟨-, hbelow⟩ := h.2.2.outermost_le houter
      unfold savedSlots at hbelow
      show ((f.slots.take (savedStart f.slots.size level))[l + 1]?).join = (f.slots[l + 1]?).join
      have hstart : savedStart f.slots.size level = level := h.savedStart_eq
      rw [hstart, getElem?_take_of_lt (by omega)]

/-! ## §3. Exceptions. -/

theorem Loose.inPlace (h : f.Loose 0) : f.InPlace :=
  Nested.savedBelow h

/-- The exception in a saved triplet. -/
theorem keptAt_of_triplet {level : Nat} {low above : List (Option Value)} {kept : Option Value}
    (h : f.slots.toList = low ++ savedTriplet kept ++ above) (hlow : low.length = level) :
    f.keptAt level = kept := by
  unfold keptAt
  rw [← Array.getElem?_toList, h, List.append_assoc, List.getElem?_append_right (by omega), hlow,
    Nat.add_sub_cancel_left]
  cases kept <;> rfl

/-- What is owed, told from the body that catches: what the outermost handler outside
it keeps, or what is handled when the handlers inside it are closed. -/
theorem restore_eq (h : f.Loose 0) (handled : Option Value) :
    f.restore handled =
      match f.tryBody?.bind fun body => outermostHandler? body.outer with
      | some level => f.keptAt level
      | none => f.settle handled := by
  have hnested : Nested f.nlocals f.slots.size f.blocks := h
  unfold restore tryBody? settle
  cases hblocks : f.blocks with
  | nil => rfl
  | cons b outer =>
      rw [hblocks] at hnested
      cases b with
      | guarded level handler => rfl
      | handling level =>
          have hstart : settledTop f.slots.size (.handling level :: outer) = settledTop level outer := by
            show settledTop (savedStart f.slots.size level) outer = _
            rw [hnested.savedStart_eq]
          rw [hnested.outermost_eq, hstart]
          show _ = match (tryBodyIn outer).bind fun body => outermostHandler? body.outer with
            | some l => f.keptAt l
            | none => f.keptAt (settledTop level outer)
          cases ((tryBodyIn outer).bind fun body => outermostHandler? body.outer) <;> rfl

/-- **An exception that is not caught** makes the frame give back what it owes. -/
theorem settle_eq_restore (h : f.Loose 0) (hbody : f.tryBody? = none) (handled : Option Value) :
    f.settle handled = f.restore handled := by
  rw [restore_eq h, hbody]
  rfl

/-- **An exception that is caught** leaves what the frame owes as it was. -/
theorem restore_catching {body : TryBody} (h : f.Loose 0) (hbody : f.tryBody? = some body)
    (exc : Value) (handled handled' : Option Value) :
    (f.catching body (f.settle handled) exc).restore handled' = f.restore handled := by
  have hnested : Nested f.nlocals f.slots.size f.blocks := h
  obtain ⟨hlocals, htop, houter⟩ := hnested.level_le_settledTop hbody
  have htop' : body.level ≤ f.slots.size := Nat.le_trans htop (settledTop_le _ _)
  -- the handler starts where the body started
  have hslots : (f.catching body (f.settle handled) exc).slots.toList
      = f.slots.toList.take body.level ++ savedTriplet (f.settle handled) ++ [some exc] := by
    show (f.settledSlots.take (max body.level f.nlocals) ++ savedTriplet (f.settle handled)
      ++ [some exc]).toList = _
    rw [Nat.max_eq_left hlocals, Array.toList_appendList, Array.toList_appendList]
    unfold settledSlots
    rw [take_take_of_le htop, toList_take]
  have hlength : (f.slots.toList.take body.level).length = body.level := by
    rw [List.length_take, Array.length_toList]
    omega
  rw [restore_eq h, hbody]
  unfold restore
  show (match (outermostHandler? body.outer).or (some body.level) with
    | some l => (f.catching body (f.settle handled) exc).keptAt l
    | none => handled')
      = match outermostHandler? body.outer with
        | some l => f.keptAt l
        | none => f.settle handled
  cases hlevel : outermostHandler? body.outer with
  | some l =>
      obtain ⟨-, hbelow⟩ := houter.outermost_le hlevel
      unfold savedSlots at hbelow
      show ((f.catching body (f.settle handled) exc).slots[l + 1]?).join = (f.slots[l + 1]?).join
      rw [← Array.getElem?_toList, hslots, List.append_assoc, List.getElem?_append_left (by omega),
        List.getElem?_take_of_lt (by omega), Array.getElem?_toList]
  | none =>
      -- the saved slots are the handler's own
      exact keptAt_of_triplet hslots hlength

end Frame

/-! ## §4. Instructions. -/

/-- The entries on top of the stack that an instruction works on. -/
def Instruction.reach (i : Instruction) : Nat :=
  match i.opcode with
  | .forIter => 1
  | .callFunction | .callMethod | .callFunctionKw | .callFunctionEx => i.callSize
  | _ => i.pops

theorem Instruction.pops_le_reach (i : Instruction) : i.pops ≤ i.reach := by
  obtain ⟨offset, opcode, arg⟩ := i
  cases opcode <;> first | exact Nat.le_refl _ | exact Nat.zero_le _

/-- Whether an instruction opens or leaves a block. -/
def Opcode.isOnBlocks : Opcode → Bool
  | .setupExcept | .popBlock | .popExcept => true
  | _ => false

open Vm (innermost?)

/-- Whatever an action comes to, it leaves the blocks of the innermost frame and the
entries below the top `count` alone. -/
def Digs {α : Type} (count : Nat) (x : VmAction α) : Prop :=
  ∀ vm f, vm.innermost? = some f → ∃ g, (stateAfter x vm).innermost? = some g ∧ f.Stays g
    ∧ f.slots.size ≤ g.slots.size + count ∧ f.Shares (f.slots.size - count) g

section Digging

variable {α β : Type} {p q count : Nat}

theorem digs_of_sized {x : VmAction α} (h : Sized innermost? p q x) (hle : p ≤ count) :
    Digs count x := by
  intro vm f hf
  unfold stateAfter
  cases hrun : x vm with
  | ok a u =>
      obtain ⟨g, hg, hstays, hsize, hshares⟩ := h.of_ok hf hrun
      exact ⟨g, hg, hstays, by omega, hshares.mono (by omega)⟩
  | error e u =>
      obtain ⟨g, hg, hstays, hsize, hshares⟩ := h.of_error hf hrun
      exact ⟨g, hg, hstays, by omega, hshares.mono (by omega)⟩

/-- One action after another: what the second takes comes first out of what the
first has left. -/
theorem digs_bind {m : Nat} {x : VmAction α} {k : α → VmAction β} (hx : Sized innermost? p q x)
    (hk : ∀ a, Digs m (k a)) (hle : p + (m - q) ≤ count) : Digs count (x >>= k) := by
  intro vm f hf
  have hbind : (x >>= k) vm = EStateM.bind x k vm := rfl
  unfold stateAfter
  rw [hbind]
  unfold EStateM.bind
  cases hrun : x vm with
  | error e u =>
      obtain ⟨g, hg, hstays, hsize, hshares⟩ := hx.of_error hf hrun
      exact ⟨g, hg, hstays, by omega, hshares.mono (by omega)⟩
  | ok a u =>
      obtain ⟨g, hg, hstays, hsize, hshares⟩ := hx.of_ok hf hrun
      obtain ⟨l, hl, hstays', hsize', hshares'⟩ := hk a u g hg
      refine ⟨l, hl, hstays.trans hstays', by omega, ?_⟩
      exact (hshares.mono (by omega)).trans (hshares'.mono (by omega)) hstays.nlocals_eq
        (Nat.le_refl _)

/-- The head of a loop takes the iterator off when it is exhausted. -/
theorem digs_loopHead (exit : Nat) : Digs 1 (loopHead exit) := by
  refine digs_bind (m := 1) sized_nextOfTop (fun item => ?_) (Nat.le_refl _)
  cases item with
  | some item =>
      exact digs_of_sized (Sized.bind (m := 0) (n := 0) (sized_push item) fun _ => sized_pure _)
        (Nat.zero_le _)
  | none =>
      exact digs_of_sized (Sized.bind (m := 0) (n := 0) sized_pop fun _ => sized_pure _)
        (Nat.le_refl _)

/-- A product takes its operands, also where the program breaks off. -/
theorem digs_multiplyTop : Digs 2 multiplyTop := by
  refine digs_bind (m := 0) (sized_onFrame FrameAction.sized_operands) (fun taken => ?_)
    (Nat.le_refl _)
  show Digs 0 (pushProduct taken.1 taken.2)
  cases hproduct : multiply taken.1 taken.2 with
  | none =>
      unfold pushProduct
      rw [hproduct]
      exact digs_of_sized (sized_pure _) (Nat.le_refl _)
  | some product => exact digs_of_sized (sized_pushProduct hproduct) (Nat.le_refl _)

/-- No instruction but those on blocks digs deeper than it reaches. -/
theorem digs_execute {i : Instruction} (h : i.opcode.isOnBlocks = false) :
    Digs i.reach (execute i) := by
  by_cases hplain : i.opcode.isPlain = true
  · -- a product may break the program off, so its size is not told by what it pops
    by_cases hproduct : i.opcode = .binaryMultiply
    · obtain ⟨offset, opcode, arg⟩ := i
      subst hproduct
      exact digs_multiplyTop
    · exact digs_of_sized (sized_execute hplain hproduct) i.pops_le_reach
  · obtain ⟨offset, opcode, arg⟩ := i
    cases opcode with
    | returnValue =>
        exact digs_of_sized (Sized.bind (m := 0) (n := 0) sized_pop fun _ => sized_pure _)
          (Nat.le_refl _)
    | raise =>
        refine digs_of_sized (p := 1) (q := 0) (Sized.bind (m := 0) (n := 0) sized_pop fun v => ?_)
          (Nat.le_refl _)
        split
        · exact sized_pure _
        · exact sized_raise 0 0 _
    | jumpAbsolute => exact digs_of_sized (sized_pure _) (Nat.zero_le _)
    | popJumpIfFalse | popJumpIfTrue =>
        exact digs_of_sized (Sized.bind (m := 0) (n := 0) sized_pop fun _ =>
          Sized.bind (m := 0) (n := 0) sized_get fun _ => sized_pure _) (Nat.le_refl _)
    | forIter => exact digs_loopHead _
    | callFunction | callMethod | callFunctionKw | callFunctionEx =>
        exact digs_of_sized (Sized.bind (m := 0) (n := 0) (sized_callRequest _) fun _ => sized_pure _)
          (Nat.zero_le _)
    | popBlock | popExcept | setupExcept => cases h
    | _ => exact absurd rfl hplain

end Digging

variable {vm : Vm} {f : Frame} {rest : List Frame} {i : Instruction}

/-- **What an instruction leaves of its frame**, whatever it comes to. -/
theorem exists_frame_of_execute (h : i.opcode.isOnBlocks = false) (hframes : vm.frames = f :: rest) :
    ∃ g, (stateAfter (execute i) vm).frames = g :: rest ∧ f.Stays g
      ∧ f.slots.size ≤ g.slots.size + i.reach ∧ f.Shares (f.slots.size - i.reach) g := by
  obtain ⟨g, hg, hstays, hsize, hshares⟩ := digs_execute h vm f (Run.innermost?_eq hframes)
  obtain ⟨hg', -⟩ := Run.exists_frame_of_view (keeps_execute i vm) hframes hg
  exact ⟨g, hg', hstays, hsize, hshares⟩

/-- Leaving a handler. -/
theorem leaveHandler_eq {level : Nat} {outer : List Block} (hframes : vm.frames = f :: rest)
    (hblocks : f.blocks = .handling level :: outer) (hlocals : f.nlocals ≤ level)
    (htop : level + savedSlots ≤ f.slots.size) :
    leaveHandler vm = .ok ()
      { vm with
        frames := { f with blocks := outer, slots := f.slots.take level } :: rest
        handled := f.keptAt level } := by
  have hsaved := popSaved_of_le (f := { f with blocks := outer }) hlocals
    (show f.nlocals + savedSlots ≤ f.slots.size by omega)
  have hstart : savedStart f.slots.size level = level := by
    unfold savedStart
    omega
  have hrest : ({ vm with frames := { f with blocks := outer } :: rest } : Vm).frames
      = { f with blocks := outer } :: rest := rfl
  simp only [leaveHandler, bind, EStateM.bind, onFrame_apply hframes, FrameAction.popBlock,
    modifyGet, MonadStateOf.modifyGet, EStateM.modifyGet, hblocks, List.head?_cons,
    List.tail_cons, onFrame_apply hrest, hsaved, hstart, modify]
  rfl

/-- Only a handler can be left. -/
theorem leaveHandler_ok {vm' : Vm} (hframes : vm.frames = f :: rest) (hloose : f.Loose 0)
    (h : leaveHandler vm = .ok () vm') :
    ∃ level outer, f.blocks = .handling level :: outer
      ∧ vm' = { vm with frames := f.closed level outer :: rest, handled := f.keptAt level } := by
  obtain ⟨level, outer, -, -, hblocks, -, -⟩ := popSaved_of_leaveHandler hframes h
  have hnested : Nested f.nlocals f.slots.size (.handling level :: outer) := hblocks ▸ hloose
  have hstart : savedStart f.slots.size level = level := hnested.savedStart_eq
  rw [leaveHandler_eq hframes hblocks hnested.1 hnested.2.1] at h
  obtain ⟨-, rfl⟩ := EStateM.Result.ok.inj h
  refine ⟨level, outer, hblocks, ?_⟩
  unfold Frame.closed
  rw [hstart]

end Resumable
