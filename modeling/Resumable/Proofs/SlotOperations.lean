/-
  Resumable.Proofs.SlotOperations
  ───────────────────────────────
  **WHAT CODE DOES TO THE SLOTS OF ITS FRAME.**

  Locals and operands share one array, and code that nobody has checked tells how
  much to take off it, how far to cut it back and which local to set.  All it can
  do is a sequence of eight operations, each with a guard of its own:

      push              on top
      popSlot drop      off the top            if the stack has that many entries
      peek topSlots     a look at the top      if the stack has that many entries
      swap              the top two            if the stack has two
      truncate          back to a slot count   but never into the locals
      setLocal          a local                if there is such a local

  `Frame.Worked` is the closure of these operations, and of changes to what is not
  slots.  A frame that has slots for its locals keeps them whatever is done to it,
  so each operation that passes its guard finds the slots it is after; and only
  `setLocal` touches a local, the one it sets.

  Main results:
    • `Frame.HasLocals.inRange` — operations on a frame with its locals are in range,
    • `Frame.Worked.hasLocals`, `Frame.Worked.sameLocals` — what sequences keep,
    • `worked_execute`, `worked_unwind` — instructions and unwinding are sequences.
-/
import Resumable.Proofs.Untouched

namespace Resumable

open VmAction

/-! ## §1. Operations. -/

/-- What is done to the slots of a frame. -/
inductive SlotOp where
  | push (content : Option Value)
  | popSlot
  | peek (depth : Nat)
  | topSlots (count : Nat)
  | drop (count : Nat)
  | truncate (level : Nat)
  | swap
  | setLocal (slot : Nat) (content : Option Value)

namespace SlotOp

/-- The operation, but for what it answers. -/
def run : SlotOp → FrameAction Unit
  | push (some v) => FrameAction.push v
  | push none => FrameAction.pushEmpty
  | popSlot => do let _ ← FrameAction.popSlot
  | peek depth => do let _ ← FrameAction.peek depth
  | topSlots count => do let _ ← FrameAction.topSlots count
  | drop count => FrameAction.drop count
  | truncate level => FrameAction.truncate level
  | swap => FrameAction.swap
  | setLocal slot content => FrameAction.setLocal slot content

/-- The frame it leaves, whether it succeeds or fails. -/
def after (op : SlotOp) (f : Frame) : Frame :=
  stateAfter op.run f

/-- The local it sets. -/
def written? : SlotOp → Option Nat
  | setLocal slot _ => some slot
  | _ => none

end SlotOp

/-- An action leaves the same whether its result is used or not. -/
theorem stateAfter_discard {ε σ α : Type} (x : EStateM ε σ α) (s : σ) :
    stateAfter (do let _ ← x) s = stateAfter x s := by
  show stateAfter (EStateM.bind x fun _ => pure ()) s = _
  unfold stateAfter EStateM.bind
  cases x s <;> rfl

/-! ## §2. Frames with slots for their locals. -/

namespace Frame

/-- A frame has a slot for each of its locals. -/
def HasLocals (f : Frame) : Prop :=
  f.nlocals ≤ f.top

/-- Two states of one call have the same locals, but for the one that was written. -/
structure SameLocals (written : Option Nat) (f g : Frame) : Prop where
  function_eq : g.function = f.function
  local_eq : ∀ slot < f.nlocals, written ≠ some slot → g.slots[slot]? = f.slots[slot]?

/-- Each operation on the slots of a frame fails, or finds the slots it is after: those
of the stack, or the local it sets. -/
structure InRange (f : Frame) : Prop where
  popSlot : FrameAction.popSlot f = .error f.underflow f ∨
    ∃ i, ∃ h : i < f.slots.size, i + 1 = f.top ∧ f.nlocals ≤ i
      ∧ FrameAction.popSlot f = .ok f.slots[i] { f with slots := f.slots.take i }
  peek : ∀ depth, FrameAction.peek depth f = .error f.underflow f ∨
    ∃ i, ∃ h : i < f.slots.size, i + 1 + depth = f.top ∧ f.nlocals ≤ i
      ∧ FrameAction.peek depth f
        = match f.slots[i] with
          | some v => .ok v f
          | none => .error f.empty f
  topSlots : ∀ count, FrameAction.topSlots count f = .error f.underflow f ∨
    ∃ i, i + count = f.top ∧ f.nlocals ≤ i
      ∧ FrameAction.topSlots count f = .ok (f.slots.toList.drop i) f
  drop : ∀ count, FrameAction.drop count f = .error f.underflow f ∨
    ∃ i, i + count = f.top ∧ f.nlocals ≤ i
      ∧ FrameAction.drop count f = .ok () { f with slots := f.slots.take i }
  truncate : ∀ level, ∃ i ≤ f.top, f.nlocals ≤ i
    ∧ FrameAction.truncate level f = .ok () { f with slots := f.slots.take i }
  swap : FrameAction.swap f = .error f.underflow f ∨
    ∃ i, ∃ (hi : i < f.slots.size) (hi' : i + 1 < f.slots.size), i + 2 = f.top ∧ f.nlocals ≤ i
      ∧ FrameAction.swap f = .ok () { f with slots := f.slots.swap (i + 1) i hi' hi }
  setLocal : ∀ slot content,
    FrameAction.setLocal slot content f = .error (.internal (.localOutOfRange slot f.qualname)) f ∨
    ∃ h : slot < f.slots.size, slot < f.nlocals
      ∧ FrameAction.setLocal slot content f = .ok () { f with slots := f.slots.set slot content h }

variable {f g : Frame} {written : Option Nat}

theorem SameLocals.refl (written : Option Nat) (f : Frame) : f.SameLocals written f :=
  ⟨rfl, fun _ _ _ => rfl⟩

theorem nlocals_eq_of_function_eq (h : g.function = f.function) : g.nlocals = f.nlocals := by
  unfold nlocals code
  rw [h]

/-- Two changes that may set the same local. -/
theorem SameLocals.trans {k : Frame} (h₁ : f.SameLocals written g) (h₂ : g.SameLocals written k) :
    f.SameLocals written k := by
  refine ⟨h₂.function_eq.trans h₁.function_eq, fun slot hslot hne => ?_⟩
  have hg : slot < g.nlocals := by
    rw [nlocals_eq_of_function_eq h₁.function_eq]
    exact hslot
  rw [h₂.local_eq slot hg hne]
  exact h₁.local_eq slot hslot hne

/-- Where no local is set, none but the allowed one is. -/
theorem SameLocals.of_none (h : f.SameLocals none g) (written : Option Nat) : f.SameLocals written g :=
  ⟨h.function_eq, fun slot hslot _ => h.local_eq slot hslot nofun⟩

/-! ## §3. Each operation. -/

/-- Looking at an entry answers it or fails, and leaves the frame. -/
theorem peek_apply (depth : Nat) (f : Frame) :
    FrameAction.peek depth f = match f.peek depth with
      | .ok v => .ok v f
      | .error e => .error e f := by
  simp only [FrameAction.peek, bind, EStateM.bind, get, getThe, MonadStateOf.get, EStateM.get]
  cases f.peek depth <;> rfl

theorem topSlots_apply (count : Nat) (f : Frame) :
    FrameAction.topSlots count f = match f.topSlots count with
      | .ok slots => .ok slots f
      | .error e => .error e f := by
  simp only [FrameAction.topSlots, bind, EStateM.bind, get, getThe, MonadStateOf.get, EStateM.get]
  cases f.topSlots count <;> rfl

/-- The two entries on top are exchanged, if there are two. -/
theorem swap_apply (f : Frame) :
    FrameAction.swap f = match f.topSlots 2 with
      | .ok _ => .ok () { f with
          slots := f.slots.swapIfInBounds (f.slots.size - 1) (f.slots.size - 2) }
      | .error e => .error e f := by
  show EStateM.bind (FrameAction.topSlots 2) _ f = _
  unfold EStateM.bind
  rw [topSlots_apply]
  cases f.topSlots 2 <;> rfl

/-- A pop underflows, or takes the entry right below the top, above the locals. -/
theorem popSlot_cases (f : Frame) : FrameAction.popSlot f = .error f.underflow f ∨
    ∃ i, ∃ hi : i < f.slots.size, i + 1 = f.top ∧ f.nlocals ≤ i
      ∧ FrameAction.popSlot f = .ok f.slots[i] { f with slots := f.slots.take i } := by
  rw [FrameAction.popSlot_apply]
  by_cases hempty : f.slots.size ≤ f.nlocals
  · exact .inl (if_pos hempty)
  · rw [if_neg hempty]
    have hlast : f.slots.size - 1 < f.slots.size := by omega
    -- the entry that is read is the one that is taken off
    have hback : f.slots.back?.join = f.slots[f.slots.size - 1] := by
      rw [Array.back?_eq_getElem?, Array.getElem?_eq_getElem hlast, Option.join_some]
    have hpop : f.slots.pop = f.slots.take (f.slots.size - 1) := by
      apply Array.ext'
      rw [Array.toList_pop, List.dropLast_eq_take, Array.length_toList, toList_take]
    refine .inr ⟨f.slots.size - 1, hlast, Nat.sub_add_cancel (by omega), by omega, ?_⟩
    rw [hback, hpop]

section Ranges

variable (h : f.HasLocals)
include h

/-- Looking reaches no local. -/
theorem HasLocals.peek (depth : Nat) : FrameAction.peek depth f = .error f.underflow f ∨
    ∃ i, ∃ hi : i < f.slots.size, i + 1 + depth = f.top ∧ f.nlocals ≤ i
      ∧ FrameAction.peek depth f
        = match f.slots[i] with
          | some v => .ok v f
          | none => .error f.empty f := by
  unfold HasLocals top at h
  rw [peek_apply]
  unfold Frame.peek Frame.depth
  by_cases hshort : f.slots.size - f.nlocals ≤ depth
  · rw [if_pos hshort]
    exact .inl rfl
  · rw [if_neg hshort]
    have hin : f.slots.size - 1 - depth < f.slots.size := by omega
    have htop : f.slots.size - 1 - depth + 1 + depth = f.slots.size := by omega
    refine .inr ⟨f.slots.size - 1 - depth, hin, htop, by omega, ?_⟩
    rw [Array.getElem?_eq_getElem hin, Option.join_some]
    cases f.slots[f.slots.size - 1 - depth] <;> rfl

/-- A stack of `count` entries begins that far below the top. -/
theorem HasLocals.start_of_depth {count : Nat} (hdeep : ¬ f.depth < count) :
    f.slots.size - count + count = f.top ∧ f.nlocals ≤ f.slots.size - count := by
  unfold HasLocals top at h
  unfold Frame.depth at hdeep
  unfold top
  omega

/-- The entries of a call are the ones from some index on, above the locals. -/
theorem HasLocals.topSlots (count : Nat) : FrameAction.topSlots count f = .error f.underflow f ∨
    ∃ i, i + count = f.top ∧ f.nlocals ≤ i
      ∧ FrameAction.topSlots count f = .ok (f.slots.toList.drop i) f := by
  rw [topSlots_apply]
  unfold Frame.topSlots
  by_cases hshort : f.depth < count
  · rw [if_pos hshort]
    exact .inl rfl
  · rw [if_neg hshort]
    obtain ⟨htop, hle⟩ := h.start_of_depth hshort
    exact .inr ⟨f.slots.size - count, htop, hle, rfl⟩

/-- Dropping cuts the stack at an index above the locals. -/
theorem HasLocals.drop (count : Nat) : FrameAction.drop count f = .error f.underflow f ∨
    ∃ i, i + count = f.top ∧ f.nlocals ≤ i
      ∧ FrameAction.drop count f = .ok () { f with slots := f.slots.take i } := by
  rw [FrameAction.drop_apply]
  by_cases hshort : f.depth < count
  · exact .inl (if_pos hshort)
  · rw [if_neg hshort]
    obtain ⟨htop, hle⟩ := h.start_of_depth hshort
    exact .inr ⟨f.slots.size - count, htop, hle, rfl⟩

/-- So does cutting it to a level, however low that is. -/
theorem HasLocals.truncate (level : Nat) : ∃ i ≤ f.top, f.nlocals ≤ i
    ∧ FrameAction.truncate level f = .ok () { f with slots := f.slots.take i } := by
  unfold HasLocals top at h
  -- a level above the top cuts nothing
  refine ⟨min (max level f.nlocals) f.slots.size, Nat.min_le_right _ _, by omega, ?_⟩
  show EStateM.Result.ok () (f.truncated level) = _
  unfold truncated
  rw [take_eq_take_min]

/-- An exchange is between two entries above the locals. -/
theorem HasLocals.swap : FrameAction.swap f = .error f.underflow f ∨
    ∃ i, ∃ (hi : i < f.slots.size) (hi' : i + 1 < f.slots.size), i + 2 = f.top ∧ f.nlocals ≤ i
      ∧ FrameAction.swap f = .ok () { f with slots := f.slots.swap (i + 1) i hi' hi } := by
  rw [swap_apply]
  unfold Frame.topSlots
  by_cases hshort : f.depth < 2
  · rw [if_pos hshort]
    exact .inl rfl
  · rw [if_neg hshort]
    obtain ⟨htop, hle⟩ := h.start_of_depth hshort
    unfold top at htop
    have hsecond : f.slots.size - 2 < f.slots.size := by omega
    have hfirst : f.slots.size - 2 + 1 < f.slots.size := by omega
    have hlast : f.slots.size - 1 = f.slots.size - 2 + 1 := by omega
    refine .inr ⟨f.slots.size - 2, hsecond, hfirst, htop, hle, ?_⟩
    dsimp only
    rw [hlast, Array.swapIfInBounds_def, dif_pos hfirst, dif_pos hsecond]

/-- A local is set at an index among the locals, or not at all. -/
theorem HasLocals.setLocal (slot : Nat) (content : Option Value) :
    FrameAction.setLocal slot content f = .error (.internal (.localOutOfRange slot f.qualname)) f ∨
    ∃ hi : slot < f.slots.size, slot < f.nlocals
      ∧ FrameAction.setLocal slot content f
        = .ok () { f with slots := f.slots.set slot content hi } := by
  unfold HasLocals top at h
  rw [FrameAction.setLocal_apply]
  by_cases hslot : f.nlocals ≤ slot
  · exact .inl (if_pos hslot)
  · rw [if_neg hslot]
    have hin : slot < f.slots.size := by omega
    refine .inr ⟨hin, by omega, ?_⟩
    unfold Array.setIfInBounds
    rw [dif_pos hin]

/-- **Operations on a frame that has its locals are in range.** -/
theorem HasLocals.inRange : f.InRange :=
  ⟨f.popSlot_cases, h.peek, h.topSlots, h.drop, h.truncate, h.swap, h.setLocal⟩

end Ranges

/-! ## §4. Sequences of operations. -/

/-- An operation that sets no local but the one that may be written, or a change of what is
not slots. -/
inductive Turn (written : Option Nat) (f : Frame) : Frame → Prop
  | aside {g : Frame} : g.function = f.function → g.slots = f.slots → Turn written f g
  | op (op : SlotOp) : op.written? = none ∨ op.written? = written → Turn written f (op.after f)

/-- One after the other. -/
def Worked (written : Option Nat) : Frame → Frame → Prop :=
  Relation.ReflTransGen (Turn written)

/-- What keeps the locals, and slots for them. -/
structure Keeping (written : Option Nat) (f g : Frame) : Prop where
  locals : f.SameLocals written g
  hasLocals : g.HasLocals

/-- The stack is cut back, but not into the locals. -/
theorem keeping_take {i : Nat} (hle : f.nlocals ≤ i) (htop : i ≤ f.top) :
    f.Keeping written { f with slots := f.slots.take i } := by
  refine ⟨⟨rfl, fun slot hslot _ => getElem?_take_of_lt (Nat.lt_of_lt_of_le hslot hle)⟩, ?_⟩
  show f.nlocals ≤ (f.slots.take i).size
  rw [size_take_of_le htop]
  exact hle

/-- A push keeps the locals below the stack. -/
theorem keeping_withSlot (h : f.HasLocals) (slot : Option Value) :
    f.Keeping written (f.withSlot slot) := by
  unfold HasLocals top at h
  refine ⟨⟨rfl, fun k hk _ => ?_⟩, ?_⟩
  · show (f.slots.push slot)[k]? = f.slots[k]?
    rw [Array.getElem?_push, if_neg (by omega)]
  · show f.nlocals ≤ (f.slots.push slot).size
    rw [Array.size_push]
    omega

theorem keeping_of_ok {α : Type} {x : FrameAction α} {a : α} (hx : x f = .ok a g)
    (hg : f.Keeping written g) : f.Keeping written (stateAfter x f) := by
  unfold stateAfter
  rw [hx]
  exact hg

/-- What fails at once changes nothing. -/
theorem HasLocals.keeping_of_error {α : Type} {x : FrameAction α} {e : Fault} (h : f.HasLocals)
    (hx : x f = .error e f) : f.Keeping written (stateAfter x f) := by
  unfold stateAfter
  rw [hx]
  exact ⟨.refl written f, h⟩

/-- **An operation keeps the locals but the one it sets.** -/
theorem HasLocals.keeping (h : f.HasLocals) (op : SlotOp) : f.Keeping op.written? (op.after f) := by
  unfold SlotOp.after SlotOp.run
  cases op with
  | push content =>
      cases content with
      | some v => exact keeping_withSlot h (some v)
      | none => exact keeping_withSlot h none
  | popSlot =>
      rw [stateAfter_discard]
      rcases f.popSlot_cases with hfails | ⟨i, hi, htop, hle, hok⟩
      · exact h.keeping_of_error hfails
      · exact keeping_of_ok hok (keeping_take hle (Nat.le_of_lt hi))
  | peek depth =>
      rw [stateAfter_discard]
      rcases h.peek depth with hfails | ⟨i, hi, -, -, hlook⟩
      · exact h.keeping_of_error hfails
      · -- the entry is looked at, and may turn out empty
        cases hslot : f.slots[i] with
        | some v =>
            rw [hslot] at hlook
            exact keeping_of_ok hlook ⟨.refl _ f, h⟩
        | none =>
            rw [hslot] at hlook
            exact h.keeping_of_error hlook
  | topSlots count =>
      rw [stateAfter_discard]
      rcases h.topSlots count with hfails | ⟨i, -, -, hok⟩
      · exact h.keeping_of_error hfails
      · exact keeping_of_ok hok ⟨.refl _ f, h⟩
  | drop count =>
      rcases h.drop count with hfails | ⟨i, htop, hle, hok⟩
      · exact h.keeping_of_error hfails
      · exact keeping_of_ok hok (keeping_take hle (htop ▸ Nat.le_add_right i count))
  | truncate level =>
      obtain ⟨i, htop, hle, hok⟩ := h.truncate level
      exact keeping_of_ok hok (keeping_take hle htop)
  | swap =>
      rcases h.swap with hfails | ⟨i, hi, hi', -, hle, hok⟩
      · exact h.keeping_of_error hfails
      · refine keeping_of_ok hok ⟨⟨rfl, fun slot hslot _ => ?_⟩, ?_⟩
        · -- the two entries are above the locals
          show (f.slots.swap (i + 1) i hi' hi)[slot]? = f.slots[slot]?
          rw [Array.getElem?_swap, if_neg (by omega), if_neg (by omega)]
        · show f.nlocals ≤ (f.slots.swap (i + 1) i hi' hi).size
          rw [Array.size_swap]
          exact h
  | setLocal slot content =>
      rcases h.setLocal slot content with hfails | ⟨hi, -, hok⟩
      · exact h.keeping_of_error hfails
      · refine keeping_of_ok hok ⟨⟨rfl, fun other _ hne => ?_⟩, ?_⟩
        · show (f.slots.set slot content hi)[other]? = f.slots[other]?
          rw [Array.getElem?_set_ne hi fun heq => hne (congrArg some heq)]
        · show f.nlocals ≤ (f.slots.set slot content hi).size
          rw [Array.size_set]
          exact h

/-- So does a sequence of operations. -/
theorem Worked.keeping (hwork : f.Worked written g) (h : f.HasLocals) : f.Keeping written g := by
  -- along the sequence: each operation finds a frame with its locals, by the ones before it
  induction hwork with
  | refl => exact ⟨.refl written f, h⟩
  | @tail b c _ hturn ih =>
      obtain ⟨hlocals, hb⟩ := ih
      cases hturn with
      | aside hfunction hslots =>
          refine ⟨hlocals.trans ⟨hfunction, fun slot _ _ => congrArg (·[slot]?) hslots⟩, ?_⟩
          unfold HasLocals top
          rw [nlocals_eq_of_function_eq hfunction, hslots]
          exact hb
      | op op hwritten =>
          obtain ⟨hafter, hhas⟩ := hb.keeping op
          refine ⟨hlocals.trans ?_, hhas⟩
          rcases hwritten with hnone | hsame
          · exact (hnone ▸ hafter).of_none written
          · exact hsame ▸ hafter

theorem Worked.refl (written : Option Nat) (f : Frame) : f.Worked written f :=
  Relation.ReflTransGen.refl

/-- Work on a frame composes. -/
theorem Worked.trans {k : Frame} (h₁ : f.Worked written g) (h₂ : g.Worked written k) :
    f.Worked written k :=
  Relation.ReflTransGen.trans h₁ h₂

/-- What is not slots is not worked on here. -/
theorem worked_aside (hfunction : g.function = f.function) (hslots : g.slots = f.slots) :
    f.Worked written g :=
  .single (.aside hfunction hslots)

/-- One operation of the list is work. -/
theorem worked_after (op : SlotOp) (h : op.written? = none ∨ op.written? = written) (f : Frame) :
    f.Worked written (op.after f) :=
  .single (.op op h)

theorem worked_withSlot (slot : Option Value) (f : Frame) : f.Worked written (f.withSlot slot) := by
  cases slot with
  | none => exact worked_after (.push none) (.inl rfl) f
  | some v => exact worked_after (.push (some v)) (.inl rfl) f

/-- An operation, with its result. -/
theorem worked_of_discard {α : Type} {x : FrameAction α} (op : SlotOp)
    (hop : op.run = (do let _ ← x)) (h : op.written? = none ∨ op.written? = written) :
    Keeps (Worked written) x := by
  intro f
  have hafter := worked_after op h f
  unfold SlotOp.after at hafter
  rwa [hop, stateAfter_discard] at hafter

/-- Each operation is a sequence of one. -/
theorem Worked.admits (written : Option Nat) : Frame.Admits written (Worked written) where
  trans := fun h₁ h₂ => h₁.trans h₂
  aside := fun hfunction _ _ hslots => worked_aside hfunction hslots
  withSlot := fun f slot => worked_withSlot slot f
  keeps_popSlot := worked_of_discard .popSlot rfl (.inl rfl)
  keeps_drop := fun count => worked_after (.drop count) (.inl rfl)
  keeps_truncate := fun level => worked_after (.truncate level) (.inl rfl)
  keeps_swap := worked_after .swap (.inl rfl)
  keeps_setLocal := fun slot content hslot => worked_after (.setLocal slot content) (.inr hslot.symm)

end Frame

/-! ## §5. Instructions. -/

/-- The innermost frame is worked on, and its callers are left alone. -/
inductive Frame.TopWorked (written : Option Nat) : List Frame → List Frame → Prop
  | none : TopWorked written [] []
  | top {f g : Frame} {rest : List Frame} :
      f.Worked written g → TopWorked written (f :: rest) (g :: rest)

/-- The innermost frame of a machine is worked on, and no other. -/
def Vm.WorksSlots (written : Option Nat) (vm vm' : Vm) : Prop :=
  Frame.TopWorked written vm.frames vm'.frames

namespace Frame.TopWorked

theorem refl (written : Option Nat) : ∀ frames : List Frame, TopWorked written frames frames
  | [] => .none
  | f :: _ => .top (.refl written f)

/-- Work on the innermost frame, done twice. -/
theorem trans {written : Option Nat} {fs gs ks : List Frame} (h₁ : TopWorked written fs gs)
    (h₂ : TopWorked written gs ks) : TopWorked written fs ks := by
  cases h₁ with
  | none => exact h₂
  | top hfirst =>
      cases h₂ with
      | top hsecond => exact .top (hfirst.trans hsecond)

end Frame.TopWorked

namespace VmAction

open Vm (WorksSlots)

variable {written : Option Nat}

/-- Operations on the innermost frame. -/
theorem worked_onFrame {α : Type} {x : FrameAction α} (hx : Keeps (Frame.Worked written) x) :
    Keeps (WorksSlots written) (onFrame x) := by
  intro vm
  unfold WorksSlots stateAfter
  cases hframes : vm.frames with
  | nil =>
      rw [show onFrame x vm = .error (.internal .noActiveFrame) vm by simp only [onFrame, hframes]]
      dsimp only
      rw [hframes]
      exact .none
  | cons f rest =>
      have h := hx f
      unfold stateAfter at h
      rw [onFrame_apply hframes]
      cases hrun : x f with
      | ok a g =>
          rw [hrun] at h
          exact .top h
      | error e g =>
          rw [hrun] at h
          exact .top h

/-- What leaves the frames alone does nothing to them. -/
theorem worksSlots_of_frames_eq {vm vm' : Vm} (h : vm'.frames = vm.frames) :
    vm.WorksSlots written vm' := by
  unfold WorksSlots
  rw [h]
  exact .refl written _

end VmAction

/-- Working on slots is a relation that instructions keep. -/
theorem Vm.WorksSlots.admits (written : Option Nat) : Vm.Admits written (WorksSlots written) where
  trans := Frame.TopWorked.trans
  data := fun hframes _ _ _ _ => VmAction.worksSlots_of_frames_eq hframes
  keeps_onFrame := fun hx => VmAction.worked_onFrame (hx _ (Frame.Worked.admits written))

namespace VmAction

open Vm (WorksSlots)

variable {written : Option Nat}

/-- **Every instruction is a sequence of operations**, and sets no local but its own. -/
theorem worked_execute (i : Instruction) : Keeps (WorksSlots i.written?) (execute i) :=
  (WorksSlots.admits _).keeps_execute fun _ _ _ => worksSlots_of_frames_eq rfl

/-- **Unwinding is a sequence of operations**, and sets no local. -/
theorem worked_unwind (exc : Value) : Keeps (WorksSlots written) (unwind exc) :=
  (WorksSlots.admits written).keeps_unwind (fun _ _ => worksSlots_of_frames_eq rfl) exc

theorem worked_finishCall (slots : Nat) (result : Value) :
    Keeps (WorksSlots written) (finishCall slots result) :=
  (WorksSlots.admits written).keeps_finishCall slots result

theorem worked_jump (target : Nat) :
    Keeps (WorksSlots written) (onFrame (modify fun f => { f with next := target })) :=
  (WorksSlots.admits written).keeps_jump target

end VmAction

end Resumable
