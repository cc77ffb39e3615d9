/-
  Resumable.Proofs.StackEffect
  ────────────────────────────
  **WHAT AN INSTRUCTION DOES TO ITS FRAME, VALUES ASIDE.**

  Of a frame only three things decide where it can go: the offset of its next
  instruction, its blocks, and how many slots it has.

      plain          pops p, pushes q, goes on               (Sized p q)
      jumps          leave the blocks alone
      blocks         opened at the slot count, closed, left
      calls          replace their entries by the result
      exceptions     cut the stack back to a handler         (Unwinds)

  `Instruction.Goes` lists these ways, and every step of a run that keeps a frame
  is one of them, whatever the values are.

  `Sized p q x` is closed under sequencing: an action that takes `p` entries and
  leaves `q` in their place, then one with `m` and `n`, take `p + (m - q)`.

  Main results:
    • `Run.led_of_perform` — where the instruction a frame executes leads it,
    • `Run.led_of_site`    — where the end of the call it is suspended in leads it.
-/
import Resumable.Proofs.StepCases

namespace Resumable

open VmAction

/-! ## §1. Actions that resize a frame. -/

section Cut

variable {α : Type} {xs : Array α} {m n : Nat}

/-- Cut arrays are cut lists, for which the library has the laws. -/
theorem toList_take (xs : Array α) (n : Nat) : (xs.take n).toList = xs.toList.take n := by
  rw [Array.take_eq_extract, Array.toList_extract, List.extract_eq_take_drop, List.drop_zero,
    Nat.sub_zero]

theorem size_take_of_le (h : n ≤ xs.size) : (xs.take n).size = n := by
  rw [← Array.length_toList, toList_take, List.length_take, Array.length_toList]
  omega

theorem take_size : xs.take xs.size = xs := by
  rw [Array.take_eq_extract, Array.extract_size]

/-- Of two cuts the deeper one stays. -/
theorem take_take_of_le (h : m ≤ n) : (xs.take n).take m = xs.take m := by
  apply Array.ext'
  rw [toList_take, toList_take, toList_take, List.take_take, Nat.min_eq_left h]

/-- A cut keeps the entries below it. -/
theorem getElem?_take_of_lt {i : Nat} (h : i < n) : (xs.take n)[i]? = xs[i]? := by
  rw [← Array.getElem?_toList, toList_take, List.getElem?_take_of_lt h, Array.getElem?_toList]

/-- A cut above the top does nothing. -/
theorem take_eq_take_min (n : Nat) : xs.take n = xs.take (min n xs.size) := by
  apply Array.ext'
  rw [toList_take, toList_take, ← Array.length_toList, List.take_eq_take_min]

/-- The top entry of a stack cut to `n + 1` entries. -/
theorem back?_take_succ (h : n < xs.size) : (xs.take (n + 1)).back? = xs[n]? := by
  rw [Array.back?_eq_getElem?, size_take_of_le h]
  exact getElem?_take_of_lt (Nat.lt_succ_self n)

/-- The rest of such a stack. -/
theorem pop_take_succ (h : n < xs.size) : (xs.take (n + 1)).pop = xs.take n := by
  apply Array.ext'
  rw [Array.toList_pop, List.dropLast_eq_take, Array.length_toList, size_take_of_le h, toList_take,
    toList_take, List.take_take]
  congr 1
  omega

end Cut

/-- Two states of one call that stand at the same place in the same blocks. -/
structure Frame.Stays (f g : Frame) : Prop where
  function_eq : g.function = f.function
  next_eq : g.next = f.next
  current_eq : g.current = f.current
  blocks_eq : g.blocks = f.blocks

namespace Frame.Stays

theorem refl (f : Frame) : f.Stays f :=
  ⟨rfl, rfl, rfl, rfl⟩

theorem trans {f g k : Frame} (h₁ : f.Stays g) (h₂ : g.Stays k) : f.Stays k :=
  ⟨h₂.1.trans h₁.1, h₂.2.trans h₁.2, h₂.3.trans h₁.3, h₂.4.trans h₁.4⟩

/-- The locals belong to the function. -/
theorem nlocals_eq {f g : Frame} (h : f.Stays g) : g.nlocals = f.nlocals := by
  unfold nlocals code
  rw [h.function_eq]

end Frame.Stays

/-- Two states of one call have the same entries on the stack below a slot count. -/
def Frame.Shares (top : Nat) (f g : Frame) : Prop :=
  ∀ k, f.nlocals ≤ k → k < top → g.slots[k]? = f.slots[k]?

namespace Frame.Shares

theorem refl (top : Nat) (f : Frame) : f.Shares top f :=
  fun _ _ _ => rfl

/-- Only the entries below both counts are kept for sure. -/
theorem trans {top top' : Nat} {f g k : Frame} (h₁ : f.Shares top g) (h₂ : g.Shares top' k)
    (hlocals : g.nlocals = f.nlocals) (htop : top' ≤ top) : f.Shares top' k := by
  intro slot hle hlt
  rw [h₂ slot (hlocals ▸ hle) hlt]
  exact h₁ slot hle (Nat.lt_of_lt_of_le hlt htop)

/-- A lower count asks for less. -/
theorem mono {top top' : Nat} {f g : Frame} (h : f.Shares top g) (htop : top' ≤ top) :
    f.Shares top' g :=
  fun slot hle hlt => h slot hle (Nat.lt_of_lt_of_le hlt htop)

end Frame.Shares

section Sizing

variable {ε σ α β : Type} {view : σ → Option Frame} {p q m n : Nat}

/-- The end of an action that takes `p` entries off the stack of a frame and
leaves `q` in their place; where it fails it may have taken fewer.  The entries
below are as they were. -/
def Resizes (view : σ → Option Frame) (p q : Nat) (f : Frame) : EStateM.Result ε σ α → Prop
  | .ok _ t => ∃ g, view t = some g ∧ f.Stays g ∧ g.slots.size + p = f.slots.size + q
      ∧ f.Shares (f.slots.size - p) g
  | .error _ t => ∃ g, view t = some g ∧ f.Stays g ∧ f.slots.size ≤ g.slots.size + p
      ∧ f.Shares (f.slots.size - p) g

/-- An action on a state that shows a frame resizes that frame. -/
def Sized (view : σ → Option Frame) (p q : Nat) (x : EStateM ε σ α) : Prop :=
  ∀ s f, view s = some f → Resizes view p q f (x s)

/-- What an action of known size leaves where it succeeds. -/
theorem Sized.of_ok {x : EStateM ε σ α} (h : Sized view p q x) {s t : σ} {f : Frame} {a : α}
    (hs : view s = some f) (hx : x s = .ok a t) :
    ∃ g, view t = some g ∧ f.Stays g ∧ g.slots.size + p = f.slots.size + q
      ∧ f.Shares (f.slots.size - p) g := by
  have := h s f hs
  rwa [hx] at this

/-- And where it fails: at least what it may take is still to be told from the rest. -/
theorem Sized.of_error {x : EStateM ε σ α} (h : Sized view p q x) {s t : σ} {f : Frame} {e : ε}
    (hs : view s = some f) (hx : x s = .error e t) :
    ∃ g, view t = some g ∧ f.Stays g ∧ f.slots.size ≤ g.slots.size + p
      ∧ f.Shares (f.slots.size - p) g := by
  have := h s f hs
  rwa [hx] at this

/-- To answer, or to look at the state, takes nothing. -/
theorem sized_pure (a : α) : Sized view 0 0 (pure a : EStateM ε σ α) :=
  fun _ f hs => ⟨f, hs, Frame.Stays.refl f, rfl, Frame.Shares.refl _ f⟩

theorem sized_get : Sized view 0 0 (get : EStateM ε σ σ) :=
  fun _ f hs => ⟨f, hs, Frame.Stays.refl f, rfl, Frame.Shares.refl _ f⟩

/-- What fails at once has taken nothing. -/
theorem sized_throw (p q : Nat) (e : ε) : Sized view p q (throw e : EStateM ε σ α) :=
  fun _ f hs => ⟨f, hs, Frame.Stays.refl f, Nat.le_add_right _ _, Frame.Shares.refl _ f⟩

/-- What does not touch the frame takes nothing. -/
theorem sized_modify {f : σ → σ} (h : ∀ s, view (f s) = view s) :
    Sized view 0 0 (modify f : EStateM ε σ PUnit) :=
  fun s g hs => ⟨g, (h s).trans hs, Frame.Stays.refl g, rfl, Frame.Shares.refl _ g⟩

theorem sized_modifyGet {f : σ → α × σ} (h : ∀ s, view (f s).2 = view s) :
    Sized view 0 0 (modifyGet f : EStateM ε σ α) :=
  fun s g hs => ⟨g, (h s).trans hs, Frame.Stays.refl g, rfl, Frame.Shares.refl _ g⟩

/-- One action after another: what the second takes comes first out of what the
first has left. -/
theorem Sized.bind {x : EStateM ε σ α} {k : α → EStateM ε σ β} (hx : Sized view p q x)
    (hk : ∀ a, Sized view m n (k a)) :
    Sized view (p + (m - q)) (n + (q - m)) (x >>= k) := by
  intro s f hs
  show Resizes view _ _ f (EStateM.bind x k s)
  unfold EStateM.bind
  cases hrun : x s with
  | error e t =>
      obtain ⟨g, hg, hstays, hsize, hshares⟩ := hx.of_error hs hrun
      exact ⟨g, hg, hstays, by omega, hshares.mono (by omega)⟩
  | ok a t =>
      obtain ⟨g, hg, hstays, hsize, hshares⟩ := hx.of_ok hs hrun
      -- below what both take, neither has changed anything
      have hall {l : Frame} (hrest : g.Shares (g.slots.size - m) l) :
          f.Shares (f.slots.size - (p + (m - q))) l :=
        (hshares.mono (by omega)).trans (hrest.mono (by omega)) hstays.nlocals_eq (Nat.le_refl _)
      dsimp only
      cases hrun' : k a t with
      | error e u =>
          obtain ⟨l, hl, hstays', hsize', hshares'⟩ := (hk a).of_error hg hrun'
          exact ⟨l, hl, hstays.trans hstays', by omega, hall hshares'⟩
      | ok b u =>
          obtain ⟨l, hl, hstays', hsize', hshares'⟩ := (hk a).of_ok hg hrun'
          exact ⟨l, hl, hstays.trans hstays', by omega, hall hshares'⟩

end Sizing

namespace FrameAction

/-! ## §2. Frames. -/

/-- A push is above every old entry. -/
theorem shares_withSlot (f : Frame) (slot : Option Value) :
    f.Shares f.slots.size (f.withSlot slot) := by
  intro k _ hk
  show (f.slots.push slot)[k]? = f.slots[k]?
  rw [Array.getElem?_push, if_neg (Nat.ne_of_lt hk)]

/-- A pushed value is one entry more, and so is a pushed empty slot. -/
theorem sized_push (v : Value) : Sized some 0 1 (push v) := by
  rintro f _ ⟨⟩
  exact ⟨f.withSlot (some v), rfl, ⟨rfl, rfl, rfl, rfl⟩, Array.size_push .., shares_withSlot f _⟩

theorem sized_pushEmpty : Sized some 0 1 pushEmpty := by
  rintro f _ ⟨⟩
  exact ⟨f.withSlot none, rfl, ⟨rfl, rfl, rfl, rfl⟩, Array.size_push .., shares_withSlot f _⟩

/-- A pop needs an entry above the locals. -/
theorem popSlot_apply (f : Frame) :
    popSlot f = if f.slots.size ≤ f.nlocals then .error f.underflow f
      else .ok f.slots.back?.join { f with slots := f.slots.pop } := by
  simp only [popSlot, bind, EStateM.bind, get, getThe, MonadStateOf.get, EStateM.get]
  split <;> rfl

/-- It takes the top entry, and where there is none it takes nothing. -/
theorem sized_popSlot : Sized some 1 0 popSlot := by
  rintro f _ ⟨⟩
  rw [popSlot_apply]
  by_cases hempty : f.slots.size ≤ f.nlocals
  · rw [if_pos hempty]
    exact ⟨f, rfl, Frame.Stays.refl f, by omega, Frame.Shares.refl _ f⟩
  · rw [if_neg hempty]
    refine ⟨_, rfl, ⟨rfl, rfl, rfl, rfl⟩, ?_, ?_⟩
    · show f.slots.pop.size + 1 = f.slots.size + 0
      rw [Array.size_pop]
      omega
    · intro k _ hk
      show f.slots.pop[k]? = f.slots[k]?
      rw [Array.getElem?_pop, if_pos hk]

/-- A value popped is a slot popped; an empty one fails after it is gone. -/
theorem sized_pop : Sized some 1 0 pop := by
  refine Sized.bind (m := 0) (n := 0) sized_popSlot fun slot => ?_
  split
  · exact sized_pure _
  · exact Sized.bind (m := 0) (n := 0) sized_get fun _ => sized_throw 0 0 _

/-- Reading entries, one or several, takes none. -/
theorem sized_peek (depth : Nat) : Sized some 0 0 (peek depth) := by
  refine Sized.bind (m := 0) (n := 0) sized_get fun f => ?_
  split
  · exact sized_pure _
  · exact sized_throw 0 0 _

theorem sized_topSlots (count : Nat) : Sized some 0 0 (topSlots count) := by
  refine Sized.bind (m := 0) (n := 0) sized_get fun f => ?_
  split
  · exact sized_pure _
  · exact sized_throw 0 0 _

/-- Entries are dropped all at once, if there are so many. -/
theorem drop_apply (count : Nat) (f : Frame) :
    drop count f = if f.depth < count then .error f.underflow f
      else .ok () { f with slots := f.slots.take (f.slots.size - count) } := by
  simp only [drop, bind, EStateM.bind, get, getThe, MonadStateOf.get, EStateM.get]
  split <;> rfl

/-- So either all of them go or none. -/
theorem sized_drop (count : Nat) : Sized some count 0 (drop count) := by
  rintro f _ ⟨⟩
  rw [drop_apply]
  by_cases hroom : f.depth < count
  · rw [if_pos hroom]
    exact ⟨f, rfl, Frame.Stays.refl f, by omega, Frame.Shares.refl _ f⟩
  · rw [if_neg hroom]
    unfold Frame.depth at hroom
    refine ⟨_, rfl, ⟨rfl, rfl, rfl, rfl⟩, ?_, ?_⟩
    · show (f.slots.take (f.slots.size - count)).size + count = f.slots.size + 0
      rw [Array.take_eq_extract, Array.size_extract]
      omega
    · intro k _ hk
      show (f.slots.take (f.slots.size - count))[k]? = f.slots[k]?
      exact getElem?_take_of_lt hk

/-- Exchanging two entries takes both and leaves them. -/
theorem sized_swap : Sized some 2 2 swap := by
  refine Sized.bind (m := 2) (n := 2) (sized_topSlots 2) fun _ => ?_
  rintro f _ ⟨⟩
  refine ⟨_, rfl, ⟨rfl, rfl, rfl, rfl⟩, ?_, ?_⟩
  · exact congrArg (· + 2) (Array.size_swapIfInBounds ..)
  · intro k _ hk
    show (f.slots.swapIfInBounds (f.slots.size - 1) (f.slots.size - 2))[k]? = f.slots[k]?
    rw [Array.swapIfInBounds_def]
    split
    · split
      · rw [Array.getElem?_swap, if_neg (by omega), if_neg (by omega)]
      · rfl
    · rfl

/-- A local is set in its slot, if there is one. -/
theorem setLocal_apply (slot : Nat) (content : Option Value) (f : Frame) :
    setLocal slot content f =
      if f.nlocals ≤ slot then .error (.internal (.localOutOfRange slot f.qualname)) f
      else .ok () { f with slots := f.slots.setIfInBounds slot content } := by
  simp only [setLocal, bind, EStateM.bind, get, getThe, MonadStateOf.get, EStateM.get]
  split <;> rfl

/-- Locals are not entries of the stack. -/
theorem sized_setLocal (slot : Nat) (content : Option Value) :
    Sized some 0 0 (setLocal slot content) := by
  rintro f _ ⟨⟩
  rw [setLocal_apply]
  by_cases hslot : f.nlocals ≤ slot
  · rw [if_pos hslot]
    exact ⟨f, rfl, Frame.Stays.refl f, Nat.le_refl _, Frame.Shares.refl _ f⟩
  · rw [if_neg hslot]
    refine ⟨_, rfl, ⟨rfl, rfl, rfl, rfl⟩, Array.size_setIfInBounds .., ?_⟩
    -- the locals are below the stack
    intro k hle _
    show (f.slots.setIfInBounds slot content)[k]? = f.slots[k]?
    exact Array.getElem?_setIfInBounds_ne (by omega)

/-- As many entries as there are values, by induction on their number. -/
theorem sized_popValues (count : Nat) (taken : List Value) :
    Sized some count 0 (popValues count taken) := by
  induction count generalizing taken with
  | zero => exact sized_pure taken
  | succ count ih =>
      have h := Sized.bind sized_pop fun value => ih (value :: taken)
      rwa [Nat.sub_zero, Nat.zero_sub, Nat.add_comm 1] at h

/-- Two operands, two entries. -/
theorem sized_operands : Sized some 2 0 operands :=
  Sized.bind (m := 1) (n := 0) sized_pop fun _ =>
    Sized.bind (m := 0) (n := 0) sized_pop fun _ => sized_pure _

end FrameAction

/-! ## §3. Machines. -/

/-- The innermost frame of a machine. -/
def Vm.innermost? (vm : Vm) : Option Frame :=
  vm.frames.head?

namespace VmAction

open Vm (innermost?)

variable {α : Type} {p q : Nat}

/-- An action on the innermost frame resizes it as it would any frame. -/
theorem sized_onFrame {x : FrameAction α} (hx : Sized some p q x) :
    Sized innermost? p q (onFrame x) := by
  intro vm f hf
  obtain ⟨rest, hframes⟩ := List.head?_eq_some_iff.mp hf
  rw [onFrame_apply hframes]
  have h := hx f f rfl
  cases hrun : x f with
  | ok a g =>
      rw [hrun] at h
      obtain ⟨_, ⟨⟩, hstays, hsize, hshares⟩ := h
      exact ⟨g, rfl, hstays, hsize, hshares⟩
  | error e g =>
      rw [hrun] at h
      obtain ⟨_, ⟨⟩, hstays, hsize, hshares⟩ := h
      exact ⟨g, rfl, hstays, hsize, hshares⟩

/-- An exception is made without the frame, and so is a breach. -/
theorem sized_raise (p q : Nat) (c : Cause) : Sized innermost? p q (raise c : VmAction α) :=
  fun _ f hf => ⟨f, hf, Frame.Stays.refl f, Nat.le_add_right _ _, Frame.Shares.refl _ f⟩

theorem sized_breach (p q : Nat) (b : Breach) : Sized innermost? p q (breach b : VmAction α) :=
  sized_throw p q _

/-- Neither answers nor failures of pure computations take anything. -/
theorem sized_lift (r : Except Cause α) : Sized innermost? 0 0 (lift r) := by
  cases r with
  | ok a => exact sized_pure a
  | error c => exact sized_raise 0 0 c

theorem sized_ofExcept (r : Except Fault α) : Sized innermost? 0 0 (ofExcept r) := by
  cases r with
  | ok a => exact sized_pure a
  | error e => exact sized_throw 0 0 e

/-- The store is not the frame. -/
theorem sized_onStore (x : Calc α) : Sized innermost? 0 0 (onStore x) := by
  intro vm f hf
  rw [onStore_apply]
  cases x.run vm.store with
  | ok r => exact ⟨f, hf, Frame.Stays.refl f, rfl, Frame.Shares.refl _ f⟩
  | error c => exact ⟨f, hf, Frame.Stays.refl f, Nat.le_refl _, Frame.Shares.refl _ f⟩

theorem sized_currentFrame : Sized innermost? 0 0 currentFrame :=
  sized_onFrame sized_get

theorem sized_push (v : Value) : Sized innermost? 0 1 (onFrame (FrameAction.push v)) :=
  sized_onFrame (FrameAction.sized_push v)

theorem sized_pop : Sized innermost? 1 0 (onFrame FrameAction.pop) :=
  sized_onFrame FrameAction.sized_pop

theorem sized_nameAt (index : Nat) : Sized innermost? 0 0 (nameAt index) := by
  refine Sized.bind (m := 0) (n := 0) sized_currentFrame fun f => ?_
  split
  · exact sized_pure _
  · exact sized_breach 0 0 _

/-- Constants, locals and globals are loaded onto the stack; where they are missing
nothing is. -/
theorem sized_loadConstant (index : Nat) : Sized innermost? 0 1 (loadConstant index) := by
  refine Sized.bind (m := 0) (n := 1) sized_currentFrame fun f => ?_
  split
  · exact sized_breach 0 1 _
  · exact Sized.bind (m := 0) (n := 1) (sized_onStore _) sized_push

theorem sized_loadLocal (slot : Nat) : Sized innermost? 0 1 (loadLocal slot) := by
  refine Sized.bind (m := 0) (n := 1) sized_currentFrame fun f => ?_
  split
  · exact sized_push _
  · exact sized_raise 0 1 _

/-- A store takes its value. -/
theorem sized_storeLocal (slot : Nat) : Sized innermost? 1 0 (storeLocal slot) :=
  sized_onFrame (Sized.bind (m := 0) (n := 0) FrameAction.sized_pop fun _ =>
    FrameAction.sized_setLocal slot _)

/-- To empty a local takes no entry. -/
theorem sized_deleteLocal (slot : Nat) : Sized innermost? 0 0 (deleteLocal slot) := by
  refine Sized.bind (m := 0) (n := 0) sized_currentFrame fun f => ?_
  split
  · exact sized_onFrame (FrameAction.sized_setLocal slot _)
  · exact sized_raise 0 0 _

theorem sized_loadGlobal (index : Nat) : Sized innermost? 0 1 (loadGlobal index) := by
  refine Sized.bind (m := 0) (n := 1) (sized_nameAt index) fun name =>
    Sized.bind (m := 0) (n := 1) sized_get fun vm => ?_
  split
  · exact sized_push _
  · exact sized_raise 0 1 _

theorem sized_storeGlobal (index : Nat) : Sized innermost? 1 0 (storeGlobal index) :=
  Sized.bind (m := 1) (n := 0) (sized_nameAt index) fun _ =>
    Sized.bind (m := 0) (n := 0) sized_pop fun _ => sized_modify fun _ => rfl

/-- An attribute is looked up in the store alone. -/
theorem sized_attributeOf (owner : Value) (name : String) :
    Sized innermost? 0 0 (attributeOf owner name) := by
  unfold attributeOf
  split
  · refine Sized.bind (m := 0) (n := 0) sized_get fun vm => ?_
    split
    · exact sized_pure _
    · exact sized_raise 0 0 _
  · split
    · exact sized_pure _
    · exact sized_raise 0 0 _
  · exact sized_raise 0 0 _

/-- It takes the place of its owner. -/
theorem sized_loadAttribute (index : Nat) : Sized innermost? 1 1 (loadAttribute index) :=
  Sized.bind (m := 1) (n := 1) (sized_nameAt index) fun name =>
    Sized.bind (m := 0) (n := 1) sized_pop fun owner =>
      Sized.bind (m := 0) (n := 1) (sized_attributeOf owner name) sized_push

/-- Owner and value are both taken. -/
theorem sized_storeAttribute (index : Nat) : Sized innermost? 2 0 (storeAttribute index) := by
  refine Sized.bind (m := 2) (n := 0) (sized_nameAt index) fun name =>
    Sized.bind (m := 1) (n := 0) sized_pop fun owner =>
      Sized.bind (m := 0) (n := 0) sized_pop fun value => ?_
  split
  · exact sized_modify fun _ => rfl
  · exact sized_raise 0 0 _

theorem sized_method (owner : Value) (name : String) :
    Sized innermost? 0 0 (method owner name) := by
  unfold method
  split
  · refine Sized.bind (m := 0) (n := 0) sized_get fun vm => ?_
    split
    · exact sized_pure _
    · exact sized_pure _
    · exact sized_pure _
    · exact sized_raise 0 0 _
  · split
    · exact Sized.bind (m := 0) (n := 0) (sized_onStore _) fun _ => sized_pure _
    · exact sized_raise 0 0 _
  · exact Sized.bind (m := 0) (n := 0) (sized_attributeOf owner name) fun _ => sized_pure _

/-- A method and its owner, or an empty slot, take the place of the owner. -/
theorem sized_loadMethod (index : Nat) : Sized innermost? 1 2 (loadMethod index) := by
  refine Sized.bind (m := 1) (n := 2) (sized_nameAt index) fun name =>
    Sized.bind (m := 0) (n := 2) sized_pop fun owner =>
      Sized.bind (m := 0) (n := 2) (sized_method owner name) fun found => sized_onFrame ?_
  refine Sized.bind (m := 0) (n := 1) (FrameAction.sized_push _) fun _ => ?_
  split
  · exact FrameAction.sized_push _
  · exact FrameAction.sized_pushEmpty

/-- An operator makes one entry of two. -/
theorem sized_combine (op : Value → Value → Calc Value) : Sized innermost? 2 1 (combine op) :=
  Sized.bind (m := 0) (n := 1) (sized_onFrame FrameAction.sized_operands) fun _ =>
    Sized.bind (m := 0) (n := 1) (sized_onStore _) sized_push

/-- So does a comparison. -/
theorem sized_compareTop (operand : UInt16) : Sized innermost? 2 1 (compareTop operand) := by
  unfold compareTop
  split
  · exact sized_breach 2 1 _
  · exact Sized.bind (m := 0) (n := 1) (sized_onFrame FrameAction.sized_operands) fun _ =>
      Sized.bind (m := 0) (n := 1) sized_get fun _ =>
        Sized.bind (m := 0) (n := 1) (sized_lift _) fun _ => sized_push _

theorem sized_negateTop : Sized innermost? 1 1 negateTop :=
  Sized.bind (m := 0) (n := 1) sized_pop fun _ =>
    Sized.bind (m := 0) (n := 1) sized_get fun _ => sized_push _

/-- A container takes the place of what it is built of; a dict of keys and values. -/
theorem sized_buildTuple (count : Nat) : Sized innermost? count 1 (buildTuple count) :=
  sized_onFrame (Sized.bind (m := 0) (n := 1) (FrameAction.sized_popValues count []) fun _ =>
    FrameAction.sized_push _)

theorem sized_buildList (count : Nat) : Sized innermost? count 1 (buildList count) :=
  Sized.bind (m := 0) (n := 1) (sized_onFrame (FrameAction.sized_popValues count [])) fun _ =>
    Sized.bind (m := 0) (n := 1) (sized_onStore _) sized_push

theorem sized_buildDict (count : Nat) : Sized innermost? (count * 2) 1 (buildDict count) :=
  Sized.bind (m := 0) (n := 1) (sized_onFrame (FrameAction.sized_popValues (count * 2) []))
    fun _ => Sized.bind (m := 0) (n := 1) (sized_lift _) fun _ =>
      Sized.bind (m := 0) (n := 1) (sized_onStore _) sized_push

theorem sized_iterateTop : Sized innermost? 1 1 iterateTop :=
  Sized.bind (m := 0) (n := 1) sized_pop fun _ =>
    Sized.bind (m := 0) (n := 1) (sized_onStore _) sized_push

/-- The iterator stays where it is. -/
theorem sized_nextOfTop : Sized innermost? 0 0 nextOfTop := by
  refine Sized.bind (m := 0) (n := 0) (sized_onFrame (FrameAction.sized_peek 0)) fun v => ?_
  split
  · exact sized_modifyGet fun _ => rfl
  · exact sized_raise 0 0 _

theorem sized_collectedRequest (slots : List (Option Value)) :
    Sized innermost? 0 0 (collectedRequest slots) := by
  refine Sized.bind (m := 0) (n := 0) (sized_ofExcept _) fun first =>
    Sized.bind (m := 0) (n := 0) (sized_ofExcept _) fun second =>
      Sized.bind (m := 0) (n := 0) sized_get fun vm =>
        Sized.bind (m := 0) (n := 0) (sized_lift _) fun positional => ?_
  split
  · exact sized_pure _
  · exact Sized.bind (m := 0) (n := 0) (sized_ofExcept _) fun _ =>
      Sized.bind (m := 0) (n := 0) sized_get fun _ =>
        Sized.bind (m := 0) (n := 0) (sized_lift _) fun _ => sized_pure _

/-- A call leaves what it calls with on the stack until it has ended. -/
theorem sized_callRequest (i : Instruction) : Sized innermost? 0 0 (callRequest i) := by
  rw [callRequest_eq]
  refine Sized.bind (m := 0) (n := 0) (sized_onFrame (FrameAction.sized_topSlots _)) fun slots => ?_
  obtain ⟨r, hr, -⟩ | ⟨-, hr⟩ := i.read_cases slots
  · rw [hr]
    exact sized_ofExcept r
  · rw [hr]
    exact sized_collectedRequest slots

/-- Then the result takes the place of all of it. -/
theorem sized_finishCall (slots : Nat) (result : Value) :
    Sized innermost? slots 1 (finishCall slots result) :=
  sized_onFrame (Sized.bind (m := 0) (n := 1) (FrameAction.sized_drop slots) fun _ =>
    FrameAction.sized_push result)

end VmAction

/-! ## §4. Instructions that only move and combine values. -/

/-- Whether an operation leaves its frame in the same blocks and goes on with the
next instruction. -/
def Opcode.isPlain : Opcode → Bool
  | .returnValue | .popBlock | .popExcept | .raise | .jumpAbsolute | .popJumpIfFalse
  | .popJumpIfTrue | .forIter | .setupExcept | .callFunction | .callMethod | .callFunctionKw
  | .callFunctionEx => false
  | _ => true

namespace Instruction

/-- The entries an instruction takes off the stack. -/
def pops (i : Instruction) : Nat :=
  match i.opcode with
  | .popTop | .unaryNot | .getIter | .returnValue | .raise | .storeFast | .storeGlobal
  | .loadAttr | .loadMethod | .popJumpIfFalse | .popJumpIfTrue => 1
  | .rotTwo | .binaryAdd | .binarySubtract | .binaryMultiply | .compareOp | .storeAttr => 2
  | .buildTuple | .buildList => i.arg.toNat
  | .buildMap => i.arg.toNat * 2
  | _ => 0

/-- The entries an instruction leaves in their place. -/
def pushes (i : Instruction) : Nat :=
  match i.opcode with
  | .dupTop | .unaryNot | .binaryAdd | .binarySubtract | .binaryMultiply | .getIter | .loadFast
  | .compareOp | .buildTuple | .buildList | .buildMap | .loadConst | .loadGlobal | .loadAttr => 1
  | .rotTwo | .loadMethod => 2
  | _ => 0

end Instruction

open Vm (innermost?)

/-- Going on with the next instruction takes nothing. -/
theorem sized_andNext {action : VmAction Unit} {p q : Nat} (h : Sized innermost? p q action) :
    Sized innermost? p q (andNext action) := by
  have hbind := Sized.bind h fun _ => sized_pure (ε := Fault) (Outcome.flow .next)
  rwa [Nat.zero_sub, Nat.add_zero, Nat.sub_zero, Nat.zero_add] at hbind

/-- **What a plain instruction takes and leaves**, if it is no product. -/
theorem sized_execute {i : Instruction} (h : i.opcode.isPlain = true)
    (hproduct : i.opcode ≠ .binaryMultiply) : Sized innermost? i.pops i.pushes (execute i) := by
  obtain ⟨offset, opcode, arg⟩ := i
  cases opcode with
  | nop => exact sized_pure _
  | popTop =>
      exact sized_andNext (Sized.bind (m := 0) (n := 0) (sized_onFrame FrameAction.sized_popSlot)
        fun _ => sized_pure _)
  | rotTwo => exact sized_andNext (sized_onFrame FrameAction.sized_swap)
  | dupTop =>
      exact sized_andNext (sized_onFrame (Sized.bind (m := 0) (n := 1) (FrameAction.sized_peek 0)
        FrameAction.sized_push))
  | unaryNot => exact sized_andNext sized_negateTop
  | binaryAdd => exact sized_andNext (sized_combine _)
  | binarySubtract => exact sized_andNext (sized_combine _)
  | binaryMultiply => exact absurd rfl hproduct
  | getIter => exact sized_andNext sized_iterateTop
  | loadFast => exact sized_andNext (sized_loadLocal _)
  | storeFast => exact sized_andNext (sized_storeLocal _)
  | deleteFast => exact sized_andNext (sized_deleteLocal _)
  | compareOp => exact sized_andNext (sized_compareTop _)
  | buildTuple => exact sized_andNext (sized_buildTuple _)
  | buildList => exact sized_andNext (sized_buildList _)
  | buildMap => exact sized_andNext (sized_buildDict _)
  | loadConst => exact sized_andNext (sized_loadConstant _)
  | loadGlobal => exact sized_andNext (sized_loadGlobal _)
  | storeGlobal => exact sized_andNext (sized_storeGlobal _)
  | loadAttr => exact sized_andNext (sized_loadAttribute _)
  | storeAttr => exact sized_andNext (sized_storeAttribute _)
  | loadMethod => exact sized_andNext (sized_loadMethod _)
  | _ => cases h

/-- A product that is made, or ends in an exception, pushes one entry. -/
theorem sized_pushProduct {left right : Value} {product : Except Cause Value}
    (h : multiply left right = some product) :
    Sized innermost? 0 1 (pushProduct left right) := by
  unfold pushProduct
  rw [h]
  exact sized_andNext (Sized.bind (m := 0) (n := 1) (sized_lift _) sized_push)

/-- A product takes two entries and leaves one, unless the program breaks off. -/
theorem resizes_multiplyTop {vm : Vm} {f : Frame} (hf : innermost? vm = some f) :
    Resizes innermost? 2 1 f (multiplyTop vm) ∨ ∃ u, multiplyTop vm = .ok .breakOff u := by
  cases hrun : onFrame operands vm with
  | error e u =>
      obtain ⟨g, hg, hstays, hsize, hshares⟩ :=
        (sized_onFrame FrameAction.sized_operands).of_error hf hrun
      rw [multiplyTop, action_bind_of_error hrun]
      exact .inl ⟨g, hg, hstays, hsize, hshares⟩
  | ok taken u =>
      have htop : multiplyTop vm = pushProduct taken.1 taken.2 u := action_bind_of_ok hrun
      cases hproduct : multiply taken.1 taken.2 with
      | none =>
          right
          rw [htop, pushProduct, hproduct]
          exact ⟨u, rfl⟩
      | some product =>
          -- with these operands the product pushes one entry, whichever were taken
          have hsized : Sized innermost? 2 1 (onFrame operands >>= fun _ =>
              pushProduct taken.1 taken.2) :=
            Sized.bind (m := 0) (n := 1) (sized_onFrame FrameAction.sized_operands) fun _ =>
              sized_pushProduct hproduct
          have hresizes := hsized vm f hf
          rw [action_bind_of_ok hrun, ← htop] at hresizes
          exact .inl hresizes

/-- What any plain instruction takes and leaves, unless the program breaks off. -/
theorem resizes_execute {i : Instruction} (h : i.opcode.isPlain = true) {vm : Vm} {f : Frame}
    (hf : innermost? vm = some f) :
    Resizes innermost? i.pops i.pushes f (execute i vm) ∨ ∃ u, execute i vm = .ok .breakOff u := by
  by_cases hproduct : i.opcode = .binaryMultiply
  · obtain ⟨offset, opcode, arg⟩ := i
    subst hproduct
    exact resizes_multiplyTop hf
  · exact .inl (sized_execute h hproduct vm f hf)

/-- A plain instruction that goes on goes on with the next one. -/
theorem flow_of_isPlain {i : Instruction} (h : i.opcode.isPlain = true) {vm vm' : Vm}
    {flow : Flow} (hx : execute i vm = .ok (.flow flow) vm') : flow = .next := by
  have hnext {action : VmAction Unit} {u : Vm} (hx : andNext action u = .ok (.flow flow) vm') :
      flow = .next :=
    Outcome.flow.inj (andNext_ok hx)
  obtain ⟨offset, opcode, arg⟩ := i
  cases opcode with
  | nop => exact Outcome.flow.inj (action_pure_ok.mp hx).1
  | binaryMultiply =>
      obtain ⟨-, -, -, -, hflow | ⟨hbreak, -⟩⟩ := execute_product_ok rfl hx
      · exact Outcome.flow.inj hflow
      · exact nomatch hbreak
  | _ => first
    | exact hnext hx
    | cases h

/-! ## §5. What raises no exception. -/

/-- Where an action fails it is a breach, which no handler catches. -/
def Calm {σ α : Type} (x : EStateM Fault σ α) : Prop :=
  ∀ s e t, x s = .error e t → ∃ b, e = .internal b

/-- A sequence fails in its first part, or in its second after the first has succeeded. -/
theorem action_bind_error {ε σ α β : Type} {x : EStateM ε σ α} {f : α → EStateM ε σ β} {s t : σ}
    {e : ε} : (x >>= f) s = .error e t ↔
      x s = .error e t ∨ ∃ a u, x s = .ok a u ∧ f a u = .error e t := by
  show EStateM.bind x f s = _ ↔ _
  unfold EStateM.bind
  cases h : x s with
  | ok a u =>
      constructor
      · exact fun hf => .inr ⟨a, u, rfl, hf⟩
      · rintro (hx | ⟨a', u', hx, hf⟩)
        · cases hx
        · obtain ⟨rfl, rfl⟩ := EStateM.Result.ok.inj hx
          exact hf
  | error e' u =>
      dsimp only
      constructor
      · intro hx
        obtain ⟨rfl, rfl⟩ := EStateM.Result.error.inj hx
        exact .inl rfl
      · rintro (hx | ⟨a', u', hx, -⟩)
        · obtain ⟨rfl, rfl⟩ := EStateM.Result.error.inj hx
          rfl
        · cases hx

namespace Calm

variable {σ α β : Type}

/-- Calm actions in sequence are calm. -/
theorem bind {x : EStateM Fault σ α} {f : α → EStateM Fault σ β} (hx : Calm x)
    (hf : ∀ a, Calm (f a)) : Calm (x >>= f) := by
  intro s e t h
  rcases action_bind_error.mp h with hfail | ⟨a, u, -, hfail⟩
  · exact hx s e t hfail
  · exact hf a u e t hfail

theorem of_pure (a : α) : Calm (pure a : EStateM Fault σ α) :=
  fun _ _ _ h => by cases h

theorem of_get : Calm (get : EStateM Fault σ σ) :=
  fun _ _ _ h => by cases h

theorem of_modify (f : σ → σ) : Calm (modify f : EStateM Fault σ PUnit) :=
  fun _ _ _ h => by cases h

theorem of_modifyGet (f : σ → α × σ) : Calm (modifyGet f : EStateM Fault σ α) :=
  fun _ _ _ h => by cases h

/-- A breach is what a calm action may fail with. -/
theorem of_throw (b : Breach) : Calm (throw (.internal b) : EStateM Fault σ α) := by
  intro s e t h
  obtain ⟨rfl, -⟩ := EStateM.Result.error.inj h
  exact ⟨b, rfl⟩

/-- Where there is no frame that is a breach too. -/
theorem onFrame {x : FrameAction α} (hx : Calm x) : Calm (onFrame x) := by
  intro vm e t h
  cases hframes : vm.frames with
  | nil =>
      rw [VmAction.onFrame, hframes] at h
      obtain ⟨rfl, -⟩ := EStateM.Result.error.inj h
      exact ⟨_, rfl⟩
  | cons f rest =>
      rw [onFrame_apply hframes] at h
      cases hrun : x f with
      | ok a g =>
          rw [hrun] at h
          cases h
      | error e' g =>
          rw [hrun] at h
          obtain ⟨rfl, -⟩ := EStateM.Result.error.inj h
          exact hx f _ g hrun

/-- An empty stack is a breach. -/
theorem popSlot : Calm FrameAction.popSlot := by
  intro f e t h
  rw [FrameAction.popSlot_apply] at h
  by_cases hempty : f.slots.size ≤ f.nlocals
  · rw [if_pos hempty] at h
    obtain ⟨rfl, -⟩ := EStateM.Result.error.inj h
    exact ⟨_, rfl⟩
  · rw [if_neg hempty] at h
    cases h

theorem pop : Calm FrameAction.pop := by
  refine bind popSlot fun slot => ?_
  split
  · exact of_pure _
  · exact bind of_get fun f => of_throw _

/-- Three pops above the level, each of which can only underflow. -/
theorem popSaved (level : Nat) : Calm (popSaved level) :=
  bind (of_modify _) fun _ => bind popSlot fun _ => bind popSlot fun _ => bind popSlot fun _ =>
    of_pure _

/-- A wrong block is a breach, at the end of a try body as in leaving a handler. -/
theorem closeTry : Calm closeTry := by
  refine bind (onFrame (of_modifyGet _)) fun found => ?_
  split
  · exact of_pure _
  · exact bind (onFrame of_get) fun _ => of_throw _

theorem leaveHandler : Calm leaveHandler := by
  refine bind (onFrame (of_modifyGet _)) fun found => ?_
  split
  · exact bind (onFrame (popSaved _)) fun _ => of_modify _
  · exact bind (onFrame of_get) fun _ => of_throw _

theorem openTry (handler : Nat) : Calm (openTry handler) :=
  onFrame (bind of_get fun _ => of_modify _)

theorem jumpIf (wanted : Bool) (target : Nat) : Calm (jumpIf wanted target) :=
  bind (onFrame pop) fun _ => bind of_get fun _ => of_pure _

/-- The result of a call is pushed calmly, if the entries of the call are there. -/
theorem finishCall (slots : Nat) (result : Value) : Calm (finishCall slots result) := by
  refine onFrame (bind ?_ fun _ => of_modify _)
  intro f e t h
  rw [FrameAction.drop_apply] at h
  by_cases hroom : f.depth < slots
  · rw [if_pos hroom] at h
    obtain ⟨rfl, -⟩ := EStateM.Result.error.inj h
    exact ⟨_, rfl⟩
  · rw [if_neg hroom] at h
    cases h

/-- So a calm action raises nothing. -/
theorem not_exception {x : EStateM Fault σ α} (h : Calm x) {s t : σ} {exc : Value} :
    x s ≠ .error (.exception exc) t := by
  intro hx
  obtain ⟨b, hb⟩ := h s _ t hx
  cases hb

end Calm

/-! ## §6. Unwinding. -/

/-- Where unwinding leads a frame with `nlocals` locals: from its blocks and slot
count to the handler, the blocks and the slot count there. -/
inductive Unwinds (nlocals : Nat) : List Block → Nat → Nat → List Block → Nat → Prop
  /-- A try body is cut back to its slots, and the handler has four more. -/
  | enter {level handler size : Nat} {rest : List Block} :
      Unwinds nlocals (.guarded level handler :: rest) size handler (.handling level :: rest)
        (min size (max level nlocals) + 4)
  /-- A handler on the way is left. -/
  | leave {level size kept next slots : Nat} {rest blocks : List Block} :
      kept + 3 = min size (max (level + 3) nlocals) → Unwinds nlocals rest kept next blocks slots →
      Unwinds nlocals (.handling level :: rest) size next blocks slots

/-- A stack is never cut below the locals. -/
theorem size_truncated (f : Frame) (level : Nat) :
    (f.truncated level).slots.size = min f.slots.size (max level f.nlocals) := by
  show (f.slots.take (max level f.nlocals)).size = _
  rw [Array.take_eq_extract, Array.size_extract]
  omega

/-- What a pop that succeeds has found and left. -/
theorem popSlot_ok {f g : Frame} {slot : Option Value} (h : FrameAction.popSlot f = .ok slot g) :
    f.nlocals < f.slots.size ∧ g = { f with slots := f.slots.pop } := by
  rw [FrameAction.popSlot_apply] at h
  by_cases hempty : f.slots.size ≤ f.nlocals
  · rw [if_pos hempty] at h
    cases h
  · rw [if_neg hempty] at h
    obtain ⟨-, rfl⟩ := EStateM.Result.ok.inj h
    exact ⟨by omega, rfl⟩

/-- The saved slots of a handler are above what is left of the frame. -/
theorem popSaved_ok {f g : Frame} {level : Nat} {saved : Option Value}
    (h : popSaved level f = .ok saved g) :
    g.slots.size + 3 = min f.slots.size (max (level + 3) f.nlocals)
      ∧ g = { f with slots := g.slots } := by
  obtain ⟨_, _, htruncate, h⟩ := action_bind_ok.mp h
  obtain ⟨-, rfl⟩ := EStateM.Result.ok.inj htruncate
  obtain ⟨_, f₁, hpop₁, h⟩ := action_bind_ok.mp h
  obtain ⟨_, f₂, hpop₂, h⟩ := action_bind_ok.mp h
  obtain ⟨_, f₃, hpop₃, h⟩ := action_bind_ok.mp h
  obtain ⟨-, rfl⟩ := action_pure_ok.mp h
  obtain ⟨hroom₁, rfl⟩ := popSlot_ok hpop₁
  obtain ⟨hroom₂, rfl⟩ := popSlot_ok hpop₂
  obtain ⟨hroom₃, rfl⟩ := popSlot_ok hpop₃
  refine ⟨?_, rfl⟩
  have hsize := size_truncated f (level + 3)
  simp only [Array.size_pop] at hroom₁ hroom₂ hroom₃ ⊢
  rw [savedSlots] at hroom₁ hroom₂ hroom₃ ⊢
  omega

/-- Three slots are saved, whether an exception was handled or not. -/
theorem length_savedTriplet (previous : Option Value) : (savedTriplet previous).length = 3 := by
  cases previous <;> rfl

theorem enterHandler_apply (level handler : Nat) (previous : Option Value) (exc : Value) (f : Frame) :
    enterHandler level handler previous exc f =
      .ok () { f with
        next := handler
        blocks := .handling level :: f.blocks
        slots := (f.truncated level).slots ++ savedTriplet previous ++ [some exc] } :=
  rfl

/-- A handler starts with four slots more than its try body had. -/
theorem enterHandler_ok {f g : Frame} {level handler : Nat} {previous : Option Value} {exc : Value}
    (h : enterHandler level handler previous exc f = .ok () g) :
    g.slots.size = min f.slots.size (max level f.nlocals) + 4
      ∧ g = { f with next := handler, blocks := .handling level :: f.blocks, slots := g.slots } := by
  rw [enterHandler_apply] at h
  obtain ⟨-, rfl⟩ := EStateM.Result.ok.inj h
  refine ⟨?_, rfl⟩
  rw [← size_truncated, ← Array.length_toList, Array.toList_appendList, Array.toList_appendList,
    List.length_append, List.length_append, length_savedTriplet, Array.length_toList]
  rfl

/-- **Where unwinding leads.** -/
theorem unwinds_of_unwindThrough {exc : Value} {vm vm' : Vm} {f : Frame} {rest : List Frame}
    {blocks : List Block} (hframes : vm.frames = f :: rest) (hblocks : f.blocks = blocks)
    (h : unwindThrough exc blocks vm = .ok () vm') :
    ∃ g, vm'.frames = g :: rest ∧ g.function = f.function ∧ g.current = f.current
      ∧ Unwinds f.nlocals blocks f.slots.size g.next g.blocks g.slots.size := by
  induction blocks generalizing vm f with
  | nil => cases h
  | cons block blocks ih =>
      have hpop : onFrame FrameAction.popBlock vm
          = .ok (some block) { vm with frames := { f with blocks := blocks } :: rest } := by
        rw [onFrame_apply hframes]
        show EStateM.Result.ok f.blocks.head?
          { vm with frames := { f with blocks := f.blocks.tail } :: rest } = _
        rw [hblocks]
        rfl
      cases block with
      | guarded level handler =>
          obtain ⟨_, u, hpopped, h⟩ := action_bind_ok.mp h
          obtain ⟨-, rfl⟩ := EStateM.Result.ok.inj (hpop.symm.trans hpopped)
          obtain ⟨_, _, hget, h⟩ := action_bind_ok.mp h
          obtain ⟨rfl, rfl⟩ := action_get_ok.mp hget
          obtain ⟨_, w, henter, h⟩ := action_bind_ok.mp h
          obtain ⟨-, rfl⟩ := EStateM.Result.ok.inj h
          rw [onFrame_apply rfl] at henter
          cases hrun : enterHandler level handler vm.handled exc { f with blocks := blocks } with
          | error e g =>
              rw [hrun] at henter
              cases henter
          | ok a g =>
              rw [hrun] at henter
              obtain ⟨-, rfl⟩ := EStateM.Result.ok.inj henter
              obtain ⟨hsize, hg⟩ := enterHandler_ok hrun
              refine ⟨g, rfl, ?_, ?_, ?_⟩
              · rw [hg]
              · rw [hg]
              · rw [hg] at hsize ⊢
                rw [hsize]
                exact .enter
      | handling level =>
          obtain ⟨_, u, hpopped, h⟩ := action_bind_ok.mp h
          obtain ⟨-, rfl⟩ := EStateM.Result.ok.inj (hpop.symm.trans hpopped)
          obtain ⟨saved, w, hsaved, h⟩ := action_bind_ok.mp h
          obtain ⟨_, _, hmodify, h⟩ := action_bind_ok.mp h
          obtain ⟨-, rfl⟩ := EStateM.Result.ok.inj hmodify
          rw [onFrame_apply rfl] at hsaved
          cases hrun : popSaved level { f with blocks := blocks } with
          | error e g =>
              rw [hrun] at hsaved
              cases hsaved
          | ok a g =>
              rw [hrun] at hsaved
              obtain ⟨-, rfl⟩ := EStateM.Result.ok.inj hsaved
              obtain ⟨hsize, hg⟩ := popSaved_ok hrun
              -- the handler is left: the rest of the way starts from what it kept
              obtain ⟨k, hk, hfunction, hcurrent, hway⟩ := ih (f := g) rfl (by rw [hg]) h
              have hlocals : g.nlocals = f.nlocals := by
                rw [hg]
                rfl
              rw [hlocals] at hway
              refine ⟨k, hk, ?_, ?_, .leave hsize hway⟩
              · rw [hfunction, hg]
              · rw [hcurrent, hg]

/-! ## §7. Blocks that are opened and left. -/

section Blocks

variable {vm vm' : Vm} {f : Frame} {rest : List Frame}

/-- Opening a try body. -/
theorem openTry_eq (hframes : vm.frames = f :: rest) (handler : Nat) :
    openTry handler vm = .ok ()
      { vm with frames := { f with blocks := .guarded f.slots.size handler :: f.blocks } :: rest } := by
  unfold openTry
  rw [onFrame_apply hframes]
  rfl

/-- Leaving a try body, which must be the innermost block. -/
theorem closeTry_ok {a : Unit} (hframes : vm.frames = f :: rest) (h : closeTry vm = .ok a vm') :
    ∃ level handler outer, f.blocks = .guarded level handler :: outer
      ∧ vm' = { vm with frames := { f with blocks := outer } :: rest } := by
  obtain ⟨found, u, hpop, h⟩ := action_bind_ok.mp h
  rw [onFrame_apply hframes] at hpop
  obtain ⟨rfl, rfl⟩ := EStateM.Result.ok.inj hpop
  cases hblocks : f.blocks with
  | nil =>
      rw [hblocks] at h
      obtain ⟨_, _, -, h⟩ := action_bind_ok.mp h
      cases h
  | cons block outer =>
      rw [hblocks] at h
      cases block with
      | handling level =>
          obtain ⟨_, _, -, h⟩ := action_bind_ok.mp h
          cases h
      | guarded level handler =>
          obtain ⟨-, rfl⟩ := action_pure_ok.mp h
          exact ⟨level, handler, outer, rfl, rfl⟩

/-- Leaving a handler, which must be the innermost block: the exception it kept is handled
again. -/
theorem popSaved_of_leaveHandler {a : Unit} (hframes : vm.frames = f :: rest)
    (h : leaveHandler vm = .ok a vm') :
    ∃ level outer saved g, f.blocks = .handling level :: outer
      ∧ popSaved level { f with blocks := outer } = .ok saved g
      ∧ vm' = { vm with frames := g :: rest, handled := saved } := by
  obtain ⟨found, u, hpop, h⟩ := action_bind_ok.mp h
  rw [onFrame_apply hframes] at hpop
  obtain ⟨rfl, rfl⟩ := EStateM.Result.ok.inj hpop
  cases hblocks : f.blocks with
  | nil =>
      rw [hblocks] at h
      obtain ⟨_, _, -, h⟩ := action_bind_ok.mp h
      cases h
  | cons block outer =>
      rw [hblocks] at h
      cases block with
      | guarded level handler =>
          obtain ⟨_, _, -, h⟩ := action_bind_ok.mp h
          cases h
      | handling level =>
          obtain ⟨saved, w, hsaved, h⟩ := action_bind_ok.mp h
          obtain ⟨-, rfl⟩ := EStateM.Result.ok.inj h
          rw [onFrame_apply rfl, List.tail_cons] at hsaved
          cases hrun : popSaved level { f with blocks := outer } with
          | error e g =>
              rw [hrun] at hsaved
              cases hsaved
          | ok b g =>
              rw [hrun] at hsaved
              obtain ⟨rfl, rfl⟩ := EStateM.Result.ok.inj hsaved
              exact ⟨level, outer, b, g, rfl, hrun, rfl⟩

end Blocks

/-! ## §8. Where an instruction leads its frame. -/

/-- The ways an instruction leads a frame with `nlocals` locals that stands in
`blocks` with `size` slots: to an offset, blocks and a slot count. -/
inductive Instruction.Goes (i : Instruction) (nlocals : Nat) (blocks : List Block) (size : Nat) :
    Nat → List Block → Nat → Prop
  | plain {slots : Nat} : i.opcode.isPlain = true → slots + i.pops = size + i.pushes →
      Goes i nlocals blocks size i.next blocks slots
  | jump : i.opcode = .jumpAbsolute → Goes i nlocals blocks size i.arg.toNat blocks size
  | branch {next slots : Nat} : i.opcode = .popJumpIfFalse ∨ i.opcode = .popJumpIfTrue →
      next = i.next ∨ next = i.arg.toNat → slots + 1 = size →
      Goes i nlocals blocks size next blocks slots
  | item : i.opcode = .forIter → Goes i nlocals blocks size i.next blocks (size + 1)
  | exhausted {slots : Nat} : i.opcode = .forIter → slots + 1 = size →
      Goes i nlocals blocks size i.arg.toNat blocks slots
  | opens : i.opcode = .setupExcept →
      Goes i nlocals blocks size i.next (.guarded size i.arg.toNat :: blocks) size
  | closes {level handler : Nat} {rest : List Block} : i.opcode = .popBlock →
      blocks = .guarded level handler :: rest → Goes i nlocals blocks size i.next rest size
  | leaves {level slots : Nat} {rest : List Block} : i.opcode = .popExcept →
      blocks = .handling level :: rest → slots + 3 = min size (max (level + 3) nlocals) →
      Goes i nlocals blocks size i.next rest slots
  | called {slots : Nat} : i.opcode.isCall = true → slots + i.callSize = size + 1 →
      Goes i nlocals blocks size i.next blocks slots
  | caught {kept next slots : Nat} {handlers : List Block} : size ≤ kept + i.pops →
      Unwinds nlocals blocks kept next handlers slots → Goes i nlocals blocks size next handlers slots

/-- An instruction leads a frame to where another state of the same call stands. -/
structure Frame.Led (i : Instruction) (f g : Frame) : Prop where
  function_eq : g.function = f.function
  parent_eq : g.parent = f.parent
  current_eq : g.current = f.current
  goes : i.Goes f.nlocals f.blocks f.slots.size g.next g.blocks g.slots.size

namespace Run

variable {vm vm' : Vm} {f : Frame} {rest : List Frame} {i : Instruction}

/-- The innermost frame after work in it. -/
theorem exists_frame_of_works (h : vm.Works vm') (hframes : vm.frames = f :: rest) :
    ∃ g, vm'.frames = g :: rest ∧ g.function = f.function ∧ g.parent = f.parent := by
  have hsame := h.frames
  rw [hframes] at hsame
  obtain ⟨g, hcall, hg⟩ := Frame.SameTop.cons_iff.mp hsame
  exact ⟨g, hg, hcall.function_eq, hcall.parent_eq⟩

/-- The innermost frame, as a view of the machine shows it. -/
theorem innermost?_eq (hframes : vm.frames = f :: rest) : vm.innermost? = some f := by
  unfold Vm.innermost?
  rw [hframes]
  rfl

/-- The frame a view shows is the innermost one, worked on. -/
theorem exists_frame_of_view {g : Frame} (h : vm.Works vm') (hframes : vm.frames = f :: rest)
    (hview : vm'.innermost? = some g) : vm'.frames = g :: rest ∧ g.parent = f.parent := by
  obtain ⟨k, hk, -, hparent⟩ := exists_frame_of_works h hframes
  unfold Vm.innermost? at hview
  rw [hk] at hview
  obtain rfl := Option.some.inj hview
  exact ⟨hk, hparent⟩

/-- An exception that is caught leads the frame to the handler. -/
theorem led_of_raiseInFrame {exc : Value} {g : Frame} {i : Instruction} (pending : List Pending)
    (hframes : vm.frames = g :: rest) (hstays : f.Stays g) (hparent : g.parent = f.parent)
    (hsize : f.slots.size ≤ g.slots.size + i.pops)
    (hloop : (raiseInFrame vm pending exc).phase = .loop) :
    ∃ k, (raiseInFrame vm pending exc).vm.frames = k :: rest ∧ f.Led i k := by
  unfold raiseInFrame at hloop ⊢
  cases hu : unwind exc vm with
  | error e u =>
      rw [hu] at hloop
      cases hloop
  | ok a u =>
      dsimp only
      have hworks := (keeps_unwind exc).of_ok hu
      obtain ⟨g', w, hcurrent, hthrough⟩ := action_bind_ok.mp hu
      rw [currentFrame, onFrame_apply hframes] at hcurrent
      obtain ⟨rfl, rfl⟩ := EStateM.Result.ok.inj hcurrent
      obtain ⟨k, hk, hfunction, hplace, hway⟩ :=
        unwinds_of_unwindThrough (f := g) rfl rfl hthrough
      obtain ⟨k', hk', -, hkparent⟩ := exists_frame_of_works hworks hframes
      obtain rfl := (List.cons.inj (hk.symm.trans hk')).1
      rw [hstays.nlocals_eq, hstays.blocks_eq] at hway
      exact ⟨k, hk, hfunction.trans hstays.function_eq, hkparent.trans hparent,
        hplace.trans hstays.current_eq, .caught hsize hway⟩

/-- An instruction that raises has taken no more than it pops. -/
theorem exists_frame_of_exception {exc : Value} (hframes : vm.frames = f :: rest)
    (h : execute i vm = .error (.exception exc) vm') :
    ∃ g, vm'.frames = g :: rest ∧ f.Stays g ∧ g.parent = f.parent
      ∧ f.slots.size ≤ g.slots.size + i.pops ∧ f.Shares (f.slots.size - i.pops) g := by
  have hworks := (keeps_execute i).of_error h
  have hview := innermost?_eq hframes
  have hsized {p q : Nat} {α : Type} {x : VmAction α} (hx : Sized Vm.innermost? p q x)
      (hrun : x vm = .error (.exception exc) vm') (hp : p ≤ i.pops) :
      ∃ g, vm'.frames = g :: rest ∧ f.Stays g ∧ g.parent = f.parent
        ∧ f.slots.size ≤ g.slots.size + i.pops ∧ f.Shares (f.slots.size - i.pops) g := by
    obtain ⟨g, hg, hstays, hsize, hshares⟩ := hx.of_error hview hrun
    obtain ⟨hg', hparent⟩ := exists_frame_of_view hworks hframes hg
    exact ⟨g, hg', hstays, hparent, by omega, hshares.mono (by omega)⟩
  by_cases hplain : i.opcode.isPlain = true
  · obtain hresizes | ⟨u, hbreak⟩ := resizes_execute hplain hview
    · rw [h] at hresizes
      obtain ⟨g, hg, hstays, hsize, hshares⟩ := hresizes
      obtain ⟨hg', hparent⟩ := exists_frame_of_view hworks hframes hg
      exact ⟨g, hg', hstays, hparent, hsize, hshares⟩
    · exact nomatch h.symm.trans hbreak
  · obtain ⟨offset, opcode, arg⟩ := i
    cases opcode with
    -- of the others only raise, the head of a loop and calls can raise; the rest is calm
    | raise =>
        refine hsized (p := 1) (q := 0) (Sized.bind (m := 0) (n := 0) sized_pop fun v => ?_) h
          (Nat.le_refl _)
        split
        · exact sized_pure _
        · exact sized_raise 0 0 _
    | forIter =>
        rcases action_bind_error.mp h with hnext | ⟨item, u, -, hrest⟩
        · exact hsized sized_nextOfTop hnext (Nat.zero_le _)
        · -- after the iterator has been asked only the stack can fail
          cases item with
          | some item =>
              exact absurd hrest ((Calm.onFrame (Calm.of_modify _)).bind
                (fun _ => Calm.of_pure _)).not_exception
          | none =>
              exact absurd hrest ((Calm.onFrame Calm.pop).bind
                (fun _ => Calm.of_pure _)).not_exception
    | callFunction | callMethod | callFunctionKw | callFunctionEx =>
        exact hsized (Sized.bind (m := 0) (n := 0) (sized_callRequest _) fun _ => sized_pure _) h
          (Nat.zero_le _)
    | returnValue =>
        exact absurd h ((Calm.onFrame Calm.pop).bind (fun _ => Calm.of_pure _)).not_exception
    | popBlock => exact absurd h (Calm.closeTry.bind (fun _ => Calm.of_pure _)).not_exception
    | popExcept => exact absurd h (Calm.leaveHandler.bind (fun _ => Calm.of_pure _)).not_exception
    | jumpAbsolute => exact absurd h (Calm.of_pure _).not_exception
    | popJumpIfFalse => exact absurd h (Calm.jumpIf _ _).not_exception
    | popJumpIfTrue => exact absurd h (Calm.jumpIf _ _).not_exception
    | setupExcept => exact absurd h ((Calm.openTry _).bind (fun _ => Calm.of_pure _)).not_exception
    | _ => exact absurd rfl hplain

/-- A jump puts the frame at its target. -/
theorem follow_jump {g : Frame} (hframes : vm.frames = g :: rest) (pending : List Pending)
    (target : Nat) :
    follow vm pending (.ok (.jump target)) =
      ⟨{ vm with frames := { g with next := target } :: rest }, pending, .loop⟩ := by
  simp only [follow, onFrame_apply hframes]
  rfl

/-- What an action that resizes the innermost frame leaves of it. -/
theorem exists_frame_of_sized {α : Type} {p q : Nat} {x : VmAction α} {a : α}
    (hx : Sized Vm.innermost? p q x) (hworks : Keeps Vm.Works x) (hframes : vm.frames = f :: rest)
    (hrun : x vm = .ok a vm') :
    ∃ g, vm'.frames = g :: rest ∧ f.Stays g ∧ g.parent = f.parent
      ∧ g.slots.size + p = f.slots.size + q ∧ f.Shares (f.slots.size - p) g := by
  have hview := innermost?_eq hframes
  obtain ⟨g, hg, hstays, hsize, hshares⟩ := hx.of_ok hview hrun
  obtain ⟨hg', hparent⟩ := exists_frame_of_view (hworks.of_ok hrun) hframes hg
  exact ⟨g, hg', hstays, hparent, hsize, hshares⟩

/-- What a plain instruction leaves of the innermost frame. -/
theorem exists_frame_of_plain {flow : Flow} (hplain : i.opcode.isPlain = true)
    (hframes : vm.frames = f :: rest) (hrun : execute i vm = .ok (.flow flow) vm') :
    ∃ g, vm'.frames = g :: rest ∧ f.Stays g ∧ g.parent = f.parent
      ∧ g.slots.size + i.pops = f.slots.size + i.pushes := by
  obtain hresizes | ⟨u, hbreak⟩ := resizes_execute hplain (innermost?_eq hframes)
  · rw [hrun] at hresizes
    obtain ⟨g, hg, hstays, hsize, -⟩ := hresizes
    obtain ⟨hg', hparent⟩ := exists_frame_of_view ((keeps_execute i).of_ok hrun) hframes hg
    exact ⟨g, hg', hstays, hparent, hsize⟩
  · exact nomatch hrun.symm.trans hbreak

/-- What an instruction that breaks off leaves of it. -/
theorem exists_frame_of_breakOff (hframes : vm.frames = f :: rest)
    (hrun : execute i vm = .ok .breakOff vm') :
    ∃ g, vm'.frames = g :: rest ∧ f.Stays g ∧ g.parent = f.parent := by
  obtain ⟨left, right, htaken, -⟩ := execute_breakOff_ok hrun
  obtain ⟨g, hg, hstays, hsize, -⟩ :=
    (sized_onFrame FrameAction.sized_operands).of_ok (innermost?_eq hframes) htaken
  obtain ⟨hg', hparent⟩ := exists_frame_of_view ((keeps_execute i).of_ok hrun) hframes hg
  exact ⟨g, hg', hstays, hparent⟩

/-- A conditional jump. -/
theorem led_of_jumpIf {flow : Flow} {wanted : Bool} (pending : List Pending)
    (hframes : vm.frames = f :: rest) (hnext : f.next = i.next)
    (hopcode : i.opcode = .popJumpIfFalse ∨ i.opcode = .popJumpIfTrue)
    (h : jumpIf wanted i.arg.toNat vm = .ok (.flow flow) vm') :
    ∃ g, (follow vm' pending (.ok flow)).vm.frames = g :: rest ∧ f.Led i g := by
  obtain ⟨value, u, hpop, h⟩ := action_bind_ok.mp h
  obtain ⟨_, _, hget, h⟩ := action_bind_ok.mp h
  obtain ⟨rfl, rfl⟩ := action_get_ok.mp hget
  obtain ⟨hflow, rfl⟩ := action_pure_ok.mp h
  obtain ⟨g, hg, hstays, hparent, hsize, -⟩ :=
    exists_frame_of_sized sized_pop (Vm.Works.admits none).keeps_pop hframes hpop
  obtain rfl := Outcome.flow.inj hflow
  by_cases hgoes : (vm'.store.truthy value == wanted) = true
  · rw [if_pos hgoes, follow_jump hg]
    refine ⟨_, rfl, hstays.function_eq, hparent, hstays.current_eq, ?_⟩
    rw [show ({ g with next := i.arg.toNat } : Frame).blocks = f.blocks from hstays.blocks_eq]
    exact .branch hopcode (.inr rfl) hsize
  · rw [if_neg hgoes]
    refine ⟨g, hg, hstays.function_eq, hparent, hstays.current_eq, ?_⟩
    rw [hstays.blocks_eq, hstays.next_eq, hnext]
    exact .branch hopcode (.inl rfl) hsize

/-- The head of a for-loop. -/
theorem led_of_loopHead {flow : Flow} (pending : List Pending) (hframes : vm.frames = f :: rest)
    (hnext : f.next = i.next) (hopcode : i.opcode = .forIter)
    (h : loopHead i.arg.toNat vm = .ok (.flow flow) vm') :
    ∃ g, (follow vm' pending (.ok flow)).vm.frames = g :: rest ∧ f.Led i g := by
  obtain ⟨item, u, hask, h⟩ := action_bind_ok.mp h
  obtain ⟨g, hg, hstays, hparent, hsize, -⟩ :=
    exists_frame_of_sized sized_nextOfTop (Vm.Works.admits none).keeps_nextOfTop hframes hask
  cases item with
  | some item =>
      obtain ⟨_, w, hpush, h⟩ := action_bind_ok.mp h
      obtain ⟨hflow, rfl⟩ := action_pure_ok.mp h
      obtain rfl := Outcome.flow.inj hflow
      obtain ⟨k, hk, hstays', hparent', hsize', -⟩ :=
        exists_frame_of_sized (sized_push item) ((Vm.Works.admits none).keeps_push item) hg hpush
      have hall := hstays.trans hstays'
      refine ⟨k, hk, hall.function_eq, hparent'.trans hparent, hall.current_eq, ?_⟩
      rw [hall.blocks_eq, hall.next_eq, hnext, show k.slots.size = f.slots.size + 1 by omega]
      exact .item hopcode
  | none =>
      obtain ⟨_, w, hpop, h⟩ := action_bind_ok.mp h
      obtain ⟨hflow, rfl⟩ := action_pure_ok.mp h
      obtain rfl := Outcome.flow.inj hflow
      obtain ⟨k, hk, hstays', hparent', hsize', -⟩ :=
        exists_frame_of_sized sized_pop (Vm.Works.admits none).keeps_pop hg hpop
      have hall := hstays.trans hstays'
      rw [follow_jump hk]
      refine ⟨_, rfl, hall.function_eq, hparent'.trans hparent, hall.current_eq, ?_⟩
      rw [show ({ k with next := i.arg.toNat } : Frame).blocks = f.blocks from hall.blocks_eq]
      exact .exhausted hopcode (by show k.slots.size + 1 = _; omega)

/-- The end of a try body. -/
theorem led_of_closeTry {a : Unit} (hframes : vm.frames = f :: rest) (hnext : f.next = i.next)
    (hopcode : i.opcode = .popBlock) (h : closeTry vm = .ok a vm') :
    ∃ g, vm'.frames = g :: rest ∧ f.Led i g := by
  obtain ⟨level, handler, outer, hblocks, rfl⟩ := closeTry_ok hframes h
  refine ⟨_, rfl, rfl, rfl, rfl, ?_⟩
  show i.Goes f.nlocals f.blocks f.slots.size f.next outer f.slots.size
  rw [hnext, hblocks]
  exact .closes hopcode rfl

/-- The end of a handler. -/
theorem led_of_leaveHandler {a : Unit} (hframes : vm.frames = f :: rest) (hnext : f.next = i.next)
    (hopcode : i.opcode = .popExcept) (h : leaveHandler vm = .ok a vm') :
    ∃ g, vm'.frames = g :: rest ∧ f.Led i g := by
  obtain ⟨level, outer, saved, g, hblocks, hsaved, rfl⟩ := popSaved_of_leaveHandler hframes h
  obtain ⟨hsize, hg⟩ := popSaved_ok hsaved
  refine ⟨g, rfl, by rw [hg], by rw [hg], by rw [hg], ?_⟩
  rw [hg, hblocks]
  show i.Goes f.nlocals (.handling level :: outer) f.slots.size f.next outer g.slots.size
  rw [hnext]
  exact .leaves hopcode rfl hsize

/-- **Where the instruction a frame executes leads it**, if the frame goes on. -/
theorem led_of_perform (pending : List Pending) (hframes : vm.frames = f :: rest)
    (hnext : f.next = i.next) (hloop : (perform vm pending i).phase = .loop) :
    ∃ g, (perform vm pending i).vm.frames = g :: rest ∧ f.Led i g := by
  unfold perform at hloop ⊢
  cases he : execute i vm with
  | error e u =>
      rw [he] at hloop
      cases e with
      | exception exc =>
          obtain ⟨g, hg, hstays, hparent, hsize, -⟩ := exists_frame_of_exception hframes he
          exact led_of_raiseInFrame pending hg hstays hparent hsize hloop
      | _ => cases hloop
  | ok outcome u =>
      rw [he] at hloop
      cases outcome with
      | call request => cases hloop
      | breakOff => cases hloop
      | flow flow =>
          dsimp only at hloop ⊢
          by_cases hplain : i.opcode.isPlain = true
          · obtain rfl := flow_of_isPlain hplain he
            obtain ⟨g, hg, hstays, hparent, hsize⟩ := exists_frame_of_plain hplain hframes he
            refine ⟨g, hg, hstays.function_eq, hparent, hstays.current_eq, ?_⟩
            rw [hstays.blocks_eq, hstays.next_eq, hnext]
            -- the blocks are as they were and the next instruction follows
            exact .plain hplain hsize
          · -- the other instructions, one by one
            cases hopcode : i.opcode with
            | returnValue =>
                unfold execute at he
                rw [hopcode] at he
                obtain ⟨value, w, -, he⟩ := action_bind_ok.mp he
                obtain ⟨hflow, rfl⟩ := action_pure_ok.mp he
                obtain rfl := Outcome.flow.inj hflow
                cases hloop
            | popBlock =>
                unfold execute at he
                rw [hopcode] at he
                obtain ⟨a, w, hclose, he⟩ := action_bind_ok.mp he
                obtain ⟨hflow, rfl⟩ := action_pure_ok.mp he
                obtain rfl := Outcome.flow.inj hflow
                exact led_of_closeTry hframes hnext hopcode hclose
            | popExcept =>
                unfold execute at he
                rw [hopcode] at he
                obtain ⟨a, w, hleave, he⟩ := action_bind_ok.mp he
                obtain ⟨hflow, rfl⟩ := action_pure_ok.mp he
                obtain rfl := Outcome.flow.inj hflow
                exact led_of_leaveHandler hframes hnext hopcode hleave
            | raise =>
                unfold execute at he
                rw [hopcode] at he
                obtain ⟨value, w, hpop, he⟩ := action_bind_ok.mp he
                obtain ⟨g, hg, hstays, hparent, hsize, -⟩ :=
                  exists_frame_of_sized sized_pop (Vm.Works.admits none).keeps_pop hframes hpop
                have hpops : i.pops = 1 := by
                  unfold Instruction.pops
                  rw [hopcode]
                cases value with
                | exception e =>
                    obtain ⟨hflow, rfl⟩ := action_pure_ok.mp he
                    obtain rfl := Outcome.flow.inj hflow
                    exact led_of_raiseInFrame pending hg hstays hparent (by omega) hloop
                | _ => cases he
            | jumpAbsolute =>
                unfold execute at he
                rw [hopcode] at he
                obtain ⟨hflow, rfl⟩ := action_pure_ok.mp he
                obtain rfl := Outcome.flow.inj hflow
                rw [follow_jump hframes]
                exact ⟨_, rfl, rfl, rfl, rfl, .jump hopcode⟩
            | popJumpIfFalse =>
                unfold execute at he
                rw [hopcode] at he
                exact led_of_jumpIf pending hframes hnext (.inl hopcode) he
            | popJumpIfTrue =>
                unfold execute at he
                rw [hopcode] at he
                exact led_of_jumpIf pending hframes hnext (.inr hopcode) he
            | forIter =>
                unfold execute at he
                rw [hopcode] at he
                exact led_of_loopHead pending hframes hnext hopcode he
            | setupExcept =>
                unfold execute at he
                rw [hopcode] at he
                obtain ⟨a, w, hopen, he⟩ := action_bind_ok.mp he
                obtain ⟨hflow, rfl⟩ := action_pure_ok.mp he
                obtain rfl := Outcome.flow.inj hflow
                rw [openTry_eq hframes] at hopen
                obtain ⟨-, rfl⟩ := EStateM.Result.ok.inj hopen
                refine ⟨_, rfl, rfl, rfl, rfl, ?_⟩
                show i.Goes f.nlocals f.blocks f.slots.size f.next
                  (.guarded f.slots.size i.arg.toNat :: f.blocks) f.slots.size
                rw [hnext]
                exact .opens hopcode
            | callFunction | callMethod | callFunctionKw | callFunctionEx =>
                have hcall : i.opcode.isCall = true := by
                  rw [hopcode]
                  rfl
                rw [execute_of_isCall hcall] at he
                obtain ⟨request, w, -, he⟩ := action_bind_ok.mp he
                cases (action_pure_ok.mp he).1
            | _ =>
                rw [hopcode] at hplain
                exact absurd rfl hplain

/-- **Where the end of its call leads a suspended frame**, if the frame goes on. -/
theorem led_of_site {s : Store} {req : CallRequest} {result : Except Fault Value}
    (pending : List Pending) (hframes : vm.frames = f :: rest) (hsus : f.SuspendedIn s i req)
    (hloop : (deliver vm (.site req.slots) pending result).phase = .loop) :
    ∃ g, (deliver vm (.site req.slots) pending result).vm.frames = g :: rest ∧ f.Led i g := by
  unfold deliver siteFlow at hloop ⊢
  cases result with
  | error e =>
      cases e with
      | exception exc =>
          exact led_of_raiseInFrame pending hframes (Frame.Stays.refl f) rfl (Nat.le_add_right _ _)
            hloop
      | _ => cases hloop
  | ok v =>
      dsimp only at hloop ⊢
      cases hfinish : finishCall req.slots v vm with
      | error e u =>
          obtain ⟨b, rfl⟩ := Calm.finishCall _ _ vm e u hfinish
          rw [hfinish] at hloop
          cases hloop
      | ok a u =>
          dsimp only
          obtain ⟨g, hg, hstays, hparent, hsize, -⟩ :=
            exists_frame_of_sized (sized_finishCall req.slots v) (keeps_finishCall req.slots v)
              hframes hfinish
          have hslots : req.slots = i.callSize := by
            have hwaiting := hsus.waiting_eq
            unfold Frame.waiting at hwaiting
            rw [hsus.site?_eq] at hwaiting
            exact (Pending.site.inj hwaiting).symm
          refine ⟨g, hg, hstays.function_eq, hparent, hstays.current_eq, ?_⟩
          rw [hstays.blocks_eq, hstays.next_eq, hsus.next_eq]
          exact .called hsus.isCall (hslots ▸ hsize)

end Run

end Resumable
