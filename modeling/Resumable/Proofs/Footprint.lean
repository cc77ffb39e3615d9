/-
  Resumable.Proofs.Footprint
  ──────────────────────────
  **WHAT AN INSTRUCTION LEAVES ALONE.**

  An instruction works on the innermost frame, the globals, the store and the
  handled exception.  It never enters or leaves a frame, never touches a caller,
  and knows nothing of hooks and resumes; calls do that, and a call is a step
  of its own.

  `Keeps R x` says that the action `x` leaves the state related by `R` to how it
  was, whether it succeeds or fails.  What a relation owes for that is told once:

      Frame.Admits   it holds along each operation on the slots of a frame
      Vm.Steady      it holds along changes of data
      Vm.Admits      and along such operations on the innermost frame

  The actions are gone through once, for all relations of these kinds.

  Main results:
    • `Vm.Admits.keeps_execute`, `Vm.Admits.keeps_unwind` — instructions and unwinding,
    • `Vm.Steady.keeps_callNative`                        — natives,
    • `Vm.Works.admits`                                   — they work in the innermost frame.
-/
import Mathlib
import Resumable.Machine.Run

namespace Resumable

/-! ## §1. Actions that keep a relation. -/

section Keeping

variable {ε σ α β : Type} {R : σ → σ → Prop}

/-- The state an action leaves, whether it succeeds or fails. -/
def stateAfter (x : EStateM ε σ α) (s : σ) : σ :=
  match x s with
  | .ok _ s => s
  | .error _ s => s

/-- Whatever an action comes to, the state it leaves is related to how it was. -/
def Keeps (R : σ → σ → Prop) (x : EStateM ε σ α) : Prop :=
  ∀ s, R s (stateAfter x s)

/-- The relation at an action that succeeded. -/
theorem Keeps.of_ok {x : EStateM ε σ α} (h : Keeps R x) {s t : σ} {a : α}
    (hx : x s = .ok a t) : R s t := by
  have := h s
  rwa [stateAfter, hx] at this

/-- The relation at an action that failed: what it had changed by then counts as well. -/
theorem Keeps.of_error {x : EStateM ε σ α} (h : Keeps R x) {s t : σ} {e : ε}
    (hx : x s = .error e t) : R s t := by
  have := h s
  rwa [stateAfter, hx] at this

/-- An action that does nothing keeps every reflexive relation; so do the next two. -/
theorem keeps_pure (hr : ∀ s, R s s) (a : α) : Keeps R (pure a : EStateM ε σ α) :=
  fun s => hr s

theorem keeps_throw (hr : ∀ s, R s s) (e : ε) : Keeps R (throw e : EStateM ε σ α) :=
  fun s => hr s

theorem keeps_get (hr : ∀ s, R s s) : Keeps R (get : EStateM ε σ σ) :=
  fun s => hr s

/-- A change keeps the relation that it makes true. -/
theorem keeps_modify {f : σ → σ} (h : ∀ s, R s (f s)) :
    Keeps R (modify f : EStateM ε σ PUnit) :=
  fun s => h s

theorem keeps_modifyGet {f : σ → α × σ} (h : ∀ s, R s (f s).2) :
    Keeps R (modifyGet f : EStateM ε σ α) :=
  fun s => h s

/-- One action after another: the two steps compose. -/
theorem Keeps.bind (ht : ∀ {a b c}, R a b → R b c → R a c) {x : EStateM ε σ α}
    {f : α → EStateM ε σ β} (hx : Keeps R x) (hf : ∀ a, Keeps R (f a)) :
    Keeps R (x >>= f) := by
  intro s
  show R s (stateAfter (EStateM.bind x f) s)
  have hs := hx s
  unfold stateAfter EStateM.bind at *
  cases h : x s with
  | ok a t =>
      rw [h] at hs
      exact ht hs (hf a t)
  | error e t =>
      rw [h] at hs
      exact hs

end Keeping

/-! ## §2. Operations on a frame. -/

/-- A relation of frames that holds along each operation on slots, and along changes of
what is not slots.  Of the locals only `written` may be set. -/
structure Frame.Admits (written : Option Nat) (S : Frame → Frame → Prop) : Prop where
  trans : ∀ {f g k : Frame}, S f g → S g k → S f k
  aside : ∀ {f g : Frame}, g.function = f.function → g.parent = f.parent →
    g.argCount = f.argCount → g.slots = f.slots → S f g
  withSlot : ∀ (f : Frame) (slot : Option Value), S f (f.withSlot slot)
  keeps_popSlot : Keeps S FrameAction.popSlot
  keeps_drop : ∀ count, Keeps S (FrameAction.drop count)
  keeps_truncate : ∀ level, Keeps S (FrameAction.truncate level)
  keeps_swap : Keeps S FrameAction.swap
  keeps_setLocal : ∀ slot content, written = some slot → Keeps S (FrameAction.setLocal slot content)

namespace Frame.Admits

variable {written : Option Nat} {S : Frame → Frame → Prop} {α β : Type}
variable (h : Frame.Admits written S)
include h

theorem refl (f : Frame) : S f f :=
  h.aside rfl rfl rfl rfl

theorem keeps_pure (a : α) : Keeps S (pure a : FrameAction α) :=
  fun f => h.refl f

theorem keeps_throw (e : Fault) : Keeps S (throw e : FrameAction α) :=
  fun f => h.refl f

theorem keeps_get : Keeps S (get : FrameAction Frame) :=
  fun f => h.refl f

/-- Operations on a frame compose. -/
theorem keeps_bind {x : FrameAction α} {k : α → FrameAction β} (hx : Keeps S x)
    (hk : ∀ a, Keeps S (k a)) : Keeps S (x >>= k) :=
  Keeps.bind (R := S) h.trans hx hk

/-- To push is to add a slot, whether a value is in it or not. -/
theorem keeps_push (v : Value) : Keeps S (FrameAction.push v) :=
  fun f => h.withSlot f (some v)

theorem keeps_pushEmpty : Keeps S FrameAction.pushEmpty :=
  fun f => h.withSlot f none

/-- A pop takes a slot off, also when it fails on an empty one. -/
theorem keeps_pop : Keeps S FrameAction.pop := by
  refine h.keeps_bind h.keeps_popSlot fun slot => ?_
  split
  · exact h.keeps_pure _
  · exact h.keeps_bind h.keeps_get fun _ => h.keeps_throw _

/-- Looking at an entry changes nothing. -/
theorem keeps_peek (depth : Nat) : Keeps S (FrameAction.peek depth) := by
  refine h.keeps_bind h.keeps_get fun f => ?_
  split
  · exact h.keeps_pure _
  · exact h.keeps_throw _

/-- Reading the top entries of a call takes none of them off. -/
theorem keeps_topSlots (count : Nat) : Keeps S (FrameAction.topSlots count) := by
  refine h.keeps_bind h.keeps_get fun f => ?_
  split
  · exact h.keeps_pure _
  · exact h.keeps_throw _

/-- Fetching moves the place in the body only. -/
theorem keeps_fetch : Keeps S FrameAction.fetch := by
  refine h.keeps_bind h.keeps_get fun f => ?_
  split
  · exact h.keeps_throw _
  · exact h.keeps_bind (keeps_modify fun _ => h.aside rfl rfl rfl rfl) fun _ => h.keeps_pure _

/-- So does a jump. -/
theorem keeps_jump (target : Nat) :
    Keeps S (modify fun f => { f with next := target } : FrameAction PUnit) :=
  keeps_modify fun _ => h.aside rfl rfl rfl rfl

/-- Blocks are not slots. -/
theorem keeps_pushBlock (b : Block) : Keeps S (FrameAction.pushBlock b) :=
  keeps_modify fun _ => h.aside rfl rfl rfl rfl

theorem keeps_popBlock : Keeps S FrameAction.popBlock :=
  keeps_modifyGet fun _ => h.aside rfl rfl rfl rfl

/-- As many pops as there are items, one after another. -/
theorem keeps_popValues : ∀ (count : Nat) (taken : List Value), Keeps S (popValues count taken)
  | 0, taken => h.keeps_pure taken
  | count + 1, taken => h.keeps_bind h.keeps_pop fun value => keeps_popValues count (value :: taken)

/-- The two operands of an operator are two pops. -/
theorem keeps_operands : Keeps S operands :=
  h.keeps_bind h.keeps_pop fun _ => h.keeps_bind h.keeps_pop fun _ => h.keeps_pure _

/-- What a handler saved goes: the stack is cut to its level, then three slots. -/
theorem keeps_popSaved (level : Nat) : Keeps S (popSaved level) :=
  h.keeps_bind (h.keeps_truncate _) fun _ => h.keeps_bind h.keeps_popSlot fun _ =>
    h.keeps_bind h.keeps_popSlot fun _ => h.keeps_bind h.keeps_popSlot fun _ => h.keeps_pure _

/-- Several entries are pushed one by one. -/
theorem append (contents : List (Option Value)) (f : Frame) :
    S f { f with slots := f.slots ++ contents } := by
  induction contents generalizing f with
  | nil => exact h.aside rfl rfl rfl (by simp)
  | cons slot contents ih =>
      have hone := h.trans (h.withSlot f slot) (ih (f.withSlot slot))
      rwa [show (f.withSlot slot).slots ++ contents = f.slots ++ (slot :: contents) by
        apply Array.ext'
        simp [Frame.withSlot]] at hone

/-- A handler is entered with its four slots pushed. -/
theorem keeps_enterHandler (level handler : Nat) (previous : Option Value) (exc : Value) :
    Keeps S (enterHandler level handler previous exc) := by
  refine h.keeps_bind (h.keeps_truncate _) fun _ => h.keeps_bind (h.keeps_pushBlock _) fun _ =>
    keeps_modify fun f => ?_
  -- the three saved slots, the exception, and then the way to the handler
  have hpushed : S f _ := h.trans (h.append (savedTriplet previous) f) (h.append [some exc] _)
  exact h.trans hpushed (h.aside rfl rfl rfl rfl)

end Frame.Admits

/-- An action on a frame keeps whatever relation holds along the operations on slots. -/
def FrameAction.Operates {α : Type} (written : Option Nat) (x : FrameAction α) : Prop :=
  ∀ S, Frame.Admits written S → Keeps S x

/-! ## §3. Changes of data. -/

/-- A relation of machines that holds along changes of the globals, the store and the output. -/
structure Vm.Steady (R : Vm → Vm → Prop) : Prop where
  trans : ∀ {a b c : Vm}, R a b → R b c → R a c
  data : ∀ {vm vm' : Vm}, vm'.frames = vm.frames → vm'.hooks = vm.hooks → vm'.armed = vm.armed →
    vm'.config = vm.config → vm'.handled = vm.handled → R vm vm'

/-- A computation on the store leaves the machine its new store, or raises and changes
nothing. -/
theorem VmAction.onStore_apply {α : Type} (x : Calc α) (vm : Vm) :
    VmAction.onStore x vm = match x.run vm.store with
      | .ok (a, store) => .ok a { vm with store }
      | .error c => VmAction.raise c vm := by
  simp only [VmAction.onStore, bind, EStateM.bind, get, getThe, MonadStateOf.get, EStateM.get]
  cases x.run vm.store <;> rfl

/-- A capture of the host meets the armed resume. -/
theorem stateAfter_capture (vm : Vm) : stateAfter capture vm = vm.dropArmed := by
  unfold stateAfter capture
  simp only [bind, EStateM.bind, get, getThe, MonadStateOf.get, EStateM.get]
  cases harmed : vm.armed with
  | some id => rfl
  | none =>
      have hsame : vm.dropArmed = vm := by
        unfold Vm.dropArmed
        rw [harmed]
      rw [hsame]
      dsimp only
      cases vm.liveContinuation <;> rfl

namespace Vm.Steady

open VmAction

variable {R : Vm → Vm → Prop} {α β : Type}
variable (h : Vm.Steady R)
include h

theorem refl (vm : Vm) : R vm vm :=
  h.data rfl rfl rfl rfl rfl

/-- Nothing is changed by an action that only answers or fails. -/
theorem keeps_pure (a : α) : Keeps R (pure a : VmAction α) :=
  fun vm => h.refl vm

theorem keeps_throw (e : Fault) : Keeps R (throw e : VmAction α) :=
  fun vm => h.refl vm

theorem keeps_get : Keeps R (get : VmAction Vm) :=
  fun vm => h.refl vm

/-- Actions compose. -/
theorem keeps_bind {x : VmAction α} {k : α → VmAction β} (hx : Keeps R x)
    (hk : ∀ a, Keeps R (k a)) : Keeps R (x >>= k) :=
  Keeps.bind (R := R) h.trans hx hk

/-- Raising makes a new exception, which is a change of data. -/
theorem keeps_raise (c : Cause) : Keeps R (raise c : VmAction α) :=
  fun _ => h.data rfl rfl rfl rfl rfl

theorem keeps_breach (b : Breach) : Keeps R (breach b : VmAction α) :=
  h.keeps_throw _

/-- A computation without effects is either an answer or a raise. -/
theorem keeps_lift (r : Except Cause α) : Keeps R (lift r) := by
  cases r with
  | ok a => exact h.keeps_pure a
  | error c => exact h.keeps_raise c

theorem keeps_ofExcept (r : Except Fault α) : Keeps R (ofExcept r) := by
  cases r with
  | ok a => exact h.keeps_pure a
  | error e => exact h.keeps_throw e

/-- A computation on the store is a change of data. -/
theorem keeps_onStore (x : Calc α) : Keeps R (onStore x) := by
  intro vm
  unfold stateAfter
  rw [onStore_apply]
  cases x.run vm.store with
  | ok r => exact h.data rfl rfl rfl rfl rfl
  | error c => exact h.keeps_raise (α := α) c vm

/-- A look-up of an attribute reads, and raises when there is none. -/
theorem keeps_attributeOf (owner : Value) (name : String) : Keeps R (attributeOf owner name) := by
  unfold attributeOf
  split
  · refine h.keeps_bind h.keeps_get fun vm => ?_
    split
    · exact h.keeps_pure _
    · exact h.keeps_raise _
  · split
    · exact h.keeps_pure _
    · exact h.keeps_raise _
  · exact h.keeps_raise _

/-- So does a look-up of a method, but a method of a list is made anew as a native. -/
theorem keeps_method (owner : Value) (name : String) : Keeps R (method owner name) := by
  unfold method
  split
  · refine h.keeps_bind h.keeps_get fun vm => ?_
    split
    · exact h.keeps_pure _
    · exact h.keeps_pure _
    · exact h.keeps_pure _
    · exact h.keeps_raise _
  · split
    · exact h.keeps_bind (h.keeps_onStore _) fun _ => h.keeps_pure _
    · exact h.keeps_raise _
  · exact h.keeps_bind (h.keeps_attributeOf owner name) fun _ => h.keeps_pure _

/-- Reading the collected arguments of a call takes the list and the dict as they are. -/
theorem keeps_collectedRequest (slots : List (Option Value)) :
    Keeps R (collectedRequest slots) := by
  refine h.keeps_bind (h.keeps_ofExcept _) fun first => h.keeps_bind (h.keeps_ofExcept _)
    fun second => h.keeps_bind h.keeps_get fun vm => h.keeps_bind (h.keeps_lift _)
      fun positional => ?_
  split
  · exact h.keeps_pure _
  · exact h.keeps_bind (h.keeps_ofExcept _) fun _ => h.keeps_bind h.keeps_get fun _ =>
      h.keeps_bind (h.keeps_lift _) fun _ => h.keeps_pure _

/-- Going on to the next instruction adds nothing to what an action did. -/
theorem keeps_andNext {action : VmAction Unit} (haction : Keeps R action) :
    Keeps R (andNext action) :=
  h.keeps_bind haction fun _ => h.keeps_pure _

/-- The natives that compute on the store, all in one form. -/
theorem keeps_simpleNative (native : Native) (least most : Nat) (args : Arguments)
    (compute : List Value → Calc Value) : Keeps R (simpleNative native least most args compute) :=
  h.keeps_bind (h.keeps_lift _) fun _ => h.keeps_bind (h.keeps_onStore _) fun _ => h.keeps_pure _

/-- A printed line is data. -/
theorem keeps_printLine (args : Arguments) : Keeps R (printLine args) :=
  h.keeps_bind (h.keeps_lift _) fun _ => keeps_modify fun _ => h.data rfl rfl rfl rfl rfl

/-- **Natives change data only**, but for a capture, which may meet the armed resume. -/
theorem keeps_callNative {native : Native}
    (hcapture : native = .capture → ∀ vm : Vm, R vm vm.dropArmed) (args : Arguments) :
    Keeps R (callNative native args) := by
  cases native with
  | capture =>
      have hmeets : Keeps R capture := fun vm => stateAfter_capture vm ▸ hcapture rfl vm
      exact h.keeps_bind (h.keeps_lift _) fun _ => h.keeps_bind hmeets fun _ =>
        h.keeps_bind (h.keeps_onStore _) fun _ => h.keeps_pure _
  | resume =>
      refine h.keeps_bind (h.keeps_lift _) fun positional => ?_
      split
      · exact h.keeps_bind h.keeps_get fun _ => h.keeps_pure _
      · exact h.keeps_raise _
      · exact h.keeps_raise _
  | print => exact h.keeps_bind (h.keeps_printLine args) fun _ => h.keeps_pure _
  | host name => exact h.keeps_pure _
  | len | range | iter | exception | object | append | pop =>
      exact h.keeps_simpleNative _ _ _ args _

end Vm.Steady

/-! ## §4. Instructions. -/

/-- The local an instruction sets. -/
def Instruction.written? (i : Instruction) : Option Nat :=
  match i.opcode with
  | .storeFast | .deleteFast => some i.arg.toNat
  | _ => none

/-- A steady relation that also holds along operations on the innermost frame. -/
structure Vm.Admits (written : Option Nat) (R : Vm → Vm → Prop) : Prop extends Vm.Steady R where
  keeps_onFrame : ∀ {α : Type} {x : FrameAction α}, x.Operates written → Keeps R (VmAction.onFrame x)

namespace Vm.Admits

open VmAction

variable {written : Option Nat} {R : Vm → Vm → Prop}
variable (h : Vm.Admits written R)
include h

/-- Asking for the innermost frame keeps it. -/
theorem keeps_currentFrame : Keeps R currentFrame :=
  h.keeps_onFrame fun _ hs => hs.keeps_get

theorem keeps_push (v : Value) : Keeps R (onFrame (FrameAction.push v)) :=
  h.keeps_onFrame fun _ hs => hs.keeps_push v

theorem keeps_pop : Keeps R (onFrame FrameAction.pop) :=
  h.keeps_onFrame fun _ hs => hs.keeps_pop

/-- A name that an instruction refers to is in the body, or the body is broken. -/
theorem keeps_nameAt (index : Nat) : Keeps R (nameAt index) := by
  refine h.keeps_bind h.keeps_currentFrame fun f => ?_
  split
  · exact h.keeps_pure _
  · exact h.keeps_breach _

/-- A constant is made in the store and pushed. -/
theorem keeps_loadConstant (index : Nat) : Keeps R (loadConstant index) := by
  refine h.keeps_bind h.keeps_currentFrame fun f => ?_
  split
  · exact h.keeps_breach _
  · exact h.keeps_bind (h.keeps_onStore _) h.keeps_push

/-- Reading a local is a push. -/
theorem keeps_loadLocal (slot : Nat) : Keeps R (loadLocal slot) := by
  refine h.keeps_bind h.keeps_currentFrame fun f => ?_
  split
  · exact h.keeps_push _
  · exact h.keeps_raise _

/-- Only the local that the instruction names is set. -/
theorem keeps_storeLocal {slot : Nat} (hslot : written = some slot) : Keeps R (storeLocal slot) :=
  h.keeps_onFrame fun _ hs => hs.keeps_bind hs.keeps_pop fun _ => hs.keeps_setLocal slot _ hslot

/-- The same for a local that is emptied, which must be filled before. -/
theorem keeps_deleteLocal {slot : Nat} (hslot : written = some slot) :
    Keeps R (deleteLocal slot) := by
  refine h.keeps_bind h.keeps_currentFrame fun f => ?_
  split
  · exact h.keeps_onFrame fun _ hs => hs.keeps_setLocal slot _ hslot
  · exact h.keeps_raise _

/-- Globals are data. -/
theorem keeps_loadGlobal (index : Nat) : Keeps R (loadGlobal index) := by
  refine h.keeps_bind (h.keeps_nameAt index) fun name => h.keeps_bind h.keeps_get fun vm => ?_
  split
  · exact h.keeps_push _
  · exact h.keeps_raise _

theorem keeps_storeGlobal (index : Nat) : Keeps R (storeGlobal index) :=
  h.keeps_bind (h.keeps_nameAt index) fun _ => h.keeps_bind h.keeps_pop fun _ =>
    keeps_modify fun _ => h.data rfl rfl rfl rfl rfl

theorem keeps_loadAttribute (index : Nat) : Keeps R (loadAttribute index) :=
  h.keeps_bind (h.keeps_nameAt index) fun name => h.keeps_bind h.keeps_pop fun owner =>
    h.keeps_bind (h.keeps_attributeOf owner name) h.keeps_push

/-- Setting an attribute of an object changes the store. -/
theorem keeps_storeAttribute (index : Nat) : Keeps R (storeAttribute index) := by
  refine h.keeps_bind (h.keeps_nameAt index) fun name => h.keeps_bind h.keeps_pop fun owner =>
    h.keeps_bind h.keeps_pop fun value => ?_
  split
  · exact keeps_modify fun _ => h.data rfl rfl rfl rfl rfl
  · exact h.keeps_raise _

/-- A method is pushed with its owner, or with an empty slot in its place. -/
theorem keeps_loadMethod (index : Nat) : Keeps R (loadMethod index) := by
  refine h.keeps_bind (h.keeps_nameAt index) fun name => h.keeps_bind h.keeps_pop fun owner =>
    h.keeps_bind (h.keeps_method owner name) fun found => h.keeps_onFrame fun _ hs => ?_
  refine hs.keeps_bind (hs.keeps_push _) fun _ => ?_
  split
  · exact hs.keeps_push _
  · exact hs.keeps_pushEmpty

/-- An operator pops its operands, computes on the store, and pushes the result. -/
theorem keeps_combine (op : Value → Value → Calc Value) : Keeps R (combine op) :=
  h.keeps_bind (h.keeps_onFrame fun _ hs => hs.keeps_operands) fun _ =>
    h.keeps_bind (h.keeps_onStore _) h.keeps_push

/-- A product may break the program off, which leaves the popped operands popped. -/
theorem keeps_pushProduct (left right : Value) : Keeps R (pushProduct left right) := by
  unfold pushProduct
  split
  · exact h.keeps_pure _
  · exact h.keeps_andNext (h.keeps_bind (h.keeps_lift _) h.keeps_push)

theorem keeps_multiplyTop : Keeps R multiplyTop :=
  h.keeps_bind (h.keeps_onFrame fun _ hs => hs.keeps_operands) fun taken =>
    h.keeps_pushProduct taken.1 taken.2

/-- A comparison that the operand does not name is a breach before anything is popped. -/
theorem keeps_compareTop (operand : UInt16) : Keeps R (compareTop operand) := by
  unfold compareTop
  split
  · exact h.keeps_breach _
  · exact h.keeps_bind (h.keeps_onFrame fun _ hs => hs.keeps_operands) fun _ =>
      h.keeps_bind h.keeps_get fun _ => h.keeps_bind (h.keeps_lift _) fun _ => h.keeps_push _

theorem keeps_negateTop : Keeps R negateTop :=
  h.keeps_bind h.keeps_pop fun _ => h.keeps_bind h.keeps_get fun _ => h.keeps_push _

/-- A container is built of the values it pops. -/
theorem keeps_buildTuple (count : Nat) : Keeps R (buildTuple count) :=
  h.keeps_onFrame fun _ hs => hs.keeps_bind (hs.keeps_popValues count []) fun _ => hs.keeps_push _

theorem keeps_buildList (count : Nat) : Keeps R (buildList count) :=
  h.keeps_bind (h.keeps_onFrame fun _ hs => hs.keeps_popValues count []) fun _ =>
    h.keeps_bind (h.keeps_onStore _) h.keeps_push

theorem keeps_buildDict (count : Nat) : Keeps R (buildDict count) :=
  h.keeps_bind (h.keeps_onFrame fun _ hs => hs.keeps_popValues (count * 2) []) fun _ =>
    h.keeps_bind (h.keeps_lift _) fun _ => h.keeps_bind (h.keeps_onStore _) h.keeps_push

/-- An iterator is made in the store. -/
theorem keeps_iterateTop : Keeps R iterateTop :=
  h.keeps_bind h.keeps_pop fun _ => h.keeps_bind (h.keeps_onStore _) h.keeps_push

/-- The iterator stays on the stack and its cursor moves in the store. -/
theorem keeps_nextOfTop : Keeps R nextOfTop := by
  refine h.keeps_bind (h.keeps_onFrame fun _ hs => hs.keeps_peek 0) fun v => ?_
  split
  · exact keeps_modifyGet fun _ => h.data rfl rfl rfl rfl rfl
  · exact h.keeps_raise _

theorem keeps_jumpIf (wanted : Bool) (target : Nat) : Keeps R (jumpIf wanted target) :=
  h.keeps_bind h.keeps_pop fun _ => h.keeps_bind h.keeps_get fun _ => h.keeps_pure _

/-- A loop pushes the next item, or pops the exhausted iterator. -/
theorem keeps_loopHead (exit : Nat) : Keeps R (loopHead exit) := by
  refine h.keeps_bind h.keeps_nextOfTop fun item => ?_
  split
  · exact h.keeps_bind (h.keeps_push _) fun _ => h.keeps_pure _
  · exact h.keeps_bind h.keeps_pop fun _ => h.keeps_pure _

/-- What is raised is popped, and is an exception or there is another. -/
theorem keeps_raiseTop : Keeps R raiseTop := by
  refine h.keeps_bind h.keeps_pop fun v => ?_
  split
  · exact h.keeps_pure _
  · exact h.keeps_raise _

/-- A try begins with a block at the present height. -/
theorem keeps_openTry (handler : Nat) : Keeps R (openTry handler) :=
  h.keeps_onFrame fun _ hs => hs.keeps_bind hs.keeps_get fun _ => hs.keeps_pushBlock _

theorem keeps_popBlock : Keeps R (onFrame FrameAction.popBlock) :=
  h.keeps_onFrame fun _ hs => hs.keeps_popBlock

/-- It ends by taking that block off; any other block is a breach. -/
theorem keeps_closeTry : Keeps R closeTry := by
  refine h.keeps_bind h.keeps_popBlock fun found => ?_
  split
  · exact h.keeps_pure _
  · exact h.keeps_bind h.keeps_currentFrame fun _ => h.keeps_breach _

/-- Leaving a handler gives back what it saved: here the handled exception changes. -/
theorem keeps_leaveHandler
    (hhandled : ∀ (vm : Vm) (exc : Option Value), R vm { vm with handled := exc }) :
    Keeps R leaveHandler := by
  refine h.keeps_bind h.keeps_popBlock fun found => ?_
  split
  · exact h.keeps_bind (h.keeps_onFrame fun _ hs => hs.keeps_popSaved _) fun saved =>
      keeps_modify fun vm => hhandled vm saved
  · exact h.keeps_bind h.keeps_currentFrame fun _ => h.keeps_breach _

/-- A call instruction only reads what it calls with, in each of the four shapes. -/
theorem keeps_callRequest (i : Instruction) : Keeps R (callRequest i) := by
  have htop (count : Nat) : Keeps R (onFrame (FrameAction.topSlots count)) :=
    h.keeps_onFrame fun _ hs => hs.keeps_topSlots count
  unfold callRequest
  dsimp only
  split
  · exact h.keeps_bind (htop _) fun _ => h.keeps_ofExcept _
  · exact h.keeps_bind (htop _) fun _ => h.keeps_ofExcept _
  · exact h.keeps_bind (htop _) h.keeps_collectedRequest
  · exact h.keeps_bind (htop _) fun _ => h.keeps_ofExcept _

omit h in
/-- **Instructions change data and operate on the innermost frame.**  No local is set but the
one an instruction names, and only leaving a handler changes the handled exception. -/
theorem keeps_execute {i : Instruction} (h : Vm.Admits i.written? R)
    (hhandled : i.opcode = .popExcept →
      ∀ (vm : Vm) (exc : Option Value), R vm { vm with handled := exc }) :
    Keeps R (execute i) := by
  have hsets (hstore : i.opcode = .storeFast ∨ i.opcode = .deleteFast) :
      i.written? = some i.arg.toNat := by
    unfold Instruction.written?
    rcases hstore with hopcode | hopcode <;> rw [hopcode]
  unfold execute
  dsimp only
  cases hopcode : i.opcode with
  | nop => exact h.keeps_pure _
  | popTop =>
      exact h.keeps_andNext (h.keeps_bind (h.keeps_onFrame fun _ hs => hs.keeps_popSlot) fun _ =>
        h.keeps_pure _)
  | rotTwo => exact h.keeps_andNext (h.keeps_onFrame fun _ hs => hs.keeps_swap)
  | dupTop =>
      exact h.keeps_andNext (h.keeps_onFrame fun _ hs => hs.keeps_bind (hs.keeps_peek 0) hs.keeps_push)
  | unaryNot => exact h.keeps_andNext h.keeps_negateTop
  | binaryAdd => exact h.keeps_andNext (h.keeps_combine _)
  | binarySubtract => exact h.keeps_andNext (h.keeps_combine _)
  | binaryMultiply => exact h.keeps_multiplyTop
  | getIter => exact h.keeps_andNext h.keeps_iterateTop
  | returnValue => exact h.keeps_bind h.keeps_pop fun _ => h.keeps_pure _
  | popBlock => exact h.keeps_andNext h.keeps_closeTry
  | popExcept => exact h.keeps_andNext (h.keeps_leaveHandler (hhandled hopcode))
  | raise => exact h.keeps_raiseTop
  | loadFast => exact h.keeps_andNext (h.keeps_loadLocal _)
  | storeFast => exact h.keeps_andNext (h.keeps_storeLocal (hsets (.inl hopcode)))
  | deleteFast => exact h.keeps_andNext (h.keeps_deleteLocal (hsets (.inr hopcode)))
  | compareOp => exact h.keeps_andNext (h.keeps_compareTop _)
  | buildTuple => exact h.keeps_andNext (h.keeps_buildTuple _)
  | buildList => exact h.keeps_andNext (h.keeps_buildList _)
  | buildMap => exact h.keeps_andNext (h.keeps_buildDict _)
  | loadConst => exact h.keeps_andNext (h.keeps_loadConstant _)
  | loadGlobal => exact h.keeps_andNext (h.keeps_loadGlobal _)
  | storeGlobal => exact h.keeps_andNext (h.keeps_storeGlobal _)
  | loadAttr => exact h.keeps_andNext (h.keeps_loadAttribute _)
  | storeAttr => exact h.keeps_andNext (h.keeps_storeAttribute _)
  | loadMethod => exact h.keeps_andNext (h.keeps_loadMethod _)
  | jumpAbsolute => exact h.keeps_pure _
  | popJumpIfFalse => exact h.keeps_jumpIf false _
  | popJumpIfTrue => exact h.keeps_jumpIf true _
  | forIter => exact h.keeps_loopHead _
  | setupExcept => exact h.keeps_andNext (h.keeps_openTry _)
  | callFunction | callMethod | callFunctionKw | callFunctionEx =>
      exact h.keeps_bind (h.keeps_callRequest i) fun _ => h.keeps_pure _

/-! ## §5. Unwinding and the end of a call. -/

/-- Unwinding gives back what each handler on the way saved, and stops at a guard. -/
theorem keeps_unwindThrough
    (hhandled : ∀ (vm : Vm) (exc : Option Value), R vm { vm with handled := exc }) (exc : Value) :
    ∀ blocks, Keeps R (unwindThrough exc blocks)
  | [] => h.keeps_throw _
  | .handling level :: rest =>
      h.keeps_bind h.keeps_popBlock fun _ =>
        h.keeps_bind (h.keeps_onFrame fun _ hs => hs.keeps_popSaved level) fun saved =>
          h.keeps_bind (keeps_modify fun vm => hhandled vm saved) fun _ =>
            keeps_unwindThrough hhandled exc rest
  | .guarded level handler :: _ =>
      h.keeps_bind h.keeps_popBlock fun _ => h.keeps_bind h.keeps_get fun _ =>
        h.keeps_bind (h.keeps_onFrame fun _ hs => hs.keeps_enterHandler level handler _ exc) fun _ =>
          keeps_modify fun vm => hhandled vm (some exc)

theorem keeps_unwind
    (hhandled : ∀ (vm : Vm) (exc : Option Value), R vm { vm with handled := exc }) (exc : Value) :
    Keeps R (unwind exc) :=
  h.keeps_bind h.keeps_currentFrame fun f => h.keeps_unwindThrough hhandled exc f.blocks

/-- When a call has ended, its slots make way for the result. -/
theorem keeps_finishCall (slots : Nat) (result : Value) : Keeps R (finishCall slots result) :=
  h.keeps_onFrame fun _ hs => hs.keeps_bind (hs.keeps_drop slots) fun _ => hs.keeps_push result

theorem keeps_jump (target : Nat) :
    Keeps R (onFrame (modify fun f => { f with next := target })) :=
  h.keeps_onFrame fun _ hs => hs.keeps_jump target

end Vm.Admits

/-! ## §6. Only the innermost frame is worked on. -/

/-- Two states of one call: the function, the caller and the parameters agree. -/
structure Frame.SameCall (f g : Frame) : Prop where
  function_eq : g.function = f.function
  parent_eq : g.parent = f.parent
  argCount_eq : g.argCount = f.argCount

namespace Frame.SameCall

/-- A call stays the same while nothing happens to it. -/
theorem refl (f : Frame) : f.SameCall f :=
  ⟨rfl, rfl, rfl⟩

theorem trans {f g k : Frame} (h₁ : f.SameCall g) (h₂ : g.SameCall k) : f.SameCall k :=
  ⟨h₂.1.trans h₁.1, h₂.2.trans h₁.2, h₂.3.trans h₁.3⟩

/-- No operation on slots changes the call. -/
theorem admits (written : Option Nat) : Frame.Admits written SameCall := by
  have hbind {α β : Type} {x : FrameAction α} {k : α → FrameAction β} (hx : Keeps SameCall x)
      (hk : ∀ a, Keeps SameCall (k a)) : Keeps SameCall (x >>= k) :=
    Keeps.bind (fun h₁ h₂ => h₁.trans h₂) hx hk
  constructor
  case trans => exact fun h₁ h₂ => h₁.trans h₂
  case aside => exact fun hfunction hparent hargs _ => ⟨hfunction, hparent, hargs⟩
  case withSlot => exact fun _ _ => ⟨rfl, rfl, rfl⟩
  case keeps_popSlot =>
    refine hbind (keeps_get refl) fun f => ?_
    split
    · exact hbind (keeps_throw refl _) fun _ =>
        hbind (keeps_modify fun _ => ⟨rfl, rfl, rfl⟩) fun _ => keeps_pure refl _
    · exact hbind (keeps_modify fun _ => ⟨rfl, rfl, rfl⟩) fun _ => keeps_pure refl _
  case keeps_drop =>
    intro count
    refine hbind (keeps_get refl) fun f => ?_
    split
    · exact hbind (keeps_throw refl _) fun _ => keeps_modify fun _ => ⟨rfl, rfl, rfl⟩
    · exact keeps_modify fun _ => ⟨rfl, rfl, rfl⟩
  case keeps_truncate => exact fun _ => keeps_modify fun _ => ⟨rfl, rfl, rfl⟩
  case keeps_swap =>
    refine hbind (hbind (keeps_get refl) fun f => ?_) fun _ =>
      keeps_modify fun _ => ⟨rfl, rfl, rfl⟩
    split
    · exact keeps_pure refl _
    · exact keeps_throw refl _
  case keeps_setLocal =>
    intro slot content _
    refine hbind (keeps_get refl) fun f => ?_
    split
    · exact hbind (keeps_throw refl _) fun _ => keeps_modify fun _ => ⟨rfl, rfl, rfl⟩
    · exact keeps_modify fun _ => ⟨rfl, rfl, rfl⟩

end Frame.SameCall

/-- The innermost frames are two states of one call and the callers agree. -/
def Frame.SameTop : List Frame → List Frame → Prop
  | [], [] => True
  | f :: fs, g :: gs => f.SameCall g ∧ fs = gs
  | _, _ => False

namespace Frame.SameTop

theorem refl : ∀ fs : List Frame, SameTop fs fs
  | [] => trivial
  | f :: _ => ⟨SameCall.refl f, rfl⟩

theorem trans : ∀ {fs gs ks : List Frame}, SameTop fs gs → SameTop gs ks → SameTop fs ks
  | [], [], [], _, _ => trivial
  | _ :: _, _ :: _, _ :: _, h₁, h₂ => ⟨h₁.1.trans h₂.1, h₁.2.trans h₂.2⟩

/-- The frame that was worked on, in its new state. -/
theorem cons_iff {f : Frame} {fs gs : List Frame} :
    SameTop (f :: fs) gs ↔ ∃ g, f.SameCall g ∧ gs = g :: fs := by
  cases gs with
  | nil => simp [SameTop]
  | cons g gs =>
      constructor
      · rintro ⟨h, rfl⟩
        exact ⟨g, h, rfl⟩
      · rintro ⟨k, h, hg⟩
        obtain ⟨rfl, rfl⟩ := List.cons.inj hg
        exact ⟨h, rfl⟩

/-- Working on the innermost frame keeps the number of frames. -/
theorem length_eq : ∀ {fs gs : List Frame}, SameTop fs gs → gs.length = fs.length
  | [], [], _ => rfl
  | _ :: _, _ :: _, h => by simp only [List.length_cons, h.2]

end Frame.SameTop

/-- What work in the innermost frame leaves alone: the callers, the hooks and
the armed resume. -/
structure Vm.Works (vm vm' : Vm) : Prop where
  frames : Frame.SameTop vm.frames vm'.frames
  hooks_eq : vm'.hooks = vm.hooks
  armed_eq : vm'.armed = vm.armed

namespace Vm.Works

theorem refl (vm : Vm) : vm.Works vm :=
  ⟨Frame.SameTop.refl _, rfl, rfl⟩

theorem trans {a b c : Vm} (h₁ : a.Works b) (h₂ : b.Works c) : a.Works c :=
  ⟨h₁.1.trans h₂.1, h₂.2.trans h₁.2, h₂.3.trans h₁.3⟩

end Vm.Works

/-- An action on the innermost frame leaves its new state in the old one's place, also
when it fails. -/
theorem VmAction.onFrame_apply {α : Type} {vm : Vm} {f : Frame} {rest : List Frame}
    (h : vm.frames = f :: rest) (x : FrameAction α) :
    VmAction.onFrame x vm = match x f with
      | .ok a g => .ok a { vm with frames := g :: rest }
      | .error e g => .error e { vm with frames := g :: rest } := by
  cases hx : x f <;> simp only [VmAction.onFrame, h, hx]

namespace VmAction

open Vm (Works)

/-- An action on the innermost frame that keeps its call. -/
theorem keeps_onFrame {α : Type} {x : FrameAction α} (hx : Keeps Frame.SameCall x) :
    Keeps Works (onFrame x) := by
  intro vm
  unfold stateAfter
  cases hf : vm.frames with
  | nil =>
      rw [show onFrame x vm = .error (.internal .noActiveFrame) vm by simp only [onFrame, hf]]
      exact Works.refl vm
  | cons f rest =>
      have hs := hx f
      unfold stateAfter at hs
      rw [onFrame_apply hf]
      cases h : x f with
      | ok a g =>
          rw [h] at hs
          exact ⟨hf ▸ ⟨hs, rfl⟩, rfl, rfl⟩
      | error e g =>
          rw [h] at hs
          exact ⟨hf ▸ ⟨hs, rfl⟩, rfl, rfl⟩

end VmAction

/-- Changes of data and operations on the innermost frame are such work. -/
theorem Vm.Works.admits (written : Option Nat) : Vm.Admits written Vm.Works where
  trans := fun h₁ h₂ => h₁.trans h₂
  data := fun hframes hhooks harmed _ _ => ⟨hframes ▸ Frame.SameTop.refl _, hhooks, harmed⟩
  keeps_onFrame := fun hx => VmAction.keeps_onFrame (hx _ (Frame.SameCall.admits written))

theorem Vm.Works.steady : Vm.Steady Vm.Works :=
  (Vm.Works.admits none).toSteady

namespace VmAction

open Vm (Works)

/-- To handle another exception is work in this sense. -/
theorem works_of_handled (vm : Vm) (exc : Option Value) : vm.Works { vm with handled := exc } :=
  ⟨Frame.SameTop.refl vm.frames, rfl, rfl⟩

/-- **Every instruction works in the innermost frame only.** -/
theorem keeps_execute (i : Instruction) : Keeps Works (execute i) :=
  (Works.admits _).keeps_execute fun _ => works_of_handled

/-- **So does sending an exception to a handler.** -/
theorem keeps_unwind (exc : Value) : Keeps Works (unwind exc) :=
  (Works.admits none).keeps_unwind works_of_handled exc

/-- So does taking the result of a call. -/
theorem keeps_finishCall (slots : Nat) (result : Value) : Keeps Works (finishCall slots result) :=
  (Works.admits none).keeps_finishCall slots result

theorem keeps_jump (target : Nat) :
    Keeps Works (onFrame (modify fun f => { f with next := target })) :=
  (Works.admits none).keeps_jump target

/-- A native other than a capture leaves the frames, the hooks and the armed resume alone. -/
theorem keeps_callNative {native : Native} (h : native ≠ .capture) (args : Arguments) :
    Keeps Works (callNative native args) :=
  Works.steady.keeps_callNative (fun hcapture => absurd hcapture h) args

end VmAction

theorem FrameAction.keeps_fetch : Keeps Frame.SameCall FrameAction.fetch :=
  (Frame.SameCall.admits none).keeps_fetch

end Resumable
