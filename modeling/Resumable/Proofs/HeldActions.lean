/-
  Resumable.Proofs.HeldActions
  ────────────────────────────
  **WHAT INSTRUCTIONS AND NATIVES BRING IN.**

  Every action on a machine yields only functions whose bodies the program may
  hold (`Yields`, closed under sequencing), and leaves the continuations alone:

      LOAD_CONST         a body among the constants of a body that is held
      all other actions  what was read off slots, globals and the store

  Main results:
    • `yields_execute`, `yields_unwind`, `yields_finishCall` — instructions,
    • `yields_callNative`                                    — natives but for capture.
-/
import Resumable.Proofs.HeldBodies

namespace Resumable

variable {α β : Type} {B : Bodies}

/-! ## §1. Machines. -/

/-- Every function of a machine has a body that may be held, and its continuations
are `K`. -/
structure Vm.Holds (B : Bodies) (K : Array Continuation) (vm : Vm) : Prop where
  store : vm.store.Holds B
  continuations_eq : vm.store.continuations = K
  frames : ∀ f ∈ vm.frames, Within B f
  globals : Within B vm.globals
  handled : Within B vm.handled

/-- A machine with another store holds what that one does. -/
theorem Vm.Holds.withStore {K L : Array Continuation} {vm : Vm} {s : Store} (h : vm.Holds B K)
    (hs : s.Holds B) (hL : s.continuations = L) : Vm.Holds B L { vm with store := s } :=
  ⟨hs, hL, h.frames, h.globals, h.handled⟩

namespace VmAction

open Vm (Holds)

variable [Renamable α] [Renamable β] {K : Array Continuation}

/-- An exception is made. -/
theorem yields_raise (c : Cause) : Yields B (Holds B K) (raise c : VmAction α) :=
  fun _ h => ⟨h.withStore (h.store.withSerial _) h.continuations_eq, within_of_isInert rfl⟩

theorem yields_breach (b : Breach) : Yields B (Holds B K) (breach b : VmAction α) :=
  yields_throw (within_breach b)

/-- A computation that may end in an exception. -/
theorem yields_lift {r : Except Cause α} (h : ∀ a, r = .ok a → Within B a) :
    Yields B (Holds B K) (lift r) := by
  cases r with
  | ok a => exact yields_pure (h a rfl)
  | error c => exact yields_raise c

/-- A computation that may end in a fault. -/
theorem yields_ofExcept {r : Except Fault α} (h : Within B r) :
    Yields B (Holds B K) (ofExcept r) := by
  cases r with
  | ok a => exact yields_pure h
  | error e => exact yields_throw h

/-- A computation on the store of a machine. -/
theorem yields_onStore {x : Calc α} (h : Calc.Yields B K x) :
    Yields B (Holds B K) (onStore x) := by
  intro vm hvm
  rw [onStore_apply]
  cases hrun : x.run vm.store with
  | error c => exact yields_raise c vm hvm
  | ok r =>
      obtain ⟨a, t⟩ := r
      obtain ⟨ht, hK, ha⟩ := h vm.store a t hvm.store hvm.continuations_eq hrun
      exact ⟨hvm.withStore ht hK, ha⟩

/-- An action on the innermost frame. -/
theorem yields_onFrame {x : FrameAction α} (h : Yields B (Within B) x) :
    Yields B (Holds B K) (onFrame x) := by
  intro vm hvm
  cases hframes : vm.frames with
  | nil =>
      unfold onFrame
      rw [hframes]
      exact ⟨hvm, within_breach _⟩
  | cons f rest =>
      rw [onFrame_apply hframes]
      have hold := hvm.frames
      rw [hframes, List.forall_mem_cons] at hold
      have hend := h f hold.1
      cases hrun : x f with
      | ok a g =>
          rw [hrun] at hend
          exact ⟨⟨hvm.store, hvm.continuations_eq, List.forall_mem_cons.mpr ⟨hend.1, hold.2⟩,
            hvm.globals, hvm.handled⟩, hend.2⟩
      | error e g =>
          rw [hrun] at hend
          exact ⟨⟨hvm.store, hvm.continuations_eq, List.forall_mem_cons.mpr ⟨hend.1, hold.2⟩,
            hvm.globals, hvm.handled⟩, hend.2⟩

theorem yields_currentFrame : Yields B (Holds B K) currentFrame :=
  yields_onFrame FrameAction.yields_get

theorem yields_push {v : Value} (h : Within B v) :
    Yields B (Holds B K) (onFrame (FrameAction.push v)) :=
  yields_onFrame (FrameAction.yields_push h)

theorem yields_pop : Yields B (Holds B K) (onFrame FrameAction.pop) :=
  yields_onFrame FrameAction.yields_pop

/-- An exception becomes the handled one. -/
theorem yields_setHandled {exc : Option Value} (h : Within B exc) :
    Yields B (Holds B K) (modify fun vm => { vm with handled := exc } : VmAction PUnit) :=
  yields_modify fun _ hvm => ⟨hvm.store, hvm.continuations_eq, hvm.frames, hvm.globals, h⟩

/-! ## §2. Instructions. -/

/-- A constant of the body that runs is loaded. -/
theorem yields_loadConstant (index : Nat) : Yields B (Holds B K) (loadConstant index) := by
  refine yields_currentFrame.bind fun f hf => ?_
  split
  · exact yields_breach _
  · next constant hat =>
      have hcode : B.holds f.code := within_function.mp (within_frame.mp hf).1
      refine (yields_onStore (Calc.yields_modifyGet fun s hs => ?_)).bind fun v hv => yields_push hv
      obtain ⟨hstore, hv, hcont⟩ := hs.ofConstant hcode hat
      exact ⟨hstore, hcont, hv⟩

theorem yields_unboundLocal (f : Frame) (slot : Nat) :
    Yields B (Holds B K) (unboundLocal f slot : VmAction α) :=
  yields_raise _

/-- A local is read. -/
theorem yields_loadLocal (slot : Nat) : Yields B (Holds B K) (loadLocal slot) := by
  refine yields_currentFrame.bind fun f hf => ?_
  have hslot := within_slotAt hf slot
  split
  · next v hv =>
      unfold Frame.local? at hv
      rw [hv] at hslot
      exact yields_push (within_some.mp hslot)
  · exact yields_unboundLocal f slot

/-- A local is set. -/
theorem yields_storeLocal (slot : Nat) : Yields B (Holds B K) (storeLocal slot) :=
  yields_onFrame (FrameAction.yields_pop.bind fun _ hv =>
    FrameAction.yields_setLocal slot (within_some.mpr hv))

/-- A local is emptied. -/
theorem yields_deleteLocal (slot : Nat) : Yields B (Holds B K) (deleteLocal slot) := by
  refine yields_currentFrame.bind fun f _ => ?_
  split
  · exact yields_onFrame (FrameAction.yields_setLocal slot within_none)
  · exact yields_unboundLocal f slot

theorem yields_nameAt (index : Nat) : Yields B (Holds B K) (nameAt index) := by
  refine yields_currentFrame.bind fun f _ => ?_
  split
  · exact yields_pure (within_plain _)
  · exact yields_breach _

/-- A global is read. -/
theorem yields_loadGlobal (index : Nat) : Yields B (Holds B K) (loadGlobal index) := by
  refine (yields_nameAt index).bind fun name _ => yields_get_bind fun vm hvm => ?_
  have hfound := within_find? hvm.globals name
  split
  · next v hv =>
      rw [hv] at hfound
      exact yields_push (within_some.mp hfound)
  · exact yields_raise _

/-- A global is set. -/
theorem yields_storeGlobal (index : Nat) : Yields B (Holds B K) (storeGlobal index) :=
  (yields_nameAt index).bind fun name _ => yields_pop.bind fun _ hv => yields_modify fun _ hvm =>
    ⟨hvm.store, hvm.continuations_eq, hvm.frames, within_set hvm.globals name hv, hvm.handled⟩

/-- An attribute is found on an object or on its classes. -/
theorem yields_attributeOf {owner : Value} (name : String) :
    Yields B (Holds B K) (attributeOf owner name) := by
  unfold attributeOf
  split
  · refine yields_get_bind fun vm hvm => ?_
    split
    · next found hfound => exact yields_pure (hvm.store.lookup hfound)
    · exact yields_raise _
  · split
    · exact yields_pure (within_tuple.mpr (within_cons.mpr ⟨within_of_isInert rfl, within_nil⟩))
    · exact yields_raise _
  · exact yields_raise _

/-- An attribute is read. -/
theorem yields_loadAttribute (index : Nat) : Yields B (Holds B K) (loadAttribute index) :=
  (yields_nameAt index).bind fun name _ => yields_pop.bind fun _ _ =>
    (yields_attributeOf name).bind fun _ hv => yields_push hv

/-- An attribute is set. -/
theorem yields_storeAttribute (index : Nat) : Yields B (Holds B K) (storeAttribute index) := by
  refine (yields_nameAt index).bind fun name _ => yields_pop.bind fun owner _ =>
    yields_pop.bind fun v hv => ?_
  split
  · exact yields_modify fun vm hvm => hvm.withStore (hvm.store.setAttr _ name hv) hvm.continuations_eq
  · exact yields_raise _

/-- A method is found with the receiver it is bound to. -/
theorem yields_method {owner : Value} (howner : Within B owner) (name : String) :
    Yields B (Holds B K) (method owner name) := by
  unfold method
  split
  · refine yields_get_bind fun vm hvm => ?_
    split
    · next f hfound =>
        exact yields_pure (within_prod.mpr ⟨hvm.store.lookup hfound, within_some.mpr howner⟩)
    · next b hfound =>
        exact yields_pure (within_prod.mpr ⟨hvm.store.lookup hfound, within_some.mpr howner⟩)
    · next found _ _ hfound =>
        exact yields_pure (within_prod.mpr ⟨hvm.store.lookup hfound, within_none⟩)
    · exact yields_raise _
  · split
    · exact (yields_onStore (Calc.yields_makeBuiltin _)).bind fun _ hf =>
        yields_pure (within_prod.mpr ⟨hf, within_some.mpr howner⟩)
    · exact yields_raise _
  · exact (yields_attributeOf name).bind fun _ hv =>
      yields_pure (within_prod.mpr ⟨hv, within_none⟩)

theorem yields_loadMethod (index : Nat) : Yields B (Holds B K) (loadMethod index) := by
  refine (yields_nameAt index).bind fun name _ => yields_pop.bind fun owner howner =>
    (yields_method howner name).bind fun found hfound => yields_onFrame ?_
  obtain ⟨hcallee, hreceiver⟩ := within_prod.mp hfound
  refine (FrameAction.yields_push hcallee).bind fun _ _ => ?_
  split
  · next receiver heq =>
      rw [heq] at hreceiver
      exact FrameAction.yields_push (within_some.mp hreceiver)
  · exact FrameAction.yields_pushEmpty

/-- An operator takes its operands off the stack. -/
theorem yields_combine {op : Value → Value → Calc Value}
    (h : ∀ {v w}, Within B v → Within B w → Calc.Yields B K (op v w)) :
    Yields B (Holds B K) (combine op) := by
  refine (yields_onFrame FrameAction.yields_operands).bind fun pair hpair => ?_
  obtain ⟨hleft, hright⟩ := within_prod.mp hpair
  exact (yields_onStore (h hleft hright)).bind fun _ hv => yields_push hv

theorem yields_compareTop (operand : UInt16) : Yields B (Holds B K) (compareTop operand) := by
  unfold compareTop
  split
  · exact yields_breach _
  · exact (yields_onFrame FrameAction.yields_operands).bind fun _ _ => yields_get_bind fun _ _ =>
      (yields_lift fun holds _ => within_plain holds).bind fun _ _ =>
        yields_push (within_of_isInert rfl)

theorem yields_negateTop : Yields B (Holds B K) negateTop :=
  yields_pop.bind fun _ _ => yields_get_bind fun _ _ => yields_push (within_of_isInert rfl)

theorem yields_buildTuple (count : Nat) : Yields B (Holds B K) (buildTuple count) :=
  yields_onFrame ((FrameAction.yields_popValues count within_nil).bind fun _ hitems =>
    FrameAction.yields_push (within_tuple.mpr hitems))

theorem yields_buildList (count : Nat) : Yields B (Holds B K) (buildList count) := by
  refine (yields_onFrame (FrameAction.yields_popValues count within_nil)).bind fun items hitems => ?_
  refine (yields_onStore (Calc.yields_modifyGet fun s hs => ⟨hs.makeList ?_, rfl,
    within_of_isInert rfl⟩)).bind fun _ hv => yields_push hv
  exact within_array.mpr (within_list.mp hitems)

/-- A dict that is built holds the values it is built of. -/
theorem within_dictOf {entries : Bindings Value} {items : List Value} {result : Bindings Value}
    (hentries : Within B entries) (hitems : Within B items) (h : dictOf entries items = .ok result) :
    Within B result := by
  induction entries, items using dictOf.induct with
  | case1 entries v rest name ih =>
      rw [dictOf] at h
      obtain ⟨-, hrest⟩ := within_cons.mp hitems
      obtain ⟨hv, hrest⟩ := within_cons.mp hrest
      exact ih (within_set hentries name hv) hrest h
  | case2 entries key v rest hkey =>
      rw [dictOf] at h
      · cases h
      · exact hkey
  | case3 entries items hshort =>
      rw [dictOf] at h
      · obtain rfl := Except.ok.inj h
        exact hentries
      · exact hshort

/-- A dict is built. -/
theorem yields_buildDict (count : Nat) : Yields B (Holds B K) (buildDict count) :=
  (yields_onFrame (FrameAction.yields_popValues (count * 2) within_nil)).bind fun _ hitems =>
    (yields_lift fun _ h => within_dictOf within_nil hitems h).bind fun _ hentries =>
      (yields_onStore (Calc.yields_modifyGet fun _ hs => ⟨hs.makeDict hentries, rfl,
        within_of_isInert rfl⟩)).bind fun _ hv => yields_push hv

theorem yields_iterateTop : Yields B (Holds B K) iterateTop :=
  yields_pop.bind fun _ hv => (yields_onStore (Calc.yields_iterate hv)).bind fun _ hi =>
    yields_push hi

/-- An iterator is asked for its next item. -/
theorem yields_nextOfTop : Yields B (Holds B K) nextOfTop := by
  refine (yields_onFrame (FrameAction.yields_peek 0)).bind fun v _ => ?_
  cases v with
  | iterator place =>
      refine yields_modifyGet fun vm hvm => ?_
      obtain ⟨hstore, hitem, hcont⟩ := hvm.store.advance place
      exact ⟨hvm.withStore hstore (hcont.trans hvm.continuations_eq), hitem⟩
  | _ => exact yields_raise _

theorem yields_closeTry : Yields B (Holds B K) closeTry := by
  refine (yields_onFrame FrameAction.yields_popBlock).bind fun found _ => ?_
  split
  · exact yields_pure (within_plain _)
  · exact yields_currentFrame.bind fun _ _ => yields_breach _

/-- The exception handled before comes back. -/
theorem yields_leaveHandler : Yields B (Holds B K) leaveHandler := by
  refine (yields_onFrame FrameAction.yields_popBlock).bind fun found _ => ?_
  split
  · exact (yields_onFrame (FrameAction.yields_popSaved _)).bind fun _ hsaved =>
      yields_setHandled hsaved
  · exact yields_currentFrame.bind fun _ _ => yields_breach _

/-- An exception passes blocks until one catches it. -/
theorem yields_unwindThrough {exc : Value} (hexc : Within B exc) (blocks : List Block) :
    Yields B (Holds B K) (unwindThrough exc blocks) := by
  induction blocks with
  | nil => exact yields_throw hexc
  | cons block rest ih =>
      cases block with
      | handling level =>
          exact (yields_onFrame FrameAction.yields_popBlock).bind fun _ _ =>
            (yields_onFrame (FrameAction.yields_popSaved level)).bind fun _ hsaved =>
              (yields_setHandled hsaved).bind fun _ _ => ih
      | guarded level handler =>
          exact (yields_onFrame FrameAction.yields_popBlock).bind fun _ _ =>
            yields_get_bind fun vm hvm =>
              (yields_onFrame (FrameAction.yields_enterHandler level handler hvm.handled hexc)).bind
                fun _ _ => yields_setHandled (within_some.mpr hexc)

/-- Unwinding. -/
theorem yields_unwind {exc : Value} (h : Within B exc) : Yields B (Holds B K) (unwind exc) :=
  yields_currentFrame.bind fun f _ => yields_unwindThrough h f.blocks

/-- An argument is what its slot holds. -/
theorem within_argument {slot : Option Value} (h : Within B slot) : Within B (argument slot) := by
  cases slot with
  | none => exact within_of_leaves_nil rfl
  | some v => exact within_some.mp h

/-- One reading of slots after another. -/
theorem within_exceptBind {x : Except Fault α} {k : α → Except Fault β} (hx : Within B x)
    (hk : ∀ a, Within B a → Within B (k a)) : Within B (x >>= k) := by
  cases x with
  | error e => exact hx
  | ok a => exact hk a hx

theorem within_arguments_mapM {slots : List (Option Value)} (h : Within B slots) :
    Within B (slots.mapM argument) := by
  induction slots with
  | nil => exact within_nil
  | cons slot rest ih =>
      obtain ⟨hslot, hrest⟩ := within_cons.mp h
      rw [List.mapM_cons]
      exact within_exceptBind (within_argument hslot) fun v hv =>
        within_exceptBind (ih hrest) fun vs hvs => within_cons.mpr ⟨hv, hvs⟩

/-- The first slot and the others. -/
theorem within_firstArgument {slots : List (Option Value)} (h : Within B slots) :
    Within B (firstArgument slots) := by
  cases slots with
  | nil => exact within_of_leaves_nil rfl
  | cons slot rest =>
      obtain ⟨hslot, hrest⟩ := within_cons.mp h
      cases slot with
      | none => exact within_of_leaves_nil rfl
      | some v => exact within_prod.mpr ⟨within_some.mp hslot, hrest⟩

/-- A call by position holds what its slots do. -/
theorem within_functionRequest {slots : List (Option Value)} (h : Within B slots) :
    Within B (functionRequest slots) := by
  refine within_exceptBind (within_firstArgument h) fun first hfirst => ?_
  obtain ⟨hcallee, hrest⟩ := within_prod.mp hfirst
  exact within_exceptBind (within_arguments_mapM hrest) fun positional hpositional =>
    within_callRequest.mpr ⟨hcallee, within_arguments.mpr ⟨hpositional, within_nil⟩⟩

/-- A method call holds what its slots do. -/
theorem within_methodRequest {slots : List (Option Value)} (h : Within B slots) :
    Within B (methodRequest slots) := by
  refine within_exceptBind (within_firstArgument h) fun first hfirst => ?_
  obtain ⟨hcallee, hrest⟩ := within_prod.mp hfirst
  have htail : Within B first.2.tail :=
    within_list.mpr fun slot hslot => within_list.mp hrest slot (List.mem_of_mem_tail hslot)
  refine within_exceptBind (within_arguments_mapM htail) fun positional hpositional =>
    within_callRequest.mpr ⟨hcallee, within_arguments.mpr ⟨within_list.mpr fun v hv => ?_, within_nil⟩⟩
  rcases List.mem_append.mp hv with hreceiver | hv
  · rw [Option.mem_toList, Option.join_eq_some_iff] at hreceiver
    exact within_some.mp (within_list.mp hrest _ (List.mem_of_mem_head? hreceiver))
  · exact within_list.mp hpositional v hv

/-- A call with names holds what its slots do. -/
theorem within_keywordRequest (count : Nat) {slots : List (Option Value)} (h : Within B slots) :
    Within B (keywordRequest count slots) := by
  unfold keywordRequest
  split
  · exact within_of_leaves_nil rfl
  · refine within_exceptBind (within_firstArgument h) fun first hfirst => ?_
    obtain ⟨hcallee, hrest⟩ := within_prod.mp hfirst
    have htake : Within B (first.2.take count) :=
      within_list.mpr fun slot hslot => within_list.mp hrest slot (List.mem_of_mem_take hslot)
    refine within_exceptBind (within_arguments_mapM htake) fun values hvalues =>
      within_callRequest.mpr ⟨hcallee, within_arguments.mpr ⟨within_nil, ?_⟩⟩
    refine within_list.mpr fun entry hentry => within_prod.mpr ⟨within_plain _, ?_⟩
    exact within_list.mp hvalues entry.2 (List.of_mem_zip hentry).2

/-- The named arguments of a collected call are the entries of a dict. -/
theorem within_of_namedItems {s : Store} (hs : s.Holds B) {v : Value}
    {keywords : List (String × Value)} (h : namedItems s v = .ok keywords) :
    Within B keywords := by
  obtain ⟨place, -, rfl⟩ := namedItems_ok.mp h
  exact hs.dict place

/-- A call with collected arguments holds what the containers do. -/
theorem yields_collectedRequest {slots : List (Option Value)} (h : Within B slots) :
    Yields B (Holds B K) (collectedRequest slots) := by
  refine (yields_ofExcept (within_firstArgument h)).bind fun first hfirst => ?_
  obtain ⟨hcallee, hrest⟩ := within_prod.mp hfirst
  refine (yields_ofExcept (within_firstArgument hrest)).bind fun second hsecond => ?_
  obtain ⟨hsequence, hrest⟩ := within_prod.mp hsecond
  refine yields_get_bind fun vm hvm => ?_
  have hitems := hvm.store.sequenceItems hsequence
  refine (yields_lift fun positional hpositional => ?_).bind fun positional hpositional => ?_
  · rw [hpositional] at hitems
    exact hitems
  · split
    · exact yields_pure (within_callRequest.mpr ⟨hcallee,
        within_arguments.mpr ⟨hpositional, within_nil⟩⟩)
    · next slot rest heq =>
        rw [heq] at hrest
        exact (yields_ofExcept (within_argument (within_cons.mp hrest).1)).bind fun dict _ =>
          yields_get_bind fun vm hvm =>
            (yields_lift fun _ => within_of_namedItems hvm.store).bind fun keywords hkeywords =>
              yields_pure (within_callRequest.mpr ⟨hcallee,
                within_arguments.mpr ⟨hpositional, hkeywords⟩⟩)

/-- **A call instruction** asks for a call of what its slots hold. -/
theorem yields_callRequest (i : Instruction) : Yields B (Holds B K) (callRequest i) := by
  rw [callRequest_eq]
  refine (yields_onFrame (FrameAction.yields_topSlots _)).bind fun slots hslots => ?_
  unfold Instruction.read
  split
  · exact yields_ofExcept (within_methodRequest hslots)
  · exact yields_ofExcept (within_keywordRequest _ hslots)
  · exact yields_collectedRequest hslots
  · exact yields_ofExcept (within_functionRequest hslots)

/-- A result goes on the stack in place of the call. -/
theorem yields_finishCall (slots : Nat) {result : Value} (h : Within B result) :
    Yields B (Holds B K) (finishCall slots result) :=
  yields_onFrame ((FrameAction.yields_drop slots).bind fun _ _ => FrameAction.yields_push h)

theorem yields_andNext {action : VmAction Unit} (h : Yields B (Holds B K) action) :
    Yields B (Holds B K) (andNext action) :=
  h.bind fun _ _ => yields_pure (within_of_leaves_nil rfl)

theorem yields_jumpIf (wanted : Bool) (target : Nat) :
    Yields B (Holds B K) (jumpIf wanted target) := by
  refine yields_pop.bind fun v _ => yields_get_bind fun vm _ => yields_pure ?_
  by_cases hgoes : (vm.store.truthy v == wanted) = true
  · rw [if_pos hgoes]
    exact within_of_leaves_nil rfl
  · rw [if_neg hgoes]
    exact within_of_leaves_nil rfl

/-- A loop goes on with its next item, or ends. -/
theorem yields_loopHead (exit : Nat) : Yields B (Holds B K) (loopHead exit) := by
  refine yields_nextOfTop.bind fun item hitem => ?_
  cases item with
  | some item =>
      exact (yields_push (within_some.mp hitem)).bind fun _ _ =>
        yields_pure (within_of_leaves_nil rfl)
  | none => exact yields_pop.bind fun _ _ => yields_pure (within_of_leaves_nil rfl)

/-- An exception is raised off the stack. -/
theorem yields_raiseTop : Yields B (Holds B K) raiseTop := by
  refine yields_pop.bind fun v hv => ?_
  split
  · exact yields_pure hv
  · exact yields_raise _

/-- A product, or the end of the program. -/
theorem yields_multiplyTop : Yields B (Holds B K) multiplyTop := by
  refine (yields_onFrame FrameAction.yields_operands).bind fun pair _ => ?_
  show Yields B (Holds B K) (pushProduct pair.1 pair.2)
  unfold pushProduct
  split
  · exact yields_pure (within_of_leaves_nil rfl)
  · next product hproduct =>
      exact yields_andNext ((yields_lift fun _ => Calc.within_multiply hproduct).bind fun _ hv =>
        yields_push hv)

/-- **An instruction gets its functions from what it reads**, or makes them from
the constants of its body. -/
theorem yields_execute (i : Instruction) : Yields B (Holds B K) (execute i) := by
  obtain ⟨offset, opcode, arg⟩ := i
  cases opcode with
  | nop => exact yields_pure (within_of_leaves_nil rfl)
  | popTop =>
      exact yields_andNext ((yields_onFrame FrameAction.yields_popSlot).bind fun _ _ =>
        yields_pure (within_plain _))
  | rotTwo => exact yields_andNext (yields_onFrame FrameAction.yields_swap)
  | dupTop =>
      exact yields_andNext (yields_onFrame ((FrameAction.yields_peek 0).bind fun _ hv =>
        FrameAction.yields_push hv))
  | unaryNot => exact yields_andNext yields_negateTop
  | binaryAdd => exact yields_andNext (yields_combine Calc.yields_add)
  | binarySubtract => exact yields_andNext (yields_combine fun _ _ => Calc.yields_subtract _ _)
  | binaryMultiply => exact yields_multiplyTop
  | getIter => exact yields_andNext yields_iterateTop
  | returnValue => exact yields_pop.bind fun _ hv => yields_pure hv
  | popBlock => exact yields_andNext yields_closeTry
  | popExcept => exact yields_andNext yields_leaveHandler
  | raise => exact yields_raiseTop
  | loadFast => exact yields_andNext (yields_loadLocal _)
  | storeFast => exact yields_andNext (yields_storeLocal _)
  | deleteFast => exact yields_andNext (yields_deleteLocal _)
  | compareOp => exact yields_andNext (yields_compareTop _)
  | buildTuple => exact yields_andNext (yields_buildTuple _)
  | buildList => exact yields_andNext (yields_buildList _)
  | buildMap => exact yields_andNext (yields_buildDict _)
  | loadConst => exact yields_andNext (yields_loadConstant _)
  | loadGlobal => exact yields_andNext (yields_loadGlobal _)
  | storeGlobal => exact yields_andNext (yields_storeGlobal _)
  | loadAttr => exact yields_andNext (yields_loadAttribute _)
  | storeAttr => exact yields_andNext (yields_storeAttribute _)
  | loadMethod => exact yields_andNext (yields_loadMethod _)
  | jumpAbsolute => exact yields_pure (within_of_leaves_nil rfl)
  | popJumpIfFalse => exact yields_jumpIf _ _
  | popJumpIfTrue => exact yields_jumpIf _ _
  | forIter => exact yields_loopHead _
  | setupExcept =>
      exact yields_andNext (yields_onFrame (yields_get_bind fun _ _ =>
        FrameAction.yields_pushBlock _))
  | callFunction | callMethod | callFunctionKw | callFunctionEx =>
      exact (yields_callRequest _).bind fun _ hreq => yields_pure hreq

/-! ## §3. Natives. -/

/-- The arguments that a native accepts are those it was given. -/
theorem within_requirePositional {args : Arguments} {function : String} {least most : Nat}
    {positional : List Value} (h : Within B args)
    (hargs : args.requirePositional function least most = .ok positional) :
    Within B positional := by
  obtain ⟨_, -, hargs⟩ := except_bind_ok.mp hargs
  dsimp only at hargs
  split at hargs
  · cases hargs
  · obtain rfl := Except.ok.inj hargs
    exact (within_arguments.mp h).1

/-- A native that computes on the store. -/
theorem yields_simpleNative {native : Native} {least most : Nat} {args : Arguments}
    {compute : List Value → Calc Value} (h : Within B args)
    (hcompute : ∀ positional, Within B positional → Calc.Yields B K (compute positional)) :
    Yields B (Holds B K) (simpleNative native least most args compute) :=
  (yields_lift fun _ => within_requirePositional h).bind fun positional hpositional =>
    (yields_onStore (hcompute positional hpositional)).bind fun _ hv => yields_pure hv

theorem within_headD {l : List Value} (h : Within B l) : Within B (l.headD .none) := by
  cases l with
  | nil => exact within_of_isInert rfl
  | cons v rest => exact (within_cons.mp h).1

/-- The locals of a call are its arguments. -/
theorem within_bind {c : Code} {args : Arguments} {locals : Slots} (h : Within B args)
    (hbind : c.bind args = .ok locals) : ∀ slot ∈ locals, Within B slot := by
  obtain ⟨hpositional, hkeywords⟩ := within_arguments.mp h
  have hstart : ∀ slot ∈ c.positionalLocals args.positional, Within B slot := by
    intro slot hslot
    rcases List.mem_append.mp (List.mem_of_mem_take (List.mem_toArray.mp hslot)) with hgiven | hblank
    · obtain ⟨v, hv, rfl⟩ := List.mem_map.mp hgiven
      exact within_some.mpr (within_list.mp hpositional v hv)
    · rw [List.eq_of_mem_replicate hblank]
      exact within_none
  -- each named argument fills one more local
  have hnamed (keywords : List (String × Value)) (hkeywords : Within B keywords) (start : Slots)
      (hstart : ∀ slot ∈ start, Within B slot) (locals : Slots)
      (hfold : keywords.foldlM c.bindNamed start = .ok locals) : ∀ slot ∈ locals, Within B slot := by
    induction keywords generalizing start with
    | nil =>
        obtain rfl := Except.ok.inj hfold
        exact hstart
    | cons named rest ih =>
        obtain ⟨hvalue, hrest⟩ := within_cons.mp hkeywords
        rw [List.foldlM_cons] at hfold
        obtain ⟨next, hnext, hfold⟩ := except_bind_ok.mp hfold
        refine ih hrest next ?_ hfold
        unfold Code.bindNamed at hnext
        split at hnext
        · cases hnext
        · split at hnext
          · cases hnext
          · obtain rfl := Except.ok.inj hnext
            intro slot hslot
            rcases Array.mem_or_eq_of_mem_setIfInBounds hslot with hold | rfl
            · exact hstart slot hold
            · exact within_some.mpr (within_prod.mp hvalue).2
  unfold Code.bind at hbind
  split at hbind
  · cases hbind
  · obtain ⟨filled, hfold, hbind⟩ := except_bind_ok.mp hbind
    split at hbind
    · cases hbind
    · obtain rfl := Except.ok.inj hbind
      exact hnamed _ hkeywords _ hstart _ hfold

/-- **A native other than a capture.** -/
theorem yields_callNative {native : Native} {args : Arguments} (hnative : native ≠ .capture)
    (h : Within B args) : Yields B (Holds B K) (callNative native args) := by
  cases native with
  | capture => exact absurd rfl hnative
  | resume =>
      refine (yields_lift fun _ => within_requirePositional h).bind fun positional _ => ?_
      split
      · exact yields_get_bind fun _ _ => yields_pure (within_of_leaves_nil rfl)
      · exact yields_raise _
      · exact yields_raise _
  | print =>
      refine Yields.bind (α := Unit) ?_ fun _ _ => yields_pure (within_of_isInert (v := .none) rfl)
      refine (yields_lift fun _ _ => within_plain ()).bind fun _ _ => yields_modify fun _ hvm => ?_
      exact ⟨hvm.store, hvm.continuations_eq, hvm.frames, hvm.globals, hvm.handled⟩
  | host name => exact yields_pure (within_of_leaves_nil rfl)
  | len =>
      refine yields_simpleNative h fun positional _ => Calc.yields_get_bind fun s _ => ?_
      exact (Calc.yields_liftM fun n _ => within_plain n).bind fun _ _ =>
        Calc.yields_pure (within_of_isInert rfl)
  | range =>
      exact yields_simpleNative h fun positional _ => Calc.yields_range positional
  | iter =>
      exact yields_simpleNative h fun _ hpositional => Calc.yields_iterate (within_headD hpositional)
  | exception =>
      exact yields_simpleNative h fun _ _ => Calc.yields_modifyGet fun _ hs =>
        ⟨hs.withSerial _, rfl, within_of_isInert rfl⟩
  | object =>
      refine yields_simpleNative h fun positional _ => ?_
      unfold objectOf
      split
      · exact Calc.yields_modifyGet fun _ hs => ⟨hs.makeObject _, rfl, within_of_isInert rfl⟩
      · exact Calc.yields_modifyGet fun _ hs => ⟨hs.makeObject _, rfl, within_of_isInert rfl⟩
      · exact Calc.yields_modifyGet fun _ hs => ⟨hs.makeObject _, rfl, within_of_isInert rfl⟩
      · exact Calc.yields_throw _
  | append => exact yields_simpleNative h fun _ hpositional => Calc.yields_appendItem hpositional
  | pop => exact yields_simpleNative h fun _ _ => Calc.yields_popItem

/-- The frames stay as they are. -/
def SameFrames (vm vm' : Vm) : Prop :=
  vm'.frames = vm.frames

/-- No data is in the frames. -/
theorem SameFrames.steady : Vm.Steady SameFrames where
  trans := fun h₁ h₂ => Eq.trans h₂ h₁
  data := fun hframes _ _ _ _ => hframes

/-- A native works on no frame. -/
theorem sameFrames_callNative (native : Native) (args : Arguments) :
    Keeps SameFrames (callNative native args) := by
  refine SameFrames.steady.keeps_callNative (fun _ vm => ?_) args
  unfold SameFrames Vm.dropArmed
  split <;> rfl

end VmAction

end Resumable
