/-
  Resumable.Proofs.RenamedInstructions
  ────────────────────────────────────
  **INSTRUCTIONS AND NATIVES ON MACHINES THAT ARE ALIKE.**

  An instruction ends alike on two machines that are alike if it is plain: it
  sets no attribute, makes no method and asks no iterator, so nothing that is
  in the stores changes; it reads no hidden global and sets no other.  A native
  ends alike if it changes no list.  A capture answers two continuations that
  have nothing to do with each other, and that is all that differs.

  Main results:
    • `tracksAt_execute`     — a plain instruction ends alike,
    • `tracks_callNative`    — so does a plain native,
    • `callCapture_alike`    — a capture leaves the machines alike.
-/
import Resumable.Proofs.RenamedActions

namespace Resumable

variable {α β : Type} {ρ : Renaming} {s t u : Store}

open VmAction FrameAction

variable {c : Correspondence} {vm vm' : Vm}

/-! ## §1. Constants, locals and globals. -/

/-- A constant is made of data, in new places on both sides. -/
theorem tracks_loadConstant (index : Nat) :
    VmAction.Tracks c s (loadConstant index) (loadConstant index) := by
  refine tracks_currentFrame.bind fun u f _ _ => ?_
  rw [Frame.code_rename]
  cases f.code.constants[index]? with
  | none => exact VmAction.tracks_breach _
  | some constant =>
      refine (tracks_onStore (Calc.tracks_modifyGet fun t ht => ?_)).bind fun _ v _ hv =>
        tracks_onFrame (tracks_push hv)
      exact ht.ofConstant constant

/-- A local of a renamed frame. -/
theorem local?_rename (f : Frame) (slot : Nat) :
    (rename ρ f).local? slot = rename ρ (f.local? slot) :=
  Frame.join_getElem?_rename f slot

/-- Locals correspond, filled or empty. -/
theorem tracks_loadLocal (slot : Nat) :
    VmAction.Tracks c s (loadLocal slot) (loadLocal slot) := by
  refine tracks_currentFrame.bind fun u f _ hf => ?_
  rw [local?_rename]
  have hfits : Fits c.places u (f.local? slot) := Frame.fits_join_getElem? hf slot
  cases hl : f.local? slot with
  | none => exact tracks_raise _
  | some v =>
      rw [hl] at hfits
      exact tracks_onFrame (tracks_push (fits_some.mp hfits))

theorem tracks_storeLocal (slot : Nat) :
    VmAction.Tracks c s (storeLocal slot) (storeLocal slot) :=
  tracks_onFrame (tracks_pop.bind fun _ hv => tracks_setLocal slot _ (fits_some.mpr hv))

theorem tracks_deleteLocal (slot : Nat) :
    VmAction.Tracks c s (deleteLocal slot) (deleteLocal slot) := by
  refine tracks_currentFrame.bind fun u f _ _ => ?_
  rw [local?_rename]
  cases f.local? slot with
  | none => exact tracks_raise _
  | some v => exact tracks_onFrame (tracks_setLocal slot none fits_none)

/-- The body of a frame is the same on both sides, and so are the names in it. -/
theorem tracks_nameAt (index : Nat) : VmAction.Tracks c s (nameAt index) (nameAt index) := by
  refine tracks_currentFrame.bind fun u f _ _ => ?_
  rw [Frame.code_rename]
  cases f.code.names[index]? with
  | none => exact VmAction.tracks_breach _
  | some name => exact VmAction.tracks_pure (fits_plain name)

/-- The name an operand stands for, in the innermost frame. -/
def Vm.nameOf? (vm : Vm) (index : Nat) : Option String :=
  vm.frames.head?.bind fun f => f.code.names[index]?

/-- The name that was read is the one in the body of the innermost frame. -/
theorem nameAt_ok {index : Nat} {name : String} {w : Vm} (h : nameAt index vm = .ok name w) :
    vm.nameOf? index = some name := by
  unfold nameAt currentFrame at h
  obtain ⟨f, u, hf, h⟩ := action_bind_ok.mp h
  cases hframes : vm.frames with
  | nil =>
      rw [onFrame, hframes] at hf
      cases hf
  | cons g rest =>
      rw [onFrame_apply hframes] at hf
      obtain ⟨rfl, -⟩ := EStateM.Result.ok.inj hf
      rw [Vm.nameOf?, hframes, List.head?_cons, Option.bind_some]
      cases hname : g.code.names[index]? with
      | none =>
          rw [hname] at h
          cases h
      | some name' =>
          rw [hname] at h
          rw [(action_pure_ok.mp h).1]

/-- A global that is not hidden is read. -/
theorem tracksAt_loadGlobal (h : vm.Alike c vm') {index : Nat}
    (hname : ∀ name, vm.nameOf? index = some name → ¬ c.hidden name) :
    TracksAt c vm vm' (loadGlobal index) (loadGlobal index) := by
  refine (tracks_nameAt index vm vm' rfl h).bind fun name w w' hok _ hw _ => tracksAt_get_bind ?_
  have hvisible := hname name (nameAt_ok hok)
  have hfits := hw.fits_globals name hvisible
  rw [show rename c.places name = name from rfl, hw.globals_eq name hvisible]
  cases hg : w.globals.find? name with
  | none => exact tracks_raise _ w w' rfl hw
  | some v =>
      rw [hg] at hfits
      exact tracks_onFrame (tracks_push (fits_some.mp hfits)) w w' rfl hw

/-- A hidden global is set. -/
theorem find?_set_of_hidden {hidden : String → Prop} {name : String} (hname : hidden name)
    (globals : Bindings Value) (v : Value) {other : String} (ho : ¬ hidden other) :
    (globals.set name v).find? other = globals.find? other := by
  have hne : name ≠ other := by
    rintro rfl
    exact ho hname
  rw [Bindings.find?_set, if_neg hne]

/-- Hidden globals are changed on both machines. -/
theorem Vm.Alike.withGlobals (h : vm.Alike c vm') {globals globals' : Bindings Value}
    (hg : ∀ name, ¬ c.hidden name → globals.find? name = vm.globals.find? name)
    (hg' : ∀ name, ¬ c.hidden name → globals'.find? name = vm'.globals.find? name) :
    vm.Grows c.hidden { vm with globals := globals } ∧
      { vm with globals := globals }.Alike c { vm' with globals := globals' } := by
  refine ⟨⟨.refl _, hg⟩, { h with
    globals_eq := fun name hn => ?_
    fits_globals := fun name hn => ?_ }⟩
  · rw [hg name hn, hg' name hn]
    exact h.globals_eq name hn
  · rw [hg name hn]
    exact h.fits_globals name hn

/-- A hidden global may be set: the sides need not agree on it. -/
theorem tracksAt_storeGlobal (h : vm.Alike c vm') {index : Nat}
    (hname : ∀ name, vm.nameOf? index = some name → c.hidden name) :
    TracksAt c vm vm' (storeGlobal index) (storeGlobal index) := by
  refine (tracks_nameAt index vm vm' rfl h).bind fun name w w' hok _ hw _ => ?_
  have hhidden := hname name (nameAt_ok hok)
  refine (tracks_onFrame tracks_pop w w' rfl hw).bind fun v u u' _ _ hu _ => ?_
  obtain ⟨hgrows, halike⟩ := hu.withGlobals (fun _ => find?_set_of_hidden hhidden u.globals v)
    fun _ => find?_set_of_hidden hhidden u'.globals (rename c.places v)
  exact .inl ⟨(), (), _, _, rfl, rfl, hgrows, halike, rfl, fits_plain _⟩

/-! ## §2. Attributes, operators and containers. -/

/-- Attributes of corresponding owners. -/
theorem tracks_attributeOf {owner : Value} (ho : Fits c.places s owner) (name : String) :
    VmAction.Tracks c s (attributeOf owner name) (attributeOf (rename c.places owner) name) := by
  have hraise : VmAction.Tracks (α := Value) c s (raise (.noAttribute owner.typeName name))
      (raise (.noAttribute (owner.rename c.places).typeName name)) := by
    rw [Value.typeName_rename]
    exact tracks_raise _
  cases owner with
  | object place =>
      intro vm vm' hs ha
      subst hs
      refine tracksAt_get_bind ?_
      obtain ⟨heq, hfits⟩ := ha.store.lookup ((fits_of_isLeaf rfl).mp ho) name
      cases hl : vm.store.lookup place name with
      | none =>
          rw [hl] at heq
          rw [Option.map_eq_none_iff.mp heq]
          exact tracks_raise _ vm vm' rfl ha
      | some found =>
          rw [hl] at heq hfits
          obtain ⟨found', hl', hval⟩ := Option.map_eq_some_iff.mp heq
          rw [hl']
          have hpure := VmAction.tracks_pure (fits_some.mp hfits) vm vm' rfl ha
          rwa [show rename c.places found.value = found'.value from hval.symm] at hpure
  | exception e =>
      show VmAction.Tracks c s
        (if name = "args" then pure (Value.tuple [.str e.message]) else _)
        (if name = "args" then pure (Value.tuple [.str e.message]) else _)
      split
      · refine VmAction.tracks_pure (a := Value.tuple [.str e.message]) (fits_tuple.mpr ?_)
        refine fits_list.mpr fun v hv => ?_
        rw [List.mem_singleton.mp hv]
        exact (fits_of_isLeaf rfl).mpr trivial
      · exact hraise
  | tuple items =>
      show VmAction.Tracks c s _ (attributeOf ((Value.tuple items).rename c.places) name)
      rw [Value.rename_tuple] at hraise ⊢
      exact hraise
  | _ => exact hraise

theorem tracks_loadAttribute (index : Nat) :
    VmAction.Tracks c s (loadAttribute index) (loadAttribute index) :=
  (tracks_nameAt index).bind fun _ name _ _ => (tracks_onFrame tracks_pop).bind fun _ _ _ ho =>
    (tracks_attributeOf ho name).bind fun _ _ _ hv => tracks_onFrame (tracks_push hv)

/-- An operator that computes alike on stores that are alike. -/
theorem tracks_combine {op : Value → Value → Calc Value}
    (hop : ∀ u a b, Fits c.places u a → Fits c.places u b →
      Calc.Tracks c.places u (op a b) (op (a.rename c.places) (b.rename c.places))) :
    VmAction.Tracks c s (combine op) (combine op) :=
  (tracks_onFrame tracks_operands).bind fun u p _ hp =>
    (tracks_onStore (hop u p.1 p.2 (fits_prod.mp hp).1 (fits_prod.mp hp).2)).bind
      fun _ _ _ hv => tracks_onFrame (tracks_push hv)

/-- Comparisons agree on corresponding operands. -/
theorem tracks_compareTop (operand : UInt16) :
    VmAction.Tracks c s (compareTop operand) (compareTop operand) := by
  unfold compareTop
  cases Comparison.ofByte? operand.toUInt8 with
  | none => exact VmAction.tracks_breach _
  | some kind =>
      refine (tracks_onFrame tracks_operands).bind fun u p _ hp =>
        tracks_get_bind fun vm vm' hs ha => ?_
      obtain ⟨hl, hr⟩ := fits_prod.mp hp
      subst hs
      have hcmp : compare vm'.store kind (p.1.rename c.places) (p.2.rename c.places)
          = rename c.places (compare vm.store kind p.1 p.2) := by
        rw [compare_rename ha.store kind hl hr]
        cases compare vm.store kind p.1 p.2 <;> rfl
      refine (tracks_lift hcmp fun v hv => ?_).bind fun _ holds _ _ => ?_
      · cases hc : compare vm.store kind p.1 p.2 <;> rw [hc] at hv <;> exact nomatch hv
      · exact tracks_onFrame (tracks_push (v := .bool holds) ((fits_of_isLeaf rfl).mpr trivial))

/-- Corresponding values count alike. -/
theorem tracks_negateTop : VmAction.Tracks c s negateTop negateTop := by
  refine (tracks_onFrame tracks_pop).bind fun u v _ hv => tracks_get_bind fun vm vm' hs ha => ?_
  subst hs
  have htruthy : vm'.store.truthy (rename c.places v) = vm.store.truthy v := ha.store.truthy hv
  rw [htruthy]
  exact tracks_onFrame (tracks_push (v := .bool _) ((fits_of_isLeaf rfl).mpr trivial))

/-- Containers of corresponding items. -/
theorem tracks_buildTuple (count : Nat) :
    VmAction.Tracks c s (buildTuple count) (buildTuple count) := by
  refine tracks_onFrame ((tracks_popValues count [] ?_).bind fun items hitems => ?_)
  · exact fits_nil
  · have h := tracks_push (v := .tuple items) (fits_tuple.mpr hitems)
    rwa [show rename c.places (Value.tuple items) = .tuple (rename c.places items) from
      Value.rename_tuple items] at h

theorem tracks_buildList (count : Nat) :
    VmAction.Tracks c s (buildList count) (buildList count) := by
  refine (tracks_onFrame (tracks_popValues count [] ?_)).bind fun u items _ hitems => ?_
  · exact fits_nil
  · refine (tracks_onStore (Calc.tracks_modifyGet fun t ht => ?_)).bind fun _ _ _ hv =>
      tracks_onFrame (tracks_push hv)
    have hitems' : Fits c.places u items.toArray := fits_array.mpr (fits_list.mp hitems)
    have h := ht.makeList hitems'
    rwa [show rename c.places items.toArray = (rename c.places items).toArray from
      List.map_toArray .. ] at h

/-- The entries of a dict are set in renamed dicts alike. -/
theorem set_rename (entries : Bindings Value) (name : String) (v : Value) :
    Bindings.set (entries.map (renameEntry ρ)) name (v.rename ρ)
      = (entries.set name v).map (renameEntry ρ) := by
  induction entries with
  | nil => rfl
  | cons entry rest ih =>
      obtain ⟨key, w⟩ := entry
      rw [List.map_cons, Bindings.set, renameEntry, Bindings.set, ih]
      split
      · rfl
      · split <;> rfl

/-- An entry set to a value that fits. -/
theorem fits_set {entries : Bindings Value} (h : Fits ρ s entries) {v : Value} (hv : Fits ρ s v)
    (name : String) : Fits ρ s (entries.set name v) := by
  have hpair {key : String} {w : Value} (hw : Fits ρ s w) : Fits ρ s (key, w) :=
    fits_prod.mpr ⟨fits_plain key, hw⟩
  rw [fits_list] at h ⊢
  induction entries with
  | nil =>
      intro e he
      rw [List.mem_singleton.mp he]
      exact hpair hv
  | cons entry rest ih =>
      obtain ⟨key, w⟩ := entry
      have hrest := ih fun e he => h e (List.mem_cons_of_mem _ he)
      have hfirst := h (key, w) (List.mem_cons_self ..)
      intro e he
      unfold Bindings.set at he
      split at he
      · obtain rfl | he := List.mem_cons.mp he
        · exact hpair hv
        · exact h e (List.mem_cons_of_mem _ he)
      · split at he
        · obtain rfl | he := List.mem_cons.mp he
          · exact hpair hv
          · exact h e he
        · obtain rfl | he := List.mem_cons.mp he
          · exact hfirst
          · exact hrest e he

/-- A dict is put together alike. -/
theorem dictOf_rename : ∀ {items : List Value} (entries : Bindings Value),
    Fits ρ s items → Fits ρ s entries →
      dictOf (entries.map (renameEntry ρ)) (items.map (Value.rename ρ))
          = rename ρ (dictOf entries items)
        ∧ Fits ρ s (dictOf entries items)
  | [], entries, _, he => ⟨rfl, he⟩
  | [_], entries, _, he => ⟨rfl, he⟩
  | key :: v :: rest, entries, hi, he => by
      have hv := fits_list.mp hi v (List.mem_cons_of_mem _ (List.mem_cons_self ..))
      have hrest : Fits ρ s rest := fits_list.mpr fun w hw =>
        fits_list.mp hi w (List.mem_cons_of_mem _ (List.mem_cons_of_mem _ hw))
      cases key with
      | str name =>
          have h := dictOf_rename _ hrest (fits_set he hv name)
          rw [← set_rename] at h
          exact h
      | tuple items =>
          rw [List.map_cons, Value.rename_tuple]
          exact ⟨rfl, fits_of_leaves_nil rfl⟩
      | _ => exact ⟨rfl, fits_of_leaves_nil rfl⟩

theorem tracks_buildDict (count : Nat) :
    VmAction.Tracks c s (buildDict count) (buildDict count) := by
  refine (tracks_onFrame (tracks_popValues _ [] ?_)).bind fun u items _ hitems => ?_
  · exact fits_nil
  · obtain ⟨heq, hfits⟩ := dictOf_rename [] hitems fits_nil
    refine (tracks_lift heq hfits).bind fun _ entries _ hentries => ?_
    have hvalues : ∀ e ∈ entries, Fits c.places _ e.2 :=
      fun e he => (fits_prod.mp (fits_list.mp hentries e he)).2
    exact (tracks_onStore (Calc.tracks_modifyGet fun _ ht => ht.makeDict hvalues)).bind
      fun _ _ _ hv => tracks_onFrame (tracks_push hv)

/-! ## §3. Handlers. -/

/-- Corresponding exceptions are handled. -/
theorem tracks_setHandled {exc : Option Value} (h : Fits c.places s exc) :
    VmAction.Tracks c s (modify fun vm => { vm with handled := exc })
      (modify fun vm => { vm with handled := rename c.places exc }) := by
  refine VmAction.tracks_modify fun vm vm' hs ha => ⟨⟨.refl _, fun _ _ => rfl⟩, ?_⟩
  subst hs
  exact ha.withHandled h

/-- The level of a try body is a height, which is the same on both sides. -/
theorem tracks_openTry (handler : Nat) :
    VmAction.Tracks c s (openTry handler) (openTry handler) :=
  tracks_onFrame <| FrameAction.tracks_get_bind fun f _ => by
    rw [Frame.top_rename]
    exact tracks_pushBlock _

theorem rename_block (found : Option Block) : rename ρ found = found :=
  Option.map_id'

/-- Blocks are opened, closed and left alike. -/
theorem tracks_closeTry : VmAction.Tracks c s closeTry closeTry := by
  refine (tracks_onFrame tracks_popBlock).bind fun u found _ _ => ?_
  rw [rename_block]
  have hbreach : VmAction.Tracks (α := Unit) c u
      (currentFrame >>= fun f => breach (.notInTry f.qualname found))
      (currentFrame >>= fun f => breach (.notInTry f.qualname found)) :=
    tracks_currentFrame.bind fun _ _ _ _ => VmAction.tracks_breach _
  cases found with
  | none => exact hbreach
  | some b =>
      cases b with
      | guarded level handler => exact VmAction.tracks_pure (a := ()) (fits_plain _)
      | handling level => exact hbreach

theorem tracks_leaveHandler : VmAction.Tracks c s leaveHandler leaveHandler := by
  refine (tracks_onFrame tracks_popBlock).bind fun u found _ _ => ?_
  rw [rename_block]
  have hbreach : VmAction.Tracks (α := Unit) c u
      (currentFrame >>= fun f => breach (.notInHandler f.qualname found))
      (currentFrame >>= fun f => breach (.notInHandler f.qualname found)) :=
    tracks_currentFrame.bind fun _ _ _ _ => VmAction.tracks_breach _
  cases found with
  | none => exact hbreach
  | some b =>
      cases b with
      | guarded level handler => exact hbreach
      | handling level =>
          exact (tracks_onFrame (tracks_popSaved level)).bind fun _ _ _ hsaved =>
            tracks_setHandled hsaved

/-- An exception finds the same handler, or none, on both machines. -/
theorem tracks_unwindThrough : ∀ (blocks : List Block) {s : Store} {exc : Value},
    Fits c.places s exc →
      VmAction.Tracks c s (unwindThrough exc blocks) (unwindThrough (rename c.places exc) blocks)
  | [], _, exc, h => VmAction.tracks_error (e := .exception exc) h
  | .handling level :: rest, _, exc, h =>
      (tracks_onFrame tracks_popBlock).bind fun _ _ h₁ _ =>
        (tracks_onFrame (tracks_popSaved level)).bind fun _ _ h₂ hsaved =>
          (tracks_setHandled hsaved).bind fun _ _ h₃ _ =>
            tracks_unwindThrough rest (h.mono ((h₁.trans h₂).trans h₃))
  | .guarded level handler :: _, _, exc, h =>
      (tracks_onFrame tracks_popBlock).bind fun _ _ h₁ _ =>
        VmAction.tracks_get_bind fun vm vm' hs ha => by
          subst hs
          rw [ha.handled_eq]
          exact (tracks_onFrame (tracks_enterHandler level handler ha.fits_handled
            (h.mono h₁))).bind fun _ _ h₂ _ =>
              tracks_setHandled (show Fits c.places _ (some exc) from
                fits_some.mpr (h.mono (h₁.trans h₂)))

/-- An exception finds the corresponding handler. -/
theorem tracks_unwind {exc : Value} (h : Fits c.places s exc) :
    VmAction.Tracks c s (unwind exc) (unwind (rename c.places exc)) :=
  tracks_currentFrame.bind fun _ f hs _ => tracks_unwindThrough f.blocks (h.mono hs)

/-! ## §4. Calls. -/

instance : Renamable Arguments where
  rename ρ args := ⟨rename ρ args.positional, rename ρ args.keywords⟩
  leaves args := leaves args.positional ++ leaves args.keywords

instance : Renamable CallRequest where
  rename ρ req := ⟨rename ρ req.callee, rename ρ req.args, req.slots⟩
  leaves req := leaves req.callee ++ leaves req.args

/-- The arguments of a call fit if the positional and the named ones do. -/
theorem fits_arguments {args : Arguments} :
    Fits ρ s args ↔ Fits ρ s args.positional ∧ Fits ρ s args.keywords :=
  fits_prod (p := (args.positional, args.keywords))

theorem fits_callRequest {req : CallRequest} :
    Fits ρ s req ↔ Fits ρ s req.callee ∧ Fits ρ s req.args :=
  fits_prod (p := (req.callee, req.args))

/-- Known data, and the same data renamed. -/
structure Renamed [Renamable α] (ρ : Renaming) (s : Store) (a a' : α) : Prop where
  eq : a' = rename ρ a
  fits : Fits ρ s a

/-- One computation that can fail after another. -/
theorem Renamed.bind {ε : Type} [Renamable ε] [Renamable α] [Renamable β] {r r' : Except ε α}
    {k k' : α → Except ε β} (h : Renamed ρ s r r')
    (hk : ∀ a, Fits ρ s a → Renamed ρ s (k a) (k' (rename ρ a))) :
    Renamed ρ s (r >>= k) (r' >>= k') := by
  obtain ⟨rfl, hfits⟩ := h
  cases r with
  | error e => exact ⟨rfl, hfits⟩
  | ok a => exact hk a hfits

/-- An entry of a call is read alike: the empty slot is a breach on both sides. -/
theorem renamed_argument {slot : Option Value} (h : Fits ρ s slot) :
    Renamed ρ s (argument slot) (argument (rename ρ slot)) := by
  cases slot with
  | none => exact ⟨rfl, fits_of_leaves_nil rfl⟩
  | some v => exact ⟨rfl, fits_some.mp h⟩

theorem renamed_arguments {slots : List (Option Value)} (h : Fits ρ s slots) :
    Renamed ρ s (slots.mapM argument) ((rename ρ slots).mapM argument) := by
  induction slots with
  | nil => exact ⟨rfl, fits_of_leaves_nil rfl⟩
  | cons slot rest ih =>
      have hslot := fits_list.mp h slot (List.mem_cons_self ..)
      have hrest := ih (fits_list.mpr fun x hx => fits_list.mp h x (List.mem_cons_of_mem _ hx))
      show Renamed ρ s _ ((rename ρ slot :: rename ρ rest).mapM argument)
      rw [List.mapM_cons, List.mapM_cons]
      refine (renamed_argument hslot).bind fun v hv => hrest.bind fun vs hvs => ⟨rfl, ?_⟩
      refine fits_list.mpr fun w hw => ?_
      obtain rfl | hw := List.mem_cons.mp hw
      · exact hv
      · exact fits_list.mp hvs w hw

theorem renamed_firstArgument {slots : List (Option Value)} (h : Fits ρ s slots) :
    Renamed ρ s (firstArgument slots) (firstArgument (rename ρ slots)) := by
  cases slots with
  | nil => exact ⟨rfl, fits_of_leaves_nil rfl⟩
  | cons slot rest =>
      have hrest : Fits ρ s rest :=
        fits_list.mpr fun x hx => fits_list.mp h x (List.mem_cons_of_mem _ hx)
      have hslot := fits_list.mp h slot (List.mem_cons_self ..)
      cases slot with
      | none => exact ⟨rfl, fits_of_leaves_nil rfl⟩
      | some v => exact ⟨rfl, fits_prod.mpr ⟨fits_some.mp hslot, hrest⟩⟩

theorem length_rename {l : List (Option Value)} : (rename ρ l).length = l.length :=
  List.length_map ..

/-- Each shape of call reads corresponding entries as corresponding requests. -/
theorem renamed_functionRequest {slots : List (Option Value)} (h : Fits ρ s slots) :
    Renamed ρ s (functionRequest slots) (functionRequest (rename ρ slots)) := by
  unfold functionRequest
  rw [length_rename]
  refine (renamed_firstArgument h).bind fun p hp => ?_
  obtain ⟨hcallee, hrest⟩ := fits_prod.mp hp
  refine (renamed_arguments hrest).bind fun positional hpos => ⟨rfl, ?_⟩
  exact fits_callRequest.mpr ⟨hcallee, fits_arguments.mpr ⟨hpos, fits_nil⟩⟩

theorem renamed_methodRequest {slots : List (Option Value)} (h : Fits ρ s slots) :
    Renamed ρ s (methodRequest slots) (methodRequest (rename ρ slots)) := by
  unfold methodRequest
  rw [length_rename]
  refine (renamed_firstArgument h).bind fun p hp => ?_
  obtain ⟨hcallee, hrest⟩ := fits_prod.mp hp
  have htail : Fits ρ s p.2.tail :=
    fits_list.mpr fun x hx => fits_list.mp hrest x (List.mem_of_mem_tail hx)
  have hreceiver : (rename ρ p.2).head?.join.toList = rename ρ p.2.head?.join.toList
      ∧ Fits ρ s p.2.head?.join.toList := by
    cases hr : p.2 with
    | nil => exact ⟨rfl, fits_nil⟩
    | cons slot rest =>
        have hslot := fits_list.mp (hr ▸ hrest) slot (List.mem_cons_self ..)
        cases slot with
        | none => exact ⟨rfl, fits_nil⟩
        | some v =>
            refine ⟨rfl, fits_list.mpr fun w hw => ?_⟩
            rw [List.mem_singleton.mp hw]
            exact fits_some.mp hslot
  have htailEq : (rename ρ p).2.tail = rename ρ p.2.tail := (List.map_tail ..).symm
  dsimp only
  rw [htailEq]
  refine (renamed_arguments htail).bind fun positional hpos => ⟨?_, ?_⟩
  · show Except.ok (CallRequest.mk (rename ρ p.1) ⟨(rename ρ p.2).head?.join.toList ++ _, []⟩ _) = _
    rw [hreceiver.1]
    show _ = Except.ok (CallRequest.mk (rename ρ p.1)
      ⟨(p.2.head?.join.toList ++ positional).map (rename ρ), []⟩ slots.length)
    rw [List.map_append]
    rfl
  · refine fits_callRequest.mpr ⟨hcallee, fits_arguments.mpr ⟨?_, fits_nil⟩⟩
    refine fits_list.mpr fun w hw => ?_
    exact (List.mem_append.mp hw).elim (fits_list.mp hreceiver.2 w) (fits_list.mp hpos w)

theorem renamed_keywordRequest (count : Nat) {slots : List (Option Value)} (h : Fits ρ s slots) :
    Renamed ρ s (keywordRequest count slots) (keywordRequest count (rename ρ slots)) := by
  have hnames : namesOnTop? count (rename ρ slots) = namesOnTop? count slots := by
    unfold namesOnTop?
    show (((slots.map (rename ρ)).getLast?.join.bind Value.asNames?).filter _) = _
    rw [List.getLast?_map]
    cases slots.getLast? with
    | none => rfl
    | some slot =>
        cases slot with
        | none => rfl
        | some v =>
            show ((v.rename ρ).asNames?.filter _) = _
            rw [Value.asNames?_rename]
            rfl
  unfold keywordRequest
  rw [hnames, length_rename]
  cases namesOnTop? count slots with
  | none => exact ⟨rfl, fits_of_leaves_nil rfl⟩
  | some names =>
      refine (renamed_firstArgument h).bind fun p hp => ?_
      obtain ⟨hcallee, hrest⟩ := fits_prod.mp hp
      have htake : Fits ρ s (p.2.take count) :=
        fits_list.mpr fun x hx => fits_list.mp hrest x (List.mem_of_mem_take hx)
      have htakeEq : (rename ρ p).2.take count = rename ρ (p.2.take count) :=
        (List.map_take ..).symm
      dsimp only
      rw [htakeEq]
      refine (renamed_arguments htake).bind fun values hvalues => ⟨?_, ?_⟩
      · show Except.ok (CallRequest.mk (rename ρ p.1) ⟨[], names.zip (values.map (rename ρ))⟩ _) = _
        rw [List.zip_map_right]
        rfl
      · refine fits_callRequest.mpr ⟨hcallee,
          fits_arguments.mpr ⟨fits_nil, ?_⟩⟩
        refine fits_list.mpr fun e he => fits_prod.mpr ⟨fits_plain _, ?_⟩
        exact fits_list.mp hvalues e.2 (List.of_mem_zip he).2

/-- A dict of named arguments names the same arguments, renamed. -/
theorem renamed_namedItems {t : Store} (hs : s.Alike ρ t) {v : Value} (h : Fits ρ s v) :
    Renamed ρ s (namedItems s v) (namedItems t (rename ρ v)) := by
  cases v with
  | tuple items =>
      show Renamed ρ s _ (namedItems t ((Value.tuple items).rename ρ))
      rw [Value.rename_tuple]
      exact ⟨rfl, fits_of_leaves_nil rfl⟩
  | dict place =>
      refine ⟨congrArg Except.ok (hs.dict_eq place (fits_dictPlace.mp h)), ?_⟩
      exact fits_list.mpr fun e he => fits_prod.mpr ⟨fits_plain _, hs.fits_entry place e he⟩
  | _ => exact ⟨rfl, fits_of_leaves_nil rfl⟩

/-- Here list and dict are read in the store, where corresponding places hold
corresponding items. -/
theorem tracks_collectedRequest {slots : List (Option Value)} (h : Fits c.places s slots) :
    VmAction.Tracks c s (collectedRequest slots) (collectedRequest (rename c.places slots)) := by
  unfold collectedRequest
  rw [length_rename]
  have hfirst := renamed_firstArgument h
  refine (tracks_ofExcept hfirst.eq hfirst.fits).bind fun u p hu hp => ?_
  obtain ⟨hcallee, hrest⟩ := fits_prod.mp hp
  have hsecond := renamed_firstArgument hrest
  refine (tracks_ofExcept hsecond.eq hsecond.fits).bind fun w q hw hq => ?_
  obtain ⟨hseq, hrest⟩ := fits_prod.mp hq
  refine VmAction.tracks_get_bind fun vm vm' hs ha => ?_
  subst hs
  obtain ⟨hitems, hfits⟩ := ha.store.sequenceItems hseq
  refine (tracks_lift hitems hfits).bind fun x positional hx hpos => ?_
  have hcallee := hcallee.mono (hw.trans hx)
  have hrest := hrest.mono hx
  cases hr : q.2 with
  | nil =>
      dsimp only
      exact VmAction.tracks_pure (a := ⟨p.1, { positional }, slots.length⟩) <|
        fits_callRequest.mpr ⟨hcallee,
          fits_arguments.mpr ⟨hpos, fits_nil⟩⟩
  | cons slot rest =>
      dsimp only
      rw [hr] at hrest
      have harg := renamed_argument (fits_list.mp hrest slot (List.mem_cons_self ..))
      refine (tracks_ofExcept harg.eq harg.fits).bind fun y dict hy hdict => ?_
      refine VmAction.tracks_get_bind fun vm vm' hs ha => ?_
      subst hs
      have hnamed := renamed_namedItems ha.store hdict
      refine (tracks_lift hnamed.eq hnamed.fits).bind fun z keywords hz hkeywords => ?_
      exact VmAction.tracks_pure (a := ⟨p.1, { positional, keywords }, slots.length⟩) <|
        fits_callRequest.mpr ⟨hcallee.mono (hy.trans hz),
          fits_arguments.mpr ⟨hpos.mono (hy.trans hz), hkeywords⟩⟩

/-- All four shapes in one. -/
theorem tracks_callRequest (i : Instruction) :
    VmAction.Tracks c s (callRequest i) (callRequest i) := by
  rw [callRequest_eq]
  refine (tracks_onFrame (tracks_topSlots _)).bind fun u slots _ hslots => ?_
  unfold Instruction.read
  split
  · exact tracks_ofExcept (renamed_methodRequest hslots).eq (renamed_methodRequest hslots).fits
  · have h := renamed_keywordRequest i.arg.toNat hslots
    exact tracks_ofExcept h.eq h.fits
  · exact tracks_collectedRequest hslots
  · exact tracks_ofExcept (renamed_functionRequest hslots).eq (renamed_functionRequest hslots).fits

theorem tracks_finishCall (slots : Nat) {result : Value} (h : Fits c.places s result) :
    VmAction.Tracks c s (finishCall slots result) (finishCall slots (rename c.places result)) :=
  tracks_onFrame ((tracks_drop slots).bind fun _ _ => tracks_push h)

/-! ## §5. Instructions. -/

instance : Renamable Flow where
  rename ρ
    | .return v => .return (rename ρ v)
    | .raise v => .raise (rename ρ v)
    | flow => flow
  leaves
    | .return v => leaves v
    | .raise v => leaves v
    | _ => []

instance : Renamable Outcome where
  rename ρ
    | .flow flow => .flow (rename ρ flow)
    | .call req => .call (rename ρ req)
    | .breakOff => .breakOff
  leaves
    | .flow flow => leaves flow
    | .call req => leaves req
    | .breakOff => []

/-- A plain instruction changes no attribute, makes no method and asks no
iterator, reads no hidden global and sets no other. -/
structure Vm.Plain (hidden : String → Prop) (vm : Vm) (i : Instruction) : Prop where
  storeAttr : i.opcode ≠ .storeAttr
  loadMethod : i.opcode ≠ .loadMethod
  forIter : i.opcode ≠ .forIter
  loadGlobal : i.opcode = .loadGlobal →
    ∀ name, vm.nameOf? i.arg.toNat = some name → ¬ hidden name
  storeGlobal : i.opcode = .storeGlobal →
    ∀ name, vm.nameOf? i.arg.toNat = some name → hidden name

instance (hidden : String → Prop) [DecidablePred hidden] (vm : Vm) (i : Instruction) :
    Decidable (vm.Plain hidden i) :=
  decidable_of_iff
    ((i.opcode ≠ .storeAttr ∧ i.opcode ≠ .loadMethod ∧ i.opcode ≠ .forIter)
      ∧ (i.opcode = .loadGlobal → ∀ name ∈ vm.nameOf? i.arg.toNat, ¬ hidden name)
      ∧ (i.opcode = .storeGlobal → ∀ name ∈ vm.nameOf? i.arg.toNat, hidden name))
    ⟨fun ⟨⟨h₁, h₂, h₃⟩, h₄, h₅⟩ => ⟨h₁, h₂, h₃, h₄, h₅⟩,
      fun h => ⟨⟨h.storeAttr, h.loadMethod, h.forIter⟩, h.loadGlobal, h.storeGlobal⟩⟩

/-- What is done alike goes on alike. -/
theorem tracksAt_andNext {x x' : VmAction Unit} (hx : TracksAt c vm vm' x x') :
    TracksAt c vm vm' (andNext x) (andNext x') :=
  hx.bind fun _ w w' _ _ hw _ =>
    VmAction.tracks_pure (a := Outcome.flow .next) (fits_of_leaves_nil rfl) w w' rfl hw

theorem tracks_andNext {x x' : VmAction Unit} (hx : VmAction.Tracks c s x x') :
    VmAction.Tracks c s (andNext x) (andNext x') :=
  fun vm vm' hs ha => tracksAt_andNext (hx vm vm' hs ha)

/-- A product is pushed alike, or breaks off alike. -/
theorem tracks_multiplyTop : VmAction.Tracks c s multiplyTop multiplyTop := by
  refine (tracks_onFrame tracks_operands).bind fun u p _ _ => ?_
  obtain ⟨heq, hfits⟩ := multiply_rename (ρ := c.places) (s := u) p.1 p.2
  show VmAction.Tracks c u (pushProduct p.1 p.2)
    (pushProduct (p.1.rename c.places) (p.2.rename c.places))
  unfold pushProduct
  rw [heq]
  cases hm : multiply p.1 p.2 with
  | none => exact VmAction.tracks_pure (a := Outcome.breakOff) (fits_of_leaves_nil rfl)
  | some product =>
      rw [hm] at hfits
      exact tracks_andNext ((tracks_lift rfl (fits_some.mp hfits)).bind fun _ _ _ hv =>
        tracks_onFrame (tracks_push hv))

/-- Both sides jump, or both go on. -/
theorem tracks_jumpIf (wanted : Bool) (target : Nat) :
    VmAction.Tracks c s (jumpIf wanted target) (jumpIf wanted target) := by
  refine (tracks_onFrame tracks_pop).bind fun u v _ hv =>
    VmAction.tracks_get_bind fun vm vm' hs ha => ?_
  subst hs
  have htruthy : vm'.store.truthy (rename c.places v) = vm.store.truthy v := ha.store.truthy hv
  rw [htruthy]
  dsimp only
  split
  · exact VmAction.tracks_pure (a := Outcome.flow (.jump target)) (fits_of_leaves_nil rfl)
  · exact VmAction.tracks_pure (a := Outcome.flow .next) (fits_of_leaves_nil rfl)

theorem tracks_raiseTop : VmAction.Tracks c s raiseTop raiseTop := by
  refine (tracks_onFrame tracks_pop).bind fun u v _ hv => ?_
  cases v with
  | exception e => exact VmAction.tracks_pure (a := Outcome.flow (.raise (.exception e))) hv
  | tuple items =>
      rw [show rename c.places (Value.tuple items) = .tuple (items.map (Value.rename c.places)) from
        Value.rename_tuple items]
      exact tracks_raise _
  | _ => exact tracks_raise _

/-- **A plain instruction ends alike** on machines that are alike. -/
theorem tracksAt_execute (h : vm.Alike c vm') {i : Instruction} (hi : vm.Plain c.hidden i) :
    TracksAt c vm vm' (execute i) (execute i) := by
  have hnext {x : VmAction Unit} (hx : VmAction.Tracks c vm.store x x) :
      TracksAt c vm vm' (andNext x) (andNext x) :=
    tracksAt_andNext (hx vm vm' rfl h)
  have hflow {flow : Flow} (hf : ∀ ρ, rename ρ flow = flow) (hl : leaves flow = []) :
      TracksAt c vm vm' (pure (Outcome.flow flow)) (pure (Outcome.flow flow)) := by
    have hpure := VmAction.tracks_pure (c := c) (s := vm.store) (a := Outcome.flow flow)
      (fits_of_leaves_nil hl) vm vm' rfl h
    rwa [show rename c.places (Outcome.flow flow) = .flow flow from congrArg _ (hf _)] at hpure
  have hcall : TracksAt c vm vm' (do pure (Outcome.call (← callRequest i)))
      (do pure (Outcome.call (← callRequest i))) :=
    (tracks_callRequest i vm vm' rfl h).bind fun req w w' _ _ hw hreq =>
      VmAction.tracks_pure (a := Outcome.call req) hreq w w' rfl hw
  unfold execute
  cases ho : i.opcode with
  | nop => exact hflow (fun _ => rfl) rfl
  | popTop =>
      exact hnext ((tracks_onFrame tracks_popSlot).bind fun _ _ _ _ =>
        VmAction.tracks_pure (a := ()) (fits_plain _))
  | rotTwo => exact hnext (tracks_onFrame tracks_swap)
  | dupTop => exact hnext (tracks_onFrame ((tracks_peek 0).bind fun _ hv => tracks_push hv))
  | unaryNot => exact hnext tracks_negateTop
  | binaryAdd => exact hnext (tracks_combine fun _ _ _ ha hb => tracks_add ha hb)
  | binarySubtract => exact hnext (tracks_combine fun _ a b _ _ => tracks_subtract a b)
  | binaryMultiply => exact tracks_multiplyTop vm vm' rfl h
  | getIter =>
      exact hnext ((tracks_onFrame tracks_pop).bind fun _ _ _ hv =>
        (tracks_onStore (tracks_iterate hv)).bind fun _ _ _ hit => tracks_onFrame (tracks_push hit))
  | returnValue =>
      exact (tracks_onFrame tracks_pop vm vm' rfl h).bind fun v w w' _ _ hw hv =>
        VmAction.tracks_pure (a := Outcome.flow (.return v)) hv w w' rfl hw
  | popBlock => exact hnext tracks_closeTry
  | popExcept => exact hnext tracks_leaveHandler
  | raise => exact tracks_raiseTop vm vm' rfl h
  | loadFast => exact hnext (tracks_loadLocal _)
  | storeFast => exact hnext (tracks_storeLocal _)
  | deleteFast => exact hnext (tracks_deleteLocal _)
  | compareOp => exact hnext (tracks_compareTop _)
  | buildTuple => exact hnext (tracks_buildTuple _)
  | buildList => exact hnext (tracks_buildList _)
  | buildMap => exact hnext (tracks_buildDict _)
  | loadConst => exact hnext (tracks_loadConstant _)
  | loadGlobal => exact tracksAt_andNext (tracksAt_loadGlobal h (hi.loadGlobal ho))
  | storeGlobal => exact tracksAt_andNext (tracksAt_storeGlobal h (hi.storeGlobal ho))
  | loadAttr => exact hnext (tracks_loadAttribute _)
  | storeAttr => exact absurd ho hi.storeAttr
  | loadMethod => exact absurd ho hi.loadMethod
  | jumpAbsolute => exact hflow (fun _ => rfl) rfl
  | popJumpIfFalse => exact tracks_jumpIf false _ vm vm' rfl h
  | popJumpIfTrue => exact tracks_jumpIf true _ vm vm' rfl h
  | forIter => exact absurd ho hi.forIter
  | setupExcept => exact hnext (tracks_openTry _)
  | callFunction => exact hcall
  | callMethod => exact hcall
  | callFunctionKw => exact hcall
  | callFunctionEx => exact hcall

/-! ## §6. Natives. -/

instance : Renamable NativeOutcome where
  rename ρ
    | .value v => .value (rename ρ v)
    | outcome => outcome
  leaves
    | .value v => leaves v
    | _ => []

/-- A native of the machine's own that takes no continuation and changes no list. -/
def Native.isPlain : Native → Bool
  | .capture | .resume | .append | .pop | .host _ => false
  | _ => true

/-- Counts of arguments are the same on both sides. -/
theorem renamed_requirePositional {args : Arguments} (h : Fits ρ s args) (name : String)
    (least most : Nat) :
    Renamed ρ s (args.requirePositional name least most)
      ((rename ρ args).requirePositional name least most) := by
  have hno : (rename ρ args).requireNoKeywords name = args.requireNoKeywords name := by
    unfold Arguments.requireNoKeywords
    have hkeywords : (rename ρ args).keywords = args.keywords.map (rename ρ) := rfl
    rw [hkeywords]
    cases args.keywords <;> rfl
  unfold Arguments.requirePositional
  rw [hno, show (rename ρ args).positional = rename ρ args.positional from rfl,
    show (rename ρ args.positional).length = args.positional.length from List.length_map ..]
  cases args.requireNoKeywords name with
  | error cause => exact ⟨rfl, fits_of_leaves_nil rfl⟩
  | ok _ =>
      show Renamed ρ s (if _ then _ else _) (if _ then _ else _)
      split
      · exact ⟨rfl, fits_of_leaves_nil rfl⟩
      · exact ⟨rfl, (fits_arguments.mp h).1⟩

/-- Natives that compute on the store are followed as their computations are. -/
theorem tracks_simpleNative {args : Arguments} (h : Fits c.places s args) (native : Native)
    (least most : Nat) {compute : List Value → Calc Value}
    (hcompute : ∀ u vs, Fits c.places u vs →
      Calc.Tracks c.places u (compute vs) (compute (vs.map (Value.rename c.places)))) :
    VmAction.Tracks c s (simpleNative native least most args compute)
      (simpleNative native least most (rename c.places args) compute) := by
  have hpos := renamed_requirePositional h native.name least most
  exact (tracks_lift hpos.eq hpos.fits).bind fun u vs _ hvs =>
    (tracks_onStore (hcompute u vs hvs)).bind fun _ v _ hv =>
      VmAction.tracks_pure (a := NativeOutcome.value v) hv

/-- Corresponding values are equally long. -/
theorem tracks_len {vs : List Value} (h : Fits ρ s vs) :
    Calc.Tracks (α := Value) ρ s
      (do
        let n ← liftM (lengthOf (← get) (vs.headD .none))
        pure (.int (Int64.ofNat n)))
      (do
        let n ← liftM (lengthOf (← get) ((vs.map (Value.rename ρ)).headD .none))
        pure (.int (Int64.ofNat n))) := by
  have hhead : (vs.map (Value.rename ρ)).headD .none = (vs.headD .none).rename ρ
      ∧ Fits ρ s (vs.headD .none) := by
    cases vs with
    | nil => exact ⟨rfl, (fits_of_isLeaf rfl).mpr trivial⟩
    | cons v rest => exact ⟨rfl, fits_list.mp h v (List.mem_cons_self ..)⟩
  refine Calc.tracks_get_bind fun t ht => ?_
  rw [hhead.1, ht.lengthOf hhead.2]
  refine (Calc.tracks_liftM ?_ ?_).bind fun _ n _ _ =>
    Calc.tracks_pure (a := Value.int _) ((fits_of_isLeaf rfl).mpr trivial)
  · cases lengthOf s (vs.headD .none) <;> rfl
  · intro v hv
    cases hl : lengthOf s (vs.headD .none) <;> rw [hl] at hv <;> exact nomatch hv

/-- The same line is printed on both machines. -/
theorem tracks_printLine {args : Arguments} (h : Fits c.places s args) :
    VmAction.Tracks c s (printLine args) (printLine (rename c.places args)) := by
  have hno : Renamed c.places s (args.requireNoKeywords "print")
      ((rename c.places args).requireNoKeywords "print") := by
    unfold Arguments.requireNoKeywords
    have hkeywords : (rename c.places args).keywords = args.keywords.map (rename c.places) := rfl
    rw [hkeywords]
    cases args.keywords with
    | nil => exact ⟨rfl, fits_of_leaves_nil rfl⟩
    | cons e rest => exact ⟨rfl, fits_of_leaves_nil rfl⟩
  refine (tracks_lift hno.eq hno.fits).bind fun u _ hu _ =>
    VmAction.tracks_modify fun vm vm' hs ha => ⟨⟨.refl _, fun _ _ => rfl⟩, ?_⟩
  subst hs
  obtain ⟨lines, hout, hout'⟩ := ha.output_eq
  have htext : (rename c.places args).positional.map vm'.store.text
      = args.positional.map vm.store.text := by
    show (args.positional.map (Value.rename c.places)).map vm'.store.text = _
    rw [List.map_map]
    exact List.map_congr_left fun v hv =>
      ha.store.text (fits_list.mp ((fits_arguments.mp h).1.mono hu) v hv)
  refine { ha with output_eq := ⟨lines.push (Text.joined " " (args.positional.map vm.store.text)), ?_, ?_⟩ }
  · show vm.output.push _ = _
    rw [hout, Array.append_push]
  · show vm'.output.push _ = _
    rw [htext, hout', Array.append_push]

/-- **A plain native ends alike** on machines that are alike. -/
theorem tracks_callNative {native : Native} (hn : native.isPlain = true) {args : Arguments}
    (h : Fits c.places s args) :
    VmAction.Tracks c s (callNative native args) (callNative native (rename c.places args)) := by
  cases native with
  | capture => exact nomatch hn
  | resume => exact nomatch hn
  | append => exact nomatch hn
  | pop => exact nomatch hn
  | host name => exact VmAction.tracks_pure (a := NativeOutcome.ask name) (fits_of_leaves_nil rfl)
  | print =>
      exact (tracks_printLine h).bind fun _ _ _ _ =>
        VmAction.tracks_pure (a := NativeOutcome.value .none) ((fits_of_isLeaf rfl).mpr trivial)
  | len => exact tracks_simpleNative h _ 1 1 fun u vs hvs => tracks_len hvs
  | iter =>
      refine tracks_simpleNative h _ 1 1 fun u vs hvs => ?_
      cases vs with
      | nil => exact tracks_iterate ((fits_of_isLeaf rfl).mpr trivial)
      | cons v rest => exact tracks_iterate (fits_list.mp hvs v (List.mem_cons_self ..))
  | range =>
      refine tracks_simpleNative h _ 1 3 fun u vs hvs => ?_
      rw [rangeCursor_rename]
      cases rangeCursor vs with
      | error cause => exact Calc.tracks_throw cause
      | ok cursor => exact Calc.tracks_modifyGet fun t ht => ht.makeIterator cursor cursor
  | exception => exact tracks_simpleNative h _ 0 1 fun u vs hvs => tracks_exceptionOf hvs
  | object => exact tracks_simpleNative h _ 0 1 fun u vs hvs => tracks_objectOf hvs

/-! ## §7. Captures. -/

namespace Frame

/-- What a suspended frame needs is told by its body and its blocks. -/
theorem neededSlots_rename (f : Frame) (code : Array Instruction) :
    (rename ρ f).neededSlots code = f.neededSlots code := by
  have hcount : (rename ρ f).nameCount = f.nameCount := by
    unfold nameCount
    have hback : (rename ρ f).slots.back? = f.slots.back?.map (rename ρ) := Array.back?_map
    rw [hback]
    cases f.slots.back? with
    | none => rfl
    | some slot =>
        cases slot with
        | none => rfl
        | some v =>
            have hslot : Option.map (rename ρ) (some (some v)) = some (some (v.rename ρ)) := rfl
            rw [hslot]
            cases v with
            | tuple items =>
                rw [Value.rename_tuple]
                exact List.length_map ..
            | _ => rfl
  have hsite : (rename ρ f).callSite code = f.callSite code := rfl
  have hcall (i : Instruction) : (rename ρ f).slotsOfCall i = f.slotsOfCall i := by
    unfold slotsOfCall
    rw [hcount]
    rfl
  unfold neededSlots
  rw [hsite]
  simp only [hcall]
  rfl

/-- A renamed frame can be kept when the frame can. -/
theorem toRecord_rename (f : Frame) :
    (rename ρ f).toRecord = f.toRecord.map fun _ => (rename ρ f).asRecord := by
  unfold toRecord
  rw [code_rename]
  cases decode f.code.bytes with
  | error e => rfl
  | ok code =>
      dsimp only
      rw [neededSlots_rename]
      cases f.neededSlots code with
      | error e => rfl
      | ok needed =>
          show (if (rename ρ f).top < needed then _ else _)
            = Except.map _ (if f.top < needed then _ else _)
          rw [top_rename]
          split <;> rfl

end Frame

/-- Two computations both succeed, or fail for one reason. -/
def SameEnd {ε γ δ : Type} (r : Except ε γ) (r' : Except ε δ) : Prop :=
  r'.map (fun _ => ()) = r.map fun _ => ()

/-- Two computations that end alike, in sequence. -/
theorem SameEnd.bind {ε γ γ' δ δ' : Type} {r : Except ε γ} {r' : Except ε γ'}
    {k : γ → Except ε δ} {k' : γ' → Except ε δ'} (h : SameEnd r r')
    (hk : ∀ a a', SameEnd (k a) (k' a')) : SameEnd (r >>= k) (r' >>= k') := by
  cases r with
  | error e =>
      cases r' with
      | error e' =>
          obtain rfl : e' = e := Except.error.inj h
          rfl
      | ok a' => exact nomatch h
  | ok a =>
      cases r' with
      | error e' => exact nomatch h
      | ok a' => exact hk a a'

namespace Vm

/-- Machines that are alike are equally deep. -/
theorem Alike.depth_eq (h : vm.Alike c vm') : vm'.depth = vm.depth := by
  rw [depth, h.frames_eq, depth]
  exact List.length_map ..

theorem Alike.topIndex?_eq (h : vm.Alike c vm') : vm'.topIndex? = vm.topIndex? := by
  unfold topIndex?
  rw [h.depth_eq]

/-- The frames of machines that are alike can be kept or not, for one reason. -/
theorem Alike.recordsFrom (h : vm.Alike c vm') : ∀ (limit : Nat) (index : Option Nat),
    SameEnd (vm.recordsFrom limit index) (vm'.recordsFrom limit index)
  | 0, none => rfl
  | _ + 1, none => rfl
  | 0, some _ => rfl
  | limit + 1, some index => by
      have hframe : vm'.frameAt? index = rename c.places (vm.frameAt? index) := by
        unfold frameAt? positionOf?
        rw [h.depth_eq, h.frames_eq]
        split
        · exact List.getElem?_map ..
        · rfl
      rw [Vm.recordsFrom, Vm.recordsFrom, hframe]
      cases vm.frameAt? index with
      | none => rfl
      | some f =>
          refine SameEnd.bind ?_ fun _ _ => (h.recordsFrom limit f.parent).bind fun _ _ => rfl
          rw [Frame.toRecord_rename]
          cases f.toRecord <;> rfl

/-- A capture succeeds on both sides, or fails on both for one reason. -/
theorem Alike.liveContinuation (h : vm.Alike c vm') :
    SameEnd vm.liveContinuation vm'.liveContinuation := by
  unfold Vm.liveContinuation
  rw [h.depth_eq, h.topIndex?_eq]
  exact (h.recordsFrom vm.depth vm.topIndex?).bind fun _ _ => rfl

/-- Taking a continuation raises no exception. -/
theorem recordsFrom_ne_exception (vm : Vm) (v : Value) : ∀ (limit : Nat) (index : Option Nat),
    vm.recordsFrom limit index ≠ .error (.exception v)
  | 0, none => fun h => nomatch h
  | _ + 1, none => fun h => nomatch h
  | 0, some _ => fun h => nomatch h
  | limit + 1, some index => by
      rw [Vm.recordsFrom]
      cases vm.frameAt? index with
      | none => exact fun h => nomatch h
      | some f =>
          have hrest := recordsFrom_ne_exception vm v limit f.parent
          dsimp only
          cases f.toRecord with
          | error e => exact fun h => nomatch h
          | ok record =>
              show (vm.recordsFrom limit f.parent >>= fun outer => pure (record :: outer)) ≠ _
              cases hr : vm.recordsFrom limit f.parent with
              | ok records => exact fun h => nomatch h
              | error e =>
                  rw [hr] at hrest
                  exact fun h => hrest (congrArg Except.error (Except.error.inj h))

/-- A capture that fails is a breach. -/
theorem liveContinuation_ne_exception (vm : Vm) (v : Value) :
    vm.liveContinuation ≠ .error (.exception v) := by
  have h := vm.recordsFrom_ne_exception v vm.depth vm.topIndex?
  unfold Vm.liveContinuation
  cases hr : vm.recordsFrom vm.depth vm.topIndex? with
  | ok records => exact fun h => nomatch h
  | error e =>
      rw [hr] at h
      exact fun heq => h (congrArg Except.error (Except.error.inj heq))

/-- A continuation is put into each store; no value tells where. -/
theorem Alike.withContinuation (h : vm.Alike c vm') (k k' : Continuation) :
    vm.Grows c.hidden { vm with store := (vm.store.makeContinuation k).2 } ∧
      { vm with store := (vm.store.makeContinuation k).2 }.Alike c
        { vm' with store := (vm'.store.makeContinuation k').2 } := by
  have hread (s : Store) (k : Continuation) {place : Address} (hp : place < s.continuations.size) :
      (s.makeContinuation k).2.continuation place = s.continuation place := by
    show ((s.continuations.push k)[place]?).getD {} = _
    rw [Array.getElem?_push, if_neg (Nat.ne_of_lt hp)]
    rfl
  have hext : vm.store.Extends (vm.store.makeContinuation k).2 :=
    { Store.Extends.refl vm.store with
      continuations_le := Nat.le_of_lt (Store.lt_size_push ..)
      continuation_eq := fun place hp => hread vm.store k hp }
  refine ⟨⟨hext, fun _ _ => rfl⟩, h.withStore hext { h.store with
    shared_le := Nat.le_trans h.store.shared_le (Nat.le_of_lt (Store.lt_size_push ..))
    shared_le' := Nat.le_trans h.store.shared_le' (Nat.le_of_lt (Store.lt_size_push ..))
    continuation_eq := fun place hp => ?_
    closed := h.store.closed.mono hext (fun _ => rfl) fun _ => rfl }⟩
  rw [hread _ _ (Nat.lt_of_lt_of_le hp h.store.shared_le),
    hread _ _ (Nat.lt_of_lt_of_le hp h.store.shared_le')]
  exact h.store.continuation_eq place hp

end Vm

/-- A capture with no resume armed, computed. -/
theorem callCapture_eq {args : Arguments} (harmed : vm.armed = none) :
    callNative .capture args vm =
      match args.requirePositional "capture" 0 0 with
      | .error cause => (raise cause : VmAction NativeOutcome) vm
      | .ok _ =>
          match vm.liveContinuation with
          | .error e => .error e vm
          | .ok k => .ok (.value (.continuation vm.store.continuations.size))
              { vm with store := (vm.store.makeContinuation k).2 } := by
  cases hpos : args.requirePositional "capture" 0 0 with
  | error cause =>
      simp only [callNative, hpos, lift, bind, EStateM.bind]
      rfl
  | ok positional =>
      obtain ⟨config, store, frames, globals, hooks, armed, handled, output⟩ := vm
      obtain rfl : armed = none := harmed
      simp only [callNative, capture, hpos, lift, bind, EStateM.bind, pure, EStateM.pure, get,
        getThe, MonadStateOf.get, EStateM.get]
      cases Vm.liveContinuation _ <;> rfl

/-- **A capture leaves the machines alike**, though its answers are not: it ends
in the same fault, or takes a continuation on both machines. -/
theorem callCapture_alike (h : vm.Alike c vm') {args : Arguments}
    (hargs : Fits c.places vm.store args) :
    (∃ place place' w w', callNative .capture args vm = .ok (.value (.continuation place)) w
      ∧ callNative .capture (rename c.places args) vm' = .ok (.value (.continuation place')) w'
      ∧ vm.Grows c.hidden w ∧ w.Alike c w' ∧ w.frames = vm.frames) ∨
    ∃ e e' w w', callNative .capture args vm = .error e w
      ∧ callNative .capture (rename c.places args) vm' = .error e' w' ∧ Leads c vm w w' e e' := by
  rw [callCapture_eq h.armed_eq, callCapture_eq h.armed_eq']
  have hpos := renamed_requirePositional hargs "capture" 0 0
  rw [hpos.eq]
  cases args.requirePositional "capture" 0 0 with
  | error cause =>
      refine .inr ?_
      obtain ⟨_, _, _, _, hok, _⟩ | herror :=
        tracks_raise (α := NativeOutcome) (c := c) cause vm vm' rfl h
      · exact nomatch hok
      · exact herror
  | ok _ =>
      have hlive := h.liveContinuation
      cases hk : vm.liveContinuation with
      | error e =>
          cases hk' : vm'.liveContinuation with
          | ok k' =>
              rw [hk, hk'] at hlive
              exact nomatch hlive
          | error e' =>
              rw [hk, hk'] at hlive
              obtain rfl : e' = e := Except.error.inj hlive
              refine .inr ⟨e', e', vm, vm', rfl, rfl, .refl _ vm, h, ?_, ?_⟩
              · cases e' with
                | exception v => exact absurd hk (vm.liveContinuation_ne_exception v)
                | _ => rfl
              · cases e' with
                | exception v => exact absurd hk (vm.liveContinuation_ne_exception v)
                | _ => exact fits_of_leaves_nil rfl
      | ok k =>
          cases hk' : vm'.liveContinuation with
          | error e' =>
              rw [hk, hk'] at hlive
              exact nomatch hlive
          | ok k' =>
              obtain ⟨hgrows, halike⟩ := h.withContinuation k k'
              exact .inl ⟨_, _, _, _, rfl, rfl, hgrows, halike, rfl⟩

end Resumable
