/-
  Resumable.Proofs.RenamedRun
  ───────────────────────────
  **RUNS THAT DO THE SAME.**

  Two runs on machines that are alike take the same steps: each step of the
  first one is a step of the second one, and the machines stay alike.  Only a
  capture answers the two runs differently.  Its answer is thrown away by the
  next instruction, so for two steps the runs differ in one slot:

      returned   the capture has answered            (`answered`)
      loop       the answer is on top of the stack   (`dropping`)
      loop       it is gone                          (`same`)

  What waits for the second run may reach further than what waits for the first
  one: `tail` is what is left when the first run has ended.

  Main result:
    • `Run.Alike.step` — a plain step is a step of both runs.
-/
import Resumable.Proofs.CallsInFlight
import Resumable.Proofs.RenamedInstructions

namespace Resumable

open VmAction FrameAction

variable {ρ : Renaming} {s : Store} {c : Correspondence} {vm vm' : Vm}

/-! ## §1. Binding arguments. -/

instance : Renamable BindingError := .plain BindingError

namespace Code

/-- What a local holds in renamed locals. -/
theorem getElem?_rename (locals : Slots) (index : Nat) :
    (rename ρ locals)[index]? = rename ρ locals[index]? :=
  Array.getElem?_map ..

theorem positionalLocals_rename (code : Code) (positional : List Value) :
    code.positionalLocals (rename ρ positional)
      = rename ρ (code.positionalLocals positional) := by
  unfold positionalLocals
  show (((positional.map (rename ρ)).map some ++ List.replicate (_ - (positional.map _).length) none).take
    _).toArray = (List.toArray _).map (rename ρ)
  rw [List.map_toArray, List.map_take, List.map_append, List.map_replicate, List.length_map,
    List.map_map, List.map_map]
  rfl

theorem fits_positionalLocals (code : Code) {positional : List Value} (h : Fits ρ s positional) :
    Fits ρ s (code.positionalLocals positional) := by
  refine fits_array.mpr fun slot hslot => ?_
  have hmem := List.mem_of_mem_take hslot
  obtain hgiven | hblank := List.mem_append.mp hmem
  · obtain ⟨v, hv, rfl⟩ := List.mem_map.mp hgiven
    exact fits_some.mpr (fits_list.mp h v hv)
  · rw [List.eq_of_mem_replicate hblank]
    exact fits_none

theorem renamed_bindNamed (code : Code) {locals : Slots} {named : String × Value}
    (hl : Fits ρ s locals) (hn : Fits ρ s named) :
    Renamed ρ s (code.bindNamed locals named)
      (code.bindNamed (rename ρ locals) (rename ρ named)) := by
  unfold bindNamed
  have hname : (rename ρ named).1 = named.1 := rfl
  have hvalue : (rename ρ named).2 = rename ρ named.2 := rfl
  rw [hname, hvalue]
  cases code.params.findIdx? (· == named.1) with
  | none => exact ⟨rfl, fits_of_leaves_nil rfl⟩
  | some index =>
      dsimp only
      rw [getElem?_rename]
      have hset : Renamed ρ s
          (.ok (locals.setIfInBounds index (some named.2)) : Except BindingError Slots)
          (.ok ((rename ρ locals).setIfInBounds index (some (rename ρ named.2)))) := by
        have hmap : (rename ρ locals).setIfInBounds index (some (rename ρ named.2))
            = rename ρ (locals.setIfInBounds index (some named.2)) := by
          show (locals.map (rename ρ)).setIfInBounds index (rename ρ (some named.2))
            = (locals.setIfInBounds index (some named.2)).map (rename ρ)
          rw [Array.map_setIfInBounds]
        refine ⟨congrArg Except.ok hmap, fits_array.mpr fun slot hslot => ?_⟩
        rw [Array.toList_setIfInBounds] at hslot
        obtain hold | rfl := List.mem_or_eq_of_mem_set hslot
        · exact fits_array.mp hl slot hold
        · exact fits_some.mpr (fits_prod.mp hn).2
      cases hslot : locals[index]? with
      | none => exact hset
      | some slot =>
          cases slot with
          | none => exact hset
          | some v => exact ⟨rfl, fits_of_leaves_nil rfl⟩

theorem renamed_bindAll (code : Code) : ∀ {keywords : List (String × Value)} {locals : Slots},
    Fits ρ s keywords → Fits ρ s locals →
      Renamed ρ s (keywords.foldlM code.bindNamed locals)
        ((rename ρ keywords).foldlM code.bindNamed (rename ρ locals))
  | [], locals, _, hl => ⟨rfl, hl⟩
  | named :: rest, locals, hk, hl => by
      have hnamed := fits_list.mp hk named (List.mem_cons_self ..)
      have hrest : Fits ρ s rest :=
        fits_list.mpr fun e he => fits_list.mp hk e (List.mem_cons_of_mem _ he)
      show Renamed ρ s _ ((rename ρ named :: rename ρ rest).foldlM _ _)
      rw [List.foldlM_cons, List.foldlM_cons]
      exact (renamed_bindNamed code hl hnamed).bind fun locals hl => renamed_bindAll code hrest hl

theorem missing?_rename (code : Code) (locals : Slots) :
    code.missing? (rename ρ locals) = code.missing? locals := by
  unfold missing?
  show (code.params.zip (locals.map (rename ρ)).toList).findSome? _ = _
  rw [Array.toList_map]
  generalize locals.toList = slots
  generalize code.params = names
  induction names generalizing slots with
  | nil => rfl
  | cons name rest ih =>
      cases slots with
      | nil => rfl
      | cons slot slots =>
          rw [List.map_cons, List.zip_cons_cons, List.zip_cons_cons, List.findSome?_cons,
            List.findSome?_cons, ih]
          cases slot <;> rfl

/-- **Renamed arguments fit when the arguments do**, and give the renamed locals. -/
theorem renamed_bind (code : Code) {args : Arguments} (h : Fits ρ s args) :
    Renamed ρ s (code.bind args) (code.bind (rename ρ args)) := by
  obtain ⟨hpos, hkey⟩ := fits_arguments.mp h
  have hlength : (rename ρ args).positional.length = args.positional.length := List.length_map ..
  have hlocals : Renamed ρ s
      (args.keywords.foldlM code.bindNamed (code.positionalLocals args.positional))
      ((rename ρ args).keywords.foldlM code.bindNamed
        (code.positionalLocals (rename ρ args).positional)) := by
    have hall := renamed_bindAll code hkey (code.fits_positionalLocals hpos)
    rw [← positionalLocals_rename] at hall
    exact hall
  unfold bind
  rw [hlength]
  dsimp only
  split
  · exact ⟨rfl, fits_of_leaves_nil rfl⟩
  · refine hlocals.bind fun locals hl => ?_
    rw [missing?_rename]
    cases code.missing? locals with
    | none => exact ⟨rfl, hl⟩
    | some name => exact ⟨rfl, fits_of_leaves_nil rfl⟩

end Code

/-- A frame that starts with renamed locals. -/
theorem Frame.renamed_ofLocals (parent : Option Nat) {f : Function} {locals : List (Option Value)}
    (hf : Fits ρ s f) (hl : Fits ρ s locals) :
    Renamed ρ s (Frame.ofLocals f parent locals)
      (.ofLocals (rename ρ f) parent (rename ρ locals)) := by
  have hslots : (Frame.ofLocals (rename ρ f) parent (rename ρ locals)).slots
      = rename ρ (Frame.ofLocals f parent locals).slots := by
    show ((locals.map (rename ρ)).take f.code.nlocals
      ++ List.replicate (f.code.nlocals - ((locals.map (rename ρ)).take f.code.nlocals).length) none).toArray
        = (List.toArray _).map (rename ρ)
    rw [List.map_toArray, List.map_append, List.map_replicate, List.map_take, List.length_take,
      List.length_take, List.length_map]
    rfl
  refine ⟨?_, Frame.fits_frame.mpr ⟨hf, fun slot hslot => ?_⟩⟩
  · exact Frame.rename_withSlots (.blank f parent) hslots
  · obtain hgiven | hblank := List.mem_append.mp hslot
    · exact fits_list.mp hl slot (List.mem_of_mem_take hgiven)
    · rw [List.eq_of_mem_replicate hblank]
      exact fits_none

/-! ## §2. Runs that are alike. -/

instance : Renamable Phase where
  rename ρ
    | .call callee args => .call (rename ρ callee) (rename ρ args)
    | .atHost name args => .atHost name (rename ρ args)
    | .returned result => .returned (rename ρ result)
    | .ended result => .ended (rename ρ result)
    | phase => phase
  leaves
    | .call callee args => leaves callee ++ leaves args
    | .atHost _ args => leaves args
    | .returned result => leaves result
    | .ended result => leaves result
    | _ => []

theorem fits_call {callee : Value} {args : Arguments} :
    Fits ρ s (Phase.call callee args) ↔ Fits ρ s callee ∧ Fits ρ s args :=
  fits_prod (p := (callee, args))

/-- An instruction of a frame throws the top of the stack away: it pops it, or
stores it in a hidden global. -/
def Frame.Discards (hidden : String → Prop) (f : Frame) (i : Instruction) : Prop :=
  i.opcode = .popTop ∨ i.opcode = .storeGlobal
    ∧ ∃ name, f.code.names[i.arg.toNat]? = some name ∧ hidden name

/-- The next instruction of a frame throws the top of the stack away. -/
def Frame.DiscardsNext (hidden : String → Prop) (f : Frame) : Prop :=
  ∃ i, decodeAt f.code.bytes f.next = .ok i ∧ f.Discards hidden i

instance (hidden : String → Prop) [DecidablePred hidden] (f : Frame) (i : Instruction) :
    Decidable (f.Discards hidden i) :=
  inferInstanceAs (Decidable (_ ∨ _ ∧ ∃ name ∈ f.code.names[i.arg.toNat]?, hidden name))

instance (hidden : String → Prop) [DecidablePred hidden] (f : Frame) :
    Decidable (f.DiscardsNext hidden) :=
  match h : decodeAt f.code.bytes f.next with
  | .ok i =>
      decidable_of_iff (f.Discards hidden i)
        ⟨fun hi => ⟨i, h, hi⟩, fun ⟨_, hj, hi⟩ => Except.ok.inj (h.symm.trans hj) ▸ hi⟩
  | .error _ => isFalse fun ⟨_, hj, _⟩ => nomatch h.symm.trans hj

namespace Run

/-- The native that a run is about to call. -/
def native? (r : Run) : Option Native :=
  match r.phase with
  | .call (.builtin b) _ => some b.native
  | _ => none

/-- A state whose next step is plain: it executes a plain instruction, calls one
of some natives, or takes a continuation that is thrown away at once. -/
structure Plain (natives : Native → Bool) (hidden : String → Prop) (r : Run) : Prop where
  executes : ∀ i, r.fetched? = some i → r.vm.Plain hidden i
  calls : ∀ native, r.native? = some native → natives native = true ∨
    (native = .capture ∧ ∃ f ∈ r.vm.frames.head?, f.DiscardsNext hidden)

instance (natives : Native → Bool) (hidden : String → Prop) [DecidablePred hidden] (r : Run) :
    Decidable (r.Plain natives hidden) :=
  decidable_of_iff
    ((∀ i ∈ r.fetched?, r.vm.Plain hidden i) ∧ ∀ native ∈ r.native?, natives native = true ∨
      (native = .capture ∧ ∃ f ∈ r.vm.frames.head?, f.DiscardsNext hidden))
    ⟨fun h => ⟨h.1, h.2⟩, fun h => ⟨h.executes, h.calls⟩⟩

/-- Two runs that do the same, `tail` waiting for the second one in addition.
Two captures answer differently, until their answers are thrown away. -/
inductive Alike (c : Correspondence) (tail : List Pending) : Run → Run → Prop
  /-- All values are alike. -/
  | same {vm vm' : Vm} {pending : List Pending} {phase : Phase} (vms : vm.Alike c vm')
      (fits : Fits c.places vm.store phase) (unhooked : ∀ ids, phase = .enter ids → ids = []) :
      Alike c tail ⟨vm, pending, phase⟩ ⟨vm', pending ++ tail, rename c.places phase⟩
  /-- A capture has answered. -/
  | answered {vm vm' : Vm} {pending : List Pending} {place place' : Address} {f : Frame}
      {rest : List Frame} (vms : vm.Alike c vm') (frames_eq : vm.frames = f :: rest)
      (discards : f.DiscardsNext c.hidden) :
      Alike c tail ⟨vm, pending, .returned (.ok (.continuation place))⟩
        ⟨vm', pending ++ tail, .returned (.ok (.continuation place'))⟩
  /-- The answer of a capture is on top of the stack. -/
  | dropping {vm vm' : Vm} {pending : List Pending} {v v' : Value} {f : Frame}
      {rest : List Frame} (vms : vm.Alike c vm') (frames_eq : vm.frames = f :: rest)
      (discards : f.DiscardsNext c.hidden) :
      Alike c tail ⟨{ vm with frames := f.withSlot (some v) :: rest }, pending, .loop⟩
        ⟨{ vm' with frames := (rename c.places f).withSlot (some v') :: rename c.places rest },
          pending ++ tail, .loop⟩

/-- Where two machines that are alike lead two runs: the first machine has grown,
and the runs are alike. -/
structure Follows (c : Correspondence) (tail : List Pending) (vm : Vm) (r r' : Run) : Prop where
  grows : vm.Grows c.hidden r.vm
  alike : r.Alike c tail r'

namespace Follows

variable {tail pending : List Pending} {w w' : Vm}

theorem of_phase {phase phase' : Phase} (h : Leads c vm w w' phase phase')
    (hids : ∀ ids, phase = .enter ids → ids = []) :
    Follows c tail vm ⟨w, pending, phase⟩ ⟨w', pending ++ tail, phase'⟩ := by
  obtain ⟨hgrows, halike, rfl, hfits⟩ := h
  exact ⟨hgrows, .same halike hfits hids⟩

/-- A result is handed on. -/
theorem withResult {result result' : Except Fault Value} (h : Leads c vm w w' result result') :
    Follows c tail vm (withResult w pending result) (withResult w' (pending ++ tail) result') :=
  of_phase ⟨h.grows, h.alike, congrArg Phase.returned h.renamed, h.fits⟩ fun _ hids => nomatch hids

/-- The innermost frames are left. -/
theorem leaveFrame {result result' : Except Fault Value} (h : Leads c vm w w' result result') :
    Follows c tail vm (leaveFrame w pending result) (leaveFrame w' (pending ++ tail) result') := by
  have hframes : w'.frames.tail = rename c.places w.frames.tail := by
    rw [h.alike.frames_eq]
    exact List.map_tail.symm
  have hfits : Fits c.places w.store w.frames.tail :=
    fits_list.mpr fun f hf => fits_list.mp h.alike.fits_frames f (List.mem_of_mem_tail hf)
  exact withResult ⟨⟨h.grows.store, h.grows.globals⟩, h.alike.withFrames hframes hfits, h.renamed,
    h.fits⟩

/-- An exception is raised in the innermost frames. -/
theorem raiseInFrame {exc exc' : Value} (h : Leads c vm w w' exc exc') :
    Follows c tail vm (raiseInFrame w pending exc) (raiseInFrame w' (pending ++ tail) exc') := by
  obtain ⟨hgrows, halike, rfl, hfits⟩ := h
  unfold Run.raiseInFrame
  obtain ⟨_, _, u, u', hu, hu', hl⟩ | ⟨e, e', u, u', hu, hu', hl⟩ :=
    tracks_unwind hfits w w' rfl halike
  · rw [hu, hu']
    exact of_phase ⟨hgrows.trans hl.grows, hl.alike, rfl, fits_of_leaves_nil rfl⟩
      fun _ hids => nomatch hids
  · rw [hu, hu']
    exact leaveFrame ⟨hgrows.trans hl.grows, hl.alike, congrArg Except.error hl.renamed, hl.fits⟩

/-- Both runs go on where the flow tells them to. -/
theorem follow {result result' : Except Fault Flow} (h : Leads c vm w w' result result') :
    Follows c tail vm (follow w pending result) (follow w' (pending ++ tail) result') := by
  obtain ⟨hgrows, halike, rfl, hfits⟩ := h
  cases result with
  | error e =>
      cases e with
      | exception exc =>
          have hleads : Leads c vm w w' exc (rename c.places exc) := ⟨hgrows, halike, rfl, hfits⟩
          exact raiseInFrame hleads
      | _ => exact leaveFrame ⟨hgrows, halike, rfl, hfits⟩
  | ok flow =>
      cases flow with
      | next =>
          exact of_phase ⟨hgrows, halike, rfl, fits_of_leaves_nil rfl⟩ fun _ hids => nomatch hids
      | jump target =>
          -- a jump sets a place in the body, which renaming leaves alone
          have hjump : VmAction.Tracks c w.store
              (onFrame (modify fun f => { f with next := target }))
              (onFrame (modify fun f => { f with next := target })) :=
            tracks_onFrame <| tracks_modify fun f hf =>
              ⟨rfl, Frame.fits_withSlots hf rfl fun _ => .inl⟩
          show Follows c tail vm (Run.follow w pending (.ok (.jump target)))
            (Run.follow w' (pending ++ tail) (.ok (.jump target)))
          unfold Run.follow
          dsimp only
          obtain ⟨_, _, u, u', hu, hu', hl⟩ | ⟨e, e', u, u', hu, hu', hl⟩ := hjump w w' rfl halike
          · rw [hu, hu']
            exact of_phase ⟨hgrows.trans hl.grows, hl.alike, rfl, fits_of_leaves_nil rfl⟩
              fun _ hids => nomatch hids
          · rw [hu, hu']
            exact leaveFrame ⟨hgrows.trans hl.grows, hl.alike, congrArg Except.error hl.renamed,
              hl.fits⟩
      | «return» v => exact leaveFrame ⟨hgrows, halike, rfl, hfits⟩
      | raise exc =>
          have hleads : Leads c vm w w' exc (rename c.places exc) := ⟨hgrows, halike, rfl, hfits⟩
          exact raiseInFrame hleads

/-- A plain instruction is executed. -/
theorem perform (hw : vm.Grows c.hidden w) (h : w.Alike c w') {i : Instruction}
    (hi : w.Plain c.hidden i) :
    Follows c tail vm (perform w pending i) (perform w' (pending ++ tail) i) := by
  unfold Run.perform
  obtain ⟨outcome, _, u, u', ho, ho', hl⟩ | ⟨e, e', u, u', he, he', hl⟩ := tracksAt_execute h hi
  · obtain rfl := hl.renamed
    rw [ho, ho']
    cases outcome with
    | flow flow => exact follow ⟨hw.trans hl.grows, hl.alike, rfl, hl.fits⟩
    | call req =>
        obtain ⟨hcallee, hargs⟩ := fits_callRequest.mp hl.fits
        have hleads : Leads c vm u u' (Phase.call req.callee req.args)
            (rename c.places (Phase.call req.callee req.args)) :=
          ⟨hw.trans hl.grows, hl.alike, rfl, fits_call.mpr ⟨hcallee, hargs⟩⟩
        show Follows c tail vm ⟨u, .site req.slots :: pending, _⟩
          ⟨u', (.site req.slots :: pending) ++ tail, _⟩
        exact of_phase hleads fun _ hids => nomatch hids
    | breakOff =>
        have hleads : Leads c vm u u' Phase.brokenOff Phase.brokenOff :=
          ⟨hw.trans hl.grows, hl.alike, rfl, fits_of_leaves_nil rfl⟩
        exact of_phase hleads fun _ hids => nomatch hids
  · rw [he, he']
    exact follow ⟨hw.trans hl.grows, hl.alike, congrArg Except.error hl.renamed, hl.fits⟩

/-- A plain instruction is fetched and executed, or the frame ends. -/
theorem stepFrame (h : vm.Alike c vm')
    (hp : ∀ i, fetched? ⟨vm, pending, .loop⟩ = some i → vm.Plain c.hidden i) :
    Follows c tail vm (stepFrame vm pending) (stepFrame vm' (pending ++ tail)) := by
  unfold Run.stepFrame
  cases hframes : vm.frames with
  | nil =>
      have hframes' : vm'.frames = [] := by
        rw [h.frames_eq, hframes]
        rfl
      rw [hframes']
      exact withResult ⟨.refl _ _, h, rfl, fits_of_leaves_nil rfl⟩
  | cons f rest =>
      have hframes' := h.frames_cons hframes
      have hf := h.fits_top hframes
      rw [hframes']
      dsimp only
      rw [show (rename c.places f).isDone = f.isDone from rfl]
      split
      · exact leaveFrame ⟨.refl _ _, h, rfl, (fits_of_isLeaf rfl).mpr trivial⟩
      · cases hi : decodeAt f.code.bytes f.next with
        | error e =>
            rw [fetch_of_decodeAt_error hframes hi, fetch_of_decodeAt_error hframes' hi]
            exact leaveFrame ⟨⟨.refl _, fun _ _ => rfl⟩, h.withTop hframes hf, rfl, fits_of_leaves_nil rfl⟩
        | ok i =>
            have hplain : vm.Plain c.hidden i := hp i <| by
              rw [fetched?, hframes]
              exact congrArg Except.toOption hi
            -- the names in the body are those before the fetch
            have hname : ∀ index, Vm.nameOf? { vm with frames := f.fetched i :: rest } index
                = vm.nameOf? index := by
              intro index
              rw [Vm.nameOf?, Vm.nameOf?, hframes]
              rfl
            have hgrows : vm.Grows c.hidden { vm with frames := f.fetched i :: rest } :=
              ⟨.refl _, fun _ _ => rfl⟩
            rw [fetch_of_decodeAt hframes hi, fetch_of_decodeAt hframes' hi]
            refine perform hgrows (h.withTop hframes (g := f.fetched i) ?_)
              { hplain with
                loadGlobal := fun ho name hn => hplain.loadGlobal ho name (hname _ ▸ hn)
                storeGlobal := fun ho name hn => hplain.storeGlobal ho name (hname _ ▸ hn) }
            exact Frame.fits_withSlots hf rfl fun _ => .inl

/-- Frames that are alike are entered. -/
theorem enterFrame {f f' : Frame} (h : Leads c vm w w' f f') :
    Follows c tail vm (enterFrame w pending f) (enterFrame w' (pending ++ tail) f') := by
  obtain ⟨hgrows, halike, rfl, hfits⟩ := h
  have hids {hooks : EntryHooks} (he : hooks.entries = []) : hooks.ids = [] := by
    rw [EntryHooks.ids, he]
    rfl
  have hlimit : w'.config.frameLimit = w.config.frameLimit := by
    rw [halike.config_eq, halike.config_eq']
  unfold Run.enterFrame
  rw [halike.depth_eq, hlimit, hids halike.hooks_eq, hids halike.hooks_eq']
  dsimp only
  split
  · exact withResult ⟨hgrows, halike, rfl, fits_of_leaves_nil rfl⟩
  · have hframes : rename c.places f :: w'.frames = rename c.places (f :: w.frames) := by
      rw [halike.frames_eq]
      rfl
    refine of_phase ⟨⟨hgrows.store, hgrows.globals⟩, halike.withFrames hframes ?_, rfl,
      fits_of_leaves_nil rfl⟩ fun ids hphase => (Phase.enter.inj hphase).symm
    refine fits_list.mpr fun g hg => ?_
    obtain rfl | hg := List.mem_cons.mp hg
    · exact hfits
    · exact fits_list.mp halike.fits_frames g hg

/-- A call of a function enters a frame of it, or fails on the arguments. -/
theorem beginCall_function_eq (vm : Vm) (pending : List Pending) (fn : Function)
    (args : Arguments) :
    Run.beginCall vm pending (.function fn) args =
      match lift ((fn.code.bind args).mapError .badArguments) vm with
      | .ok locals vm => Run.enterFrame vm pending (.ofLocals fn vm.topIndex? locals.toList)
      | .error e vm => Run.withResult vm pending (.error e) :=
  rfl

/-- A call of a native goes on as its outcome tells. -/
theorem beginCall_builtin_eq (vm : Vm) (pending : List Pending) (b : Builtin) (args : Arguments) :
    Run.beginCall vm pending (.builtin b) args =
      match callNative b.native args vm with
      | .ok (.value v) vm => Run.withResult vm pending (.ok v)
      | .ok (.resume k) vm => beginResume vm pending k
      | .ok (.ask name) vm => ⟨vm, pending, .atHost name args⟩
      | .error e vm => Run.withResult vm pending (.error e) :=
  rfl

/-- A value goes on the stack of the frame that waits for it. -/
theorem deliver_ok_eq (vm : Vm) (slots : Nat) (pending : List Pending) (v : Value) :
    Run.deliver vm (.site slots) pending (.ok v) =
      (let (flow, vm) := (match finishCall slots v vm with
        | .ok () vm => ((.ok .next : Except Fault Flow), vm)
        | .error e vm => (.error e, vm)); Run.follow vm pending flow) :=
  rfl

/-- The same exception is raised by both calls. -/
theorem raiseCause (h : vm.Alike c vm') (cause : Cause) :
    Follows c tail vm
      (match (raise cause : VmAction Value) vm with
        | .ok v vm => Run.withResult vm pending (.ok v)
        | .error e vm => Run.withResult vm pending (.error e))
      (match (raise cause : VmAction Value) vm' with
        | .ok v vm => Run.withResult vm (pending ++ tail) (.ok v)
        | .error e vm => Run.withResult vm (pending ++ tail) (.error e)) := by
  obtain ⟨v, v', u, u', hv, hv', hl⟩ | ⟨e, e', u, u', he, he', hl⟩ :=
    tracks_raise (α := Value) (c := c) cause vm vm' rfl h
  · rw [hv, hv']
    exact withResult ⟨hl.grows, hl.alike, congrArg Except.ok hl.renamed, hl.fits⟩
  · rw [he, he']
    exact withResult ⟨hl.grows, hl.alike, congrArg Except.error hl.renamed, hl.fits⟩

/-- A function is called. -/
theorem beginCall_function (h : vm.Alike c vm') {fn : Function} {args : Arguments}
    (hfn : Fits c.places vm.store fn) (hargs : Fits c.places vm.store args) :
    Follows c tail vm (beginCall vm pending (.function fn) args)
      (beginCall vm' (pending ++ tail) (.function (rename c.places fn)) (rename c.places args)) := by
  have hbind : Renamed c.places vm.store ((fn.code.bind args).mapError Cause.badArguments)
      ((fn.code.bind (rename c.places args)).mapError .badArguments) := by
    obtain ⟨heq, hfits⟩ := fn.code.renamed_bind hargs
    rw [heq]
    cases hb : fn.code.bind args with
    | error e => exact ⟨rfl, fits_of_leaves_nil rfl⟩
    | ok locals =>
        rw [hb] at hfits
        exact ⟨rfl, hfits⟩
  have hcode : (rename c.places fn).code = fn.code := rfl
  rw [beginCall_function_eq, beginCall_function_eq, hcode]
  obtain ⟨locals, _, w, w', hok, hok', hl⟩ | ⟨e, e', w, w', he, he', hl⟩ :=
    tracks_lift hbind.eq hbind.fits vm vm' rfl h
  · obtain rfl := hl.renamed
    rw [hok, hok']
    have hframe := Frame.renamed_ofLocals w.topIndex? (hfn.mono hl.grows.store)
      (fits_list.mpr (fits_array.mp hl.fits))
    refine enterFrame ⟨hl.grows, hl.alike, ?_, hframe.fits⟩
    rw [← hframe.eq, hl.alike.topIndex?_eq]
    show Frame.ofLocals _ _ (locals.map (rename c.places)).toList = _
    rw [Array.toList_map]
    rfl
  · rw [he, he']
    exact withResult ⟨hl.grows, hl.alike, congrArg Except.error hl.renamed, hl.fits⟩

/-- A native is called that is plain, or takes a continuation that is thrown away. -/
theorem beginCall_builtin (h : vm.Alike c vm') {b : Builtin} {args : Arguments}
    (hargs : Fits c.places vm.store args)
    (hb : b.native.isPlain = true ∨
      (b.native = .capture ∧ ∃ f ∈ vm.frames.head?, f.DiscardsNext c.hidden)) :
    Follows c tail vm (beginCall vm pending (.builtin b) args)
      (beginCall vm' (pending ++ tail) (rename c.places (.builtin b)) (rename c.places args)) := by
  have hb' : rename c.places (Value.builtin b) = .builtin { b with serial := c.places.serial b.serial } :=
    rfl
  rw [hb', beginCall_builtin_eq, beginCall_builtin_eq]
  obtain hplain | ⟨hcapture, f, hf, hdiscards⟩ := hb
  · obtain ⟨outcome, _, w, w', ho, ho', hl⟩ | ⟨e, e', w, w', he, he', hl⟩ :=
      tracks_callNative hplain hargs vm vm' rfl h
    · obtain rfl := hl.renamed
      rw [ho, ho']
      cases outcome with
      | value v => exact withResult ⟨hl.grows, hl.alike, rfl, hl.fits⟩
      | resume k =>
          obtain ⟨hresume, -⟩ := callNative_resume_ok ho
          rw [hresume] at hplain
          cases hplain
      | ask name =>
          exact of_phase ⟨hl.grows, hl.alike, rfl, hargs.mono hl.grows.store⟩
            fun _ hids => by cases hids
    · rw [he, he']
      exact withResult ⟨hl.grows, hl.alike, congrArg Except.error hl.renamed, hl.fits⟩
  · obtain ⟨rest, hframes⟩ := List.head?_eq_some_iff.mp hf
    rw [hcapture]
    obtain ⟨place, place', w, w', hp, hp', hgrows, halike, hsame⟩ | ⟨e, e', w, w', he, he', hl⟩ :=
      callCapture_alike h hargs
    · rw [hp, hp']
      exact ⟨hgrows, .answered halike (hsame.trans hframes) hdiscards⟩
    · rw [he, he']
      exact withResult ⟨hl.grows, hl.alike, congrArg Except.error hl.renamed, hl.fits⟩

/-- A value is called. -/
theorem beginCall (h : vm.Alike c vm') {callee : Value} {args : Arguments}
    (hcall : Fits c.places vm.store (Phase.call callee args))
    (hp : Run.Plain Native.isPlain c.hidden ⟨vm, pending, .call callee args⟩) :
    Follows c tail vm (beginCall vm pending callee args)
      (beginCall vm' (pending ++ tail) (rename c.places callee) (rename c.places args)) := by
  obtain ⟨hcallee, hargs⟩ := fits_call.mp hcall
  cases callee with
  | function fn => exact beginCall_function h hcallee hargs
  | builtin b => exact beginCall_builtin h hargs (hp.calls b.native rfl)
  | tuple items =>
      rw [show rename c.places (Value.tuple items) = .tuple (items.map (Value.rename c.places)) from
        Value.rename_tuple items]
      exact raiseCause h _
  | _ => exact raiseCause h _

/-- A result goes back to the call instructions that wait for it. -/
theorem deliver (h : vm.Alike c vm') {result : Except Fault Value}
    (hresult : Fits c.places vm.store result) (slots : Nat) :
    Follows c tail vm (deliver vm (.site slots) pending result)
      (deliver vm' (.site slots) (pending ++ tail) (rename c.places result)) := by
  cases result with
  | error e =>
      have hleads : Leads c vm vm vm' (.error e : Except Fault Flow)
          (.error (rename c.places e)) :=
        ⟨.refl _ _, h, rfl, hresult⟩
      exact follow hleads
  | ok v =>
      have hok : rename c.places (Except.ok v : Except Fault Value) = .ok (rename c.places v) := rfl
      rw [hok, deliver_ok_eq, deliver_ok_eq]
      obtain ⟨_, _, w, w', hok, hok', hl⟩ | ⟨e, e', w, w', he, he', hl⟩ :=
        tracks_finishCall slots hresult vm vm' rfl h
      · have hleads : Leads c vm w w' (.ok .next : Except Fault Flow) (.ok .next) :=
          ⟨hl.grows, hl.alike, rfl, fits_of_leaves_nil rfl⟩
        rw [hok, hok']
        exact follow hleads
      · rw [he, he']
        exact follow ⟨hl.grows, hl.alike, congrArg Except.error hl.renamed, hl.fits⟩

end Follows

/-! ## §3. An answer that is thrown away. -/

/-- The result of a call goes on the stack in place of the entries of the call. -/
theorem finishCall_apply {f : Frame} {rest : List Frame} (hframes : vm.frames = f :: rest)
    (slots : Nat) (v : Value) :
    finishCall slots v vm =
      match FrameAction.drop slots f with
      | .ok _ g => .ok () { vm with frames := g.withSlot (some v) :: rest }
      | .error e g => .error e { vm with frames := g :: rest } := by
  unfold finishCall
  rw [onFrame_apply hframes]
  simp only [bind, EStateM.bind]
  cases FrameAction.drop slots f <;> rfl

/-- Entries of the stack are dropped; the frame goes on where it would have. -/
theorem FrameAction.discardsNext_of_drop {hidden : String → Prop} {slots : Nat} {f g : Frame} {u : Unit}
    (h : FrameAction.drop slots f = .ok u g) (hf : f.DiscardsNext hidden) : g.DiscardsNext hidden := by
  simp only [FrameAction.drop, bind, EStateM.bind, get, getThe, MonadStateOf.get, EStateM.get] at h
  split at h
  · cases h
  · obtain ⟨-, rfl⟩ := EStateM.Result.ok.inj h
    exact hf

/-- The value just pushed is popped, if the stack does not lie below the locals. -/
theorem FrameAction.popSlot_withSlot (f : Frame) (v : Value) :
    FrameAction.popSlot (f.withSlot (some v)) =
      if f.slots.size < f.nlocals then .error f.underflow (f.withSlot (some v))
      else .ok (some v) f := by
  have hsize : (f.withSlot (some v)).slots.size = f.slots.size + 1 := Array.size_push ..
  have hlocals : (f.withSlot (some v)).nlocals = f.nlocals := rfl
  simp only [FrameAction.popSlot, bind, EStateM.bind, get, getThe, MonadStateOf.get, EStateM.get]
  rw [hsize, hlocals]
  by_cases hlow : f.slots.size < f.nlocals
  · rw [if_pos hlow, if_pos (Nat.succ_le_of_lt hlow)]
    rfl
  · rw [if_neg hlow, if_neg (by omega)]
    show EStateM.Result.ok (f.slots.push (some v)).back?.join
      { f with slots := (f.slots.push (some v)).pop } = _
    rw [Array.pop_push, Array.back?_push]
    rfl

theorem FrameAction.pop_withSlot (f : Frame) (v : Value) :
    FrameAction.pop (f.withSlot (some v)) =
      if f.slots.size < f.nlocals then .error f.underflow (f.withSlot (some v)) else .ok v f := by
  simp only [FrameAction.pop, bind, EStateM.bind, popSlot_withSlot]
  by_cases hlow : f.slots.size < f.nlocals
  · rw [if_pos hlow, if_pos hlow]
  · rw [if_neg hlow, if_neg hlow]
    rfl

theorem nameAt_of_getElem? {f : Frame} {rest : List Frame} {index : Nat} {name : String}
    (hframes : vm.frames = f :: rest) (h : f.code.names[index]? = some name) :
    nameAt index vm = .ok name vm := by
  have hcurrent : currentFrame vm = .ok f vm := by
    unfold currentFrame
    rw [onFrame_apply hframes]
    show EStateM.Result.ok f { vm with frames := f :: rest } = _
    rw [← hframes]
  unfold nameAt
  simp only [bind, EStateM.bind, hcurrent]
  rw [h]
  rfl

/-- The top of the stack is thrown away, unless the stack lies below the locals. -/
theorem execute_of_discards (vm : Vm) {hidden : String → Prop} {f : Frame} {rest : List Frame}
    {v : Value} {i : Instruction} (hframes : vm.frames = f.withSlot (some v) :: rest) (hi : f.Discards hidden i) :
    (f.slots.size < f.nlocals ∧ execute i vm = .error f.underflow vm) ∨
      (f.nlocals ≤ f.slots.size ∧ ∃ globals,
        (∀ name, ¬ hidden name → globals.find? name = vm.globals.find? name) ∧
          execute i vm = .ok (.flow .next) { vm with frames := f :: rest, globals := globals }) := by
  have hsame : { vm with frames := f.withSlot (some v) :: rest } = vm := by
    rw [← hframes]
  unfold execute
  obtain hpop | ⟨hstore, name, hname, hhidden⟩ := hi
  · rw [hpop]
    simp only [andNext, bind, EStateM.bind, onFrame_apply hframes, FrameAction.popSlot_withSlot]
    by_cases hlow : f.slots.size < f.nlocals
    · rw [if_pos hlow]
      exact .inl ⟨hlow, congrArg (EStateM.Result.error f.underflow) hsame⟩
    · rw [if_neg hlow]
      exact .inr ⟨Nat.le_of_not_lt hlow, vm.globals, fun _ _ => rfl, rfl⟩
  · have hread : nameAt i.arg.toNat vm = .ok name vm := nameAt_of_getElem? hframes hname
    rw [hstore]
    simp only [andNext, storeGlobal, bind, EStateM.bind, hread, onFrame_apply hframes,
      FrameAction.pop_withSlot]
    by_cases hlow : f.slots.size < f.nlocals
    · rw [if_pos hlow]
      exact .inl ⟨hlow, congrArg (EStateM.Result.error f.underflow) hsame⟩
    · rw [if_neg hlow]
      exact .inr ⟨Nat.le_of_not_lt hlow, vm.globals.set name v,
        fun _ => find?_set_of_hidden hhidden vm.globals v, rfl⟩

/-- **The answer of a capture is thrown away**: the frame goes on without it, and
a hidden global may have it. -/
theorem stepFrame_of_discards (vm : Vm) {hidden : String → Prop} {f : Frame} {rest : List Frame}
    {v : Value} {i : Instruction} (hframes : vm.frames = f.withSlot (some v) :: rest)
    (hdec : decodeAt f.code.bytes f.next = .ok i) (hi : f.Discards hidden i)
    (pending : List Pending) :
    (f.slots.size < f.nlocals ∧ Run.stepFrame vm pending =
        ⟨{ vm with frames := rest }, pending, .returned (.error (f.fetched i).underflow)⟩) ∨
      (f.nlocals ≤ f.slots.size ∧ ∃ globals,
        (∀ name, ¬ hidden name → globals.find? name = vm.globals.find? name) ∧
          Run.stepFrame vm pending =
            ⟨{ vm with frames := f.fetched i :: rest, globals := globals }, pending, .loop⟩) := by
  have hdone : (f.withSlot (some v)).isDone = false := by
    have hsize := lt_size_of_decodeAt hdec
    simp only [Frame.isDone, decide_eq_false_iff_not]
    exact Nat.not_le.mpr hsize
  have hdec' : decodeAt (f.withSlot (some v)).code.bytes (f.withSlot (some v)).next = .ok i := hdec
  have hstep : Run.stepFrame vm pending =
      Run.perform { vm with frames := (f.fetched i).withSlot (some v) :: rest } pending i := by
    unfold Run.stepFrame
    rw [hframes]
    simp only [hdone, fetch_of_decodeAt hframes hdec']
    rfl
  rw [hstep, Run.perform]
  obtain ⟨hlow, herr⟩ | ⟨hhigh, globals, hglobals, hok⟩ :=
    execute_of_discards { vm with frames := (f.fetched i).withSlot (some v) :: rest }
      (f := f.fetched i) rfl hi
  · rw [herr]
    exact .inl ⟨hlow, rfl⟩
  · rw [hok]
    exact .inr ⟨hhigh, globals, hglobals, rfl⟩

namespace Follows

variable {tail pending : List Pending} {f : Frame} {rest : List Frame}

/-- The answers of two captures go on the stack. -/
theorem deliverAnswer (h : vm.Alike c vm') (hframes : vm.frames = f :: rest)
    (hf : f.DiscardsNext c.hidden) (slots : Nat) (v v' : Value) :
    Follows c tail vm (Run.deliver vm (.site slots) pending (.ok v))
      (Run.deliver vm' (.site slots) (pending ++ tail) (.ok v')) := by
  rw [deliver_ok_eq, deliver_ok_eq]
  rw [finishCall_apply hframes, finishCall_apply (h.frames_cons hframes)]
  obtain ⟨_, g, hok, hok', -, hg⟩ | ⟨e, g, he, he', hfe, hg⟩ :=
    tracks_drop slots f (h.fits_top hframes)
  · rw [hok, hok']
    exact ⟨⟨.refl _, fun _ _ => rfl⟩,
      @Alike.dropping c tail { vm with frames := g :: rest }
        { vm' with frames := rename c.places g :: rename c.places rest } pending v v' g rest
        (h.withTop hframes hg) rfl (FrameAction.discardsNext_of_drop hok hf)⟩
  · rw [he, he']
    have hleads : Leads c vm { vm with frames := g :: rest }
        { vm' with frames := rename c.places g :: rename c.places rest }
        (.error e : Except Fault Flow) (.error (rename c.places e)) :=
      ⟨⟨.refl _, fun _ _ => rfl⟩, h.withTop hframes hg, rfl, hfe⟩
    exact follow hleads

/-- The answers of two captures are thrown away. -/
theorem dropAnswer (h : vm.Alike c vm') (hframes : vm.frames = f :: rest)
    (hf : f.DiscardsNext c.hidden) (v v' : Value) :
    Follows c tail { vm with frames := f.withSlot (some v) :: rest }
      (Run.stepFrame { vm with frames := f.withSlot (some v) :: rest } pending)
      (Run.stepFrame
        { vm' with frames := (rename c.places f).withSlot (some v') :: rename c.places rest }
        (pending ++ tail)) := by
  obtain ⟨i, hdec, hi⟩ := hf
  have hf := h.fits_top hframes
  have hsize : (rename c.places f).slots.size = f.slots.size := Frame.size_slots_rename f
  have hlocals : (rename c.places f).nlocals = f.nlocals := rfl
  have hstep := stepFrame_of_discards { vm with frames := f.withSlot (some v) :: rest }
    rfl hdec hi pending
  have hstep' := stepFrame_of_discards
    { vm' with frames := (rename c.places f).withSlot (some v') :: rename c.places rest }
    (f := rename c.places f) rfl hdec hi (pending ++ tail)
  obtain ⟨hlow, hs⟩ | ⟨hhigh, globals, hglobals, hs⟩ := hstep
  · -- heights agree, so both underflow or both go on
    obtain ⟨-, hs'⟩ | ⟨hhigh', -⟩ := hstep'
    · rw [hs, hs']
      have hrest : Fits c.places vm.store rest :=
        fits_list.mpr fun g hg =>
          fits_list.mp (hframes ▸ h.fits_frames) g (List.mem_cons_of_mem _ hg)
      have hleads : Leads c { vm with frames := f.withSlot (some v) :: rest }
          { vm with frames := rest } { vm' with frames := rename c.places rest }
          (.error (f.fetched i).underflow : Except Fault Value)
          (.error ((rename c.places f).fetched i).underflow) :=
        ⟨⟨.refl _, fun _ _ => rfl⟩, h.withFrames rfl hrest, rfl, fits_of_leaves_nil rfl⟩
      exact withResult hleads
    · omega
  · obtain ⟨hlow', -⟩ | ⟨-, globals', hglobals', hs'⟩ := hstep'
    · omega
    · rw [hs, hs']
      have hfetched : Fits c.places vm.store (f.fetched i) :=
        Frame.fits_withSlots hf rfl fun _ => .inl
      obtain ⟨hgrows, halike⟩ := (h.withTop hframes hfetched).withGlobals hglobals hglobals'
      exact of_phase ⟨⟨hgrows.store, hgrows.globals⟩, halike, rfl, fits_of_leaves_nil rfl⟩
        fun _ hids => nomatch hids

end Follows

/-! ## §4. Steps. -/

/-- **A plain step of the first run is a step of the second one**, and the runs
stay alike. -/
theorem Alike.step {tail : List Pending} {r r' s : Run} (h : r.Alike c tail r')
    (hplain : r.Plain Native.isPlain c.hidden) (hsites : ∀ p ∈ r.pending, ∃ n, p = .site n)
    (hs : r.step = some s) : ∃ s', r'.step = some s' ∧ Follows c tail r.vm s s' := by
  cases h with
  | @same vm vm' pending phase vms fits unhooked =>
      cases phase with
      | loop =>
          obtain rfl := Option.some.inj hs
          exact ⟨_, rfl, .stepFrame vms hplain.executes⟩
      | call callee args =>
          obtain rfl := Option.some.inj hs
          exact ⟨_, rfl, .beginCall vms fits hplain⟩
      | enter ids =>
          obtain rfl := unhooked ids rfl
          obtain rfl := Option.some.inj hs
          exact ⟨_, rfl, .of_phase ⟨.refl _ _, vms, rfl, fits_of_leaves_nil rfl⟩
            fun _ hids => nomatch hids⟩
      | returned result =>
          cases pending with
          | nil => exact nomatch hs
          | cons p pending =>
              -- only calls are pending in the first run, so the result goes to a call site
              obtain ⟨n, rfl⟩ := hsites p (List.mem_cons_self ..)
              obtain rfl := Option.some.inj hs
              exact ⟨_, rfl, .deliver vms fits n⟩
      | _ => exact nomatch hs
  | @answered vm vm' pending place place' f rest vms frames_eq discards =>
      cases pending with
      | nil => exact nomatch hs
      | cons p pending =>
          obtain ⟨n, rfl⟩ := hsites p (List.mem_cons_self ..)
          obtain rfl := Option.some.inj hs
          exact ⟨_, rfl, .deliverAnswer vms frames_eq discards n _ _⟩
  | dropping vms frames_eq discards =>
      obtain rfl := Option.some.inj hs
      exact ⟨_, rfl, .dropAnswer vms frames_eq discards _ _⟩

end Run

end Resumable
