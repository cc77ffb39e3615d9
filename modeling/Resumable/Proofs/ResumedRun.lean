/-
  Resumable.Proofs.ResumedRun
  ───────────────────────────
  **A RESUMED RUN ENDS AS THE FIRST ONE DID.**

  A program takes a continuation and goes on to its end.  Then the continuation
  is resumed on the machine as the program left it:

      start ── capture ── u ─────────── t           prints some lines after the capture
                          :             :
      t ── rebuilt capture ── u' ────── t' ── end   prints the same lines

  The rebuilt frames are those of the capture, but the store is the one of the
  end.  What is made after the capture comes to other places the second time
  (`Renaming.above`), and the capture answers another continuation, which is
  thrown away.  From there on the two runs are in step.

  Main results:
    • `Run.alike_steps`            — plain runs that are alike stay alike to the end,
    • `Run.resumed_run_ends_alike` — the same outcome, and the same lines printed.
-/
import Resumable.Proofs.SharedPast

namespace Resumable

variable {ρ : Renaming} {s t : Store} {c : Correspondence}

/-! ## §1. Outcomes. -/

/-- What a result looks like: the written form of its value, or the text of its
fault. -/
def Store.written (s : Store) : Except Fault Value → Except String String
  | .ok v => .ok (s.repr v)
  | .error e => .error (e.message s.repr)

theorem Fault.message_rename {repr repr' : Value → String} (e : Fault)
    (h : ∀ v, e = .exception v → repr' (v.rename ρ) = repr v) :
    (rename ρ e).message repr' = e.message repr := by
  cases e with
  | exception v =>
      show "uncaught exception: " ++ repr' (v.rename ρ) = _
      rw [h v rfl]
      rfl
  | _ => rfl

/-- What a result looks like does not depend on where its places are. -/
theorem Store.Alike.written (h : s.Alike ρ t) {result : Except Fault Value}
    (hresult : Fits ρ s result) : t.written (rename ρ result) = s.written result := by
  cases result with
  | ok v => exact congrArg Except.ok (h.repr hresult)
  | error e =>
      refine congrArg Except.error (e.message_rename fun v he => ?_)
      subst he
      exact h.repr hresult

namespace Run

/-- A run has come to its end with a result that nothing waits for. -/
structure EndsWith (r : Run) (result : Except Fault Value) : Prop where
  phase_eq : r.phase = .returned result
  pending_eq : r.pending = []

theorem EndsWith.step_eq {r : Run} {result : Except Fault Value} (h : r.EndsWith result) :
    r.step = none := by
  rw [step, h.phase_eq, h.pending_eq]

/-- The result that a run has at hand. -/
def result? (r : Run) : Option (Except Fault Value) :=
  match r.phase with
  | .returned result => some result
  | _ => none

theorem EndsWith.result?_eq {r : Run} {result : Except Fault Value} (h : r.EndsWith result) :
    r.result? = some result := by
  rw [result?, h.phase_eq]

theorem exists_endsWith {r : Run} (hresult : r.result?.isSome = true)
    (hpending : r.pending.length = 0) : ∃ result ∈ r.result?, r.EndsWith result := by
  obtain ⟨result, h⟩ := Option.isSome_iff_exists.mp hresult
  refine ⟨result, h, ?_, List.length_eq_zero_iff.mp hpending⟩
  unfold result? at h
  split at h
  · next heq => exact heq.trans (congrArg Phase.returned (Option.some.inj h))
  · exact nomatch h

/-- At its end a run has left all its frames. -/
theorem Stacked.frames_eq_nil {r : Run} (h : r.Stacked) {result : Except Fault Value}
    (hend : r.EndsWith result) : r.vm.frames = [] := by
  obtain ⟨hframes, -⟩ | ⟨n, -, hpending⟩ := h.inCall (by rw [hend.phase_eq]; rfl)
  · exact hframes
  · exact nomatch hend.pending_eq.symm.trans hpending

/-! ## §2. Runs in step. -/

namespace Alike

variable {tail : List Pending} {r r' : Run}

theorem config_eq (h : r.Alike c tail r') : r.vm.config = c.config := by
  cases h with
  | same vms => exact vms.config_eq
  | answered vms => exact vms.config_eq
  | dropping vms => exact vms.config_eq

theorem unhooked (h : r.Alike c tail r') {ids : List HookNumber} (hphase : r.phase = .enter ids) :
    ids = [] := by
  cases h with
  | same _ _ hids => exact hids ids hphase
  | answered => exact nomatch hphase
  | dropping => exact nomatch hphase

/-- The machines of two runs about to call are alike. -/
theorem of_call (h : r.Alike c tail r') {callee : Value} {args : Arguments}
    (hphase : r.phase = .call callee args) : r.vm.Alike c r'.vm := by
  cases h with
  | same vms => exact vms
  | answered => exact nomatch hphase
  | dropping => exact nomatch hphase

/-- Where the first run ends, the second one has the same result. -/
theorem of_endsWith (h : r.Alike c tail r') {result : Except Fault Value}
    (hend : r.EndsWith result) (hframes : r.vm.frames = []) :
    r.vm.Alike c r'.vm ∧ Fits c.places r.vm.store result
      ∧ r' = ⟨r'.vm, tail, .returned (rename c.places result)⟩ := by
  obtain ⟨hphase, hpending⟩ := hend
  cases h with
  | same vms fits =>
      subst hphase hpending
      exact ⟨vms, fits, rfl⟩
  | answered _ frames_eq => exact nomatch frames_eq.symm.trans hframes
  | dropping => exact nomatch hphase

/-- The callers hold known values. -/
theorem fits_callers (h : r.Alike c tail r') :
    ∀ f ∈ r.vm.frames.tail, Fits c.places r.vm.store f := by
  cases h with
  | same vms => exact fun f hf => fits_list.mp vms.fits_frames f (List.mem_of_mem_tail hf)
  | answered vms => exact fun f hf => fits_list.mp vms.fits_frames f (List.mem_of_mem_tail hf)
  | dropping vms frames_eq =>
      have hfits := fits_list.mp (frames_eq ▸ vms.fits_frames)
      exact fun f hf => hfits f (List.mem_cons_of_mem _ hf)

end Alike

/-- A container that a call in flight takes its arguments from is known. -/
theorem mem_places_of_collected {f : Frame} (hf : Fits ρ s f) {held : Container}
    (h : held ∈ f.collected) : held ∈ s.places := by
  unfold Frame.collected at h
  split at h
  · obtain ⟨-, v, hv, hcontainer⟩ := Instruction.mem_collected.mp h
    have hmem : some v ∈ f.slots.toList := List.mem_of_mem_drop (List.mem_of_mem_tail hv)
    have hfits : Fits ρ s v := fits_some.mp ((Frame.fits_frame.mp hf).2 _ hmem)
    unfold Value.container? at hcontainer
    split at hcontainer
    · obtain rfl := Option.some.inj hcontainer
      exact Store.list_mem_places.mpr (fits_listPlace.mp hfits)
    · obtain rfl := Option.some.inj hcontainer
      exact Store.dict_mem_places.mpr (fits_dictPlace.mp hfits)
    · exact nomatch hcontainer
  · exact nomatch h

/-- What a container holds stays in a store that only grows. -/
theorem contents_eq (h : s.Extends t) {held : Container} (hc : held ∈ s.places) :
    t.contents held = s.contents held := by
  cases held with
  | list place => exact congrArg Sum.inl (h.list_eq place (Store.list_mem_places.mp hc))
  | dict place => exact congrArg Sum.inr (h.dict_eq place (Store.dict_mem_places.mp hc))

variable {tail : List Pending}

/-- A plain step of a run keeps its calls in flight in order. -/
theorem Alike.stacked {r r' u u' : Run} (h : r.Alike c tail r') (hstack : r.Stacked)
    (hplain : r.Plain Native.isPlain c.hidden) (hu : r.step = some u) (hf : Follows c tail r.vm u u') :
    u.Stacked := by
  refine hstack.step hu (fun f hfr held hheld => ?_) ?_ (fun b args hphase hb => ?_) fun ids => h.unhooked
  · exact contents_eq hf.grows.store (mem_places_of_collected (h.fits_callers f hfr) hheld)
  · rw [hf.alike.config_eq, h.config_eq]
  · obtain hnative | ⟨hnative, -⟩ := hplain.calls b.native (by rw [native?, hphase])
    · rw [hb] at hnative
      exact nomatch hnative
    · exact nomatch hb.symm.trans hnative

/-- **Plain runs that are alike stay alike**, however far the first one goes. -/
theorem alike_steps : ∀ (n : Nat) {r r' : Run}, r.Alike c tail r' → r.Stacked →
    (∀ i, (steps i r).Plain Native.isPlain c.hidden) →
    ∃ n', (steps n r).Alike c tail (steps n' r') ∧ r.vm.Grows c.hidden (steps n r).vm
      ∧ (steps n r).Stacked
  | 0, r, _, h, hstack, _ => ⟨0, h, .refl _ r.vm, hstack⟩
  | n + 1, r, r', h, hstack, hplain => by
      cases hu : r.step with
      | none =>
          rw [steps_of_step_eq_none hu]
          exact ⟨0, h, .refl _ r.vm, hstack⟩
      | some u =>
          obtain ⟨u', hu', hf⟩ := h.step (hplain 0) hstack.sites hu
          have hplain' (i : Nat) : (steps i u).Plain Native.isPlain c.hidden := by
            rw [← steps_succ_of_step hu]
            exact hplain (i + 1)
          obtain ⟨n', halike, hgrows, hlast⟩ :=
            alike_steps n hf.alike (h.stacked hstack (hplain 0) hu hf) hplain'
          rw [steps_succ_of_step hu]
          refine ⟨n' + 1, ?_, hf.grows.trans hgrows, hlast⟩
          rw [steps_succ_of_step hu']
          exact halike

/-! ## §3. The rebuilt capture. -/

theorem shifted_zero (f : Frame) : f.shifted 0 = f := by
  obtain ⟨function, next, current, slots, blocks, parent, argCount⟩ := f
  cases parent <;> rfl

/-- **A resume comes back to the capture**: the frames are those of the capture,
and all else is what it was at the start of the resume. -/
theorem steps_to_capture {r u : Run} {k : Continuation} (hcapture : r.Captures u k)
    (hstack : r.Stacked) (hk : k = ⟨r.vm.frames.map Frame.asRecord⟩) {vm : Vm}
    (hframes : vm.frames = []) (hhooks : vm.hooks.entries = []) (harmed : vm.armed = none)
    (hconfig : vm.config = r.vm.config)
    (hkept : ∀ f ∈ r.vm.frames, ∀ held ∈ f.collected,
      vm.store.contents held = r.vm.store.contents held) :
    ∃ n id hooks, hooks.entries = [] ∧ steps n (ofContinuation vm k) =
      ⟨{ vm with
          store := (vm.store.makeContinuation {}).2, frames := r.vm.frames, hooks := hooks,
          armed := none },
        r.pending ++ [.resume id], .returned (.ok (.continuation vm.store.continuations.size))⟩ := by
  obtain ⟨b, args, positional, hphase, hb, hpos, -, -⟩ := hcapture.step_cases
  obtain ⟨hpending, hasks⟩ := hstack.calls hphase
  obtain ⟨f, rest, i, req, hr, hsus, hcallee, rfl⟩ := hasks.resolve_left hcapture.live
  have hdrop : vm.dropArmed = vm := by
    rw [Vm.dropArmed, harmed]
  have hdepth : vm.depth = 0 := by
    rw [Vm.depth, hframes]
    rfl
  -- the lists and dicts are what they were, so every call in flight is made as it was
  have hlinked : Frame.Linked vm.store (f :: rest) := by
    rw [← hr]
    exact hstack.linked.congr fun g hg => hkept g (List.mem_of_mem_tail hg)
  have hsus' : f.SuspendedIn vm.store i req :=
    hsus.congr (hkept f (hr ▸ List.mem_cons_self ..))
  have hrecords : k.records.reverse = (f :: rest).reverse.map Frame.asRecord ++ [] := by
    rw [hk, hr, List.append_nil, List.map_reverse]
  have hroom : vm.depth + rest.length < vm.config.frameLimit := by
    have hlimit := hstack.room
    rw [Vm.depth, hr, List.length_cons] at hlimit
    rw [hdepth, hconfig]
    omega
  obtain ⟨sites, -, hpart⟩ :=
    passage_of_records [] hrecords hlinked hsus' (by rw [hdrop]; exact hhooks) hroom
  have hreaches := hpart.reaches
  rw [hcallee, hdepth, hframes, List.append_nil, List.map_congr_left fun g _ => shifted_zero g,
    List.map_id'] at hreaches
  -- four steps for each frame but the first, which the resume enters itself; one for the capture
  refine ⟨4 * rest.length + 3 + 1, vm.dropArmed.hooks.nextId,
    ⟨[], (vm.rebuilding k.records.reverse).hooks.nextId⟩, rfl, ?_⟩
  rw [steps_add, ofContinuation, hreaches, steps_succ_of_step (step_of_capture hb hpos rfl),
    hpending, hr]
  simp only [Vm.rebuilding, hdrop]
  rfl

/-! ## §4. The resumed run. -/

@[simp] theorem store_endResume (vm : Vm) (id : HookNumber) :
    (endResume vm id).store = vm.store := by
  unfold endResume
  split <;> rfl

@[simp] theorem output_endResume (vm : Vm) (id : HookNumber) :
    (endResume vm id).output = vm.output := by
  unfold endResume
  split <;> rfl

/-- **After the rebuilt capture the two runs are alike**: the one that took the
continuation, and the one that resumes it on a machine that has gone on from it. -/
theorem Captures.alike_resumed {hidden : String → Prop} {shared : Nat} {r u : Run}
    {k : Continuation} (hcapture : r.Captures u k) (hstack : r.Stacked)
    (hself : r.vm.SelfContained hidden shared) (hplain : r.Plain Native.isPlain hidden)
    (hk : k = ⟨r.vm.frames.map Frame.asRecord⟩) (vm : Vm) (hgrows : r.vm.Grows hidden vm)
    (hframes : vm.frames = []) (hhooks : vm.hooks.entries = []) (harmed : vm.armed = none)
    (hconfig : vm.config = r.vm.config) (hhandled : vm.handled = r.vm.handled) :
    ∃ n id u', steps n (ofContinuation vm k) = u'
      ∧ u.Alike (r.vm.since vm hidden shared) [.resume id] u' := by
  -- what the captured frames refer to has not changed since
  have hkept : ∀ f ∈ r.vm.frames, ∀ held ∈ f.collected,
      vm.store.contents held = r.vm.store.contents held := by
    intro f hf held hheld
    have hfits : Fits (.above r.vm.store vm.store shared) r.vm.store f :=
      fits_list (ρ := .above r.vm.store vm.store shared).mp hself.frames f hf
    exact contents_eq hgrows.store (mem_places_of_collected hfits hheld)
  obtain ⟨n, id, hooks, hempty, hreach⟩ :=
    steps_to_capture hcapture hstack hk hframes hhooks harmed hconfig hkept
  obtain ⟨b, args, positional, hphase, hb, -, -, hu⟩ := hcapture.step_cases
  obtain hnative | ⟨-, f, hf, hdiscards⟩ := hplain.calls b.native (by rw [native?, hphase])
  · rw [hb] at hnative
    exact nomatch hnative
  obtain ⟨rest, hr⟩ := List.head?_eq_some_iff.mp hf
  -- but for the places handed out later the machine is the one of the capture
  have hback : r.vm.Alike (r.vm.since vm hidden shared)
      { vm with frames := r.vm.frames, hooks := hooks, armed := none } :=
    hself.alike { vm with frames := r.vm.frames, hooks := hooks, armed := none }
      ⟨hgrows.store, hgrows.globals⟩ hconfig rfl hhandled hempty rfl
  refine ⟨n, id, _, hreach, ?_⟩
  rw [hu]
  exact .answered (hback.withContinuation k {}).2 hr hdiscards

/-- When the first run ends, the second one has one step left, in which its
resume ends. -/
theorem Alike.endsWith_resume {t t' : Run} {id : HookNumber} (h : t.Alike c [.resume id] t')
    {result : Except Fault Value} (hend : t.EndsWith result) (hframes : t.vm.frames = []) :
    ∃ e result', steps 1 t' = e ∧ e.EndsWith result'
      ∧ e.vm.store.written result' = t.vm.store.written result
      ∧ ∃ lines, t.vm.output = c.printed ++ lines ∧ e.vm.output = c.printed' ++ lines := by
  obtain ⟨hvm, hfits, heq⟩ := h.of_endsWith hend hframes
  rw [heq]
  refine ⟨_, rename c.places result, rfl, ⟨rfl, rfl⟩, ?_, ?_⟩
  · show (endResume t'.vm id).store.written _ = _
    rw [store_endResume]
    exact hvm.store.written hfits
  · obtain ⟨lines, hout, hout'⟩ := hvm.output_eq
    refine ⟨lines, hout, ?_⟩
    show (endResume t'.vm id).output = _
    rw [output_endResume, hout']

/-- A run comes to rest in one state. -/
theorem steps_eq_of_rest {r : Run} {m n : Nat} (hm : (steps m r).step = none)
    (hn : (steps n r).step = none) : steps m r = steps n r := by
  obtain ⟨d, rfl⟩ | ⟨d, rfl⟩ : (∃ d, n = m + d) ∨ ∃ d, m = n + d := by
    by_cases hle : m ≤ n
    · exact .inl ⟨n - m, by omega⟩
    · exact .inr ⟨m - n, by omega⟩
  · rw [steps_add, steps_of_step_eq_none hm]
  · rw [steps_add, steps_of_step_eq_none hn]

/-- A run that takes a continuation has not ended before. -/
theorem exists_steps_of_captures {start r u t : Run} {k : Continuation} {m n : Nat}
    (hr : steps m start = r) (hcapture : r.Captures u k) (ht : steps n start = t)
    (hrest : t.step = none) : ∃ d, steps d u = t := by
  by_cases hle : n ≤ m
  · obtain ⟨d, rfl⟩ : ∃ d, m = n + d := ⟨m - n, by omega⟩
    rw [steps_add, ht, steps_of_step_eq_none hrest] at hr
    subst hr
    exact nomatch hrest.symm.trans hcapture.step_eq
  · obtain ⟨d, rfl⟩ : ∃ d, n = m + (d + 1) := ⟨n - m - 1, by omega⟩
    rw [steps_add, hr, steps_succ_of_step hcapture.step_eq] at ht
    exact ⟨d, ht⟩

/-- **A resumed run ends as the first one did.**  A call of a function on a machine
that runs nothing takes a continuation and then ends.  If it executes plain
instructions only, calls plain natives only and throws each continuation it takes
away, then a resume on the machine as the call left it, but for the exception
handled at the capture, comes to an end as well: with a result that looks the
same, and having printed the lines that the call printed after the capture. -/
theorem resumed_run_ends_alike {hidden : String → Prop} {vm : Vm} {fn : Function}
    {args : Arguments} {m n : Nat} {r u t : Run} {k : Continuation} {result : Except Fault Value}
    (hready : vm.Ready) (hfn : vm.store.Knows vm.store.continuations.size fn)
    (hargs : vm.store.Knows vm.store.continuations.size args)
    (hplain : ∀ i, (steps i (ofCall vm (.function fn) args)).Plain Native.isPlain hidden)
    (hr : steps m (ofCall vm (.function fn) args) = r) (hcapture : r.Captures u k)
    (ht : steps n (ofCall vm (.function fn) args) = t) (hend : t.EndsWith result) :
    ∃ j e result', steps j (ofContinuation { t.vm with handled := r.vm.handled } k) = e
      ∧ e.EndsWith result' ∧ e.vm.store.written result' = t.vm.store.written result
      ∧ ∃ lines, t.vm.output = r.vm.output ++ lines ∧ e.vm.output = t.vm.output ++ lines := by
  obtain ⟨d, hd⟩ := exists_steps_of_captures hr hcapture ht hend.step_eq
  -- the first run is compared with itself: what it holds is known, up to the capture and on
  have hself := (hready.selfContained hidden).alike vm (.refl hidden vm) rfl rfl rfl hready.hooks_eq
    hready.armed_eq
  have hstart : (ofCall vm (.function fn) args).Alike _ [] _ :=
    .same hself (fits_call.mpr ⟨hfn, hargs⟩) fun _ hids => nomatch hids
  obtain ⟨m', hrAlike, -, hrStack⟩ :=
    alike_steps m hstart (.of_call hready.frames_eq (.function fn) args) hplain
  rw [hr] at hrAlike hrStack
  have hrPlain (i : Nat) : (steps i r).Plain Native.isPlain hidden := by
    rw [← hr, ← steps_add]
    exact hplain (m + i)
  obtain ⟨n', htAlike, hgrows, htStack⟩ := alike_steps (d + 1) hrAlike hrStack hrPlain
  obtain ⟨_, -, -, huStack⟩ := alike_steps 1 hrAlike hrStack hrPlain
  rw [steps_succ_of_step hcapture.step_eq] at htAlike hgrows htStack huStack
  rw [hd] at htAlike hgrows htStack
  have hframes := htStack.frames_eq_nil hend
  obtain ⟨htVm, -, -⟩ := htAlike.of_endsWith hend hframes
  obtain ⟨b, args', hphase, hb⟩ := hcapture.calls
  have hrSelf := (hrAlike.of_call hphase).selfContained
  have hk : k = ⟨r.vm.frames.map Frame.asRecord⟩ := by
    have hhistory := history_trail (fun vm vm' => vm'.frames = vm.frames)
      (Begins.call (.function fn) args hready.frames_eq) m
    rw [hr] at hhistory
    obtain ⟨_, _, _, _, _, _, -, hk, -⟩ := hcapture.records (fun _ _ h => h) hhistory
    exact hk
  -- then it is compared with the resumed run, from the capture on
  obtain ⟨j, id, u', hj, huAlike⟩ := hcapture.alike_resumed hrStack hrSelf (hrPlain 0) hk
    { t.vm with handled := r.vm.handled } ⟨hgrows.store, hgrows.globals⟩ hframes
    htVm.hooks_eq htVm.armed_eq (htAlike.config_eq.trans hrAlike.config_eq.symm) rfl
  have huPlain (i : Nat) : (steps i u).Plain Native.isPlain hidden := by
    rw [← steps_succ_of_step hcapture.step_eq]
    exact hrPlain (i + 1)
  obtain ⟨d', hlast, -, -⟩ := alike_steps d huAlike huStack huPlain
  rw [hd] at hlast
  obtain ⟨e, result', he, hends, hwritten, lines, hout, hout'⟩ := hlast.endsWith_resume hend hframes
  refine ⟨j + (d' + 1), e, result', ?_, hends, hwritten, lines, hout, hout'⟩
  rw [steps_add, hj, steps_add, he]

/-! ## §5. A list in a list. -/

/-- A body that calls `g([1])`. -/
def listPasser : Code where
  name := "f"
  qualname := "f"
  filename := ""
  firstLine := 1
  bytes := encodeAll
    [(.loadGlobal, 0), (.loadConst, 0), (.buildList, 1), (.callFunction, 1), (.returnValue, 0)]
  constants := #[.int 1]
  names := #["g"]
  varnames := #[]
  argCount := 0
  lines := []

/-- A body that captures, prints its parameter and returns a list of it. -/
def listWrapper : Code where
  name := "g"
  qualname := "g"
  filename := ""
  firstLine := 1
  bytes := encodeAll
    [(.loadGlobal, 0), (.callFunction, 0), (.popTop, 0), (.loadGlobal, 1), (.loadFast, 0),
      (.callFunction, 1), (.popTop, 0), (.loadFast, 0), (.buildList, 1), (.returnValue, 0)]
  constants := #[]
  names := #["capture", "print"]
  varnames := #["a"]
  argCount := 1
  lines := []

/-- A machine without lists and with a function `g`. -/
def wrapperVm : Vm where
  globals := [("capture", .builtin ⟨0, .capture⟩), ("print", .builtin ⟨1, .print⟩),
    ("g", .function ⟨2, listWrapper⟩)]
  store := { serial := 4 }

/-- A call of the body that calls `g([1])`. -/
def wrapperRun : Run :=
  ofCall wrapperVm (.function ⟨3, listPasser⟩) {}

theorem ready_wrapperVm : wrapperVm.Ready where
  frames_eq := rfl
  hooks_eq := rfl
  armed_eq := rfl
  closed :=
    { held := by rintro (_ | _) _ hv <;> exact nomatch hv
      attrs := fun _ _ he => nomatch he
      lineage := fun _ _ hc => nomatch hc }
  globals := by decide +kernel
  handled := by decide +kernel

/-- The resumed run makes a list of its own, which looks the same. -/
theorem resumed_run_ends_alike_wrapper :
    ∃ j e result',
      steps j (ofContinuation
        { (steps 24 wrapperRun).vm with handled := (steps 10 wrapperRun).vm.handled }
        ((steps 11 wrapperRun).vm.store.continuation 0)) = e
      ∧ e.EndsWith result' ∧ e.vm.store.written result' = .ok "[[1]]"
      ∧ ∃ lines, (steps 24 wrapperRun).vm.output = (steps 10 wrapperRun).vm.output ++ lines
        ∧ e.vm.output = (steps 24 wrapperRun).vm.output ++ lines := by
  have hplain : ∀ i, (steps i wrapperRun).Plain Native.isPlain (· = "k") :=
    forall_steps_of_rest (n := 24) (Option.isNone_iff_eq_none.mp (by decide +kernel))
      (by decide +kernel)
  have hcapture : (steps 10 wrapperRun).Captures (steps 11 wrapperRun)
      ((steps 11 wrapperRun).vm.store.continuation 0) :=
    ⟨⟨⟨0, .capture⟩, {}, by cbv, rfl⟩, by decide +kernel,
      fun h => absurd (congrArg List.length h) (by decide +kernel), by cbv, 0, by cbv, rfl⟩
  have hwritten : ∀ result ∈ (steps 24 wrapperRun).result?,
      (steps 24 wrapperRun).vm.store.written result = .ok "[[1]]" := by
    decide +kernel
  obtain ⟨result, hresult, hend⟩ :=
    exists_endsWith (r := steps 24 wrapperRun) (by decide +kernel) (by decide +kernel)
  obtain ⟨j, e, result', hj, hends, hlooks, hlines⟩ :=
    resumed_run_ends_alike (m := 10) (n := 24) ready_wrapperVm (by decide +kernel)
      (by decide +kernel) hplain rfl hcapture rfl hend
  exact ⟨j, e, result', hj, hends, hlooks.trans (hwritten result hresult), hlines⟩

/-! ## §6. A method that was kept. -/

/-- A body that captures, calls `put(xs, 1)` and returns `len(xs)`. -/
def appender : Code where
  name := "f"
  qualname := "f"
  filename := ""
  firstLine := 1
  bytes := encodeAll
    [(.loadGlobal, 0), (.callFunction, 0), (.storeGlobal, 1), (.loadGlobal, 2), (.loadGlobal, 3),
      (.loadConst, 0), (.callFunction, 2), (.popTop, 0), (.loadGlobal, 4), (.loadGlobal, 3),
      (.callFunction, 1), (.returnValue, 0)]
  constants := #[.int 1]
  names := #["capture", "k", "put", "xs", "len"]
  varnames := #[]
  argCount := 0
  lines := []

/-- A machine with an empty list `xs`, on which an earlier program has kept the
method that appends to a list as `put`. -/
def appenderVm : Vm where
  globals := [("capture", .builtin ⟨0, .capture⟩), ("put", .builtin ⟨1, .append⟩),
    ("xs", .list 0), ("len", .builtin ⟨2, .len⟩)]
  store := { lists := #[#[]], serial := 4 }

/-- A call of the body that appends to `xs`. -/
def appenderRun : Run :=
  ofCall appenderVm (.function ⟨3, appender⟩) {}

theorem ready_appenderVm : appenderVm.Ready where
  frames_eq := rfl
  hooks_eq := rfl
  armed_eq := rfl
  closed := by
    have hempty : ∀ held, appenderVm.store.held held = [] := by
      rintro ((_ | place) | place) <;> rfl
    refine ⟨fun held v hv => ?_, fun _ _ he => (nomatch he), fun _ _ hc => (nomatch hc)⟩
    rw [hempty held] at hv
    exact nomatch hv
  globals := by decide +kernel
  handled := by decide +kernel

/-- A list that is appended to after the capture is not what it was when the
continuation is resumed: the call returns 1, the resumed run 2. -/
theorem not_ends_alike_of_append :
    appenderVm.Ready
      ∧ (∀ i, (steps i appenderRun).Plain (fun native => native != .capture && native != .resume)
        (· = "k"))
      ∧ (steps 4 appenderRun).Captures (steps 5 appenderRun)
        ((steps 5 appenderRun).vm.store.continuation 0)
      ∧ ∃ result, (steps 20 appenderRun).EndsWith result
        ∧ ¬ ∃ j e result',
          steps j (ofContinuation
            { (steps 20 appenderRun).vm with handled := (steps 4 appenderRun).vm.handled }
            ((steps 5 appenderRun).vm.store.continuation 0)) = e
          ∧ e.EndsWith result'
          ∧ e.vm.store.written result' = (steps 20 appenderRun).vm.store.written result := by
  have hplain : ∀ i, (steps i appenderRun).Plain
      (fun native => native != .capture && native != .resume) (· = "k") :=
    forall_steps_of_rest (n := 20) (Option.isNone_iff_eq_none.mp (by decide +kernel))
      (by decide +kernel)
  have hcapture : (steps 4 appenderRun).Captures (steps 5 appenderRun)
      ((steps 5 appenderRun).vm.store.continuation 0) :=
    ⟨⟨⟨0, .capture⟩, {}, by cbv, rfl⟩, by decide +kernel,
      fun h => absurd (congrArg List.length h) (by decide +kernel), by cbv, 0, by cbv, rfl⟩
  have hfirst : ∀ result ∈ (steps 20 appenderRun).result?,
      (steps 20 appenderRun).vm.store.written result = .ok "1" := by
    decide +kernel
  obtain ⟨result, hresult, hend⟩ :=
    exists_endsWith (r := steps 20 appenderRun) (by decide +kernel) (by decide +kernel)
  refine ⟨ready_appenderVm, hplain, hcapture, result, hend, ?_⟩
  rintro ⟨j, e, result', rfl, hends, hlooks⟩
  rw [hfirst result hresult] at hlooks
  generalize hresumed : ofContinuation
    { (steps 20 appenderRun).vm with handled := (steps 4 appenderRun).vm.handled }
    ((steps 5 appenderRun).vm.store.continuation 0) = resumed at hends hlooks
  have hrest : (steps 20 resumed).step = none := by
    rw [← hresumed]
    exact Option.isNone_iff_eq_none.mp (by decide +kernel)
  have hsecond : ∀ result ∈ (steps 20 resumed).result?,
      (steps 20 resumed).vm.store.written result = .ok "2" := by
    rw [← hresumed]
    decide +kernel
  have hsame := steps_eq_of_rest hends.step_eq hrest
  rw [hsame] at hends hlooks
  rw [hsecond result' hends.result?_eq] at hlooks
  exact absurd hlooks (by decide)

end Run

end Resumable
