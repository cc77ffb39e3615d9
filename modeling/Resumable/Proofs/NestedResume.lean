/-
  Resumable.Proofs.NestedResume
  ─────────────────────────────
  **CONTINUATIONS TAKEN BELOW A RESUME.**

  A frame that was suspended in a resume executes that resume again when it is
  replayed.  The new resume makes the armed one give way, so the records left
  for the frames above are dropped with its hook, and the frames that are
  rebuilt instead are those of the continuation resumed inside:

      taken        f₀ … fⱼ   resume(k₁)   inner
      rebuilt      f₀ … fⱼ   resume(k₁)   what k₁ rebuilds

  Main results:
    • `rebuilds_of_resumes`        — what such a continuation rebuilds,
    • `replays_below_resume_iff`   — when that is the chain it was taken from.
-/
import Resumable.Proofs.Replay

namespace Resumable

open VmAction

/-! ## §1. Frames in another place. -/

namespace Frame

theorem withParent_injective {f g : Frame} {p q : Option Nat} (h : f.withParent p = g.withParent q)
    (hp : f.parent = g.parent) : f = g := by
  obtain ⟨fn, next, current, slots, blocks, parent, argCount⟩ := f
  obtain ⟨fn', next', current', slots', blocks', parent', argCount'⟩ := g
  simp only [withParent, Frame.mk.injEq] at h hp ⊢
  obtain ⟨h₁, h₂, h₃, h₄, h₅, -, h₆⟩ := h
  exact ⟨h₁, h₂, h₃, h₄, h₅, hp, h₆⟩

/-- Frames that are equal in a new place are equal. -/
theorem shifted_injective (depth : Nat) : Function.Injective (shifted depth) := by
  intro f g h
  refine withParent_injective h ?_
  have hparent : (f.shifted depth).parent = (g.shifted depth).parent := by rw [h]
  unfold shifted withParent at hparent
  dsimp only at hparent
  cases hf : f.parent <;> cases hg : g.parent <;> rw [hf, hg] at hparent <;> dsimp only at hparent
  · split at hparent
    · exact nomatch hparent
    · have := Option.some.inj hparent
      omega
  · split at hparent
    · exact nomatch hparent
    · have := Option.some.inj hparent
      omega
  · have := Option.some.inj hparent
    congr 1
    omega

/-- Moving on top of some frames and then of others. -/
theorem shifted_shifted {inner : Nat} (h : 0 < inner) (outer : Nat) (f : Frame) :
    (f.shifted inner).shifted outer = f.shifted (inner + outer) := by
  have hne : ¬ inner = 0 := by omega
  have hne' : ¬ inner + outer = 0 := by omega
  unfold shifted withParent
  cases f.parent with
  | none =>
      simp only [if_neg hne, if_neg hne']
      congr 2
      omega
  | some index =>
      dsimp only
      congr 2
      omega

/-- A frame is suspended in a call of the native resume. -/
def Resumes (f : Frame) (s : Store) (k : Continuation) : Prop :=
  ∃ i req b place others, f.SuspendedIn s i req ∧ req.callee = .builtin b ∧ b.native = .resume
    ∧ req.args.requirePositional "resume" 1 1 = .ok (.continuation place :: others)
    ∧ s.continuation place = k

theorem Suspended.of_append {history : List Run} {inner outer : List Frame}
    (h : Suspended history (inner ++ outer)) : Suspended history outer := by
  induction inner with
  | nil => exact h
  | cons f inner ih => exact ih h.tail

end Frame

namespace Run

/-! ## §2. One chain at most. -/

/-- A run rebuilds one chain at most: the first capture tells which. -/
theorem Replays.unique {r : Run} {base fs gs : List Frame} {m n : Nat}
    (h : r.Replays base fs m) (h' : r.Replays base gs n) : fs = gs := by
  have hmn : m = n := by
    rcases Nat.lt_trichotomy m n with hlt | heq | hlt
    · have hfirst := h'.first m hlt
      rw [h.calls] at hfirst
      exact nomatch hfirst
    · exact heq
    · have hfirst := h.first n hlt
      rw [h'.calls] at hfirst
      exact nomatch hfirst
  subst hmn
  have hframes := h.frames_eq.symm.trans h'.frames_eq
  exact (List.map_inj_right fun _ _ hfg => Frame.shifted_injective base.length hfg).mp
    (List.append_cancel_right hframes)

/-! ## §3. A resume executed again. -/

/-- A resume calls for its continuation. -/
theorem step_of_resume {vm : Vm} {pending : List Pending} {b : Builtin} {args : Arguments}
    {place : Address} {others : List Value} (hb : b.native = .resume)
    (hpos : args.requirePositional "resume" 1 1 = .ok (.continuation place :: others)) :
    step ⟨vm, pending, .call (.builtin b) args⟩ =
      some (beginResume vm pending (vm.store.continuation place)) := by
  simp only [step, beginCall, hb, callNative, hpos, lift, bind, EStateM.bind, pure, EStateM.pure,
    get, getThe, MonadStateOf.get, EStateM.get]

/-- A resume enters one frame at most. -/
theorem tail_beginResume (vm : Vm) (pending : List Pending) (k : Continuation) :
    (beginResume vm pending k).vm.frames.tail <:+ vm.frames := by
  cases ho : k.outermost? with
  | none =>
      unfold beginResume
      rw [ho]
      exact List.tail_suffix _
  | some outermost =>
      rw [beginResume_eq ho]
      unfold enterFrame
      dsimp only
      split
      · show (vm.rebuilding _).frames.tail <:+ _
        rw [Vm.frames_rebuilding]
        exact List.tail_suffix _
      · show (vm.rebuilding _).frames <:+ _
        exact Vm.frames_rebuilding vm _ ▸ List.suffix_refl _

/-- What a run that first goes through a passage rebuilds. -/
theorem Replays.after {whole base fs gs : List Frame} {r s : Run} {n m : Nat}
    {sites : List Instruction} (hpart : Passage whole r n s sites)
    (hwhole : whole <:+ fs.map (Frame.shifted base.length) ++ base)
    (hsites : sites.map some = fs.reverse.map Frame.site?) (hfs : 0 < fs.length)
    (h : s.Replays (fs.map (Frame.shifted base.length) ++ base) gs m) :
    r.Replays base (gs.map (Frame.shifted fs.length) ++ fs) (n + m) := by
  have hreach : steps (n + m) r = steps m s := by rw [steps_add, hpart.reaches]
  -- frames shifted onto the middle ones and then onto the base are shifted onto both
  have hframes : (steps m s).vm.frames =
      (gs.map (Frame.shifted fs.length) ++ fs).map (Frame.shifted base.length) ++ base := by
    rw [h.frames_eq, List.map_append, List.map_map, List.append_assoc, List.length_append,
      List.length_map]
    congr 1
    refine List.map_congr_left fun g _ => ?_
    exact (Frame.shifted_shifted hfs base.length g).symm
  refine ⟨?_, ?_, ?_, ?_, ?_, ?_⟩
  · rw [executed_add, hpart.executed_eq, hpart.reaches, List.map_append, hsites, h.executed_eq,
      List.reverse_append, List.map_append, ← List.map_reverse, List.map_map]
    rfl
  · rw [hreach, hframes]
  · intro t ht
    rw [hreach]
    -- first the passage, then the resume it comes to
    by_cases hn : t ≤ n
    · refine (hpart.callers t hn).trans (hwhole.trans ?_)
      rw [h.frames_eq]
      exact List.suffix_append _ _
    · obtain ⟨d, rfl⟩ : ∃ d, t = n + d := ⟨t - n, by omega⟩
      rw [steps_add, hpart.reaches]
      exact h.restored d (by omega)
  · intro t ht
    by_cases hn : t < n
    · exact hpart.first t hn
    · obtain ⟨d, rfl⟩ : ∃ d, t = n + d := ⟨t - n, by omega⟩
      rw [steps_add, hpart.reaches]
      exact h.first d (by omega)
  · rw [hreach]
    exact h.calls
  · rw [hreach]
    exact h.answers

/-- **What a continuation taken below a resume rebuilds**: the frames up to the
one suspended in the resume, and on top of them what the continuation resumed
there rebuilds.  The records of the frames that were there are lost. -/
theorem rebuilds_of_resumes {k k₁ : Continuation} {s : Store} {f : Frame} {inner outer gs : List Frame}
    (hk : k = ⟨(inner ++ f :: outer).map Frame.asRecord⟩) (hlinked : Frame.Linked s (f :: outer))
    (hf : f.Resumes s k₁) (hk₁ : Rebuilds k₁ s gs) :
    Rebuilds k s (gs.map (Frame.shifted (outer.length + 1)) ++ f :: outer) := by
  intro vm pending hstore hhooks hroom
  subst hstore
  obtain ⟨i, req, b, place, others, hsus, hcallee, hb, hpos, rfl⟩ := hf
  rw [List.length_append, List.length_map, List.length_cons] at hroom
  have hrecords : k.records.reverse =
      (f :: outer).reverse.map Frame.asRecord ++ inner.reverse.map Frame.asRecord := by
    rw [hk, List.map_append, List.reverse_append, List.map_reverse, List.map_reverse]
  obtain ⟨sites, hsites, hpart⟩ :=
    passage_of_records pending hrecords hlinked hsus hhooks (by omega)
  rw [hcallee] at hpart
  generalize (f :: outer).map Frame.waiting ++ .resume _ :: pending = pending' at hpart
  -- the resume is executed again, on the machine with the frames rebuilt so far
  generalize hmid : (vm.rebuilding k.records.reverse).midway
    ((f :: outer).map (Frame.shifted vm.depth) ++ vm.frames) vm.dropArmed.hooks.nextId
    (inner.reverse.map Frame.asRecord) = mid at hpart
  have hframes : mid.frames = (f :: outer).map (Frame.shifted vm.depth) ++ vm.frames := by
    rw [← hmid]
    rfl
  have hstore : mid.store = vm.store := by
    rw [← hmid]
    exact vm.store_dropArmed
  have hempty : mid.dropArmed.hooks.entries = [] := by
    subst hmid
    unfold Vm.dropArmed
    show List.filter _ (rebuildEntries vm.dropArmed.hooks.nextId _) = []
    cases inner.reverse.map Frame.asRecord with
    | nil => rfl
    | cons record rest => simp [rebuildEntries]
  have hlimit : mid.config = vm.config := by
    rw [← hmid]
    exact vm.config_dropArmed
  have hdepth : mid.depth = vm.depth + (outer.length + 1) := by
    unfold Vm.depth
    rw [hframes, List.length_append, List.length_map, List.length_cons, Nat.add_comm]
  obtain ⟨m, hm⟩ := hk₁ mid pending' hstore hempty (by rw [hdepth, hlimit]; omega)
  rw [hframes] at hm
  have hstep : step ⟨mid, pending', .call (.builtin b) req.args⟩ =
      some (beginResume mid pending' (vm.store.continuation place)) := by
    rw [← hstore]
    exact step_of_resume hb hpos
  have hquiet : (Phase.call (.builtin b) req.args).isCapture = false := by
    show (b.native == Native.capture) = false
    rw [hb]
    rfl
  have hone : Passage mid.frames _ 1 _ _ :=
    .of_step hstep (List.tail_suffix _) (tail_beginResume mid pending' _) hquiet
  rw [hframes] at hone
  have hboth := (hpart.mono (List.suffix_cons _ _)).trans hone
  have hsites' : (sites ++ []).map some = (f :: outer).reverse.map Frame.site? := by
    rw [List.append_nil, hsites]
  exact ⟨_, Replays.after hboth (List.suffix_refl _) hsites' (Nat.succ_pos _) hm⟩

/-- **When a continuation taken below a resume is replayed**: exactly when the
chain that the resume rebuilds is, frame for frame, the one it was taken from. -/
theorem replays_below_resume_iff {outside : Vm → Vm → Prop} {r s : Run} {past : List Run}
    {k k₁ : Continuation} {inner outer gs : List Frame} {f : Frame}
    (hout : ∀ vm vm', outside vm vm' → vm'.frames = vm.frames)
    (hhistory : History Begins outside (r :: past)) (hcapture : r.Captures s k)
    (hframes : r.vm.frames = inner ++ f :: outer) (hcalls : CallsNext (f :: outer))
    {vm : Vm} (pending : List Pending) (hresumes : f.Resumes vm.store k₁)
    (hk₁ : Rebuilds k₁ vm.store gs) (hkept : ArgumentsKept (r :: past) vm.store (f :: outer))
    (hhooks : vm.dropArmed.hooks.entries = [])
    (hroom : vm.depth + (gs.length + (outer.length + 1)) ≤ vm.config.frameLimit) :
    (∃ m, (beginResume vm pending k).Replays vm.frames r.vm.frames m)
      ↔ inner = gs.map (Frame.shifted (outer.length + 1)) := by
  obtain ⟨-, -, -, -, -, -, -, hk, -⟩ := hcapture.records hout hhistory
  have hsus := (sound_of_history hout hhistory).suspended
  rw [hframes] at hsus hk ⊢
  have hlinked := linked_of_suspended hsus.of_append hcalls hkept
  obtain ⟨n, hn⟩ := rebuilds_of_resumes hk hlinked hresumes hk₁ vm pending rfl hhooks (by
    rw [List.length_append, List.length_map, List.length_cons]
    exact hroom)
  constructor
  · rintro ⟨m, hm⟩
    exact List.append_cancel_right (hm.unique hn)
  · rintro rfl
    exact ⟨n, hn⟩

/-! ## §4. Captures in a chain that a resume rebuilt. -/

/-- A body that captures, puts the continuation into `k`, and does so again as
long as it is empty. -/
def retaker : Code where
  name := "f"
  qualname := "f"
  filename := ""
  firstLine := 1
  bytes := encodeAll
    [(.loadGlobal, 0), (.callFunction, 0), (.dupTop, 0), (.storeGlobal, 1), (.popJumpIfFalse, 0),
      (.loadConst, 0), (.returnValue, 0)]
  constants := #[.int 7]
  names := #["capture", "k"]
  varnames := #[]
  argCount := 0
  lines := []

/-- A body that captures into `k` and then, with another call, into `j`. -/
def twiceTaker : Code where
  name := "f"
  qualname := "f"
  filename := ""
  firstLine := 1
  bytes := encodeAll
    [(.loadGlobal, 0), (.callFunction, 0), (.storeGlobal, 1), (.loadGlobal, 0),
      (.callFunction, 0), (.storeGlobal, 2), (.loadConst, 0), (.returnValue, 0)]
  constants := #[.int 7]
  names := #["capture", "k", "j"]
  varnames := #[]
  argCount := 0
  lines := []

/-- A body that returns `resume(k)`. -/
def resumer : Code where
  name := "g"
  qualname := "g"
  filename := ""
  firstLine := 1
  bytes := encodeAll
    [(.loadGlobal, 0), (.loadGlobal, 1), (.callFunction, 1), (.returnValue, 0)]
  constants := #[]
  names := #["resume", "k"]
  varnames := #[]
  argCount := 0
  lines := []

/-- A first run of a body that captures. -/
def takeRun (c : Code) : Run :=
  ofCall
    { globals := [("capture", .builtin ⟨0, .capture⟩), ("resume", .builtin ⟨1, .resume⟩)],
      store := { serial := 4 } }
    (.function ⟨2, c⟩) {}

/-- A later run that resumes what the first one captured. -/
def belowRun (c : Code) : Run :=
  ofCall (steps 15 (takeRun c)).vm (.function ⟨3, resumer⟩) {}

/-- A frame suspended in its first capture. -/
def takingFrame (c : Code) (parent : Option Nat) : Frame where
  function := ⟨2, c⟩
  next := 5
  current := 3
  slots := #[some (.builtin ⟨0, .capture⟩)]
  parent := parent
  argCount := 0

/-- The frame suspended in `resume(k)`. -/
def resumingFrame : Frame where
  function := ⟨3, resumer⟩
  next := 8
  current := 6
  slots := #[some (.builtin ⟨1, .resume⟩), some (.continuation 0)]
  parent := none
  argCount := 0

theorem suspendedIn_resumingFrame (s : Store) : resumingFrame.SuspendedIn s ⟨6, .callFunction, 1⟩
    ⟨.builtin ⟨1, .resume⟩, { positional := [.continuation 0] }, 2⟩ :=
  ⟨by cbv, rfl, rfl, [some (.builtin ⟨1, .resume⟩), some (.continuation 0)], by cbv, rfl⟩

theorem resumes_resumingFrame (s : Store) : resumingFrame.Resumes s (s.continuation 0) :=
  ⟨_, _, ⟨1, .resume⟩, 0, [], suspendedIn_resumingFrame s, rfl, rfl, rfl, rfl⟩

theorem begins_belowRun {c : Code} (h : (steps 15 (takeRun c)).vm.frames = []) :
    Begins (belowRun c) :=
  .call (.function ⟨3, resumer⟩) {} h

/-- Taken by the same call with the same locals, the inner continuation is
replayed. -/
theorem replays_below_resume_again :
    ∃ m, (beginResume (steps 26 (belowRun retaker)).vm []
      ((steps 17 (belowRun retaker)).vm.store.continuation 2)).Replays
        (steps 26 (belowRun retaker)).vm.frames (steps 16 (belowRun retaker)).vm.frames m := by
  have hbegins : Begins (belowRun retaker) :=
    begins_belowRun (List.length_eq_zero_iff.mp (by decide +kernel))
  have hhistory := history_trail (fun vm vm' => vm'.frames = vm.frames) hbegins 16
  have hcapture : (steps 16 (belowRun retaker)).Captures (steps 17 (belowRun retaker))
      ((steps 17 (belowRun retaker)).vm.store.continuation 2) :=
    ⟨⟨⟨0, .capture⟩, {}, by cbv, rfl⟩, by decide +kernel,
      fun h => absurd (congrArg List.length h) (by decide +kernel), by cbv, 2, by cbv, rfl⟩
  have hframes : (steps 16 (belowRun retaker)).vm.frames =
      [takingFrame retaker (some 0)] ++ resumingFrame :: [] := by cbv
  have hrecords : (steps 26 (belowRun retaker)).vm.store.continuation 0 =
      ⟨[takingFrame retaker none].map Frame.asRecord⟩ := by cbv
  have hsuspended (s : Store) : (takingFrame retaker none).SuspendedIn s ⟨3, .callFunction, 0⟩
      ⟨.builtin ⟨0, .capture⟩, {}, 1⟩ :=
    ⟨by cbv, rfl, rfl, [some (.builtin ⟨0, .capture⟩)], by cbv, rfl⟩
  have hk₁ : Rebuilds ((steps 26 (belowRun retaker)).vm.store.continuation 0)
      (steps 26 (belowRun retaker)).vm.store [takingFrame retaker none] :=
    rebuilds_of_linked hrecords ⟨rfl, rfl⟩ (hsuspended _) rfl rfl rfl
  have hhooks : (steps 26 (belowRun retaker)).vm.dropArmed.hooks.entries = [] :=
    List.length_eq_zero_iff.mp (by decide +kernel)
  exact (replays_below_resume_iff (fun _ _ h => h) hhistory hcapture hframes trivial []
    (resumes_resumingFrame _) hk₁ ⟨rfl, trivial⟩ hhooks (by decide +kernel)).mpr rfl

/-- Taken by another call, it is not: the first capture is the one that meets
the resume. -/
theorem not_replays_below_resume :
    History Begins (fun vm vm' => vm'.frames = vm.frames)
        (steps 14 (belowRun twiceTaker) :: (trail 14 (belowRun twiceTaker)).tail)
      ∧ (steps 10 (belowRun twiceTaker)).vm.store.continuation 2 = {}
      ∧ (steps 14 (belowRun twiceTaker)).Captures (steps 15 (belowRun twiceTaker))
        ((steps 15 (belowRun twiceTaker)).vm.store.continuation 3)
      ∧ (steps 14 (belowRun twiceTaker)).vm.frames.tail = [resumingFrame]
      ∧ resumingFrame.Resumes (steps 22 (belowRun twiceTaker)).vm.store
        ((steps 22 (belowRun twiceTaker)).vm.store.continuation 0)
      ∧ (steps 22 (belowRun twiceTaker)).vm.hooks.entries = []
      ∧ (steps 22 (belowRun twiceTaker)).vm.frames = []
      ∧ ¬ ∃ m, (beginResume (steps 22 (belowRun twiceTaker)).vm []
          ((steps 15 (belowRun twiceTaker)).vm.store.continuation 3)).Replays []
            (steps 14 (belowRun twiceTaker)).vm.frames m := by
  have hbegins : Begins (belowRun twiceTaker) :=
    begins_belowRun (List.length_eq_zero_iff.mp (by decide +kernel))
  have hcapture : (steps 14 (belowRun twiceTaker)).Captures (steps 15 (belowRun twiceTaker))
      ((steps 15 (belowRun twiceTaker)).vm.store.continuation 3) :=
    ⟨⟨⟨0, .capture⟩, {}, by cbv, rfl⟩, by decide +kernel,
      fun h => absurd (congrArg List.length h) (by decide +kernel), by cbv, 3, by cbv, rfl⟩
  refine ⟨history_trail _ hbegins 14, by cbv, hcapture, by cbv, resumes_resumingFrame _,
    List.length_eq_zero_iff.mp (by decide +kernel),
    List.length_eq_zero_iff.mp (by decide +kernel), ?_⟩
  generalize hr : beginResume (steps 22 (belowRun twiceTaker)).vm []
    ((steps 15 (belowRun twiceTaker)).vm.store.continuation 3) = r
  have hbefore : ∀ t < 7, (steps t r).phase.isCapture = false := by
    subst hr
    decide +kernel
  have hat : (steps 7 r).phase.isCapture = true := by
    subst hr
    decide +kernel
  have hsite : (steps 7 r).vm.frames.map Frame.current = [3, 6] := by
    subst hr
    decide +kernel
  have htaken : (steps 14 (belowRun twiceTaker)).vm.frames.map Frame.current = [11, 6] := by
    decide +kernel
  rintro ⟨m, h⟩
  rcases Nat.lt_trichotomy m 7 with hlt | rfl | hlt
  · have := hbefore m hlt
    rw [h.calls] at this
    cases this
  · rw [h.frames_eq, List.append_nil, List.map_map] at hsite
    have hsame : (steps 14 (belowRun twiceTaker)).vm.frames.map
        (Frame.current ∘ Frame.shifted 0) = [11, 6] := htaken
    exact absurd (hsame.symm.trans hsite) (by decide)
  · have := h.first 7 hlt
    rw [hat] at this
    cases this

end Run

end Resumable
