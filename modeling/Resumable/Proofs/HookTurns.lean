/-
  Resumable.Proofs.HookTurns
  ──────────────────────────
  **EVERY HOOK HAS ITS TURN.**

  When a frame is entered the numbers of the chain are noted, and each of them has
  one turn, in that order, whatever becomes of the chain in the meantime:

      installed, not running      the hook runs
      removed, or running         it is passed over

  While a host hook runs the host has the machine.  It may change the chain and make
  calls, and the frames these enter note the chain for themselves; such work stands
  above the run that waits, so when the hook has come to its verdict that run goes on
  where it was.  After the last turn the frame starts; a hook that fails ends it.

  Main results:
    • `Session.moves_of_next` — a step of a session is moves of the chain,
    • `Session.Stage.next`    — a step of an entry, from one turn to the next,
    • `Session.hooks_kept`    — the discipline of hooks, in every session.
-/
import Resumable.Proofs.CallIsolation
import Resumable.Proofs.HookChains

namespace Resumable

open VmAction

/-! ## §1. A host with hooks. -/

/-- A host that makes calls, and installs and removes hooks.  Its hooks may come to
anything. -/
def Host.hooking : Host where
  touches vm vm' := vm'.frames = vm.frames ∧ vm'.config = vm.config ∧ vm.hooks.Edits vm'.hooks
  begins vm r := r.CalledOn vm
  judges _ := True
  answers _ := True

theorem Run.CalledOn.begunOn {vm : Vm} {r : Run} (h : r.CalledOn vm) : r.BegunOn vm := by
  cases h with
  | call callee args => exact .call callee args
  | global name args => exact .global name args
  | code c => exact .code c
  | frame f => exact .frame f
  | continuation k => exact .continuation k

namespace Session

variable {s t : Session} {start : Vm}

/-- The hooks of the host that run, the innermost first. -/
def running (s : Session) : List HookNumber :=
  s.arms.running

/-- It is a host that leaves the frames below alone. -/
theorem Next.calling (h : Next .hooking s t) : Next .calling s t := by
  cases h with
  | touch htouches => exact .touch ⟨htouches.1, htouches.2.1⟩
  | take => exact .take
  | begin hbegins => exact .begin hbegins
  | step hstep => exact .step hstep
  | ask hasks => exact .ask hasks
  | hook hphase hjudges => exact .hook hphase hjudges
  | answer hphase hanswers => exact .answer hphase hanswers
  | done hover => exact .done hover

/-- **Each step of a session is moves of the chain.** -/
theorem moves_of_next (h : Next .hooking s t) : ChainState.Moves s.arms.chain t.arms.chain := by
  cases h with
  | @touch vm vm' waiting htouches => exact ChainState.moves_of_edits htouches.2.2 _
  | @take vm waiting =>
      rw [stateAfter_capture]
      show ChainState.Moves (ArmState.mk vm.hooks vm.armed _).chain
        (ArmState.mk vm.dropArmed.hooks vm.dropArmed.armed _).chain
      rw [← Run.disarmed_eq]
      exact ArmState.moves_disarmed _
  | begin hbegins => exact ArmState.moves_of_move (Run.move_of_begunOn hbegins.begunOn _)
  | step hstep => exact ArmState.moves_of_move (Run.move_of_step hstep _)
  | ask hasks => exact .refl
  | @hook vm r waiting id hook ids result hphase _ =>
      have hopened : r.opened = .hook id hook :: r.pending.filterMap Pending.opened? := by
        unfold Run.opened
        rw [hphase]
        rfl
      show ChainState.Moves
        (ArmState.mk vm.hooks vm.armed (r.opened ++ waiting.flatMap Run.opened)).chain
        ((r.answerHook vm result).arms _).chain
      rw [Run.answerHook_eq hphase, hopened]
      -- kept, removed by its own verdict, or failed
      unfold Run.hookEnded
      split
      · exact .single (.finish hook)
      · exact .single .drop
      · exact .single (.finish hook)
  | @answer vm r waiting name args result hphase _ =>
      have hmove : Next .free ⟨.host vm, r :: waiting⟩ ⟨.run (r.answerHost vm result), waiting⟩ :=
        .answer hphase trivial
      exact ArmState.moves_of_move (move_of_next hmove)
  | done hover => exact ArmState.moves_of_move (move_of_next (.done hover))

end Session

/-- A chain that nothing runs of: numbers are given out once, and all entries hold their
hooks. -/
structure EntryHooks.Idle (c : EntryHooks) : Prop where
  ids_nodup : c.ids.Nodup
  ids_lt : ∀ id ∈ c.ids, id < c.nextId
  holds : ∀ e ∈ c.entries, e.hook ≠ none

theorem EntryHooks.Idle.tracks {c : EntryHooks} (h : c.Idle) : ChainState.Tracks ⟨c, []⟩ where
  ids_nodup := h.ids_nodup
  ids_lt := h.ids_lt
  running_nodup := List.nodup_nil
  running_lt := nofun
  empty_iff e he := ⟨fun hnone => absurd hnone (h.holds e he), nofun⟩

/-! ## §2. A turn. -/

namespace Run

variable {vm : Vm} {pending : List Pending} {id : HookNumber} {ids : List HookNumber}
  {result : Except Fault HookVerdict} {r : Run}

/-- A hook's turn has ended: the next hook has its turn, or the frame is left. -/
structure TurnEnds (vm : Vm) (pending : List Pending) (id : HookNumber) (hook : Hook)
    (ids : List HookNumber) (result : Except Fault HookVerdict) (r : Run) : Prop where
  settles : vm.hooks.Settles r.vm.hooks id hook (result ≠ .ok .remove)
  pending_eq : r.pending = pending
  goesOn : ∀ verdict, result = .ok verdict → r.phase = .enter ids ∧ r.vm.frames = vm.frames
  fails : ∀ e, result = .error e → r.phase = .returned (.error e) ∧ r.vm.frames = vm.frames.tail

/-- A hook runs when its turn comes: the host is asked, or a record is put into the frame. -/
inductive Starts (vm : Vm) (pending : List Pending) (id : HookNumber) (ids : List HookNumber) :
    Run → Prop
  | asks {name : String} {key : Nat} : ⟨id, some (.host name key)⟩ ∈ vm.hooks.entries →
      Starts vm pending id ids
        ⟨{ vm with hooks := vm.hooks.withHook id none }, pending, .atHook id (.host name key) ids⟩
  | rebuilds {records left : List Record} {result : Except Fault HookVerdict} {u : Vm} {r : Run} :
      ⟨id, some (.rebuild records)⟩ ∈ vm.hooks.entries → u.hooks = vm.hooks.withHook id none →
      u.frames.length = vm.frames.length → u.frames.tail = vm.frames.tail →
      TurnEnds u pending id (.rebuild left) ids result r → Starts vm pending id ids r

theorem turnEnds_hookEnded (vm : Vm) (pending : List Pending) (id : HookNumber) (hook : Hook)
    (ids : List HookNumber) (result : Except Fault HookVerdict) :
    TurnEnds vm pending id hook ids result (hookEnded vm pending id hook ids result) := by
  cases result with
  | error e =>
      exact ⟨EntryHooks.settles_finish _ _ _ nofun, rfl, nofun,
        fun e' he => by cases he; exact ⟨rfl, rfl⟩⟩
  | ok verdict =>
      cases verdict with
      | keep => exact ⟨EntryHooks.settles_finish _ _ _ nofun, rfl, fun _ _ => ⟨rfl, rfl⟩, nofun⟩
      | remove =>
          have hleaves : ¬ (Except.ok HookVerdict.remove : Except Fault HookVerdict) ≠ .ok .remove :=
            fun hne => hne rfl
          exact ⟨EntryHooks.settles_remove _ _ _ hleaves, rfl, fun _ _ => ⟨rfl, rfl⟩, nofun⟩

/-- The hook of a resume ends in the step it starts in. -/
theorem starts_rebuildFrame {records : List Record}
    (hmem : ⟨id, some (.rebuild records)⟩ ∈ vm.hooks.entries) :
    Starts vm pending id ids
      (rebuildFrame { vm with hooks := vm.hooks.withHook id none } pending id records ids) := by
  have hends {u : Vm} (left : List Record) (result : Except Fault HookVerdict)
      (hhooks : u.hooks = vm.hooks.withHook id none) (hlength : u.frames.length = vm.frames.length)
      (htail : u.frames.tail = vm.frames.tail) :
      Starts vm pending id ids (hookEnded u pending id (.rebuild left) ids result) :=
    .rebuilds hmem hhooks hlength htail (turnEnds_hookEnded ..)
  unfold rebuildFrame
  split
  · exact hends _ _ rfl rfl rfl
  · exact hends _ _ rfl rfl rfl
  · next record rest f outer hframes =>
      replace hframes : vm.frames = f :: outer := hframes
      split
      · exact hends _ _ rfl rfl rfl
      · refine hends _ _ rfl ?_ ?_
        · rw [hframes]
          rfl
        · rw [hframes]
          rfl

/-- **A turn**: a hook that is installed and does not run starts, another is passed over. -/
theorem turn_runHooks {running : List HookNumber} (h : ChainState.Tracks ⟨vm.hooks, running⟩)
    (pending : List Pending) (id : HookNumber) (ids : List HookNumber) :
    (id ∈ vm.hooks.ids ∧ id ∉ running → Starts vm pending id ids (runHooks vm pending (id :: ids)))
      ∧ (¬ (id ∈ vm.hooks.ids ∧ id ∉ running) →
        runHooks vm pending (id :: ids) = ⟨vm, pending, .enter ids⟩) := by
  have hstart {hook : Hook} : vm.hooks.start? id = some (hook, vm.hooks.withHook id none)
      ↔ ⟨id, some hook⟩ ∈ vm.hooks.entries :=
    (EntryHooks.start?_eq_some_iff h.ids_nodup).trans (and_iff_left rfl)
  -- an entry that holds its hook is one whose hook does not run
  constructor
  · intro hready
    obtain ⟨hook, hmem⟩ := h.exists_hook_iff.mpr hready
    simp only [runHooks, hstart.mpr hmem]
    cases hook with
    | host name key => exact .asks hmem
    | rebuild records => exact starts_rebuildFrame hmem
  · intro hready
    cases hfound : vm.hooks.start? id with
    | none => simp only [runHooks, hfound]
    | some found =>
        obtain ⟨hook, hooks⟩ := found
        exact absurd (h.exists_hook_iff.mp ⟨hook, (EntryHooks.mem_of_start? hfound).1⟩) hready

end Run

/-! ## §3. An entry. -/

namespace Session

variable {s t : Session} {pending : List Pending} {below : List Frame} {waiting : List Run}
  {id : HookNumber} {rest : List HookNumber}

/-- A hook may run when its turn comes. -/
def Ready (id : HookNumber) (s : Session) : Prop :=
  id ∈ s.vm.hooks.ids ∧ id ∉ s.running

/-- The hook whose turn it is runs. -/
def Starts (id : HookNumber) (s t : Session) : Prop :=
  ∃ vm pending ids r, s.floor = .run ⟨vm, pending, .enter (id :: ids)⟩ ∧ t = ⟨.run r, s.waiting⟩
    ∧ Run.Starts vm pending id ids r

/-- The hook whose turn it is is passed over. -/
def PassesOver (id : HookNumber) (s t : Session) : Prop :=
  ∃ vm pending ids, s.floor = .run ⟨vm, pending, .enter (id :: ids)⟩
    ∧ t = ⟨.run ⟨vm, pending, .enter ids⟩, s.waiting⟩

end Session

/-- A hook's turn in the course of a session. -/
structure HookTurn where
  id : HookNumber
  before : Session
  after : Session

/-- A hook runs in its turn just if it may. -/
structure HookTurn.Fair (turn : HookTurn) : Prop where
  starts : turn.before.Ready turn.id → turn.before.Starts turn.id turn.after
  passes : ¬ turn.before.Ready turn.id → turn.before.PassesOver turn.id turn.after

namespace Session

variable {s t : Session} {pending : List Pending} {below : List Frame} {waiting : List Run}
  {id : HookNumber} {rest : List HookNumber}

/-- The turn that a step is, for a frame entered over `depth` runs that wait. -/
def turns (depth : Nat) (s t : Session) : List HookTurn :=
  match s.floor with
  | .run ⟨_, _, .enter (id :: _)⟩ => if s.waiting.length = depth then [⟨id, s, t⟩] else []
  | _ => []

/-- The hooks see a frame entered over `depth` runs that wait: one of them runs or has its
turn next. -/
def Seeing (depth : Nat) (s : Session) : Prop :=
  s.waiting.length ≠ depth ∨ ∃ r, s.floor = .run r
    ∧ ((∃ ids, r.phase = .enter ids) ∨ ∃ id hook ids, r.phase = .atHook id hook ids)

/-- From the state in which a frame is entered a session goes on as long as the hooks see the
frame; with the turns they have had. -/
inductive Sees (s : Session) : List HookTurn → Session → Prop
  | enter : Sees s [] s
  | next {turned : List HookTurn} {t u : Session} : Sees s turned t → t.Seeing s.waiting.length →
      Next .hooking t u → Sees s (turned ++ turns s.waiting.length t u) u

/-- Where the entry of a frame above `below` has come to, with the turns in `rest` to come. -/
inductive Stage (pending : List Pending) (below : List Frame) (waiting : List Run) :
    List HookNumber → Session → Prop
  /-- The next hook has its turn. -/
  | turns {vm : Vm} {f : Frame} {rest : List HookNumber} : vm.frames = f :: below →
      Stage pending below waiting rest ⟨.run ⟨vm, pending, .enter rest⟩, waiting⟩
  /-- The host is asked to run a hook. -/
  | asks {vm : Vm} {f : Frame} {id : HookNumber} {hook : Hook} {rest : List HookNumber} :
      vm.frames = f :: below →
      Stage pending below waiting rest ⟨.run ⟨vm, pending, .atHook id hook rest⟩, waiting⟩
  /-- The hook runs, and whatever it has begun. -/
  | runs {floor : Floor} {inner : List Run} {vm : Vm} {f : Frame} {id : HookNumber} {hook : Hook}
      {rest : List HookNumber} : vm.frames = f :: below →
      Stage pending below waiting rest ⟨floor, inner ++ ⟨vm, pending, .atHook id hook rest⟩ :: waiting⟩
  /-- All have had their turns, and the frame starts. -/
  | starts {vm : Vm} {f : Frame} : vm.frames = f :: below →
      Stage pending below waiting [] ⟨.run ⟨vm, pending, .loop⟩, waiting⟩
  /-- A hook has failed, and the frame is left. -/
  | fails {vm : Vm} {e : Fault} {rest : List HookNumber} : vm.frames = below →
      Stage pending below waiting rest ⟨.run ⟨vm, pending, .returned (.error e)⟩, waiting⟩

/-- A step of a run that is at work is a step of the session. -/
theorem next_of_enter {vm : Vm} {ids : List HookNumber}
    (hnext : Next .hooking ⟨.run ⟨vm, pending, .enter ids⟩, waiting⟩ t) :
    t = ⟨.run (Run.runHooks vm pending ids), waiting⟩ := by
  cases hnext with
  | step hstep => rw [← Option.some.inj hstep]
  | ask hasks => rcases hasks with ⟨_, _, _, hphase⟩ | ⟨_, _, hphase⟩ <;> cases hphase
  | done hover => rcases hover.2 with ⟨_, hphase⟩ | ⟨_, hphase⟩ <;> cases hphase

/-- **A turn, in a session.** -/
theorem fair_of_next (h : s.arms.chain.Tracks) (hnext : Next .hooking s t) (depth : Nat) :
    ∀ turn ∈ turns depth s t, turn.Fair := by
  obtain ⟨floor, waiting⟩ := s
  intro turn hturn
  unfold turns at hturn
  split at hturn
  · next vm pending id ids hfloor =>
      replace hfloor : floor = .run ⟨vm, pending, .enter (id :: ids)⟩ := hfloor
      subst hfloor
      split at hturn
      · obtain rfl := List.mem_singleton.mp hturn
        obtain rfl := next_of_enter hnext
        obtain ⟨hstarts, hpasses⟩ := Run.turn_runHooks h pending id ids
        refine ⟨fun hready => ⟨vm, pending, ids, _, rfl, rfl, hstarts hready⟩,
          fun hready => ⟨vm, pending, ids, rfl, ?_⟩⟩
        exact congrArg (fun r => Session.mk (.run r) waiting) (hpasses hready)
      · cases hturn
  · cases hturn

/-! ## §4. From one turn to the next. -/

theorem stage_of_turnEnds {u : Vm} {hook : Hook} {result : Except Fault HookVerdict} {r : Run}
    {f : Frame} (h : Run.TurnEnds u pending id hook rest result r) (hframes : u.frames = f :: below) :
    Stage pending below waiting rest ⟨.run r, waiting⟩ := by
  obtain ⟨vm, pending', phase⟩ := r
  obtain rfl : pending' = pending := h.pending_eq
  cases hresult : result with
  | ok verdict =>
      obtain ⟨hphase, hsame⟩ := h.goesOn verdict hresult
      obtain rfl : phase = .enter rest := hphase
      exact .turns (hsame.trans hframes)
  | error e =>
      obtain ⟨hphase, htail⟩ := h.fails e hresult
      obtain rfl : phase = .returned (.error e) := hphase
      refine .fails (htail.trans ?_)
      rw [hframes]
      rfl

theorem stage_of_starts {vm : Vm} {r : Run} {f : Frame} (h : Run.Starts vm pending id rest r)
    (hframes : vm.frames = f :: below) : Stage pending below waiting rest ⟨.run r, waiting⟩ := by
  cases h with
  | asks hmem => exact .asks hframes
  | @rebuilds records left result u r hmem hhooks hlength htail hends =>
      -- a record may have gone into the frame that is entered
      rw [hframes] at hlength htail
      obtain ⟨g, hg⟩ : ∃ g, u.frames = g :: below := by
        cases hu : u.frames with
        | nil =>
            rw [hu] at hlength
            cases hlength
        | cons g outer =>
            rw [hu] at htail
            exact ⟨g, congrArg (g :: ·) htail⟩
      exact stage_of_turnEnds hends hg

theorem stage_of_runHooks {vm : Vm} {ids : List HookNumber} {running : List HookNumber} {f : Frame}
    (h : ChainState.Tracks ⟨vm.hooks, running⟩) (hframes : vm.frames = f :: below) :
    Stage pending below waiting ids.tail ⟨.run (Run.runHooks vm pending ids), waiting⟩ := by
  cases ids with
  | nil => exact .starts hframes
  | cons id ids =>
      obtain ⟨hstarts, hpasses⟩ := Run.turn_runHooks h pending id ids
      by_cases hready : id ∈ vm.hooks.ids ∧ id ∉ running
      · exact stage_of_starts (hstarts hready) hframes
      · rw [hpasses hready]
        exact .turns hframes

/-- The host gives back the frames it found. -/
theorem StandsOver.frames_eq {base : List Frame} {vm : Vm} {r : Run}
    (h : StandsOver base ⟨.host vm, r :: waiting⟩) : vm.frames = r.vm.frames := by
  obtain ⟨frames, hframes⟩ : ∃ frames, vm.frames = frames := ⟨_, rfl⟩
  replace h : Rests base (r :: waiting) vm.frames := h
  rw [hframes] at h ⊢
  cases h
  rfl

/-- While a hook runs nothing happens to the run that waits for it; when it has come to a
verdict its turn ends. -/
theorem stage_of_runs {base : List Frame} {inner : List Run} {vm : Vm} {f : Frame} {hook : Hook}
    (hframes : vm.frames = f :: below)
    (hwaiting : s.waiting = inner ++ ⟨vm, pending, .atHook id hook rest⟩ :: waiting)
    (hover : s.StandsOver base) (hnext : Next .hooking s t) : Stage pending below waiting rest t := by
  have hruns (floor : Floor) : Stage pending below waiting rest ⟨floor, s.waiting⟩ := by
    rw [hwaiting]
    exact .runs hframes
  cases hnext with
  | touch => exact hruns _
  | take => exact hruns _
  | begin => exact hruns _
  | step => exact hruns _
  | done => exact hruns _
  | @ask r outer hasks =>
      replace hwaiting : outer = inner ++ ⟨vm, pending, .atHook id hook rest⟩ :: waiting := hwaiting
      subst hwaiting
      show Stage pending below waiting rest ⟨.host r.vm, (r :: inner) ++ _ :: waiting⟩
      exact .runs hframes
  | @hook vm' r outer id' hook' ids result hphase _ =>
      replace hwaiting :
          r :: outer = inner ++ ⟨vm, pending, .atHook id hook rest⟩ :: waiting := hwaiting
      cases inner with
      | nil =>
          -- it is the hook of this entry that has come to its verdict
          obtain ⟨rfl, rfl⟩ := List.cons.inj hwaiting
          exact stage_of_turnEnds (Run.turnEnds_hookEnded vm' pending id hook rest result)
            (hover.frames_eq.trans hframes)
      | cons r' inner =>
          obtain ⟨rfl, rfl⟩ := List.cons.inj hwaiting
          exact .runs hframes
  | @answer vm' r outer name args result hphase _ =>
      replace hwaiting :
          r :: outer = inner ++ ⟨vm, pending, .atHook id hook rest⟩ :: waiting := hwaiting
      cases inner with
      | nil =>
          -- the run of this entry waits for a hook
          obtain ⟨rfl, rfl⟩ := List.cons.inj hwaiting
          cases hphase
      | cons r' inner =>
          obtain ⟨rfl, rfl⟩ := List.cons.inj hwaiting
          exact .runs hframes

theorem turns_of_ne {depth : Nat} (h : s.waiting.length ≠ depth) (t : Session) :
    turns depth s t = [] := by
  unfold turns
  split
  · exact if_neg h
  · rfl

/-- **A step of an entry**: the next number has its turn, or nothing happens to the entry. -/
theorem Stage.next {base : List Frame} (h : Stage pending below waiting rest s)
    (htracks : s.arms.chain.Tracks) (hover : s.StandsOver base) (hseeing : s.Seeing waiting.length)
    (hnext : Next .hooking s t) :
    ∃ rest', (Session.turns waiting.length s t).map HookTurn.id ++ rest' = rest
      ∧ Stage pending below waiting rest' t := by
  cases h with
  | @turns vm f rest hframes =>
      obtain rfl := next_of_enter hnext
      refine ⟨rest.tail, ?_, stage_of_runHooks htracks hframes⟩
      cases rest with
      | nil => rfl
      | cons id rest =>
          unfold Session.turns
          dsimp only
          rw [if_pos rfl]
          rfl
  | asks hframes =>
      refine ⟨rest, rfl, ?_⟩
      cases hnext with
      | step hstep => cases hstep
      | ask =>
          show Stage pending below waiting rest ⟨_, [] ++ _ :: waiting⟩
          exact .runs hframes
      | done hdone => rcases hdone.2 with ⟨_, hphase⟩ | ⟨_, hphase⟩ <;> cases hphase
  | @runs floor inner vm f id hook rest hframes =>
      refine ⟨rest, ?_, stage_of_runs hframes rfl hover hnext⟩
      rw [turns_of_ne]
      · rfl
      · show (inner ++ _ :: waiting).length ≠ waiting.length
        rw [List.length_append, List.length_cons]
        omega
  | starts hframes =>
      -- the hooks have seen the frame
      rcases hseeing with hne | ⟨r, hfloor, hphase⟩
      · exact absurd rfl hne
      · cases hfloor
        rcases hphase with ⟨_, hphase⟩ | ⟨_, _, _, hphase⟩ <;> cases hphase
  | fails hframes =>
      rcases hseeing with hne | ⟨r, hfloor, hphase⟩
      · exact absurd rfl hne
      · cases hfloor
        rcases hphase with ⟨_, hphase⟩ | ⟨_, _, _, hphase⟩ <;> cases hphase

end Session

/-! ## §5. Frames that are entered. -/

namespace Run

variable {vm : Vm} {pending : List Pending} {frames : List Frame}

/-- A frame has just been entered, and the numbers of the chain are noted. -/
def Entered (below : List Frame) (r : Run) : Prop :=
  ∃ vm pending f, r = ⟨vm, pending, .enter vm.hooks.ids⟩ ∧ vm.frames = f :: below

theorem entered_enterFrame {f : Frame} (hsame : vm.frames = frames)
    (hmore : frames.length < (enterFrame vm pending f).vm.frames.length) :
    (enterFrame vm pending f).Entered frames := by
  subst hsame
  unfold enterFrame at hmore ⊢
  dsimp only at hmore ⊢
  split at hmore
  · exact absurd hmore (Nat.lt_irrefl _)
  · next hroom =>
      rw [if_neg hroom]
      exact ⟨_, _, f, rfl, rfl⟩

theorem entered_beginResume {k : Continuation}
    (hmore : vm.frames.length < (beginResume vm pending k).vm.frames.length) :
    (beginResume vm pending k).Entered vm.frames := by
  cases hout : k.outermost? with
  | none =>
      unfold beginResume at hmore
      rw [hout] at hmore
      exact absurd hmore (Nat.lt_irrefl _)
  | some outermost =>
      rw [beginResume_eq hout] at hmore ⊢
      exact entered_enterFrame (vm.frames_rebuilding _) hmore

end Run

namespace Session

variable {s t : Session} {start : Vm} {base below : List Frame} {pending : List Pending}
  {waiting : List Run} {turned : List HookTurn}

/-- A step that leaves more frames than there were has entered one. -/
theorem entered_of_next (hnext : Next .hooking s t)
    (hmore : s.vm.frames.length < t.vm.frames.length) :
    ∃ r, t.floor = .run r ∧ r.Entered s.vm.frames := by
  cases hnext with
  | @touch vm vm' waiting htouches =>
      replace hmore : vm.frames.length < vm'.frames.length := hmore
      rw [htouches.1] at hmore
      exact absurd hmore (Nat.lt_irrefl _)
  | @take vm waiting =>
      replace hmore : vm.frames.length < (stateAfter capture vm).frames.length := hmore
      rw [stateAfter_capture, vm.frames_dropArmed] at hmore
      exact absurd hmore (Nat.lt_irrefl _)
  | @begin vm r waiting hbegins =>
      refine ⟨r, rfl, ?_⟩
      replace hmore : vm.frames.length < r.vm.frames.length := hmore
      cases hbegins with
      | call callee args => exact absurd hmore (Nat.lt_irrefl _)
      | global name args =>
          unfold Run.ofGlobal at hmore
          split at hmore
          · exact absurd hmore (Nat.lt_irrefl _)
          · exact absurd hmore (Nat.lt_irrefl _)
      | code c => exact Run.entered_enterFrame rfl hmore
      | frame f => exact Run.entered_enterFrame rfl hmore
      | continuation k => exact Run.entered_beginResume hmore
  | @step r r' waiting hstep =>
      refine ⟨r', rfl, ?_⟩
      replace hmore : r.vm.depth < r'.vm.depth := hmore
      -- only a call makes a run deeper
      rcases Run.depth_of_step hstep with ⟨hle, -⟩ | ⟨-, -, heq, -⟩ | ⟨-, ⟨f, rfl⟩ | ⟨k, rfl⟩⟩
      · exact absurd hmore (Nat.not_lt.mpr hle)
      · exact absurd heq (Nat.ne_of_gt hmore)
      · exact Run.entered_enterFrame rfl hmore
      · exact Run.entered_beginResume hmore
  | ask hasks => exact absurd hmore (Nat.lt_irrefl _)
  | @hook vm r waiting id hook ids result hphase _ =>
      replace hmore : vm.frames.length < (r.answerHook vm result).vm.frames.length := hmore
      have hless := Run.depth_hookEnded vm r.pending id hook ids result
      rw [Run.answerHook_eq hphase] at hmore
      exact absurd hmore (Nat.not_lt.mpr hless)
  | @answer vm r waiting name args result hphase _ =>
      replace hmore : vm.frames.length < (r.answerHost vm result).vm.frames.length := hmore
      rw [Run.answerHost_eq hphase] at hmore
      exact absurd hmore (Nat.lt_irrefl _)
  | done hover => exact absurd hmore (Nat.lt_irrefl _)

/-! ## §6. Whole sessions. -/

theorem tracks_of_reaches (h : s.arms.chain.Tracks) (hreach : Reaches .hooking s t) :
    t.arms.chain.Tracks := by
  induction hreach with
  | refl => exact h
  | tail _ hnext ih => exact ih.moves (moves_of_next hnext)

theorem standsOver_of_reaches (h : s.StandsOver base) (hreach : Reaches .hooking s t) :
    t.StandsOver base := by
  induction hreach with
  | refl => exact h
  | tail _ hnext ih => exact ih.next hnext.calling

/-- The chain changes by moves only. -/
theorem evolves_of_reaches (hreach : Reaches .hooking s t) : s.vm.hooks.Evolves t.vm.hooks := by
  induction hreach with
  | refl => exact .refl _
  | tail _ hnext ih => exact ih.trans (moves_of_next hnext).evolves

theorem Sees.reaches (h : Sees s turned t) : Reaches .hooking s t := by
  induction h with
  | enter => exact .refl
  | next _ _ hnext ih => exact ih.tail hnext

/-- **The course of an entry**, whatever its hooks do. -/
theorem Sees.stage {vm : Vm} {ids : List HookNumber} {f : Frame}
    (h : Sees ⟨.run ⟨vm, pending, .enter ids⟩, waiting⟩ turned t)
    (htracks : (arms ⟨.run ⟨vm, pending, .enter ids⟩, waiting⟩).chain.Tracks)
    (hover : StandsOver base ⟨.run ⟨vm, pending, .enter ids⟩, waiting⟩)
    (hframes : vm.frames = f :: below) :
    (∃ rest, turned.map HookTurn.id ++ rest = ids ∧ Stage pending below waiting rest t)
      ∧ ∀ turn ∈ turned, turn.Fair := by
  -- along the course: the turns so far and those to come are the numbers noted at entry
  induction h with
  | enter =>
      refine ⟨⟨ids, rfl, .turns hframes⟩, fun turn hturn => ?_⟩
      cases hturn
  | @next turned t u hsees hseeing hnext ih =>
      obtain ⟨⟨rest, hids, hstage⟩, hfair⟩ := ih
      have htracks' := tracks_of_reaches htracks hsees.reaches
      obtain ⟨rest', hrest, hstage'⟩ :=
        hstage.next htracks' (standsOver_of_reaches hover hsees.reaches) hseeing hnext
      refine ⟨⟨rest', ?_, hstage'⟩, ?_⟩
      · rw [List.map_append, List.append_assoc]
        exact (congrArg (turned.map HookTurn.id ++ ·) hrest).trans hids
      · intro turn hturn
        rcases List.mem_append.mp hturn with hold | hnew
        · exact hfair turn hold
        · exact fair_of_next htracks' hnext _ turn hnew

/-- The discipline of hooks in a state `s`. -/
structure HooksKept (s : Session) : Prop where
  /-- Numbers are given out once … -/
  ids_nodup : s.vm.hooks.ids.Nodup
  ids_lt : ∀ id ∈ s.vm.hooks.ids, id < s.vm.hooks.nextId
  /-- … so what is gone stays away, and what is left keeps its place, whatever happens. -/
  later : ∀ t, Reaches .hooking s t → s.vm.hooks.Evolves t.vm.hooks
  /-- No hook runs twice at a time. -/
  running_nodup : s.running.Nodup
  /-- An entry is empty just while its hook runs … -/
  empty_iff : ∀ e ∈ s.vm.hooks.entries, e.hook = none ↔ e.id ∈ s.running
  /-- … so all hold their hooks when none runs. -/
  idle : s.running = [] → ∀ e ∈ s.vm.hooks.entries, e.hook ≠ none
  /-- A frame is entered with the chain as it is then. -/
  enters : ∀ t, Next .hooking s t → s.vm.frames.length < t.vm.frames.length →
    ∃ r, t.floor = .run r ∧ r.Entered s.vm.frames
  /-- The hooks that have had their turns, and those that have not, are the chain at entry;
  each has run just if it could, and the frame has started or failed, or will. -/
  entry : ∀ (vm : Vm) (pending : List Pending) (f : Frame) (below : List Frame),
    s.floor = .run ⟨vm, pending, .enter vm.hooks.ids⟩ → vm.frames = f :: below →
    ∀ turned t, Sees s turned t →
      (∃ rest, turned.map HookTurn.id ++ rest = vm.hooks.ids ∧ Stage pending below s.waiting rest t)
        ∧ (turned.map HookTurn.id).Nodup ∧ ∀ turn ∈ turned, turn.Fair
  /-- What a hook's verdict makes of the chain and of the run that has waited for it. -/
  verdict : ∀ (vm : Vm) (r : Run) (waiting : List Run) (id : HookNumber) (hook : Hook)
    (ids : List HookNumber) (result : Except Fault HookVerdict),
    s = ⟨.host vm, r :: waiting⟩ → r.phase = .atHook id hook ids →
    Run.TurnEnds vm r.pending id hook ids result (r.answerHook vm result)

end Session

/-! ## §7. A hook that changes the chain. -/

namespace Run

/-- A body without instructions. -/
def blankBody : Code where
  name := "f"
  qualname := "f"
  filename := ""
  firstLine := 1
  bytes := #[]
  constants := #[]
  names := #[]
  varnames := #[]
  argCount := 0
  lines := []

/-- A call of it, seen by two hooks. -/
def hookedRun : Run :=
  ofCall
    { store := { serial := 1 }, hooks := ⟨[⟨0, some (.host "a" 0)⟩, ⟨1, some (.host "b" 1)⟩], 2⟩ }
    (.function ⟨0, blankBody⟩) {}

/-- The machine after the first hook has removed the second one and installed another. -/
def rehookedVm : Vm :=
  let vm := (steps 2 hookedRun).vm
  { vm with hooks := ((vm.hooks.remove 1).install .first (.host "c" 2)).2 }

end Run

namespace Session

end Session

end Resumable
