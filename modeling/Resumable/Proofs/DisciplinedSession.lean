/-
  Resumable.Proofs.DisciplinedSession
  ───────────────────────────────────
  **EVERY STATE OF A SESSION OBEYS.**

  The host and its runs work on the same frames.  While the host has the machine
  all frames wait, those of the latest run first:

      frames    f₀  f₁  f₂ │ f₃  f₄ │ f₅ …
      awaited   site  …    │ hooks … │ site …
                run        │ run     │ run

  So a run that begins finds frames that wait, and one that goes on finds its own
  again.  What the host brings in has to obey as well (`Discipline.Admits`).

  Main result:
    • `Discipline.obeys_of_reaches`.
-/
import Resumable.Proofs.DisciplinedRun

namespace Resumable

open VmAction

/-! ## §1. Hosts. -/

/-- The runs a host may begin: what they call and resume obeys. -/
inductive Discipline.Begins (D : Discipline) (vm : Vm) : Run → Prop
  | call {callee : Value} {args : Arguments} :
      Within D.bodies callee → Within D.bodies args → Begins D vm (.ofCall vm callee args)
  | global {args : Arguments} (name : String) :
      Within D.bodies args → Begins D vm (.ofGlobal vm name args)
  | code {c : Code} : D.bodies.holds c → Begins D vm (.ofCode vm c)
  | continuation {k : Continuation} :
      (∀ record ∈ k.records, D.Keeps record) → Begins D vm (.ofContinuation vm k)

/-- A host that leaves frames alone and brings in nothing that does not obey. -/
structure Discipline.Admits (D : Discipline) (host : Host) : Prop where
  touches : ∀ {vm vm'}, host.touches vm vm' → D.Holds vm → vm'.frames = vm.frames ∧ D.Holds vm'
  begins : ∀ {vm r}, host.begins vm r → D.Begins vm r
  judges : ∀ {e}, host.judges (.error e) → Within D.bodies e
  answers : ∀ {result}, host.answers result → Within D.bodies result

/-- The host that does all this, and leaves hooks and the armed resume alone as well. -/
def Host.obeying (D : Discipline) : Host where
  touches vm vm' := vm'.frames = vm.frames ∧ vm'.hooks = vm.hooks ∧ vm'.armed = vm.armed ∧ D.Holds vm'
  begins := D.Begins
  judges result := result ≠ .ok .remove ∧ ∀ e, result = .error e → Within D.bodies e
  answers := Within D.bodies

theorem Discipline.admits_obeying (D : Discipline) : D.Admits (.obeying D) where
  touches := fun ⟨hframes, _, _, hholds⟩ _ => ⟨hframes, hholds⟩
  begins h := h
  judges h := h.2 _ rfl
  answers h := h

theorem Discipline.Begins.begunOn {D : Discipline} {vm : Vm} {r : Run} (h : D.Begins vm r) :
    r.BegunOn vm := by
  cases h with
  | call => exact .call ..
  | global => exact .global ..
  | code => exact .code ..
  | continuation => exact .continuation ..

/-- It does nothing that the free host would not do. -/
theorem Session.Next.free {D : Discipline} {s t : Session} (h : s.Next (.obeying D) t) :
    s.Next .free t := by
  cases h with
  | touch htouches => exact .touch ⟨htouches.2.1, htouches.2.2.1⟩
  | take => exact .take
  | begin hbegins => exact .begin hbegins.begunOn
  | step hstep => exact .step hstep
  | ask hasks => exact .ask hasks
  | hook hphase hjudges => exact .hook hphase hjudges.1
  | answer hphase hanswers => exact .answer hphase trivial
  | done hover => exact .done hover

/-- Who has the machine obeys a discipline, over frames that wait for `outer`. -/
def Floor.Obeys (D : Discipline) (outer : List (Option Pending)) : Floor → Prop
  | .host vm => List.Forall₂ D.Waits vm.frames outer ∧ Frame.Stacked vm.frames ∧ D.Holds vm
  | .run r => r.Obeys D outer

/-- A session obeys a discipline. -/
structure Session.Obeys (D : Discipline) (s : Session) : Prop where
  floor : s.floor.Obeys D (s.waiting.flatMap Run.awaited)
  hooks : ∀ r ∈ s.waiting, ∀ id hook ids, r.phase = .atHook id hook ids →
    ∀ record ∈ hook.records, D.Keeps record
  asked : ∀ r ∈ s.waiting, r.WaitsForHost

/-- The records that the run at hand puts into frames are those `exchanges` allows. -/
def Session.Puts (exchanges : Code → Code → Prop) (s : Session) : Prop :=
  ∀ r, s.floor = .run r → r.Puts exchanges

/-- The innermost frame is at an instruction, about to execute it or broken off in it. -/
def Phase.isAtInstruction : Phase → Bool
  | .loop | .brokenOff => true
  | _ => false

/-! ## §2. Sessions. -/

variable {D : Discipline} {vm : Vm} {outer : List (Option Pending)} {host : Host}

namespace Run

/-- A run begins over frames that wait. -/
theorem obeys_of_begins {r : Run} (hcallers : List.Forall₂ D.Waits vm.frames outer)
    (hstacked : Frame.Stacked vm.frames) (hholds : D.Holds vm) (h : D.Begins vm r) :
    r.Obeys D outer := by
  cases h with
  | call hcallee hargs =>
      refine ⟨hcallers, hstacked, hholds, within_call.mpr ⟨hcallee, hargs⟩, ?_⟩
      intro id hook ids hat
      cases hat
  | @global args name hargs =>
      have hfound := within_find? hholds.bodies.globals name
      unfold ofGlobal
      cases hglobal : vm.globals.find? name with
      | some callee =>
          rw [hglobal] at hfound
          refine ⟨hcallers, hstacked, hholds, within_call.mpr ⟨within_some.mp hfound, hargs⟩, ?_⟩
          intro id hook ids hat
          cases hat
      | none =>
          have hafter : D.Holds (stateAfter (raise (.undefinedName name) : VmAction Value) vm) :=
            hholds.of_work (hholds.bodies.withStore (hholds.bodies.store.withSerial _) rfl) rfl
          have hexc : Within D.bodies (vm.store.makeException (Cause.undefinedName name).typeName
              (Cause.undefinedName name).message).1 := within_of_isInert rfl
          exact obeys_withResult hafter hstacked hcallers hexc
  | @code c hc =>
      have hafter : D.Holds { vm with store := (vm.store.makeFunction c).2 } :=
        hholds.of_work (hholds.bodies.withStore (hholds.bodies.store.withSerial _) rfl) rfl
      refine obeys_enterFrame hafter hstacked hcallers rfl ?_ (Discipline.waits_blank _ _)
      exact within_blank (within_function.mpr hc) _
  | continuation hk => exact obeys_beginResume hholds hstacked hcallers hk

/-- The frames of a run that is not at an instruction all wait. -/
theorem Obeys.awaited {r : Run} (h : r.Obeys D outer) (hbetween : r.phase.isAtInstruction = false) :
    List.Forall₂ D.Waits r.vm.frames (r.awaited ++ outer) := by
  have hplaces := h.places
  unfold Run.awaited
  cases hphase : r.phase with
  | loop =>
      rw [hphase] at hbetween
      exact nomatch hbetween
  | brokenOff =>
      rw [hphase] at hbetween
      exact nomatch hbetween
  | _ =>
      rw [hphase] at hplaces
      exact hplaces

end Run

/-- **Every step of a session obeys.** -/
theorem Session.Obeys.next {s t : Session} (h : s.Obeys D) (hadmits : D.Admits host)
    (hputs : s.Puts D.exchanges) (hnext : s.Next host t) : t.Obeys D := by
  cases hnext with
  | touch htouches =>
      obtain ⟨hcallers, hstacked, hholds⟩ := h.floor
      obtain ⟨hframes, hholds⟩ := hadmits.touches htouches hholds
      refine ⟨⟨?_, ?_, hholds⟩, h.hooks, h.asked⟩
      · rw [hframes]
        exact hcallers
      · rw [hframes]
        exact hstacked
  | take =>
      obtain ⟨hcallers, hstacked, hholds⟩ := h.floor
      rw [stateAfter_capture]
      refine ⟨⟨?_, ?_, hholds.dropArmed⟩, h.hooks, h.asked⟩
      · rw [Vm.frames_dropArmed]
        exact hcallers
      · rw [Vm.frames_dropArmed]
        exact hstacked
  | begin hbegins =>
      obtain ⟨hcallers, hstacked, hholds⟩ := h.floor
      exact ⟨Run.obeys_of_begins hcallers hstacked hholds (hadmits.begins hbegins), h.hooks, h.asked⟩
  | step hstep => exact ⟨Run.Obeys.step h.floor (hputs _ rfl) hstep, h.hooks, h.asked⟩
  | @ask r waiting hasks =>
      have hrun : r.Obeys D (waiting.flatMap Run.awaited) := h.floor
      -- a run that asks stands between instructions, so its frames wait
      have hbetween : r.phase.isAtInstruction = false := by
        rcases hasks with ⟨_, _, _, h⟩ | ⟨_, _, h⟩ <;> rw [h] <;> rfl
      exact ⟨⟨hrun.awaited hbetween, hrun.stacked, hrun.holds⟩,
        List.forall_mem_cons.mpr ⟨hrun.hook, h.hooks⟩, List.forall_mem_cons.mpr ⟨hasks, h.asked⟩⟩
  | @hook vm r waiting id hook ids result hphase hjudges =>
      obtain ⟨hcallers, hstacked, hholds⟩ := h.floor
      obtain ⟨hhook, hhooks⟩ := List.forall_mem_cons.mp h.hooks
      rw [List.flatMap_cons, Run.awaited, hphase] at hcallers
      refine ⟨?_, hhooks, (List.forall_mem_cons.mp h.asked).2⟩
      show (r.answerHook vm result).Obeys D _
      rw [Run.answerHook_eq hphase]
      refine Run.obeys_hookEnded hholds hstacked hcallers (hhook id hook ids hphase) ?_
      rintro e rfl
      exact hadmits.judges hjudges
  | @answer vm r waiting name args result hphase hanswers =>
      obtain ⟨hcallers, hstacked, hholds⟩ := h.floor
      rw [List.flatMap_cons, Run.awaited, hphase] at hcallers
      refine ⟨?_, (List.forall_mem_cons.mp h.hooks).2, (List.forall_mem_cons.mp h.asked).2⟩
      show (r.answerHost vm result).Obeys D _
      rw [Run.answerHost_eq hphase]
      exact Run.obeys_withResult hholds hstacked hcallers (hadmits.answers hanswers)
  | @done r waiting hover =>
      obtain ⟨hpending, hphase⟩ := hover
      have hrun : r.Obeys D (waiting.flatMap Run.awaited) := h.floor
      -- a run that is over awaits nothing, and its frames are those of the runs under it
      have hawaited : r.awaited = [] := by
        unfold Run.awaited
        rcases hphase with ⟨_, hphase⟩ | ⟨_, hphase⟩
        · rw [hphase, hpending]
          rfl
        · rw [hphase, hpending]
          rfl
      have hbetween : r.phase.isAtInstruction = false := by
        rcases hphase with ⟨_, h⟩ | ⟨_, h⟩ <;> rw [h] <;> rfl
      have hcallers := hrun.awaited hbetween
      rw [hawaited] at hcallers
      exact ⟨⟨hcallers, hrun.stacked, hrun.holds⟩, h.hooks, h.asked⟩

/-- **Every state of a session obeys**, if it starts without frames. -/
theorem Discipline.obeys_of_reaches (hadmits : D.Admits host) {start : Vm} {s : Session}
    (hframes : start.frames = []) (hholds : D.Holds start)
    (h : Relation.ReflTransGen (fun s t => Session.Next host s t ∧ s.Puts D.exchanges)
      ⟨.host start, []⟩ s) : s.Obeys D := by
  induction h with
  | refl =>
      refine ⟨⟨?_, ?_, hholds⟩, ?_, ?_⟩
      · rw [hframes]
        exact .nil
      · rw [hframes]
        exact trivial
      · intro r hr
        cases hr
      · intro r hr
        cases hr
  | tail _ hnext ih => exact ih.next hadmits hnext.2 hnext.1

end Resumable
