/-
  Resumable.Proofs.ArmState
  ─────────────────────────
  **THE CHAIN OF HOOKS AND THE ARMED RESUME.**

  Of a machine in use only three things matter for resumes: the chain of hooks,
  the armed resume, and what is open, the innermost first: the resumes that have
  not returned and the host hooks that are running.

      meet      a capture meets the armed resume: disarmed, its hook removed
      begin     a resume gives way to another one, whose hook comes first
      finish    a resume returns: disarmed, its hook removed
      turn      the hook of a resume has put a record into a frame
      ask       a host hook is taken out of its entry to run
      reply     a host hook has run and is put back

  In every state these lead to, the chain is that of the host, each entry of a
  running hook empty, with at most one hook before it, the armed one (`Orderly`);
  and what was open when a resume began is what is open when it returns
  (`Under`).

  Main results:
    • `Orderly.move`     — every move keeps the chain in order,
    • `Under.move`       — a resume that is open stays open over the same rest,
    • `Orderly.finished_eq` — a resume returns with no resume armed.
-/
import Mathlib
import Resumable.EntryHooks

namespace Resumable

/-! ## §1. What is open. -/

/-- A resume that has not returned, or a host hook that is running. -/
inductive Opened where
  | resume (id : HookNumber)
  | hook (id : HookNumber) (hook : Hook)

namespace Opened

/-- The number of an open resume. -/
def resume? : Opened → Option HookNumber
  | resume id => some id
  | hook _ _ => none

/-- The number of a running hook. -/
def hook? : Opened → Option HookNumber
  | resume _ => none
  | hook id _ => some id

end Opened

/-- The part of a machine in use that resumes work on. -/
structure ArmState where
  /-- The chain of hooks. -/
  hooks : EntryHooks
  /-- The hook of a resume that no capture has met yet. -/
  armed : Option HookNumber
  /-- The resumes and host hooks that are open, the innermost first. -/
  opened : List Opened

namespace ArmState

/-- The open resumes, the innermost first. -/
def resumes (a : ArmState) : List HookNumber :=
  a.opened.filterMap Opened.resume?

/-- The host hooks that are running. -/
def running (a : ArmState) : List HookNumber :=
  a.opened.filterMap Opened.hook?

/-- Without the armed resume and its hook. -/
def disarmed (a : ArmState) : ArmState :=
  match a.armed with
  | some id => { a with hooks := a.hooks.remove id, armed := none }
  | none => a

/-- With a resume begun, which is armed and has its hook before all others. -/
def begun (a : ArmState) (records : List Record) : ArmState where
  hooks := (a.disarmed.hooks.install .first (.rebuild records)).2
  armed := some a.disarmed.hooks.nextId
  opened := .resume a.disarmed.hooks.nextId :: a.opened

/-- With a resume returned, over what else is open. -/
def finished (a : ArmState) (id : HookNumber) (rest : List Opened) : ArmState where
  hooks := a.hooks.remove id
  armed := if a.armed = some id then none else a.armed
  opened := rest

/-- What can happen to the chain, the armed resume and what is open. -/
inductive Move : ArmState → ArmState → Prop
  | stay (a : ArmState) : Move a a
  | meet (a : ArmState) : Move a a.disarmed
  | begin (a : ArmState) (records : List Record) : Move a (a.begun records)
  | finish {a : ArmState} {id : HookNumber} {rest : List Opened} :
      a.opened = .resume id :: rest → Move a (a.finished id rest)
  | turn {a : ArmState} {id : HookNumber} {records : List Record} {hooks : EntryHooks}
      (left : List Record) :
      a.hooks.start? id = some (.rebuild records, hooks) →
      Move a { a with hooks := hooks.finish id (.rebuild left) }
  | lastTurn {a : ArmState} {id : HookNumber} {records : List Record} {hooks : EntryHooks} :
      a.hooks.start? id = some (.rebuild records, hooks) →
      Move a { a with hooks := hooks.remove id }
  | ask {a : ArmState} {id : HookNumber} {name : String} {key : Nat} {hooks : EntryHooks} :
      a.hooks.start? id = some (.host name key, hooks) →
      Move a ⟨hooks, a.armed, .hook id (.host name key) :: a.opened⟩
  | reply {a : ArmState} {id : HookNumber} {hook : Hook} {rest : List Opened} :
      a.opened = .hook id hook :: rest → Move a ⟨a.hooks.finish id hook, a.armed, rest⟩

end ArmState

/-! ## §2. The chain of the host. -/

namespace EntryHooks

/-- A chain of host hooks, none of them running. -/
structure OnlyHost (c : EntryHooks) : Prop where
  nodup : c.ids.Nodup
  fresh : ∀ id ∈ c.ids, id < c.nextId
  host : ∀ e ∈ c.entries, ∃ name key, e.hook = some (.host name key)

/-- An entry with its hook taken out if it is running. -/
def taken (running : List HookNumber) (e : HookEntry) : HookEntry :=
  if e.id ∈ running then { e with hook := none } else e

@[simp] theorem id_taken (running : List HookNumber) (e : HookEntry) :
    (taken running e).id = e.id := by
  unfold taken
  split <;> rfl

/-- The entries of a chain with those of the running hooks empty. -/
def entriesDuring (c : EntryHooks) (running : List HookNumber) : List HookEntry :=
  c.entries.map (taken running)

@[simp] theorem map_id_entriesDuring (c : EntryHooks) (running : List HookNumber) :
    (c.entriesDuring running).map HookEntry.id = c.ids := by
  simp [entriesDuring, ids, Function.comp_def]

variable {c : EntryHooks} {id : HookNumber} {running : List HookNumber}

theorem ne_of_mem_entriesDuring (h : id ∉ c.ids) {e : HookEntry}
    (he : e ∈ c.entriesDuring running) : e.id ≠ id := by
  intro heq
  apply h
  rw [← map_id_entriesDuring c running, ← heq]
  exact List.mem_map_of_mem he

/-- A hook that is not in the chain is not removed from it. -/
theorem filter_entriesDuring (h : id ∉ c.ids) :
    (c.entriesDuring running).filter (fun e => e.id != id) = c.entriesDuring running := by
  apply List.filter_eq_self.mpr
  intro e he
  simpa using ne_of_mem_entriesDuring h he

/-- Nor does it change an entry. -/
theorem map_entriesDuring (h : id ∉ c.ids) (hook : Option Hook) :
    (c.entriesDuring running).map (fun e => if e.id = id then { e with hook } else e)
      = c.entriesDuring running := by
  have hsame : ∀ e ∈ c.entriesDuring running,
      (if e.id = id then { e with hook } else e) = e :=
    fun e he => if_neg (ne_of_mem_entriesDuring h he)
  rw [List.map_congr_left hsame, List.map_id']

/-- Taking a hook out of its entry. -/
theorem map_entriesDuring_none (id : HookNumber) :
    (c.entriesDuring running).map (fun e => if e.id = id then { e with hook := none } else e)
      = c.entriesDuring (id :: running) := by
  unfold entriesDuring
  rw [List.map_map]
  apply List.map_congr_left
  intro e _
  simp only [Function.comp_apply, id_taken]
  by_cases hid : e.id = id
  · rw [if_pos hid]
    simp [taken, hid]
  · rw [if_neg hid]
    simp [taken, hid]

/-- Putting it back. -/
theorem map_entriesDuring_some (hchain : c.OnlyHost) {hook : Hook}
    (hmem : ⟨id, some hook⟩ ∈ c.entries) (hid : id ∉ running) :
    (c.entriesDuring (id :: running)).map
        (fun e => if e.id = id then { e with hook := some hook } else e)
      = c.entriesDuring running := by
  unfold entriesDuring
  rw [List.map_map]
  apply List.map_congr_left
  intro e he
  simp only [Function.comp_apply, id_taken]
  by_cases heq : e.id = id
  · -- numbers are not given out twice, so this is the entry of the hook
    obtain rfl : e = ⟨id, some hook⟩ := List.inj_on_of_nodup_map hchain.nodup he hmem heq
    rw [if_pos rfl]
    simp [taken, hid]
  · rw [if_neg heq]
    simp [taken, heq]

/-- A hook that starts has its entry. -/
theorem mem_of_start? {hook : Hook} {rest : EntryHooks} (h : c.start? id = some (hook, rest)) :
    ⟨id, some hook⟩ ∈ c.entries ∧ rest = c.withHook id none := by
  unfold start? at h
  split at h
  · next found hfind =>
      obtain ⟨rfl, rfl⟩ := Prod.mk.inj (Option.some.inj h)
      have hid := List.find?_some hfind
      simp only [beq_iff_eq] at hid
      subst hid
      exact ⟨List.mem_of_find?_eq_some hfind, rfl⟩
  · cases h

/-- What an entry held before does not matter when a hook is put into it. -/
theorem finish_withHook (c : EntryHooks) (id : HookNumber) (hook : Hook) (held : Option Hook) :
    (c.withHook id held).finish id hook = c.finish id hook := by
  unfold finish withHook
  simp only [List.map_map, EntryHooks.mk.injEq, and_true]
  apply List.map_congr_left
  intro e _
  simp only [Function.comp_apply]
  by_cases hid : e.id = id
  · simp [hid]
  · simp [hid]

/-- Nor when the hook is removed. -/
theorem remove_withHook (c : EntryHooks) (id : HookNumber) (held : Option Hook) :
    (c.withHook id held).remove id = c.remove id := by
  unfold remove withHook
  simp only [EntryHooks.mk.injEq, and_true]
  induction c.entries with
  | nil => rfl
  | cons e rest ih =>
      by_cases hid : e.id = id
      · simp [hid, ih]
      · simp [hid, ih]

end EntryHooks

/-! ## §3. Moves keep the chain in order. -/

namespace ArmState

variable {chain : EntryHooks} {a b : ArmState} {id : HookNumber} {rest : List Opened}

/-- The hook of a resume stands before those of the host if it is there at all,
and then it is the armed one. -/
def Leads (armed : Option HookNumber) (front : List HookEntry) : Prop :=
  front = [] ∨ ∃ id records, armed = some id ∧ front = [⟨id, some (.rebuild records)⟩]

/-- The chain is the one of the host, with at most the hook of the armed resume
before it, and the armed resume is the innermost one that is open. -/
structure Orderly (chain : EntryHooks) (a : ArmState) : Prop where
  entries_eq : ∃ front, Leads a.armed front
    ∧ a.hooks.entries = front ++ chain.entriesDuring a.running
  armed_open : ∀ id, a.armed = some id → a.resumes.head? = some id
  resumes_nodup : a.resumes.Nodup
  resumes_fresh : ∀ id ∈ a.resumes, chain.nextId ≤ id ∧ id < a.hooks.nextId
  running_nodup : a.running.Nodup
  running_mem : ∀ id hook, Opened.hook id hook ∈ a.opened → ⟨id, some hook⟩ ∈ chain.entries
  nextId_le : chain.nextId ≤ a.hooks.nextId

/-- Nothing is open, and no resume is armed. -/
theorem orderly_start (chain : EntryHooks) : Orderly chain ⟨chain, none, []⟩ where
  entries_eq := by
    have hsame : ∀ e ∈ chain.entries, EntryHooks.taken [] e = e := by
      intro e _
      simp [EntryHooks.taken]
    refine ⟨[], .inl rfl, ?_⟩
    show chain.entries = [] ++ chain.entries.map (EntryHooks.taken [])
    rw [List.nil_append, List.map_congr_left hsame, List.map_id']
  armed_open := by
    intro id h
    cases h
  resumes_nodup := List.nodup_nil
  resumes_fresh := by
    intro id h
    cases h
  running_nodup := List.nodup_nil
  running_mem := by
    intro id hook h
    cases h
  nextId_le := Nat.le_refl _

namespace Orderly

/-- The hook of an open resume is none of the host's. -/
theorem not_mem_ids (h : Orderly chain a) (hchain : chain.OnlyHost) (hid : id ∈ a.resumes) :
    id ∉ chain.ids := by
  intro hmem
  exact absurd (hchain.fresh id hmem) (Nat.not_lt.mpr (h.resumes_fresh id hid).1)

theorem armed_mem (h : Orderly chain a) (harmed : a.armed = some id) : id ∈ a.resumes :=
  List.mem_of_mem_head? (h.armed_open id harmed)

/-- Without the hook of the armed resume the chain is the one of the host. -/
theorem remove_entries (h : Orderly chain a) (hchain : chain.OnlyHost) (hid : id ∈ a.resumes)
    (harmed : ∀ other, a.armed = some other → other = id) :
    (a.hooks.remove id).entries = chain.entriesDuring a.running := by
  obtain ⟨front, hfront, hentries⟩ := h.entries_eq
  show a.hooks.entries.filter (fun e => e.id != id) = _
  rw [hentries, List.filter_append,
    EntryHooks.filter_entriesDuring (h.not_mem_ids hchain hid)]
  rcases hfront with rfl | ⟨other, records, hother, rfl⟩
  · rfl
  · obtain rfl := harmed other hother
    simp

/-- A resume gives way, to a capture or to another resume. -/
theorem disarmed (h : Orderly chain a) (hchain : chain.OnlyHost) : Orderly chain a.disarmed := by
  unfold ArmState.disarmed
  cases harmed : a.armed with
  | none => exact h
  | some id =>
      have hid := h.armed_mem harmed
      have hentries := h.remove_entries hchain hid fun other hother =>
        (Option.some.inj (harmed.symm.trans hother)).symm
      refine ⟨⟨[], .inl rfl, hentries⟩, ?_, h.resumes_nodup, h.resumes_fresh, h.running_nodup,
        h.running_mem, h.nextId_le⟩
      intro other hnone
      cases hnone

/-- A resume that has begun stands first, in the chain and in what is open. -/
theorem begun (h : Orderly chain a) (hchain : chain.OnlyHost) (records : List Record) :
    Orderly chain (a.begun records) := by
  have hdisarmed := h.disarmed hchain
  have hopened : a.disarmed.opened = a.opened := by
    unfold ArmState.disarmed
    split <;> rfl
  have hresumes : (a.begun records).resumes = a.disarmed.hooks.nextId :: a.resumes := rfl
  have hrunning : (a.begun records).running = a.disarmed.running := by
    show a.running = a.disarmed.running
    rw [running, running, hopened]
  have hfresh : ∀ id ∈ a.resumes, chain.nextId ≤ id ∧ id < a.disarmed.hooks.nextId := by
    intro id hid
    exact hdisarmed.resumes_fresh id (by rw [resumes, hopened]; exact hid)
  obtain ⟨front, hfront, hentries⟩ := hdisarmed.entries_eq
  have hnone : a.disarmed.armed = none := by
    unfold ArmState.disarmed
    split
    · rfl
    · assumption
  -- with no resume armed there is nothing before the hooks of the host
  obtain rfl : front = [] := by
    rcases hfront with rfl | ⟨id, _, harmed, -⟩
    · rfl
    · rw [hnone] at harmed
      cases harmed
  refine ⟨⟨[⟨a.disarmed.hooks.nextId, some (.rebuild records)⟩], .inr ⟨_, records, rfl, rfl⟩, ?_⟩,
    ?_, ?_, ?_, ?_, ?_, ?_⟩
  · rw [hrunning]
    show _ :: a.disarmed.hooks.entries = _
    rw [hentries]
    rfl
  · intro id harmed
    rw [hresumes, List.head?_cons]
    exact harmed
  · rw [hresumes, List.nodup_cons]
    refine ⟨fun hmem => ?_, h.resumes_nodup⟩
    exact Nat.lt_irrefl _ (hfresh _ hmem).2
  · intro id hid
    show chain.nextId ≤ id ∧ id < a.disarmed.hooks.nextId + 1
    rw [hresumes, List.mem_cons] at hid
    rcases hid with rfl | hid
    · exact ⟨hdisarmed.nextId_le, Nat.lt_succ_self _⟩
    · obtain ⟨hle, hlt⟩ := hfresh id hid
      exact ⟨hle, Nat.lt_succ_of_lt hlt⟩
  · rw [hrunning]
    exact hdisarmed.running_nodup
  · intro id hook hmem
    rcases List.mem_cons.mp hmem with heq | hmem
    · cases heq
    · exact h.running_mem id hook hmem
  · exact Nat.le_succ_of_le hdisarmed.nextId_le

/-- **A resume returns with no resume armed**, and with the chain of the host. -/
theorem finished_eq (h : Orderly chain a) (hchain : chain.OnlyHost)
    (ho : a.opened = .resume id :: rest) :
    (a.finished id rest).armed = none
      ∧ (a.finished id rest).hooks.entries = chain.entriesDuring (rest.filterMap Opened.hook?) := by
  have hresumes : a.resumes = id :: rest.filterMap Opened.resume? := by
    rw [resumes, ho]
    rfl
  have hrunning : a.running = rest.filterMap Opened.hook? := by
    rw [running, ho]
    rfl
  -- the innermost resume is the one that returns, so no other one can be armed
  have harmed : ∀ other, a.armed = some other → other = id := by
    intro other hother
    have hhead := h.armed_open other hother
    rw [hresumes, List.head?_cons] at hhead
    exact (Option.some.inj hhead).symm
  refine ⟨?_, ?_⟩
  · show (if a.armed = some id then none else a.armed) = none
    cases hother : a.armed with
    | none => simp
    | some other => simp [harmed other hother]
  · rw [← hrunning]
    exact h.remove_entries hchain (by rw [hresumes]; exact List.mem_cons_self ..) harmed

theorem finished (h : Orderly chain a) (hchain : chain.OnlyHost)
    (ho : a.opened = .resume id :: rest) : Orderly chain (a.finished id rest) := by
  obtain ⟨harmed, hentries⟩ := h.finished_eq hchain ho
  have hresumes : a.resumes = id :: (a.finished id rest).resumes := by
    rw [resumes, ho]
    rfl
  have hrunning : a.running = (a.finished id rest).running := by
    rw [running, ho]
    rfl
  have hnodup := h.resumes_nodup
  have hfresh := h.resumes_fresh
  have hrun := h.running_nodup
  rw [hresumes] at hnodup hfresh
  rw [hrunning] at hrun
  refine ⟨⟨[], .inl rfl, hentries⟩, ?_, (List.nodup_cons.mp hnodup).2, ?_, hrun, ?_, h.nextId_le⟩
  · intro other hother
    rw [harmed] at hother
    cases hother
  · intro other hother
    exact hfresh other (List.mem_cons_of_mem _ hother)
  · intro other hook hmem
    refine h.running_mem other hook ?_
    rw [ho]
    exact List.mem_cons_of_mem _ hmem

/-- The hook that puts records into frames is the one before those of the host. -/
theorem front_of_start? (h : Orderly chain a) (hchain : chain.OnlyHost) {records : List Record}
    {hooks : EntryHooks} (hs : a.hooks.start? id = some (.rebuild records, hooks)) :
    a.armed = some id ∧ id ∈ a.resumes
      ∧ a.hooks.entries = ⟨id, some (.rebuild records)⟩ :: chain.entriesDuring a.running := by
  obtain ⟨hmem, -⟩ := EntryHooks.mem_of_start? hs
  obtain ⟨front, hfront, hentries⟩ := h.entries_eq
  rw [hentries] at hmem
  rcases List.mem_append.mp hmem with hmem | hmem
  · rcases hfront with rfl | ⟨other, left, harmed, rfl⟩
    · cases hmem
    · have heq := List.mem_singleton.mp hmem
      simp only [HookEntry.mk.injEq, Option.some.injEq, Hook.rebuild.injEq] at heq
      obtain ⟨rfl, rfl⟩ := heq
      exact ⟨harmed, h.armed_mem harmed, hentries⟩
  · -- the hooks of the host rebuild nothing
    obtain ⟨e, he, htaken⟩ := List.mem_map.mp hmem
    obtain ⟨name, key, hhook⟩ := hchain.host e he
    unfold EntryHooks.taken at htaken
    split at htaken
    · cases htaken
    · subst htaken
      cases hhook

/-- It goes back into its entry with the records that are left. -/
theorem turn (h : Orderly chain a) (hchain : chain.OnlyHost) {records : List Record}
    {hooks : EntryHooks} (left : List Record)
    (hs : a.hooks.start? id = some (.rebuild records, hooks)) :
    Orderly chain { a with hooks := hooks.finish id (.rebuild left) } := by
  obtain ⟨harmed, hid, hentries⟩ := h.front_of_start? hchain hs
  obtain ⟨-, rfl⟩ := EntryHooks.mem_of_start? hs
  rw [EntryHooks.finish_withHook]
  refine ⟨⟨[⟨id, some (.rebuild left)⟩], .inr ⟨id, left, harmed, rfl⟩, ?_⟩, h.armed_open,
    h.resumes_nodup, h.resumes_fresh, h.running_nodup, h.running_mem, h.nextId_le⟩
  show a.hooks.entries.map _ = _
  rw [hentries, List.map_cons, EntryHooks.map_entriesDuring (h.not_mem_ids hchain hid), if_pos rfl]
  rfl

/-- With no record left it is removed, though the resume may still be armed. -/
theorem lastTurn (h : Orderly chain a) (hchain : chain.OnlyHost) {records : List Record}
    {hooks : EntryHooks} (hs : a.hooks.start? id = some (.rebuild records, hooks)) :
    Orderly chain { a with hooks := hooks.remove id } := by
  obtain ⟨harmed, hid, hentries⟩ := h.front_of_start? hchain hs
  obtain ⟨-, rfl⟩ := EntryHooks.mem_of_start? hs
  rw [EntryHooks.remove_withHook]
  refine ⟨⟨[], .inl rfl, ?_⟩, h.armed_open, h.resumes_nodup, h.resumes_fresh, h.running_nodup,
    h.running_mem, h.nextId_le⟩
  exact h.remove_entries hchain hid fun other hother =>
    (Option.some.inj (harmed.symm.trans hother)).symm

/-- The hook of a resume, if it is there, is not the one with this number. -/
theorem front_ne (h : Orderly chain a) (hchain : chain.OnlyHost) {front : List HookEntry}
    (hfront : Leads a.armed front) (hid : id ∈ chain.ids) (hook : Option Hook) :
    front.map (fun e => if e.id = id then { e with hook } else e) = front := by
  rcases hfront with rfl | ⟨other, left, harmed, rfl⟩
  · rfl
  · have hne : other ≠ id := by
      rintro rfl
      exact h.not_mem_ids hchain (h.armed_mem harmed) hid
    simp [hne]

/-- A host hook is taken out of its entry to run. -/
theorem ask (h : Orderly chain a) (hchain : chain.OnlyHost) {name : String} {key : Nat}
    {hooks : EntryHooks} (hs : a.hooks.start? id = some (.host name key, hooks)) :
    Orderly chain ⟨hooks, a.armed, .hook id (.host name key) :: a.opened⟩ := by
  obtain ⟨hmem, rfl⟩ := EntryHooks.mem_of_start? hs
  obtain ⟨front, hfront, hentries⟩ := h.entries_eq
  rw [hentries] at hmem
  -- a hook that the host installed is in its chain, and it was not running yet
  obtain ⟨hinchain, hrunning⟩ : ⟨id, some (.host name key)⟩ ∈ chain.entries ∧ id ∉ a.running := by
    rcases List.mem_append.mp hmem with hmem | hmem
    · rcases hfront with rfl | ⟨other, left, -, rfl⟩
      · cases hmem
      · cases List.mem_singleton.mp hmem
    · obtain ⟨e, he, htaken⟩ := List.mem_map.mp hmem
      unfold EntryHooks.taken at htaken
      split at htaken
      · cases htaken
      · next hnot =>
          subst htaken
          exact ⟨he, hnot⟩
  have hid : id ∈ chain.ids := List.mem_map_of_mem hinchain
  refine ⟨⟨front, hfront, ?_⟩, h.armed_open, h.resumes_nodup, h.resumes_fresh, ?_, ?_,
    h.nextId_le⟩
  · show a.hooks.entries.map _ = front ++ chain.entriesDuring (id :: a.running)
    rw [hentries, List.map_append, h.front_ne hchain hfront hid, EntryHooks.map_entriesDuring_none]
  · exact List.nodup_cons.mpr ⟨hrunning, h.running_nodup⟩
  · intro other hook hmem
    rcases List.mem_cons.mp hmem with heq | hmem
    · cases heq
      exact hinchain
    · exact h.running_mem other hook hmem

/-- A host hook has run and is put back. -/
theorem reply (h : Orderly chain a) (hchain : chain.OnlyHost) {hook : Hook}
    (ho : a.opened = .hook id hook :: rest) :
    Orderly chain ⟨a.hooks.finish id hook, a.armed, rest⟩ := by
  have hinchain : ⟨id, some hook⟩ ∈ chain.entries :=
    h.running_mem id hook (by rw [ho]; exact List.mem_cons_self ..)
  have hrunning : a.running = id :: rest.filterMap Opened.hook? := by
    rw [running, ho]
    rfl
  have hresumes : a.resumes = rest.filterMap Opened.resume? := by
    rw [resumes, ho]
    rfl
  have hnodup := h.running_nodup
  have hopen := h.armed_open
  have hresumesNodup := h.resumes_nodup
  have hfresh := h.resumes_fresh
  rw [hrunning, List.nodup_cons] at hnodup
  rw [hresumes] at hopen hresumesNodup hfresh
  obtain ⟨front, hfront, hentries⟩ := h.entries_eq
  rw [hrunning] at hentries
  refine ⟨⟨front, hfront, ?_⟩, hopen, hresumesNodup, hfresh, hnodup.2, ?_, h.nextId_le⟩
  · show a.hooks.entries.map _ = front ++ chain.entriesDuring (rest.filterMap Opened.hook?)
    rw [hentries, List.map_append, h.front_ne hchain hfront (List.mem_map_of_mem hinchain),
      EntryHooks.map_entriesDuring_some hchain hinchain hnodup.1]
  · intro other hook' hmem
    refine h.running_mem other hook' ?_
    rw [ho]
    exact List.mem_cons_of_mem _ hmem

/-- **Every move keeps the chain in order.** -/
theorem move (h : Orderly chain a) (hchain : chain.OnlyHost) (hm : Move a b) : Orderly chain b := by
  cases hm with
  | stay => exact h
  | meet => exact h.disarmed hchain
  | begin records => exact h.begun hchain records
  | finish ho => exact h.finished hchain ho
  | turn left hs => exact h.turn hchain left hs
  | lastTurn hs => exact h.lastTurn hchain hs
  | ask hs => exact h.ask hchain hs
  | reply ho => exact h.reply hchain ho

/-- A hook that is not of the host is that of the armed resume. -/
theorem armed_of_mem (h : Orderly chain a) (hid : id ∈ a.hooks.ids) (hnot : id ∉ chain.ids) :
    a.armed = some id := by
  obtain ⟨front, hfront, hentries⟩ := h.entries_eq
  rw [EntryHooks.ids, hentries, List.map_append, EntryHooks.map_id_entriesDuring,
    List.mem_append] at hid
  rcases hid with hid | hid
  · rcases hfront with rfl | ⟨other, left, harmed, rfl⟩
    · cases hid
    · rw [List.mem_singleton.mp hid]
      exact harmed
  · exact absurd hid hnot

/-- There is at most one. -/
theorem length_filter_le (h : Orderly chain a) :
    (a.hooks.ids.filter (fun id => id ∉ chain.ids)).length ≤ 1 := by
  obtain ⟨front, hfront, hentries⟩ := h.entries_eq
  have hhost : chain.ids.filter (fun id => id ∉ chain.ids) = [] := by
    rw [List.filter_eq_nil_iff]
    intro id hid
    simpa using hid
  have hids : a.hooks.ids = front.map HookEntry.id ++ chain.ids := by
    rw [EntryHooks.ids, hentries, List.map_append, EntryHooks.map_id_entriesDuring]
  rw [hids, List.filter_append, hhost, List.append_nil]
  refine Nat.le_trans (List.length_filter_le ..) ?_
  rcases hfront with rfl | ⟨other, left, -, rfl⟩
  · exact Nat.zero_le _
  · exact Nat.le_refl _

/-- Without the armed resume's hook the chain is the one of the host. -/
theorem filter_armed_entries (h : Orderly chain a) (hchain : chain.OnlyHost) :
    a.hooks.entries.filter (fun e => a.armed ≠ some e.id) = chain.entriesDuring a.running := by
  cases harmed : a.armed with
  | none =>
      obtain ⟨front, hfront, hentries⟩ := h.entries_eq
      obtain rfl : front = [] := by
        rcases hfront with rfl | ⟨id, _, hid, -⟩
        · rfl
        · rw [harmed] at hid
          cases hid
      rw [hentries]
      simp
  | some id =>
      have hremove := h.remove_entries hchain (h.armed_mem harmed) fun other hother =>
        (Option.some.inj (harmed.symm.trans hother)).symm
      rw [← hremove]
      show _ = a.hooks.entries.filter (fun e => e.id != id)
      apply List.filter_congr
      intro e _
      by_cases hid : e.id = id
      · simp [hid]
      · simp [hid, Ne.symm hid]

end Orderly

/-! ## §4. A resume and what is open under it. -/

/-- A resume is open over what was open when it began, or it has returned. -/
def Under (id : HookNumber) (base : List Opened) (a : ArmState) : Prop :=
  (∃ inner, a.opened = inner ++ .resume id :: base) ∨ (id ∉ a.resumes ∧ id < a.hooks.nextId)

/-- A resume that is not armed, and will not be again. -/
def Past (id : HookNumber) (a : ArmState) : Prop :=
  a.armed ≠ some id ∧ id < a.hooks.nextId

theorem Move.nextId_le (hm : Move a b) : a.hooks.nextId ≤ b.hooks.nextId := by
  have hdisarmed : a.disarmed.hooks.nextId = a.hooks.nextId := by
    unfold ArmState.disarmed
    split <;> rfl
  cases hm with
  | stay => exact Nat.le_refl _
  | meet => exact Nat.le_of_eq hdisarmed.symm
  | begin records =>
      show a.hooks.nextId ≤ a.disarmed.hooks.nextId + 1
      rw [hdisarmed]
      exact Nat.le_succ _
  | finish ho => exact Nat.le_refl _
  | turn left hs =>
      obtain ⟨-, rfl⟩ := EntryHooks.mem_of_start? hs
      exact Nat.le_refl _
  | lastTurn hs =>
      obtain ⟨-, rfl⟩ := EntryHooks.mem_of_start? hs
      exact Nat.le_refl _
  | ask hs =>
      obtain ⟨-, rfl⟩ := EntryHooks.mem_of_start? hs
      exact Nat.le_refl _
  | reply ho => exact Nat.le_refl _

/-- Numbers are not given out twice, so a resume that is past stays past. -/
theorem Past.move (h : Past id a) (hm : Move a b) : Past id b := by
  refine ⟨?_, Nat.lt_of_lt_of_le h.2 hm.nextId_le⟩
  have hne := h.1
  cases hm with
  | stay => exact hne
  | meet =>
      unfold ArmState.disarmed
      split
      · simp
      · exact hne
  | begin records =>
      have hdisarmed : a.disarmed.hooks.nextId = a.hooks.nextId := by
        unfold ArmState.disarmed
        split <;> rfl
      intro harmed
      have heq : a.disarmed.hooks.nextId = id := Option.some.inj harmed
      exact Nat.ne_of_gt h.2 (hdisarmed.symm.trans heq)
  | finish ho =>
      show (if a.armed = some _ then none else a.armed) ≠ some id
      split
      · simp
      · exact hne
  | turn left hs => exact hne
  | lastTurn hs => exact hne
  | ask hs => exact hne
  | reply ho => exact hne

/-- **A resume that is open stays open over the same rest until it returns.** -/
theorem Under.move {base : List Opened} (h : Under id base a) (horder : Orderly chain a)
    (hm : Move a b) : Under id base b := by
  have hnext := hm.nextId_le
  -- once it has returned its number is in nothing that opens later
  have hclosed {opened : List Opened} (hopened : b.opened = opened)
      (hnot : id ∉ opened.filterMap Opened.resume?) (hlt : id < a.hooks.nextId) :
      Under id base b := by
    refine .inr ⟨?_, Nat.lt_of_lt_of_le hlt hnext⟩
    rw [resumes, hopened]
    exact hnot
  have hdisarmed : a.disarmed.hooks.nextId = a.hooks.nextId ∧ a.disarmed.opened = a.opened := by
    unfold ArmState.disarmed
    split <;> exact ⟨rfl, rfl⟩
  rcases h with ⟨inner, hopened⟩ | ⟨hnot, hlt⟩
  · cases hm with
    | stay => exact .inl ⟨inner, hopened⟩
    | meet => exact .inl ⟨inner, hdisarmed.2.trans hopened⟩
    | begin records =>
        refine .inl ⟨.resume a.disarmed.hooks.nextId :: inner, ?_⟩
        show _ :: a.opened = _
        rw [hopened]
        rfl
    | @finish other rest ho =>
        rw [hopened] at ho
        cases inner with
        | nil =>
            -- it is the one that returns: its number occurs once
            obtain ⟨heq, rfl⟩ := List.cons.inj ho
            have hresumes : a.resumes = id :: base.filterMap Opened.resume? := by
              rw [resumes, hopened]
              rfl
            have hnodup := horder.resumes_nodup
            have hfresh := horder.resumes_fresh id
            rw [hresumes] at hnodup hfresh
            exact hclosed rfl (List.nodup_cons.mp hnodup).1 (hfresh (List.mem_cons_self ..)).2
        | cons first inner =>
            obtain ⟨-, rfl⟩ := List.cons.inj ho
            exact .inl ⟨inner, rfl⟩
    | turn left hs => exact .inl ⟨inner, hopened⟩
    | lastTurn hs => exact .inl ⟨inner, hopened⟩
    | @ask other name key hooks hs =>
        refine .inl ⟨.hook other (.host name key) :: inner, ?_⟩
        show _ :: a.opened = _
        rw [hopened]
        rfl
    | @reply other hook rest ho =>
        rw [hopened] at ho
        cases inner with
        | nil => cases (List.cons.inj ho).1
        | cons first inner =>
            obtain ⟨-, rfl⟩ := List.cons.inj ho
            exact .inl ⟨inner, rfl⟩
  · cases hm with
    | stay => exact .inr ⟨hnot, hlt⟩
    | meet => exact hclosed hdisarmed.2 hnot hlt
    | begin records =>
        refine hclosed rfl ?_ hlt
        intro hmem
        rcases List.mem_cons.mp hmem with heq | hmem
        · exact Nat.ne_of_lt hlt (heq.trans hdisarmed.1)
        · exact hnot hmem
    | @finish other rest ho =>
        refine hclosed rfl (fun hmem => hnot ?_) hlt
        rw [resumes, ho]
        exact List.mem_cons_of_mem _ hmem
    | turn left hs => exact hclosed rfl hnot hlt
    | lastTurn hs => exact hclosed rfl hnot hlt
    | ask hs => exact hclosed rfl hnot hlt
    | @reply other hook rest ho =>
        refine hclosed rfl (fun hmem => hnot ?_) hlt
        rw [resumes, ho]
        exact hmem

/-- A resume that returns gives back what was open when it began. -/
theorem Under.eq_of_opened {base : List Opened} (h : Under id base a) (horder : Orderly chain a)
    (ho : a.opened = .resume id :: rest) : rest = base := by
  have hresumes : a.resumes = id :: rest.filterMap Opened.resume? := by
    rw [resumes, ho]
    rfl
  rcases h with ⟨inner, hopened⟩ | ⟨hnot, -⟩
  · cases inner with
    | nil => exact (List.cons.inj (ho.symm.trans hopened)).2
    | cons first inner =>
        have hrest : rest = inner ++ .resume id :: base :=
          (List.cons.inj (ho.symm.trans hopened)).2
        have hnodup := horder.resumes_nodup
        rw [hresumes, List.nodup_cons, hrest, List.filterMap_append] at hnodup
        exact absurd (List.mem_append_right _ (List.mem_cons_self ..)) hnodup.1
  · rw [hresumes] at hnot
    exact absurd (List.mem_cons_self ..) hnot

end ArmState

end Resumable
