/-
  Resumable.Proofs.HookChains
  ───────────────────────────
  **A CHAIN THAT CHANGES WHILE ITS HOOKS RUN.**

  A hook may do to the chain what it likes while it runs: install hooks at either
  end, remove any hook, itself included, and enter frames whose hooks run in turn.
  All that happens to the chain and to the running hooks is five moves:

      install      an entry with a new number, at either end
      remove       the entry of a number, if there is one
      start        a hook is taken out of its entry, and runs
      finish       the innermost running hook is put back, if it has its entry still
      drop         or its entry is removed

  Numbers are given out once and a running hook has left its entry empty, so none
  starts again before it has finished (`ChainState.Tracks`); and whatever happens,
  the entries that are left stand in the order they stood in (`EntryHooks.Evolves`).

  Main results:
    • `ChainState.Tracks.move`  — every move keeps account of what runs,
    • `ChainState.Move.evolves` — every move keeps the order of the old entries,
    • `ChainState.moves_of_move` — the moves of resumes are such moves.
-/
import Resumable.Proofs.ArmState

namespace Resumable

/-! ## §1. Entries. -/

namespace EntryHooks

variable {c d : EntryHooks} {id other : HookNumber} {hook held : Option Hook} {e : HookEntry}

theorem mem_ids_of_mem (h : e ∈ c.entries) : e.id ∈ c.ids :=
  List.mem_map_of_mem h

/-- Giving a listed id another hook replaces its entry; an id that is not listed gets
none. -/
theorem mem_entries_withHook :
    e ∈ (c.withHook id hook).entries ↔
      (e ∈ c.entries ∧ e.id ≠ id) ∨ (e = ⟨id, hook⟩ ∧ id ∈ c.ids) := by
  unfold withHook ids
  simp only [List.mem_map]
  constructor
  · rintro ⟨e', he', rfl⟩
    by_cases hid : e'.id = id
    · rw [if_pos hid]
      exact .inr ⟨by rw [hid], e', he', hid⟩
    · rw [if_neg hid]
      exact .inl ⟨he', hid⟩
  · -- an entry of another number stays, and that of the number holds something else
    rintro (⟨he, hid⟩ | ⟨rfl, e', he', hid⟩)
    · exact ⟨e, he, if_neg hid⟩
    · exact ⟨e', he', by rw [if_pos hid, hid]⟩

/-- A removal takes the entry of its id and no other. -/
theorem mem_entries_remove : e ∈ (c.remove id).entries ↔ e ∈ c.entries ∧ e.id ≠ id := by
  unfold remove
  simp [List.mem_filter]

/-- An installation adds one entry, wherever it puts it. -/
theorem mem_entries_install {place : HookPlace} {hook : Hook} :
    e ∈ (c.install place hook).2.entries ↔ e ∈ c.entries ∨ e = ⟨c.nextId, some hook⟩ := by
  cases place with
  | first => simp [install, or_comm]
  | last => simp [install]

theorem mem_ids_install {place : HookPlace} {hook : Hook} :
    id ∈ (c.install place hook).2.ids ↔ id ∈ c.ids ∨ id = c.nextId := by
  cases place with
  | first => simp [or_comm]
  | last => simp

/-- With numbers given out once, a hook can start if its entry holds it. -/
theorem start?_eq_some_iff (hnodup : c.ids.Nodup) {hook : Hook} :
    c.start? id = some (hook, d) ↔ ⟨id, some hook⟩ ∈ c.entries ∧ d = c.withHook id none := by
  constructor
  · exact mem_of_start?
  · rintro ⟨hmem, rfl⟩
    have hfind : c.entries.find? (fun e => e.id == id) = some ⟨id, some hook⟩ := by
      cases hfound : c.entries.find? (fun e => e.id == id) with
      | none =>
          have := List.find?_eq_none.mp hfound _ hmem
          simp at this
      | some found =>
          have hid := List.find?_some hfound
          simp only [beq_iff_eq] at hid
          -- the first entry of the number is the only one
          have hsame := List.inj_on_of_nodup_map hnodup (List.mem_of_find?_eq_some hfound) hmem hid
          rw [hsame]
    unfold start?
    rw [hfind]

/-- What the host may do to a chain. -/
inductive Edit : EntryHooks → EntryHooks → Prop
  | install (c : EntryHooks) (place : HookPlace) (hook : Hook) : Edit c (c.install place hook).2
  | remove (c : EntryHooks) (id : HookNumber) : Edit c (c.remove id)

/-- Any number of edits. -/
def Edits : EntryHooks → EntryHooks → Prop :=
  Relation.ReflTransGen Edit

/-- The later state of a chain: numbers are given out once, and the entries that are left
stand in the order they stood in. -/
structure Evolves (c d : EntryHooks) : Prop where
  nextId_le : c.nextId ≤ d.nextId
  order : (d.ids.filter (· < c.nextId)).Sublist c.ids

theorem Evolves.refl (c : EntryHooks) : c.Evolves c :=
  ⟨Nat.le_refl _, List.filter_sublist⟩

/-- Chains evolve step by step. -/
theorem Evolves.trans {k : EntryHooks} (h₁ : c.Evolves d) (h₂ : d.Evolves k) : c.Evolves k := by
  refine ⟨Nat.le_trans h₁.nextId_le h₂.nextId_le, ?_⟩
  -- numbers from before `c` are from before `d`
  have hboth : k.ids.filter (· < c.nextId) = (k.ids.filter (· < d.nextId)).filter (· < c.nextId) := by
    rw [List.filter_filter]
    refine List.filter_congr fun id _ => ?_
    rw [← Bool.decide_and, decide_eq_decide]
    exact ⟨fun hlt => ⟨hlt, Nat.lt_of_lt_of_le hlt h₁.nextId_le⟩, And.left⟩
  rw [hboth]
  exact (h₂.order.filter _).trans h₁.order

/-- Hooks may be exchanged under their ids. -/
theorem evolves_of_ids_eq (hids : d.ids = c.ids) (hnext : d.nextId = c.nextId) : c.Evolves d := by
  refine ⟨Nat.le_of_eq hnext.symm, ?_⟩
  rw [hids]
  exact List.filter_sublist

/-- Ids may go. -/
theorem evolves_remove (c : EntryHooks) (id : HookNumber) : c.Evolves (c.remove id) := by
  refine ⟨Nat.le_refl _, ?_⟩
  rw [ids_remove]
  exact List.filter_sublist.trans List.filter_sublist

/-- New ones are larger than any before. -/
theorem evolves_install (c : EntryHooks) (place : HookPlace) (hook : Hook) :
    c.Evolves (c.install place hook).2 := by
  refine ⟨Nat.le_succ _, ?_⟩
  cases place with
  | first => simp
  | last => simp

/-- What the end of its turn makes of a hook: it is put back in its place if it stays and
has its entry still, and all others are left as they are. -/
structure Settles (c d : EntryHooks) (id : HookNumber) (hook : Hook) (stays : Prop) : Prop where
  others : d.entries.filter (fun e => e.id != id) = c.entries.filter (fun e => e.id != id)
  nextId_eq : d.nextId = c.nextId
  gone : ¬ stays ∨ id ∉ c.ids → id ∉ d.ids
  kept : stays → id ∈ c.ids → d.ids = c.ids ∧ ⟨id, some hook⟩ ∈ d.entries

/-- A hook that stays is put back, if it has not been removed while it ran. -/
theorem settles_finish (c : EntryHooks) (id : HookNumber) (hook : Hook) {stays : Prop} (h : stays) :
    c.Settles (c.finish id hook) id hook stays where
  others := by
    have hremove := c.remove_withHook id (some hook)
    exact congrArg entries hremove
  nextId_eq := rfl
  gone := by
    rintro (hnot | hid)
    · exact absurd h hnot
    · rwa [ids_finish]
  kept _ hid := ⟨ids_finish .., mem_entries_withHook.mpr (.inr ⟨rfl, hid⟩)⟩

/-- One that does not stay is gone. -/
theorem settles_remove (c : EntryHooks) (id : HookNumber) (hook : Hook) {stays : Prop} (h : ¬ stays) :
    c.Settles (c.remove id) id hook stays where
  others := by
    unfold remove
    dsimp only
    rw [List.filter_filter]
    simp
  nextId_eq := rfl
  gone _ := by
    rw [ids_remove]
    simp
  kept hstays := absurd hstays h

end EntryHooks

/-! ## §2. Moves. -/

/-- A chain and the hooks that run, the innermost first. -/
structure ChainState where
  hooks : EntryHooks
  running : List HookNumber

namespace ChainState

/-- What can happen to a chain and to the running hooks. -/
inductive Move : ChainState → ChainState → Prop
  | install (a : ChainState) (place : HookPlace) (hook : Hook) :
      Move a { a with hooks := (a.hooks.install place hook).2 }
  | remove (a : ChainState) (id : HookNumber) : Move a { a with hooks := a.hooks.remove id }
  | start {a : ChainState} {id : HookNumber} {hook : Hook} :
      ⟨id, some hook⟩ ∈ a.hooks.entries → Move a ⟨a.hooks.withHook id none, id :: a.running⟩
  | finish {c : EntryHooks} {id : HookNumber} {running : List HookNumber} (hook : Hook) :
      Move ⟨c, id :: running⟩ ⟨c.finish id hook, running⟩
  | drop {c : EntryHooks} {id : HookNumber} {running : List HookNumber} :
      Move ⟨c, id :: running⟩ ⟨c.remove id, running⟩

/-- Any number of moves. -/
def Moves : ChainState → ChainState → Prop :=
  Relation.ReflTransGen Move

/-- The entries account for the running hooks: numbers are given out once, no hook runs
twice, and an entry is empty just while its hook runs. -/
structure Tracks (a : ChainState) : Prop where
  ids_nodup : a.hooks.ids.Nodup
  ids_lt : ∀ id ∈ a.hooks.ids, id < a.hooks.nextId
  running_nodup : a.running.Nodup
  running_lt : ∀ id ∈ a.running, id < a.hooks.nextId
  empty_iff : ∀ e ∈ a.hooks.entries, e.hook = none ↔ e.id ∈ a.running

variable {a b : ChainState} {c : EntryHooks} {id : HookNumber} {running : List HookNumber}

/-- A hook that is installed and does not run can start, and only such a one. -/
theorem Tracks.exists_hook_iff (h : a.Tracks) :
    (∃ hook, ⟨id, some hook⟩ ∈ a.hooks.entries) ↔ id ∈ a.hooks.ids ∧ id ∉ a.running := by
  constructor
  · rintro ⟨hook, hmem⟩
    refine ⟨EntryHooks.mem_ids_of_mem hmem, fun hruns => ?_⟩
    cases (h.empty_iff _ hmem).mpr hruns
  · rintro ⟨hid, hruns⟩
    obtain ⟨⟨_, held⟩, hmem, rfl⟩ := List.mem_map.mp hid
    cases held with
    | none => exact absurd ((h.empty_iff _ hmem).mp rfl) hruns
    | some hook => exact ⟨hook, hmem⟩

/-- A chain keeps track of the hooks that run when another is installed, -/
theorem Tracks.install (h : a.Tracks) (place : HookPlace) (hook : Hook) :
    Tracks { a with hooks := (a.hooks.install place hook).2 } := by
  -- the new number is above all others, those of running hooks that have been removed included
  have hnew : a.hooks.nextId ∉ a.hooks.ids := fun hmem => Nat.lt_irrefl _ (h.ids_lt _ hmem)
  refine ⟨?_, ?_, h.running_nodup, ?_, ?_⟩
  · cases place with
    | first =>
        rw [EntryHooks.ids_install_first]
        exact List.nodup_cons.mpr ⟨hnew, h.ids_nodup⟩
    | last =>
        rw [EntryHooks.ids_install_last]
        exact (List.nodup_cons.mpr ⟨hnew, h.ids_nodup⟩).perm (List.perm_append_singleton ..).symm
  · intro id hid
    rcases EntryHooks.mem_ids_install.mp hid with hold | rfl
    · exact Nat.lt_succ_of_lt (h.ids_lt id hold)
    · exact Nat.lt_succ_self _
  · exact fun id hid => Nat.lt_succ_of_lt (h.running_lt id hid)
  · intro e he
    rcases EntryHooks.mem_entries_install.mp he with hold | rfl
    · exact h.empty_iff e hold
    · exact ⟨nofun, fun hruns => absurd (h.running_lt _ hruns) (Nat.lt_irrefl _)⟩

/-- when one is removed, also while it runs, -/
theorem Tracks.remove (h : a.Tracks) (id : HookNumber) :
    Tracks { a with hooks := a.hooks.remove id } where
  ids_nodup := by
    rw [EntryHooks.ids_remove]
    exact h.ids_nodup.filter _
  ids_lt other hmem := by
    rw [EntryHooks.ids_remove] at hmem
    exact h.ids_lt other (List.mem_of_mem_filter hmem)
  running_nodup := h.running_nodup
  running_lt := h.running_lt
  empty_iff e he := h.empty_iff e (EntryHooks.mem_entries_remove.mp he).1

/-- A hook that starts was not running. -/
theorem Tracks.start (h : a.Tracks) {hook : Hook} (hmem : ⟨id, some hook⟩ ∈ a.hooks.entries) :
    Tracks ⟨a.hooks.withHook id none, id :: a.running⟩ := by
  -- its entry holds it, so it does not run: no number is twice among the running ones
  obtain ⟨hid, hruns⟩ := h.exists_hook_iff.mp ⟨hook, hmem⟩
  refine ⟨?_, ?_, List.nodup_cons.mpr ⟨hruns, h.running_nodup⟩, ?_, ?_⟩
  · rw [EntryHooks.ids_withHook]
    exact h.ids_nodup
  · rw [EntryHooks.ids_withHook]
    exact h.ids_lt
  · intro other hother
    rcases List.mem_cons.mp hother with rfl | hother
    · exact h.ids_lt _ hid
    · exact h.running_lt other hother
  · intro e he
    rcases EntryHooks.mem_entries_withHook.mp he with ⟨hold, hne⟩ | ⟨rfl, -⟩
    · rw [List.mem_cons, or_iff_right hne]
      exact h.empty_iff e hold
    · exact ⟨fun _ => List.mem_cons_self .., fun _ => rfl⟩

/-- A hook that has finished runs no more. -/
theorem Tracks.not_mem_of_cons (h : Tracks ⟨c, id :: running⟩) : id ∉ running :=
  (List.nodup_cons.mp h.running_nodup).1

/-- when the innermost that runs is put back, -/
theorem Tracks.finish (h : Tracks ⟨c, id :: running⟩) (hook : Hook) :
    Tracks ⟨c.finish id hook, running⟩ where
  ids_nodup := by
    rw [EntryHooks.ids_finish]
    exact h.ids_nodup
  ids_lt := by
    rw [EntryHooks.ids_finish]
    exact h.ids_lt
  running_nodup := (List.nodup_cons.mp h.running_nodup).2
  running_lt other hother := h.running_lt other (List.mem_cons_of_mem _ hother)
  empty_iff e he := by
    rcases EntryHooks.mem_entries_withHook.mp he with ⟨hold, hne⟩ | ⟨rfl, -⟩
    · have hentry := h.empty_iff e hold
      rwa [List.mem_cons, or_iff_right hne] at hentry
    · exact ⟨nofun, fun hruns => absurd hruns h.not_mem_of_cons⟩

/-- and when it is dropped. -/
theorem Tracks.drop (h : Tracks ⟨c, id :: running⟩) : Tracks ⟨c.remove id, running⟩ where
  ids_nodup := (h.remove id).ids_nodup
  ids_lt := (h.remove id).ids_lt
  running_nodup := (List.nodup_cons.mp h.running_nodup).2
  running_lt other hother := h.running_lt other (List.mem_cons_of_mem _ hother)
  empty_iff e he := by
    obtain ⟨hold, hne⟩ := EntryHooks.mem_entries_remove.mp he
    have hentry := h.empty_iff e hold
    rwa [List.mem_cons, or_iff_right hne] at hentry

/-- **Every move keeps account of the running hooks.** -/
theorem Tracks.move (h : a.Tracks) (hmove : Move a b) : b.Tracks := by
  cases hmove with
  | install _ place hook => exact h.install place hook
  | remove _ id => exact h.remove id
  | start hmem => exact h.start hmem
  | finish hook => exact h.finish hook
  | drop => exact h.drop

/-- **Every move keeps the order of the old entries.** -/
theorem Move.evolves (hmove : Move a b) : a.hooks.Evolves b.hooks := by
  cases hmove with
  | install _ place hook => exact a.hooks.evolves_install place hook
  | remove _ id => exact a.hooks.evolves_remove id
  | start => exact EntryHooks.evolves_of_ids_eq (EntryHooks.ids_withHook ..) rfl
  | @finish c id running hook => exact EntryHooks.evolves_of_ids_eq (EntryHooks.ids_finish ..) rfl
  | @drop c id running => exact c.evolves_remove id

/-- So it does through every sequence of moves. -/
theorem Tracks.moves (h : a.Tracks) (hmoves : Moves a b) : b.Tracks := by
  induction hmoves with
  | refl => exact h
  | tail _ hmove ih => exact ih.move hmove

theorem Moves.evolves (hmoves : Moves a b) : a.hooks.Evolves b.hooks := by
  induction hmoves with
  | refl => exact .refl _
  | tail _ hmove ih => exact ih.trans hmove.evolves

/-- The edits of the host are moves. -/
theorem moves_of_edits {c d : EntryHooks} (h : c.Edits d) (running : List HookNumber) :
    Moves ⟨c, running⟩ ⟨d, running⟩ := by
  induction h with
  | refl => exact .refl
  | @tail d k _ hedit ih =>
      refine ih.tail ?_
      cases hedit with
      | install place hook => exact .install ⟨d, running⟩ place hook
      | remove id => exact .remove ⟨d, running⟩ id

end ChainState

/-! ## §3. Resumes. -/

namespace ArmState

/-- The chain and the running hooks. -/
def chain (a : ArmState) : ChainState :=
  ⟨a.hooks, a.running⟩

open ChainState (Move Moves)

/-- Disarming a resume is such a sequence: its hook is removed. -/
theorem moves_disarmed (a : ArmState) : Moves a.chain a.disarmed.chain := by
  unfold disarmed
  split
  · exact .single (.remove a.chain _)
  · exact .refl

/-- **What resumes do to the chain is moves.**  The hook of a resume starts and finishes in
one step. -/
theorem moves_of_move {a b : ArmState} (h : ArmState.Move a b) : Moves a.chain b.chain := by
  cases h with
  | stay => exact .refl
  | meet => exact a.moves_disarmed
  | begin records =>
      -- the resume that gives way takes its hook along, and the new one comes first
      have hopened : a.disarmed.opened = a.opened := by
        unfold disarmed
        split <;> rfl
      have hrunning : a.disarmed.running = (a.begun records).running := by
        show a.disarmed.opened.filterMap Opened.hook? = a.opened.filterMap Opened.hook?
        rw [hopened]
      refine a.moves_disarmed.tail ?_
      unfold chain
      rw [← hrunning]
      exact .install a.disarmed.chain .first (.rebuild records)
  | @finish id rest hopened =>
      have hrunning : a.running = (a.finished id rest).running := by
        unfold running
        rw [hopened]
        rfl
      unfold chain
      rw [← hrunning]
      exact .single (.remove a.chain id)
  | @turn id records hooks left hstart =>
      obtain ⟨hmem, rfl⟩ := EntryHooks.mem_of_start? hstart
      exact .tail (.single (Move.start (a := a.chain) hmem)) (.finish (.rebuild left))
  | @lastTurn id records hooks hstart =>
      obtain ⟨hmem, rfl⟩ := EntryHooks.mem_of_start? hstart
      exact .tail (.single (Move.start (a := a.chain) hmem)) .drop
  | @ask id name key hooks hstart =>
      obtain ⟨hmem, rfl⟩ := EntryHooks.mem_of_start? hstart
      exact .single (Move.start (a := a.chain) hmem)
  | @reply id hook rest hopened =>
      have hrunning : a.running = id :: rest.filterMap Opened.hook? := by
        unfold running
        rw [hopened]
        rfl
      unfold chain
      rw [hrunning]
      exact .single (.finish hook)

end ArmState

end Resumable
