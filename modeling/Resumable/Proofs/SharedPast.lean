/-
  Resumable.Proofs.SharedPast
  ───────────────────────────
  **MACHINES WITH A COMMON PAST.**

  A machine that has gone on from another one still has all that the other one
  had, in the same places.  If the other one goes on by itself, what it makes
  comes to other places, since the first machine has used them already:

      n lists, then      0  ..  n-1    n    n+1  ..
      m lists, then      0  ..  n-1    m    m+1  ..

  `Renaming.above` is the renaming of this picture.  What is known before the
  runs part stays where it is, and all that follows is shifted.

  Main results:
    • `Store.Closed.alike`       — a store is like those that have grown out of it,
    • `Vm.SelfContained.alike`   — a machine is like those that have gone on from it.
-/
import Resumable.Proofs.RenamedRun

namespace Resumable

variable {α : Type} {s t : Store} {shared : Nat} {hidden : String → Prop}

/-! ## §1. New places. -/

/-- The place of what comes to `p` where `n` places are taken, if `m` are taken. -/
def placeAbove (n m p : Nat) : Nat :=
  if p < n then p else p + (m - n)

/-- A place taken in both stays. -/
theorem placeAbove_of_lt {n m p : Nat} (h : p < n) : placeAbove n m p = p :=
  if_pos h

/-- The next places go to the next places. -/
theorem placeAbove_next {n m : Nat} (h : n ≤ m) (k : Nat) : placeAbove n m (n + k) = m + k := by
  rw [placeAbove, if_neg (by omega)]
  omega

/-- Different places go to different places. -/
theorem placeAbove_injective (n m : Nat) : Function.Injective (placeAbove n m) := by
  intro p q heq
  unfold placeAbove at heq
  split at heq <;> split at heq <;> omega

/-- What one store knows stays; what comes to the next places of that store comes
to the next places of another one. -/
def Renaming.above (s t : Store) (shared : Nat) : Renaming where
  list := placeAbove s.lists.size t.lists.size
  dict := placeAbove s.dicts.size t.dicts.size
  object := placeAbove s.objects.size t.objects.size
  iterator := placeAbove s.cursors.size t.cursors.size
  serial := placeAbove s.serial t.serial
  shared := shared
  list_injective := placeAbove_injective ..
  dict_injective := placeAbove_injective ..
  object_injective := placeAbove_injective ..
  iterator_injective := placeAbove_injective ..
  serial_injective := placeAbove_injective ..

/-- Whether a store knows all values of some data. -/
def Store.Knows [Renamable α] (s : Store) (shared : Nat) (a : α) : Prop :=
  ∀ v ∈ leaves a, v.Known s shared

instance [Renamable α] (s : Store) (shared : Nat) (a : α) : Decidable (s.Knows shared a) :=
  inferInstanceAs (Decidable (∀ v ∈ leaves a, v.Known s shared))

/-! ## §2. What stays. -/

section Stays

variable (t)

/-- A value that the store knows stays what it is. -/
theorem Value.rename_above {v : Value} (h : s.Knows shared v) :
    v.rename (.above s t shared) = v := by
  refine rename_eq_self fun leaf hleaf => ?_
  have hknown := h leaf hleaf
  have hisLeaf := isLeaf_of_mem_leaves hleaf
  cases leaf with
  | tuple items => exact nomatch hisLeaf
  | list place => exact congrArg Value.list (placeAbove_of_lt hknown)
  | dict place => exact congrArg Value.dict (placeAbove_of_lt hknown)
  | object place => exact congrArg Value.object (placeAbove_of_lt hknown)
  | iterator place => exact congrArg Value.iterator (placeAbove_of_lt hknown)
  | function f => exact congrArg (fun n => Value.function { f with serial := n }) (placeAbove_of_lt hknown)
  | builtin b => exact congrArg (fun n => Value.builtin { b with serial := n }) (placeAbove_of_lt hknown)
  | exception e => exact congrArg (fun n => Value.exception { e with serial := n }) (placeAbove_of_lt hknown)
  | _ => rfl

theorem rename_option_above {o : Option Value} (h : s.Knows shared o) :
    rename (.above s t shared) o = o := by
  cases o with
  | none => rfl
  | some v => exact congrArg some (v.rename_above t (fits_some (ρ := .above s t shared).mp h))

/-- A frame that holds known values stays what it is. -/
theorem Frame.rename_above {f : Frame} (h : s.Knows shared f) :
    rename (.above s t shared) f = f := by
  obtain ⟨hfun, hslots⟩ := fits_frame (ρ := .above s t shared).mp h
  have hserial : f.function.serial < s.serial := hfun _ (List.mem_singleton.mpr rfl)
  have hfunction : f.function.rename (.above s t shared) = f.function :=
    congrArg (fun n => { f.function with serial := n }) (placeAbove_of_lt hserial)
  have hmap : f.slots.map (rename (.above s t shared)) = f.slots := by
    refine (Array.map_congr_left fun slot hslot => ?_).trans (Array.map_id _)
    exact rename_option_above t (hslots slot (Array.mem_toList_iff.mpr hslot))
  show { f with
    function := f.function.rename (.above s t shared)
    slots := f.slots.map (rename (.above s t shared)) } = f
  rw [hfunction, hmap]

end Stays

/-- **A store is like those that have grown out of it.** -/
theorem Store.Closed.alike (h : s.Closed shared)
    (hshared : shared ≤ s.continuations.size) (hst : s.Extends t) :
    s.Alike (.above s t shared) t where
  lists_next := placeAbove_next hst.lists_le
  lists_le := hst.lists_le
  list_eq place hp := by
    -- old places keep their numbers, and nothing old refers to a new one
    have hitems : (s.list place).map (Value.rename (.above s t shared)) = s.list place := by
      refine (Array.map_congr_left fun v hv => ?_).trans (Array.map_id _)
      exact v.rename_above t (h.held (.list place) v (Array.mem_toList_iff.mpr hv))
    rw [hitems, ← hst.list_eq place hp]
    exact congrArg t.list (placeAbove_of_lt hp)
  dicts_next := placeAbove_next hst.dicts_le
  dicts_le := hst.dicts_le
  dict_eq place hp := by
    have hentries : (s.dict place).map (renameEntry (.above s t shared)) = s.dict place := by
      refine (List.map_congr_left fun e he => ?_).trans (List.map_id _)
      exact congrArg (Prod.mk e.1)
        (e.2.rename_above t (h.held (.dict place) e.2 (List.mem_map_of_mem he)))
    rw [hentries, ← hst.dict_eq place hp]
    exact congrArg t.dict (placeAbove_of_lt hp)
  objects_next := placeAbove_next hst.objects_le
  attrs_eq place hp := by
    have hattrs : (s.object place).attrs.map (renameEntry (.above s t shared))
        = (s.object place).attrs := by
      refine (List.map_congr_left fun e he => ?_).trans (List.map_id _)
      exact congrArg (Prod.mk e.1) (e.2.rename_above t (h.attrs place e he))
    rw [hattrs, ← hst.object_eq place hp]
    exact congrArg (fun p => (t.object p).attrs) (placeAbove_of_lt hp)
  lineage_eq place hp := by
    have hlineage : (s.object place).lineage.map (placeAbove s.objects.size t.objects.size)
        = (s.object place).lineage :=
      (List.map_congr_left fun c hc => placeAbove_of_lt (h.lineage place c hc)).trans (List.map_id _)
    show (t.object _).lineage = (s.object place).lineage.map (placeAbove _ _)
    rw [hlineage, ← hst.object_eq place hp]
    exact congrArg (fun p => (t.object p).lineage) (placeAbove_of_lt hp)
  cursors_next := placeAbove_next hst.cursors_le
  shared_le := hshared
  shared_le' := Nat.le_trans hshared hst.continuations_le
  continuation_eq place hp := hst.continuation_eq place (Nat.lt_of_lt_of_le hp hshared)
  serial_next := placeAbove_next hst.serial_le
  closed := h

/-! ## §3. Machines. -/

namespace Vm

/-- A machine without hooks and resumes knows all that it holds, but for what
hidden globals hold. -/
structure SelfContained (hidden : String → Prop) (shared : Nat) (vm : Vm) : Prop where
  closed : vm.store.Closed shared
  shared_le : shared ≤ vm.store.continuations.size
  frames : vm.store.Knows shared vm.frames
  globals : ∀ name, ¬ hidden name → vm.store.Knows shared (vm.globals.find? name)
  handled : vm.store.Knows shared vm.handled
  hooks_eq : vm.hooks.entries = []
  armed_eq : vm.armed = none

variable {c : Correspondence} {vm vm' : Vm}

/-- The first of two machines that are alike knows all that it holds. -/
theorem Alike.selfContained (h : vm.Alike c vm') : vm.SelfContained c.hidden c.places.shared where
  closed := h.store.closed
  shared_le := h.store.shared_le
  frames := h.fits_frames
  globals := h.fits_globals
  handled := h.fits_handled
  hooks_eq := h.hooks_eq
  armed_eq := h.armed_eq

/-- What a machine that goes on by itself has in common with one that has gone
on from it. -/
def since (vm vm' : Vm) (hidden : String → Prop) (shared : Nat) : Correspondence where
  places := .above vm.store vm'.store shared
  hidden := hidden
  config := vm.config
  printed := vm.output
  printed' := vm'.output

/-- **A machine is like those that have gone on from it** and are back at its
frames. -/
theorem SelfContained.alike (h : vm.SelfContained hidden shared) (vm' : Vm)
    (hgrows : vm.Grows hidden vm') (hconfig : vm'.config = vm.config) (hframes : vm'.frames = vm.frames)
    (hhandled : vm'.handled = vm.handled) (hhooks : vm'.hooks.entries = [])
    (harmed : vm'.armed = none) : vm.Alike (vm.since vm' hidden shared) vm' where
  config_eq := rfl
  config_eq' := hconfig
  store := h.closed.alike h.shared_le hgrows.store
  frames_eq := by
    refine hframes.trans (((List.map_congr_left fun f hf => ?_).trans (List.map_id _)).symm)
    exact f.rename_above vm'.store
      (fits_list (ρ := .above vm.store vm'.store shared).mp h.frames f hf)
  fits_frames := h.frames
  globals_eq name hn := by
    rw [hgrows.globals name hn]
    exact (rename_option_above vm'.store (h.globals name hn)).symm
  fits_globals := h.globals
  handled_eq := by
    rw [hhandled]
    exact (rename_option_above vm'.store h.handled).symm
  fits_handled := h.handled
  hooks_eq := h.hooks_eq
  hooks_eq' := hhooks
  armed_eq := h.armed_eq
  armed_eq' := harmed
  output_eq := ⟨#[], Array.append_empty.symm, Array.append_empty.symm⟩

/-- A machine that runs nothing: no frame is live, no hook is installed, no
resume is armed, and every value is one its store has given out. -/
structure Ready (vm : Vm) : Prop where
  frames_eq : vm.frames = []
  hooks_eq : vm.hooks.entries = []
  armed_eq : vm.armed = none
  closed : vm.store.Closed vm.store.continuations.size
  globals : ∀ e ∈ vm.globals, vm.store.Knows vm.store.continuations.size e.2
  handled : vm.store.Knows vm.store.continuations.size vm.handled

/-- A machine that runs nothing knows all that it holds. -/
theorem Ready.selfContained (h : vm.Ready) (hidden : String → Prop) :
    vm.SelfContained hidden vm.store.continuations.size where
  closed := h.closed
  shared_le := Nat.le_refl _
  frames := by
    rw [h.frames_eq]
    exact fun _ hv => nomatch hv
  globals name _ := Store.Alike.fits_find? (ρ := .above vm.store vm.store _) h.globals name
  handled := h.handled
  hooks_eq := h.hooks_eq
  armed_eq := h.armed_eq

end Vm

end Resumable
