/-
  Resumable.Proofs.RenamedActions
  ───────────────────────────────
  **ACTIONS ON MACHINES THAT ARE ALIKE.**

  Two machines are alike when their stores are and everything else of the one
  is that of the other, renamed; globals with hidden names may differ, and so
  may the lines printed before the comparison began.

  `VmAction.Tracks` says that two actions on such machines end alike and leave
  them alike.  It is closed under sequencing, so an action owes only what its
  primitive actions do: to a frame (`tracks_onFrame`), to the store
  (`tracks_onStore`), or an exception of the machine's own (`tracks_raise`).
-/
import Resumable.Proofs.CallSite
import Resumable.Proofs.RenamedStore

namespace Resumable

variable {α β : Type} {ρ : Renaming} {s t u : Store}

/-! ## §1. Frames and faults. -/

instance : Renamable Frame where
  rename ρ f := { f with function := rename ρ f.function, slots := rename ρ f.slots }
  leaves f := leaves f.function ++ leaves f.slots

instance : Renamable Fault where
  rename ρ
    | .exception v => .exception (rename ρ v)
    | e => e
  leaves
    | .exception v => leaves v
    | _ => []

namespace Frame

@[simp] theorem code_rename (f : Frame) : (rename ρ f).code = f.code := rfl

@[simp] theorem nlocals_rename (f : Frame) : (rename ρ f).nlocals = f.nlocals := rfl

@[simp] theorem size_slots_rename (f : Frame) : (rename ρ f).slots.size = f.slots.size :=
  Array.size_map

@[simp] theorem depth_rename (f : Frame) : (rename ρ f).depth = f.depth := by
  rw [depth, size_slots_rename, nlocals_rename, depth]

@[simp] theorem top_rename (f : Frame) : (rename ρ f).top = f.top :=
  Array.size_map

@[simp] theorem join_getElem?_rename (f : Frame) (i : Nat) :
    ((rename ρ f).slots[i]?).join = rename ρ ((f.slots[i]?).join) := by
  show ((f.slots.map (rename ρ))[i]?).join = _
  rw [Array.getElem?_map]
  cases f.slots[i]? with
  | none => rfl
  | some slot => cases slot <;> rfl

/-- A frame refers to what its function and its slots refer to. -/
theorem fits_frame {f : Frame} :
    Fits ρ s f ↔ Fits ρ s f.function ∧ ∀ slot ∈ f.slots.toList, Fits ρ s slot := by
  rw [← fits_array]
  exact fits_prod (p := (f.function, f.slots))

/-- What a slot of a frame holds is known. -/
theorem fits_join_getElem? {f : Frame} (h : Fits ρ s f) (i : Nat) :
    Fits ρ s ((f.slots[i]?).join) := by
  cases hs : f.slots[i]? with
  | none => exact fits_none
  | some slot =>
      have hmem : slot ∈ f.slots.toList := by
        rw [Array.mem_toList_iff]
        exact Array.mem_of_getElem? hs
      exact (fits_frame.mp h).2 slot hmem

/-- A renamed frame takes renamed slots. -/
theorem rename_withSlots (f : Frame) {slots slots' : Slots} (h : slots' = rename ρ slots) :
    { rename ρ f with slots := slots' } = rename ρ { f with slots := slots } := by
  rw [h]
  rfl

/-- A frame with other slots. -/
theorem fits_withSlots {f g : Frame} (h : Fits ρ s f) (hfun : g.function = f.function)
    (hslots : ∀ slot ∈ g.slots.toList, slot ∈ f.slots.toList ∨ Fits ρ s slot) : Fits ρ s g := by
  obtain ⟨hf, hs⟩ := fits_frame.mp h
  refine fits_frame.mpr ⟨hfun ▸ hf, fun slot hslot => ?_⟩
  obtain hold | hnew := hslots slot hslot
  · exact hs slot hold
  · exact hnew

end Frame

open Resumable.Frame

/-! ## §2. Actions on frames. -/

namespace FrameAction

/-- Two actions on a frame and on the renamed frame end alike. -/
def Tracks [Renamable α] (ρ : Renaming) (s : Store) (x x' : FrameAction α) : Prop :=
  ∀ f, Fits ρ s f →
    (∃ a g, x f = .ok a g ∧ x' (rename ρ f) = .ok (rename ρ a) (rename ρ g)
      ∧ Fits ρ s a ∧ Fits ρ s g) ∨
    ∃ e g, x f = .error e g ∧ x' (rename ρ f) = .error (rename ρ e) (rename ρ g)
      ∧ Fits ρ s e ∧ Fits ρ s g

variable [Renamable α] [Renamable β]

theorem tracks_pure {a : α} (h : Fits ρ s a) : Tracks ρ s (pure a) (pure (rename ρ a)) :=
  fun f hf => .inl ⟨a, f, rfl, rfl, h, hf⟩

/-- A breach names no place, so it is the same on both sides. -/
theorem tracks_breach (b : Breach) :
    Tracks (α := α) ρ s (throw (.internal b)) (throw (.internal b)) :=
  fun f hf => .inr ⟨_, f, rfl, rfl, fits_of_leaves_nil rfl, hf⟩

/-- A change that commutes with renaming. -/
theorem tracks_modify {g g' : Frame → Frame}
    (h : ∀ f, Fits ρ s f → g' (rename ρ f) = rename ρ (g f) ∧ Fits ρ s (g f)) :
    Tracks ρ s (modify g) (modify g') := by
  intro f hf
  obtain ⟨heq, hfits⟩ := h f hf
  refine .inl ⟨(), g f, rfl, ?_, fits_plain _, hfits⟩
  show EStateM.Result.ok () (g' (rename ρ f)) = _
  rw [heq]

/-- One action after another. -/
theorem Tracks.bind {x x' : FrameAction α} {k k' : α → FrameAction β} (hx : Tracks ρ s x x')
    (hk : ∀ a, Fits ρ s a → Tracks ρ s (k a) (k' (rename ρ a))) :
    Tracks ρ s (x >>= k) (x' >>= k') := by
  intro f hf
  obtain ⟨a, g, ha, ha', hfa, hg⟩ | ⟨e, g, he, he', hfe, hg⟩ := hx f hf
  · have hbind : (x >>= k) f = k a g := by
      show EStateM.bind x k f = _
      rw [EStateM.bind, ha]
    have hbind' : (x' >>= k') (rename ρ f) = k' (rename ρ a) (rename ρ g) := by
      show EStateM.bind x' k' (rename ρ f) = _
      rw [EStateM.bind, ha']
    rw [hbind, hbind']
    exact hk a hfa g hg
  · refine .inr ⟨e, g, ?_, ?_, hfe, hg⟩
    · show EStateM.bind x k f = _
      rw [EStateM.bind, he]
    · show EStateM.bind x' k' (rename ρ f) = _
      rw [EStateM.bind, he']

/-- An action that looks at the frame first. -/
theorem tracks_get_bind {k k' : Frame → FrameAction β}
    (h : ∀ f, Fits ρ s f → Tracks ρ s (k f) (k' (rename ρ f))) :
    Tracks ρ s (get >>= k) (get >>= k') :=
  fun f hf => h f hf f hf

theorem tracks_get : Tracks ρ s (get : FrameAction Frame) get :=
  fun f hf => .inl ⟨f, f, rfl, rfl, hf, hf⟩

/-- Renamed values are pushed on renamed slots. -/
theorem tracks_push {v : Value} (hv : Fits ρ s v) : Tracks ρ s (push v) (push (rename ρ v)) := by
  refine tracks_modify fun f hf => ⟨?_, ?_⟩
  · exact rename_withSlots f (Array.map_push (f := rename ρ) (x := some v)).symm
  · refine fits_withSlots hf rfl fun slot hslot => ?_
    rw [withSlot, Array.toList_push] at hslot
    obtain hold | hnew := List.mem_append.mp hslot
    · exact .inl hold
    · rw [List.mem_singleton.mp hnew]
      exact .inr (fits_some.mpr hv)

/-- The entries popped correspond; the stacks are equally high, so both fail or none does.
-/
theorem tracks_popSlot : Tracks ρ s popSlot popSlot := by
  refine tracks_get_bind fun f hf => ?_
  rw [size_slots_rename, nlocals_rename]
  have hpop : Tracks ρ s
      ((modify fun f => { f with slots := f.slots.pop }) >>= fun _ => pure f.slots.back?.join)
      ((modify fun f => { f with slots := f.slots.pop }) >>= fun _ =>
        pure (rename ρ f).slots.back?.join) := by
    refine (tracks_modify fun g hg => ⟨?_, ?_⟩).bind fun _ _ => ?_
    · exact rename_withSlots g Array.map_pop.symm
    · refine fits_withSlots hg rfl fun slot hslot => .inl ?_
      rw [Array.toList_pop] at hslot
      exact (List.dropLast_sublist _).subset hslot
    · rw [Array.back?_eq_getElem?, Array.back?_eq_getElem?, size_slots_rename, join_getElem?_rename]
      exact tracks_pure (fits_join_getElem? hf _)
  split
  · exact (tracks_breach (α := PUnit) _).bind fun _ _ => hpop
  · exact hpop

theorem tracks_pop : Tracks ρ s pop pop := by
  refine tracks_popSlot.bind fun slot hslot => ?_
  cases slot with
  | none => exact tracks_get_bind fun f _ => tracks_breach _
  | some v => exact tracks_pure (fits_some.mp hslot)

theorem tracks_peek (depth : Nat) : Tracks ρ s (peek depth) (peek depth) := by
  refine tracks_get_bind fun f hf => ?_
  unfold Frame.peek
  rw [depth_rename, size_slots_rename, join_getElem?_rename]
  have hfits := fits_join_getElem? hf (f.slots.size - 1 - depth)
  by_cases hd : f.depth ≤ depth
  · rw [if_pos hd, if_pos hd]
    exact tracks_breach _
  · rw [if_neg hd, if_neg hd]
    cases hslot : (f.slots[f.slots.size - 1 - depth]?).join with
    | none => exact tracks_breach _
    | some v =>
        rw [hslot] at hfits
        exact tracks_pure (fits_some.mp hfits)

/-- The top entries correspond one by one. -/
theorem tracks_topSlots (count : Nat) : Tracks ρ s (topSlots count) (topSlots count) := by
  refine tracks_get_bind fun f hf => ?_
  unfold Frame.topSlots
  rw [depth_rename, size_slots_rename]
  by_cases hd : f.depth < count
  · rw [if_pos hd, if_pos hd]
    exact tracks_breach _
  · rw [if_neg hd, if_neg hd]
    have hslots : (rename ρ f).slots.toList.drop (f.slots.size - count)
        = rename ρ (f.slots.toList.drop (f.slots.size - count)) := by
      show (f.slots.map (rename ρ)).toList.drop _ = _
      rw [Array.toList_map, ← List.map_drop]
      rfl
    rw [hslots]
    exact tracks_pure (fits_list.mpr fun slot hslot =>
      (fits_frame.mp hf).2 slot (List.mem_of_mem_drop hslot))

/-- Slots are taken from the bottom. -/
theorem tracks_modify_take (count : Frame → Nat) (h : ∀ f, count (rename ρ f) = count f) :
    Tracks ρ s (modify fun f => { f with slots := f.slots.take (count f) })
      (modify fun f => { f with slots := f.slots.take (count f) }) := by
  refine tracks_modify fun f hf => ⟨?_, ?_⟩
  · rw [h]
    exact rename_withSlots f Array.map_extract.symm
  · refine fits_withSlots hf rfl fun slot hslot => .inl ?_
    rw [Array.take_eq_extract, Array.toList_extract, List.extract_eq_take_drop] at hslot
    exact List.mem_of_mem_drop (List.mem_of_mem_take hslot)

/-- Heights decide what is dropped or cut. -/
theorem tracks_drop (count : Nat) : Tracks ρ s (drop count) (drop count) := by
  refine tracks_get_bind fun f _ => ?_
  rw [depth_rename]
  have htake := tracks_modify_take (ρ := ρ) (s := s) (fun f => f.slots.size - count) fun f => by
    rw [size_slots_rename]
  split
  · exact (tracks_breach (α := PUnit) _).bind fun _ _ => htake
  · exact htake

theorem tracks_truncate (level : Nat) : Tracks ρ s (truncate level) (truncate level) :=
  tracks_modify_take (fun f => max level f.nlocals) fun _ => rfl

/-- Exchanging entries commutes with renaming them. -/
theorem map_swapIfInBounds {γ δ : Type} (f : γ → δ) (xs : Array γ) (i j : Nat) :
    (xs.swapIfInBounds i j).map f = (xs.map f).swapIfInBounds i j := by
  apply Array.ext
  · rw [Array.size_map, Array.size_swapIfInBounds, Array.size_swapIfInBounds, Array.size_map]
  · intro k _ _
    simp only [Array.getElem_map, Array.getElem_swapIfInBounds, Array.size_map]
    grind

theorem mem_of_mem_swapIfInBounds {γ : Type} {x : γ} {xs : Array γ} {i j : Nat}
    (h : x ∈ xs.swapIfInBounds i j) : x ∈ xs := by
  obtain ⟨k, hk, rfl⟩ := Array.mem_iff_getElem.mp h
  rw [Array.getElem_swapIfInBounds]
  grind

theorem tracks_swap : Tracks ρ s swap swap := by
  refine (tracks_topSlots 2).bind fun _ _ => tracks_modify fun f hf => ⟨?_, ?_⟩
  · rw [size_slots_rename]
    exact rename_withSlots f (map_swapIfInBounds ..).symm
  · refine fits_withSlots hf rfl fun slot hslot => .inl ?_
    rw [Array.mem_toList_iff] at hslot ⊢
    exact mem_of_mem_swapIfInBounds hslot

/-- A local may be set to corresponding contents. -/
theorem tracks_setLocal (slot : Nat) (content : Option Value) (h : Fits ρ s content) :
    Tracks ρ s (setLocal slot content) (setLocal slot (rename ρ content)) := by
  refine tracks_get_bind fun f _ => ?_
  have hset : Tracks ρ s
      (modify fun f => { f with slots := f.slots.setIfInBounds slot content })
      (modify fun f => { f with slots := f.slots.setIfInBounds slot (rename ρ content) }) := by
    refine tracks_modify fun f hf => ⟨?_, ?_⟩
    · exact rename_withSlots f Array.map_setIfInBounds.symm
    · refine fits_withSlots hf rfl fun slot' hslot => ?_
      rw [Array.toList_setIfInBounds] at hslot
      obtain hold | hnew := List.mem_or_eq_of_mem_set hslot
      · exact .inl hold
      · exact .inr (hnew ▸ h)
  rw [nlocals_rename]
  split
  · exact (tracks_breach (α := PUnit) _).bind fun _ _ => hset
  · exact hset

/-- Blocks refer to no place. -/
theorem tracks_pushBlock (b : Block) : Tracks ρ s (pushBlock b) (pushBlock b) :=
  tracks_modify fun _ hf => ⟨rfl, fits_withSlots hf rfl fun _ => .inl⟩

theorem tracks_popBlock : Tracks ρ s popBlock popBlock := by
  intro f hf
  have hsame (o : Option Block) : rename ρ o = o := Option.map_id'
  refine .inl ⟨f.blocks.head?, { f with blocks := f.blocks.tail }, rfl, ?_, ?_,
    fits_withSlots hf rfl fun _ => .inl⟩
  · rw [hsame]
    rfl
  · cases f.blocks.head? with
    | none => exact fits_none
    | some b => exact fits_some.mpr (fits_plain b)

/-- Items popped one by one, with those already taken. -/
theorem tracks_popValues : ∀ (count : Nat) (taken : List Value), Fits ρ s taken →
    Tracks ρ s (popValues count taken) (popValues count (rename ρ taken))
  | 0, _, h => tracks_pure h
  | count + 1, taken, h => tracks_pop.bind fun v hv => by
      refine tracks_popValues count (v :: taken) (fits_list.mpr fun w hw => ?_)
      obtain rfl | hw := List.mem_cons.mp hw
      · exact hv
      · exact fits_list.mp h w hw

theorem tracks_popSaved (level : Nat) : Tracks ρ s (popSaved level) (popSaved level) :=
  (tracks_truncate _).bind fun _ _ => tracks_popSlot.bind fun _ _ =>
    tracks_popSlot.bind fun _ hv => tracks_popSlot.bind fun _ _ => tracks_pure hv

/-- The slots that keep an exception are those of the renamed exception. -/
theorem savedTriplet_rename (previous : Option Value) :
    savedTriplet (rename ρ previous) = rename ρ (savedTriplet previous) := by
  cases previous with
  | none => rfl
  | some exc =>
      show [some (Value.str (exc.rename ρ).typeName), some (exc.rename ρ), some .none] = _
      rw [Value.typeName_rename]
      rfl

/-- What a handler saves refers to the exception handled before, and to nothing else. -/
theorem fits_savedTriplet {previous : Option Value} (h : Fits ρ s previous) :
    Fits ρ s (savedTriplet previous) := by
  cases previous with
  | none =>
      refine fits_list.mpr fun slot hslot => ?_
      simp only [savedTriplet, List.mem_cons, List.not_mem_nil, or_false, or_self] at hslot
      rw [hslot]
      exact fits_none
  | some exc =>
      refine fits_list.mpr fun slot hslot => ?_
      simp only [savedTriplet, List.mem_cons, List.not_mem_nil, or_false] at hslot
      obtain rfl | rfl | rfl := hslot
      · exact fits_some.mpr ((fits_of_isLeaf rfl).mpr trivial)
      · exact h
      · exact fits_some.mpr ((fits_of_isLeaf rfl).mpr trivial)

/-- Entering a handler for corresponding exceptions. -/
theorem tracks_enterHandler (level handler : Nat) {previous : Option Value} {exc : Value}
    (hprev : Fits ρ s previous) (hexc : Fits ρ s exc) :
    Tracks ρ s (enterHandler level handler previous exc)
      (enterHandler level handler (rename ρ previous) (rename ρ exc)) := by
  refine (tracks_truncate _).bind fun _ _ => (tracks_pushBlock _).bind fun _ _ =>
    tracks_modify fun f hf => ⟨?_, ?_⟩
  · have hslots : (rename ρ f).slots ++ savedTriplet (rename ρ previous) ++ [some (rename ρ exc)]
        = rename ρ (f.slots ++ savedTriplet previous ++ [some exc]) := by
      rw [savedTriplet_rename]
      show f.slots.map (rename ρ) ++ (savedTriplet previous).map (rename ρ)
        ++ [some exc].map (rename ρ) = (f.slots ++ savedTriplet previous ++ [some exc]).map _
      apply Array.toList_inj.mp
      simp only [Array.toList_appendList, Array.toList_map, List.map_append]
    exact hslots ▸ rfl
  · refine fits_withSlots hf rfl fun slot hslot => ?_
    rw [Array.toList_appendList, Array.toList_appendList, List.mem_append, List.mem_append,
      List.mem_singleton] at hslot
    obtain (hold | hsaved) | rfl := hslot
    · exact .inl hold
    · exact .inr (fits_list.mp (fits_savedTriplet hprev) slot hsaved)
    · exact .inr (fits_some.mpr hexc)

theorem tracks_operands : Tracks ρ s operands operands :=
  tracks_pop.bind fun right hr => tracks_pop.bind fun left hl =>
    tracks_pure (a := (left, right)) (fits_prod.mpr ⟨hl, hr⟩)

end FrameAction

/-! ## §3. Machines that are alike. -/

/-- What two runs that are compared have in common, and what each has alone. -/
structure Correspondence where
  /-- Where the values of the first run are in the second. -/
  places : Renaming
  /-- The globals that no run reads. -/
  hidden : String → Prop
  /-- The settings of both. -/
  config : Config
  /-- The lines that the first run had printed before. -/
  printed : Array String
  /-- The lines that the second run had printed before. -/
  printed' : Array String

namespace Vm

/-- A machine after some work: it knows what it knew, and globals that can be
read are what they were. -/
structure Grows (hidden : String → Prop) (vm w : Vm) : Prop where
  store : vm.store.Extends w.store
  globals : ∀ name, ¬ hidden name → w.globals.find? name = vm.globals.find? name

theorem Grows.refl (hidden : String → Prop) (vm : Vm) : vm.Grows hidden vm :=
  ⟨.refl _, fun _ _ => rfl⟩

/-- Machines that grow step by step. -/
theorem Grows.trans {hidden : String → Prop} {vm w u : Vm} (h₁ : vm.Grows hidden w)
    (h₂ : w.Grows hidden u) : vm.Grows hidden u :=
  ⟨h₁.store.trans h₂.store, fun name hn => (h₂.globals name hn).trans (h₁.globals name hn)⟩

/-- Two machines without hooks and resumes that have the same frames, globals
and stores, renamed, and have printed the same lines since the comparison began. -/
structure Alike (c : Correspondence) (vm vm' : Vm) : Prop where
  config_eq : vm.config = c.config
  config_eq' : vm'.config = c.config
  store : vm.store.Alike c.places vm'.store
  frames_eq : vm'.frames = rename c.places vm.frames
  fits_frames : Fits c.places vm.store vm.frames
  globals_eq : ∀ name, ¬ c.hidden name →
    vm'.globals.find? name = rename c.places (vm.globals.find? name)
  fits_globals : ∀ name, ¬ c.hidden name → Fits c.places vm.store (vm.globals.find? name)
  handled_eq : vm'.handled = rename c.places vm.handled
  fits_handled : Fits c.places vm.store vm.handled
  hooks_eq : vm.hooks.entries = []
  hooks_eq' : vm'.hooks.entries = []
  armed_eq : vm.armed = none
  armed_eq' : vm'.armed = none
  output_eq : ∃ lines, vm.output = c.printed ++ lines ∧ vm'.output = c.printed' ++ lines

namespace Alike

variable {c : Correspondence} {vm vm' : Vm}

/-- Both stores have grown and are still alike. -/
theorem withStore (h : vm.Alike c vm') (hs : vm.store.Extends s) (ht : s.Alike c.places t) :
    { vm with store := s }.Alike c { vm' with store := t } :=
  { h with
    store := ht
    fits_frames := h.fits_frames.mono hs
    fits_globals := fun name hn => (h.fits_globals name hn).mono hs
    fits_handled := h.fits_handled.mono hs }

/-- Both machines have other frames, which are alike. -/
theorem withFrames (h : vm.Alike c vm') {frames frames' : List Frame}
    (heq : frames' = rename c.places frames) (hfits : Fits c.places vm.store frames) :
    { vm with frames := frames }.Alike c { vm' with frames := frames' } :=
  { h with frames_eq := heq, fits_frames := hfits }

/-- Frame by frame the stacks correspond. -/
theorem frames_cons (h : vm.Alike c vm') {f : Frame} {rest : List Frame}
    (hframes : vm.frames = f :: rest) :
    vm'.frames = rename c.places f :: rename c.places rest := by
  rw [h.frames_eq, hframes]
  rfl

theorem fits_top (h : vm.Alike c vm') {f : Frame} {rest : List Frame}
    (hframes : vm.frames = f :: rest) : Fits c.places vm.store f :=
  fits_list.mp (hframes ▸ h.fits_frames) f (List.mem_cons_self ..)

/-- The innermost frames are other ones, which are alike. -/
theorem withTop (h : vm.Alike c vm') {f g : Frame} {rest : List Frame}
    (hframes : vm.frames = f :: rest) (hg : Fits c.places vm.store g) :
    { vm with frames := g :: rest }.Alike c
      { vm' with frames := rename c.places g :: rename c.places rest } := by
  refine h.withFrames rfl (fits_list.mpr fun k hk => ?_)
  obtain rfl | hk := List.mem_cons.mp hk
  · exact hg
  · exact fits_list.mp (hframes ▸ h.fits_frames) k (List.mem_cons_of_mem _ hk)

/-- Another exception is handled on both machines. -/
theorem withHandled (h : vm.Alike c vm') {exc : Option Value}
    (hexc : Fits c.places vm.store exc) :
    { vm with handled := exc }.Alike c { vm' with handled := rename c.places exc } :=
  { h with handled_eq := rfl, fits_handled := hexc }

end Alike

end Vm

/-! ## §4. Actions on machines. -/

/-- A result of an action on a machine, and one of an action on a machine that
is alike. -/
structure Leads [Renamable α] (c : Correspondence) (vm w w' : Vm) (a a' : α) : Prop where
  grows : vm.Grows c.hidden w
  alike : w.Alike c w'
  renamed : a' = rename c.places a
  fits : Fits c.places w.store a

namespace VmAction

variable [Renamable α] [Renamable β] {c : Correspondence} {vm vm' : Vm}

/-- Two actions end alike on two machines. -/
def TracksAt (c : Correspondence) (vm vm' : Vm) (x x' : VmAction α) : Prop :=
  (∃ a a' w w', x vm = .ok a w ∧ x' vm' = .ok a' w' ∧ Leads c vm w w' a a') ∨
    ∃ e e' w w', x vm = .error e w ∧ x' vm' = .error e' w' ∧ Leads c vm w w' e e'

/-- Two actions end alike on any two machines that are alike, the first of which
has a given store. -/
def Tracks (c : Correspondence) (s : Store) (x x' : VmAction α) : Prop :=
  ∀ vm vm', vm.store = s → vm.Alike c vm' → TracksAt c vm vm' x x'

theorem tracks_pure {a : α} (h : Fits c.places s a) :
    Tracks c s (pure a) (pure (rename c.places a)) := by
  intro vm vm' hs ha
  subst hs
  exact .inl ⟨a, _, vm, vm', rfl, rfl, .refl _ vm, ha, rfl, h⟩

/-- Corresponding faults. -/
theorem tracks_error {e : Fault} (h : Fits c.places s e) :
    Tracks (α := α) c s (throw e) (throw (rename c.places e)) := by
  intro vm vm' hs ha
  subst hs
  exact .inr ⟨e, _, vm, vm', rfl, rfl, .refl _ vm, ha, rfl, h⟩

theorem tracks_breach (b : Breach) : Tracks (α := α) c s (breach b) (breach b) :=
  tracks_error (e := .internal b) (fits_of_leaves_nil rfl)

/-- One action after another, on two machines. -/
theorem TracksAt.bind {x x' : VmAction α} {k k' : α → VmAction β} (hx : TracksAt c vm vm' x x')
    (hk : ∀ a w w', x vm = .ok a w → vm.Grows c.hidden w → w.Alike c w' →
      Fits c.places w.store a → TracksAt c w w' (k a) (k' (rename c.places a))) :
    TracksAt c vm vm' (x >>= k) (x' >>= k') := by
  obtain ⟨a, a', w, w', ha, ha', hl⟩ | ⟨e, e', w, w', he, he', hl⟩ := hx
  · obtain rfl := hl.renamed
    have hbind : (x >>= k) vm = k a w := by
      show EStateM.bind x k vm = _
      rw [EStateM.bind, ha]
    have hbind' : (x' >>= k') vm' = k' (rename c.places a) w' := by
      show EStateM.bind x' k' vm' = _
      rw [EStateM.bind, ha']
    unfold TracksAt
    rw [hbind, hbind']
    obtain ⟨b, b', u, u', hb, hb', hm⟩ | ⟨e, e', u, u', he, he', hm⟩ :=
      hk a w w' ha hl.grows hl.alike hl.fits
    · exact .inl ⟨b, b', u, u', hb, hb', hl.grows.trans hm.grows, hm.alike, hm.renamed, hm.fits⟩
    · exact .inr ⟨e, e', u, u', he, he', hl.grows.trans hm.grows, hm.alike, hm.renamed, hm.fits⟩
  · refine .inr ⟨e, e', w, w', ?_, ?_, hl⟩
    · show EStateM.bind x k vm = _
      rw [EStateM.bind, he]
    · show EStateM.bind x' k' vm' = _
      rw [EStateM.bind, he']

/-- One action after another. -/
theorem Tracks.bind {x x' : VmAction α} {k k' : α → VmAction β} (hx : Tracks c s x x')
    (hk : ∀ u a, s.Extends u → Fits c.places u a → Tracks c u (k a) (k' (rename c.places a))) :
    Tracks c s (x >>= k) (x' >>= k') := by
  intro vm vm' hs ha
  refine (hx vm vm' hs ha).bind fun a w w' _ hg hw hf => ?_
  exact hk w.store a (hs ▸ hg.store) hf w w' rfl hw

/-- An action that looks at the machine first, on two machines. -/
theorem tracksAt_get_bind {k k' : Vm → VmAction β} (h : TracksAt c vm vm' (k vm) (k' vm')) :
    TracksAt c vm vm' (get >>= k) (get >>= k') :=
  h

/-- An action that looks at the machine first. -/
theorem tracks_get_bind {k k' : Vm → VmAction β}
    (h : ∀ vm vm', vm.store = s → vm.Alike c vm' → Tracks c s (k vm) (k' vm')) :
    Tracks c s (get >>= k) (get >>= k') :=
  fun vm vm' hs ha => h vm vm' hs ha vm vm' hs ha

/-- A change of machines that keeps them alike. -/
theorem tracks_modify {g g' : Vm → Vm}
    (h : ∀ vm vm', vm.store = s → vm.Alike c vm' →
      vm.Grows c.hidden (g vm) ∧ (g vm).Alike c (g' vm')) :
    Tracks c s (modify g) (modify g') := by
  intro vm vm' hs ha
  obtain ⟨hg, halike⟩ := h vm vm' hs ha
  exact .inl ⟨(), (), g vm, g' vm', rfl, rfl, hg, halike, rfl, fits_plain _⟩

/-- The same exception is raised on both machines. -/
theorem tracks_raise (cause : Cause) : Tracks (α := α) c s (raise cause) (raise cause) := by
  intro vm vm' hs ha
  have hm := ha.store.makeException cause.typeName cause.message
  refine .inr ⟨.exception (vm.store.makeException cause.typeName cause.message).1,
    .exception (vm'.store.makeException cause.typeName cause.message).1,
    { vm with store := (vm.store.makeException cause.typeName cause.message).2 },
    { vm' with store := (vm'.store.makeException cause.typeName cause.message).2 }, rfl, rfl,
    ⟨hm.grows, fun _ _ => rfl⟩, ha.withStore hm.grows hm.alike, ?_, hm.fits⟩
  exact congrArg Fault.exception hm.renamed

/-- Pure computations with corresponding results. -/
theorem tracks_lift {r r' : Except Cause α} (hr : r' = rename c.places r)
    (h : Fits c.places s r) : Tracks c s (lift r) (lift r') := by
  subst hr
  cases r with
  | ok a => exact tracks_pure h
  | error cause => exact tracks_raise cause

theorem tracks_ofExcept {r r' : Except Fault α} (hr : r' = rename c.places r)
    (h : Fits c.places s r) : Tracks c s (ofExcept r) (ofExcept r') := by
  subst hr
  cases r with
  | ok a => exact tracks_pure h
  | error e => exact tracks_error h

/-- A computation on the stores of both machines. -/
theorem tracks_onStore {x x' : Calc α} (hx : Calc.Tracks c.places s x x') :
    Tracks c s (onStore x) (onStore x') := by
  intro vm vm' hs ha
  subst hs
  obtain ⟨cause, hc, hc'⟩ | ⟨⟨a, u⟩, ⟨a', u'⟩, hr, hr', hm⟩ := hx vm'.store ha.store
  · have honStore : onStore x vm = raise cause vm := by
      unfold onStore
      simp only [bind, EStateM.bind, get, getThe, MonadStateOf.get, EStateM.get, StateT.run, hc]
    have honStore' : onStore x' vm' = raise cause vm' := by
      unfold onStore
      simp only [bind, EStateM.bind, get, getThe, MonadStateOf.get, EStateM.get, StateT.run, hc']
    unfold TracksAt
    rw [honStore, honStore']
    exact tracks_raise cause vm vm' rfl ha
  · refine .inl ⟨a, a', { vm with store := u }, { vm' with store := u' }, ?_, ?_,
      ⟨hm.grows, fun _ _ => rfl⟩, ha.withStore hm.grows hm.alike, hm.renamed, hm.fits⟩
    · unfold onStore
      simp only [bind, EStateM.bind, get, getThe, MonadStateOf.get, EStateM.get, StateT.run, hr]
      rfl
    · unfold onStore
      simp only [bind, EStateM.bind, get, getThe, MonadStateOf.get, EStateM.get, StateT.run, hr']
      rfl

/-- An action on the innermost frames of both machines. -/
theorem tracks_onFrame {x x' : FrameAction α} (hx : FrameAction.Tracks c.places s x x') :
    Tracks c s (onFrame x) (onFrame x') := by
  intro vm vm' hs ha
  subst hs
  cases hframes : vm.frames with
  | nil =>
      have hframes' : vm'.frames = [] := by rw [ha.frames_eq, hframes]; rfl
      refine .inr ⟨.internal .noActiveFrame, _, vm, vm', ?_, ?_, .refl _ vm, ha, rfl,
        fits_of_leaves_nil rfl⟩
      · rw [onFrame, hframes]
      · rw [onFrame, hframes']
        rfl
  | cons f rest =>
      have hframes' := ha.frames_cons hframes
      obtain ⟨a, g, hok, hok', hfa, hg⟩ | ⟨e, g, herr, herr', hfe, hg⟩ :=
        hx f (ha.fits_top hframes)
      · refine .inl ⟨a, _, { vm with frames := g :: rest },
          { vm' with frames := rename c.places g :: rename c.places rest }, ?_, ?_,
          ⟨.refl _, fun _ _ => rfl⟩, ha.withTop hframes hg, rfl, hfa⟩
        · rw [onFrame_apply hframes, hok]
        · rw [onFrame_apply hframes', hok']
      · refine .inr ⟨e, _, { vm with frames := g :: rest },
          { vm' with frames := rename c.places g :: rename c.places rest }, ?_, ?_,
          ⟨.refl _, fun _ _ => rfl⟩, ha.withTop hframes hg, rfl, hfe⟩
        · rw [onFrame_apply hframes, herr]
        · rw [onFrame_apply hframes', herr']

theorem tracks_currentFrame : Tracks c s currentFrame currentFrame :=
  tracks_onFrame FrameAction.tracks_get

end VmAction

end Resumable
