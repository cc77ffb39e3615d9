/-
  Resumable.Proofs.HeldBodies
  ───────────────────────────
  **WHERE FUNCTIONS COME FROM.**

  A program gets its functions from the host, and makes new ones only from the
  constants of bodies it runs.  So if every body that is held somewhere has a
  property, and with a body all bodies among its constants have it, then no run
  ever gets hold of a function without it:

      globals, lists, dicts, objects, iterators, slots    (Holds)
          │ every action
          ▾
      the same, and all that the action comes to   (Yields)

  `Within B a` says it of any data that holds values, by their leaves.  `Yields`
  says it of an action, and is closed under sequencing; here are the actions on
  one frame and the computations on a store.

  Main results:
    • `Store.Holds.ofConstant`  — a new function has a body among the constants,
    • `FrameAction.yields_*`    — actions on a frame,
    • `Calc.yields_*`           — computations on a store.
-/
import Resumable.Proofs.RenamedRun
import Resumable.Proofs.StackEffect

namespace Resumable

variable {α β σ ε : Type}

/-! ## §1. Data that holds functions. -/

/-- The bodies that a program may hold: with each also those in its constants. -/
structure Bodies where
  holds : Code → Prop
  nested : ∀ {c inner : Code}, holds c → Constant.code inner ∈ c.constants → holds inner

variable {B : Bodies}

/-- Every function in some data has a body that may be held. -/
def Within [Renamable α] (B : Bodies) (a : α) : Prop :=
  ∀ f, Value.function f ∈ leaves a → B.holds f.code

/-- Data that holds no value holds no function. -/
theorem within_of_leaves_nil [Renamable α] {a : α} (h : leaves a = []) : Within B a := by
  intro f hf
  rw [h] at hf
  cases hf

theorem within_plain (a : α) : @Within α (.plain α) B a := by
  intro f hf
  cases hf

section Within

variable [Renamable α] [Renamable β]

@[simp] theorem within_nil : Within B ([] : List α) :=
  within_of_leaves_nil rfl

@[simp] theorem within_none : Within B (none : Option α) :=
  within_of_leaves_nil rfl

@[simp] theorem within_some {a : α} : Within B (some a) ↔ Within B a := by
  show (∀ f, _ ∈ [a].flatMap leaves → _) ↔ _
  rw [List.flatMap_singleton]
  rfl

@[simp] theorem within_list {l : List α} : Within B l ↔ ∀ a ∈ l, Within B a := by
  constructor
  · intro h a ha f hf
    exact h f (List.mem_flatMap.mpr ⟨a, ha, hf⟩)
  · intro h f hf
    obtain ⟨a, ha, hf⟩ := List.mem_flatMap.mp hf
    exact h a ha f hf

theorem within_cons {a : α} {l : List α} : Within B (a :: l) ↔ Within B a ∧ Within B l := by
  simp

@[simp] theorem within_array {l : Array α} : Within B l ↔ ∀ a ∈ l.toList, Within B a :=
  within_list (l := l.toList)

@[simp] theorem within_prod {p : α × β} : Within B p ↔ Within B p.1 ∧ Within B p.2 := by
  constructor
  · intro h
    exact ⟨fun f hf => h f (List.mem_append_left _ hf), fun f hf => h f (List.mem_append_right _ hf)⟩
  · rintro ⟨h₁, h₂⟩ f hf
    exact (List.mem_append.mp hf).elim (h₁ f) (h₂ f)

@[simp] theorem within_ok {b : β} : Within B (Except.ok b : Except α β) ↔ Within B b := Iff.rfl

@[simp] theorem within_error {a : α} : Within B (Except.error a : Except α β) ↔ Within B a := Iff.rfl

end Within

/-- Whether a value is neither a function nor holds others. -/
def Value.isInert : Value → Bool
  | .tuple _ | .function _ => false
  | _ => true

/-- An inert value holds no function. -/
theorem within_of_isInert {v : Value} (h : v.isInert = true) : Within B v := by
  intro f hf
  cases v with
  | tuple items => cases h
  | function g => cases h
  | _ => cases List.mem_singleton.mp hf

@[simp] theorem within_tuple {items : List Value} : Within B (Value.tuple items) ↔ Within B items := by
  unfold Within
  show (∀ f, _ ∈ (Value.tuple items).leaves → _) ↔ _
  rw [Value.leaves_tuple]
  rfl

/-- A function holds itself. -/
@[simp] theorem within_function {f : Function} : Within B f ↔ B.holds f.code := by
  constructor
  · intro h
    exact h f (List.mem_singleton.mpr rfl)
  · intro h g hg
    obtain rfl := Value.function.inj (List.mem_singleton.mp hg)
    exact h

@[simp] theorem within_functionValue {f : Function} : Within B (Value.function f) ↔ Within B f :=
  Iff.rfl

/-- Text holds no function. -/
theorem within_texts {γ : Type} (l : List γ) (text : γ → String) :
    Within B (l.map fun x => Value.str (text x)) := by
  refine within_list.mpr fun v hv => ?_
  obtain ⟨x, -, rfl⟩ := List.mem_map.mp hv
  exact within_of_isInert rfl

/-- What is found under a name is one of the entries. -/
theorem within_find? {entries : Bindings Value} (h : Within B entries) (name : String) :
    Within B (entries.find? name) := by
  induction entries with
  | nil => exact within_none
  | cons entry rest ih =>
      obtain ⟨key, v⟩ := entry
      obtain ⟨hentry, hrest⟩ := within_cons.mp h
      rw [Bindings.find?_cons]
      split
      · exact within_some.mpr (within_prod.mp hentry).2
      · exact ih hrest

/-- An entry that is set may be held. -/
theorem within_set {entries : Bindings Value} {v : Value} (h : Within B entries) (name : String)
    (hv : Within B v) : Within B (entries.set name v) := by
  have hnew : Within B (name, v) := within_prod.mpr ⟨within_plain _, hv⟩
  induction entries with
  | nil => exact within_cons.mpr ⟨hnew, within_nil⟩
  | cons entry rest ih =>
      obtain ⟨key, w⟩ := entry
      obtain ⟨hentry, hrest⟩ := within_cons.mp h
      unfold Bindings.set
      split
      · exact within_cons.mpr ⟨hnew, hrest⟩
      · split
        · exact within_cons.mpr ⟨hnew, h⟩
        · exact within_cons.mpr ⟨hentry, ih hrest⟩

/-- The arguments of a call hold what their two kinds do. -/
theorem within_arguments {args : Arguments} :
    Within B args ↔ Within B args.positional ∧ Within B args.keywords :=
  within_prod (p := (args.positional, args.keywords))

/-- A requested call holds its callee and its arguments. -/
theorem within_callRequest {req : CallRequest} :
    Within B req ↔ Within B req.callee ∧ Within B req.args :=
  within_prod (p := (req.callee, req.args))

/-- A call in progress holds its callee and its arguments. -/
theorem within_call {callee : Value} {args : Arguments} :
    Within B (Phase.call callee args) ↔ Within B callee ∧ Within B args :=
  within_prod (p := (callee, args))

/-! ## §2. Stores. -/

/-- What a cursor still has to give. -/
def Cursor.fixed : Cursor → List Value
  | .values rest => rest
  | _ => []

/-- Every function in a store, its continuations aside, has a body that may be held. -/
structure Store.Holds (B : Bodies) (s : Store) : Prop where
  lists : ∀ items ∈ s.lists, Within B items
  dicts : ∀ entries ∈ s.dicts, Within B entries
  attrs : ∀ o ∈ s.objects, Within B o.attrs
  cursors : ∀ c ∈ s.cursors, Within B c.fixed

namespace Store.Holds

variable {s : Store}

/-- What a list holds. -/
theorem list (h : s.Holds B) (place : Address) : Within B (s.list place) := by
  unfold Store.list
  cases hat : s.lists[place]? with
  | none => exact within_of_leaves_nil rfl
  | some items => exact h.lists items (Array.mem_of_getElem? hat)

/-- What a dict holds. -/
theorem dict (h : s.Holds B) (place : Address) : Within B (s.dict place) := by
  unfold Store.dict
  cases hat : s.dicts[place]? with
  | none => exact within_of_leaves_nil rfl
  | some entries => exact h.dicts entries (Array.mem_of_getElem? hat)

/-- What an object has itself. -/
theorem object (h : s.Holds B) (place : Address) : Within B (s.object place).attrs := by
  unfold Store.object
  cases hat : s.objects[place]? with
  | none => exact within_of_leaves_nil rfl
  | some o => exact h.attrs o (Array.mem_of_getElem? hat)

/-- An attribute found is that of an object. -/
theorem lookup (h : s.Holds B) {place : Address} {name : String} {found : Found}
    (hfound : s.lookup place name = some found) : Within B found.value := by
  unfold Store.lookup at hfound
  dsimp only at hfound
  have hown := within_find? (h.object place) name
  cases hattr : (s.object place).attrs.find? name with
  | some v =>
      rw [hattr] at hfound hown
      obtain rfl := Option.some.inj hfound
      exact within_some.mp hown
  | none =>
      rw [hattr] at hfound
      obtain ⟨v, hv, rfl⟩ := Option.map_eq_some_iff.mp hfound
      obtain ⟨c, -, hc⟩ := List.exists_of_findSome?_eq_some hv
      have hclass := within_find? (h.object c) name
      rw [hc] at hclass
      exact within_some.mp hclass

/-- A list is made of what may be held. -/
theorem makeList (h : s.Holds B) {items : Array Value} (hitems : Within B items) :
    (s.makeList items).2.Holds B :=
  { h with
    lists := by
      intro items' hmem
      rcases Array.mem_push.mp hmem with hold | rfl
      · exact h.lists items' hold
      · exact hitems }

/-- A dict is made of what may be held. -/
theorem makeDict (h : s.Holds B) {entries : Bindings Value} (hentries : Within B entries) :
    (s.makeDict entries).2.Holds B :=
  { h with
    dicts := by
      intro entries' hmem
      rcases Array.mem_push.mp hmem with hold | rfl
      · exact h.dicts entries' hold
      · exact hentries }

/-- A new object has nothing. -/
theorem makeObject (h : s.Holds B) (parent : Option Address) : (s.makeObject parent).2.Holds B :=
  { h with
    attrs := by
      intro o hmem
      rcases Array.mem_push.mp hmem with hold | rfl
      · exact h.attrs o hold
      · exact within_nil }

/-- An iterator is made over what may be held. -/
theorem makeIterator (h : s.Holds B) {cursor : Cursor} (hcursor : Within B cursor.fixed) :
    (s.makeIterator cursor).2.Holds B :=
  { h with
    cursors := by
      intro c hmem
      rcases Array.mem_push.mp hmem with hold | rfl
      · exact h.cursors c hold
      · exact hcursor }

/-- A serial number holds nothing. -/
theorem withSerial (h : s.Holds B) (serial : Nat) : Store.Holds B { s with serial := serial } :=
  ⟨h.lists, h.dicts, h.attrs, h.cursors⟩

/-- The functions of a body are made from its constants. -/
theorem ofConstant (h : s.Holds B) {c : Code} {index : Nat} {constant : Constant} (hc : B.holds c)
    (hat : c.constants[index]? = some constant) :
    (s.ofConstant constant).2.Holds B ∧ Within B (s.ofConstant constant).1
      ∧ (s.ofConstant constant).2.continuations = s.continuations := by
  cases constant with
  | names entries => exact ⟨h, within_tuple.mpr (within_texts entries id), rfl⟩
  | code inner =>
      refine ⟨h.withSerial _, ?_, rfl⟩
      exact within_functionValue.mpr (within_function.mpr (B.nested hc (Array.mem_of_getElem? hat)))
  | _ => exact ⟨h, within_of_isInert rfl, rfl⟩

/-- A list gets items that may be held. -/
theorem setList (h : s.Holds B) {items : Array Value} (place : Address) (hitems : Within B items) :
    (s.setList place items).Holds B :=
  { h with
    lists := by
      intro items' hmem
      rcases Array.mem_or_eq_of_mem_setIfInBounds hmem with hold | rfl
      · exact h.lists items' hold
      · exact hitems }

/-- An object gets an attribute that may be held. -/
theorem setAttr (h : s.Holds B) {v : Value} (place : Address) (name : String) (hv : Within B v) :
    (s.setAttr place name v).Holds B :=
  { h with
    attrs := by
      intro o hmem
      obtain ⟨i, hi, rfl⟩ := Array.mem_iff_getElem.mp hmem
      simp only [Store.setAttr, Array.getElem_modify]
      split
      · exact within_set (h.attrs _ (Array.getElem_mem _)) name hv
      · exact h.attrs _ (Array.getElem_mem _) }

/-- What a cursor gives is held by its list, or was held by the cursor. -/
theorem step (h : s.Holds B) {cursor : Cursor} (hcursor : Within B cursor.fixed) :
    Within B (s.step cursor).1 ∧ Within B (s.step cursor).2.fixed := by
  cases cursor with
  | list place next =>
      unfold Store.step
      dsimp only
      cases hat : (s.list place)[next]? with
      | none => exact ⟨within_none, within_nil⟩
      | some v =>
          refine ⟨within_some.mpr (within_array.mp (h.list place) v ?_), within_nil⟩
          exact Array.mem_toList_iff.mpr (Array.mem_of_getElem? hat)
  | values rest =>
      cases rest with
      | nil => exact ⟨within_none, within_nil⟩
      | cons v rest =>
          obtain ⟨hv, hrest⟩ := within_cons.mp hcursor
          exact ⟨within_some.mpr hv, hrest⟩
  | range next stop step =>
      unfold Store.step
      dsimp only
      by_cases hend : if 0 < step then stop ≤ next else next ≤ stop
      · rw [if_pos hend]
        exact ⟨within_none, within_nil⟩
      · rw [if_neg hend]
        exact ⟨within_some.mpr (within_of_isInert rfl), within_nil⟩

/-- What an iterator gives may be held. -/
theorem advance (h : s.Holds B) (place : Address) :
    (s.advance place).2.Holds B ∧ Within B (s.advance place).1
      ∧ (s.advance place).2.continuations = s.continuations := by
  unfold Store.advance
  cases hat : s.cursors[place]? with
  | none => exact ⟨h, within_none, rfl⟩
  | some cursor =>
      obtain ⟨hitem, hafter⟩ := h.step (h.cursors cursor (Array.mem_of_getElem? hat))
      refine ⟨{ h with cursors := ?_ }, hitem, rfl⟩
      intro c hmem
      rcases Array.mem_or_eq_of_mem_setIfInBounds hmem with hold | rfl
      · exact h.cursors c hold
      · exact hafter

/-- The arguments of a collected call are the items of a sequence. -/
theorem sequenceItems (h : s.Holds B) {v : Value} (hv : Within B v) :
    Within B (Resumable.sequenceItems s v) := by
  cases v with
  | tuple items => exact within_tuple.mp hv
  | list place => exact within_list.mpr (within_array.mp (h.list place))
  | _ => exact within_of_leaves_nil rfl

end Store.Holds

/-! ## §3. Actions. -/

/-- An end with a state that keeps `I`, and with values whose functions have
bodies that may be held. -/
def Ends [Renamable ε] [Renamable α] (B : Bodies) (I : σ → Prop) : EStateM.Result ε σ α → Prop
  | .ok a t => I t ∧ Within B a
  | .error e t => I t ∧ Within B e

/-- An action keeps `I`, and what it comes to has only functions whose bodies may
be held. -/
def Yields [Renamable ε] [Renamable α] (B : Bodies) (I : σ → Prop) (x : EStateM ε σ α) : Prop :=
  ∀ s, I s → Ends B I (x s)

section Yields

variable [Renamable ε] [Renamable α] [Renamable β] {I : σ → Prop}

/-- What an action that succeeds leaves and gives. -/
theorem Yields.of_ok {x : EStateM ε σ α} (h : Yields B I x) {s t : σ} {a : α} (hs : I s)
    (hx : x s = .ok a t) : I t ∧ Within B a := by
  have := h s hs
  rwa [hx] at this

/-- What an action that fails leaves and gives. -/
theorem Yields.of_error {x : EStateM ε σ α} (h : Yields B I x) {s t : σ} {e : ε} (hs : I s)
    (hx : x s = .error e t) : I t ∧ Within B e := by
  have := h s hs
  rwa [hx] at this

theorem yields_pure {a : α} (h : Within B a) : Yields B I (pure a : EStateM ε σ α) :=
  fun _ hs => ⟨hs, h⟩

theorem yields_throw {e : ε} (h : Within B e) : Yields B I (throw e : EStateM ε σ α) :=
  fun _ hs => ⟨hs, h⟩

/-- A state that is changed keeps what the change keeps. -/
theorem yields_modify {f : σ → σ} (h : ∀ s, I s → I (f s)) :
    Yields B I (modify f : EStateM ε σ PUnit) :=
  fun s hs => ⟨h s hs, within_plain _⟩

theorem yields_modifyGet {f : σ → α × σ} (h : ∀ s, I s → I (f s).2 ∧ Within B (f s).1) :
    Yields B I (modifyGet f : EStateM ε σ α) :=
  fun s hs => h s hs

/-- One action after another. -/
theorem Yields.bind {x : EStateM ε σ α} {k : α → EStateM ε σ β} (hx : Yields B I x)
    (hk : ∀ a, Within B a → Yields B I (k a)) : Yields B I (x >>= k) := by
  intro s hs
  show Ends B I (EStateM.bind x k s)
  unfold EStateM.bind
  cases hrun : x s with
  | error e t => exact hx.of_error hs hrun
  | ok a t =>
      obtain ⟨ht, ha⟩ := hx.of_ok hs hrun
      exact hk a ha t ht

/-- What is read off the state may be used. -/
theorem yields_get_bind {k : σ → EStateM ε σ β} (h : ∀ s, I s → Yields B I (k s)) :
    Yields B I (get >>= k) :=
  fun s hs => h s hs s hs

end Yields

/-- A breach holds no function. -/
theorem within_breach (b : Breach) : Within B (Fault.internal b) :=
  within_of_leaves_nil rfl

/-! ## §4. Frames. -/

/-- A frame holds its function and what is in its slots. -/
theorem within_frame {f : Frame} :
    Within B f ↔ Within B f.function ∧ ∀ slot ∈ f.slots, Within B slot := by
  refine (within_prod (p := (f.function, f.slots))).trans ?_
  simp only [within_array, Array.mem_toList_iff]

/-- A frame with other slots holds no more than it did and than is put there. -/
theorem within_withSlots {f g : Frame} (h : Within B f) (hfun : g.function = f.function)
    (hslots : ∀ slot ∈ g.slots, slot ∈ f.slots ∨ Within B slot) : Within B g := by
  obtain ⟨hf, hs⟩ := within_frame.mp h
  refine within_frame.mpr ⟨hfun ▸ hf, fun slot hslot => ?_⟩
  rcases hslots slot hslot with hold | hnew
  · exact hs slot hold
  · exact hnew

/-- A frame that stays in its slots holds no more. -/
theorem within_withTake {f : Frame} (h : Within B f) (count : Nat) :
    Within B { f with slots := f.slots.take count } := by
  refine within_withSlots h rfl fun slot hslot => .inl ?_
  rw [Array.take_eq_extract, ← Array.mem_toList_iff, Array.toList_extract,
    List.extract_eq_take_drop] at hslot
  exact Array.mem_toList_iff.mp (List.mem_of_mem_drop (List.mem_of_mem_take hslot))

/-- What a slot of a frame holds. -/
theorem within_slotAt {f : Frame} (h : Within B f) (index : Nat) :
    Within B (f.slots[index]?).join := by
  cases hat : f.slots[index]? with
  | none => exact within_none
  | some slot => exact (within_frame.mp h).2 slot (Array.mem_of_getElem? hat)

namespace FrameAction

theorem yields_get : Yields B (Within B) (get : FrameAction Frame) :=
  fun _ hf => ⟨hf, hf⟩

theorem yields_breach (b : Breach) [Renamable α] :
    Yields B (Within B) (throw (.internal b) : FrameAction α) :=
  yields_throw (within_breach b)

/-- A value that may be held is pushed. -/
theorem yields_push {v : Value} (hv : Within B v) : Yields B (Within B) (push v) := by
  refine yields_modify fun f hf => within_withSlots hf rfl fun slot hslot => ?_
  rcases Array.mem_push.mp hslot with hold | rfl
  · exact .inl hold
  · exact .inr (within_some.mpr hv)

theorem yields_pushEmpty : Yields B (Within B) pushEmpty := by
  refine yields_modify fun f hf => within_withSlots hf rfl fun slot hslot => ?_
  rcases Array.mem_push.mp hslot with hold | rfl
  · exact .inl hold
  · exact .inr within_none

/-- An entry is taken off the stack. -/
theorem yields_popSlot : Yields B (Within B) popSlot := by
  intro f hf
  rw [popSlot_apply]
  split
  · exact ⟨hf, within_breach _⟩
  · refine ⟨within_withSlots hf rfl fun slot hslot => .inl ?_, ?_⟩
    · rw [← Array.mem_toList_iff, Array.toList_pop] at hslot
      exact Array.mem_toList_iff.mp ((List.dropLast_sublist _).subset hslot)
    · rw [Array.back?_eq_getElem?]
      exact within_slotAt hf _

/-- A value is taken off the stack. -/
theorem yields_pop : Yields B (Within B) pop := by
  refine yields_popSlot.bind fun slot hslot => ?_
  cases slot with
  | none => exact yields_get_bind fun f _ => yields_breach _
  | some v => exact yields_pure (within_some.mp hslot)

/-- A value is read off the stack. -/
theorem yields_peek (depth : Nat) : Yields B (Within B) (peek depth) := by
  refine yields_get_bind fun f hf => ?_
  unfold Frame.peek
  split
  · next v hv =>
      split at hv
      · cases hv
      · have hslot := within_slotAt hf (f.slots.size - 1 - depth)
        split at hv
        · next w hw =>
            obtain rfl := Except.ok.inj hv
            rw [hw] at hslot
            exact yields_pure (within_some.mp hslot)
        · cases hv
  · next e he =>
      split at he
      · obtain rfl := Except.error.inj he
        exact yields_breach _
      · split at he
        · cases he
        · obtain rfl := Except.error.inj he
          exact yields_breach _

/-- The top entries are read off the stack. -/
theorem yields_topSlots (count : Nat) : Yields B (Within B) (topSlots count) := by
  refine yields_get_bind fun f hf => ?_
  unfold Frame.topSlots
  by_cases hroom : f.depth < count
  · rw [if_pos hroom]
    exact yields_breach _
  · rw [if_neg hroom]
    refine yields_pure (within_list.mpr fun slot hslot => ?_)
    exact (within_frame.mp hf).2 slot (Array.mem_toList_iff.mp (List.mem_of_mem_drop hslot))

/-- The top entries are dropped. -/
theorem yields_drop (count : Nat) : Yields B (Within B) (drop count) := by
  intro f hf
  rw [drop_apply]
  split
  · exact ⟨hf, within_breach _⟩
  · exact ⟨within_withTake hf _, within_plain _⟩

/-- The stack is cut down. -/
theorem yields_truncate (level : Nat) : Yields B (Within B) (truncate level) :=
  yields_modify fun _ hf => within_withTake hf _

/-- The top two entries change places. -/
theorem yields_swap : Yields B (Within B) swap := by
  refine (yields_topSlots 2).bind fun _ _ => yields_modify fun f hf => ?_
  exact within_withSlots hf rfl fun slot hslot => .inl (mem_of_mem_swapIfInBounds hslot)

/-- A local gets what may be held. -/
theorem yields_setLocal (slot : Nat) {content : Option Value} (h : Within B content) :
    Yields B (Within B) (setLocal slot content) := by
  intro f hf
  rw [setLocal_apply]
  split
  · exact ⟨hf, within_breach _⟩
  · refine ⟨within_withSlots hf rfl fun slot' hslot => ?_, within_plain _⟩
    rcases Array.mem_or_eq_of_mem_setIfInBounds hslot with hold | rfl
    · exact .inl hold
    · exact .inr h

theorem yields_pushBlock (b : Block) : Yields B (Within B) (pushBlock b) :=
  yields_modify fun _ hf => within_withSlots hf rfl fun _ => .inl

theorem within_block (found : Option Block) : Within B found := by
  cases found with
  | none => exact within_none
  | some b => exact within_some.mpr (within_plain b)

theorem yields_popBlock : Yields B (Within B) popBlock :=
  yields_modifyGet fun _ hf => ⟨within_withSlots hf rfl fun _ => .inl, within_block _⟩

/-- The top values are collected. -/
theorem yields_popValues (count : Nat) {taken : List Value} (h : Within B taken) :
    Yields B (Within B) (popValues count taken) := by
  induction count generalizing taken with
  | zero => exact yields_pure h
  | succ count ih => exact yields_pop.bind fun v hv => ih (within_cons.mpr ⟨hv, h⟩)

/-- The operands of an operator are taken. -/
theorem yields_operands : Yields B (Within B) operands :=
  yields_pop.bind fun _ hright => yields_pop.bind fun _ hleft =>
    yields_pure (within_prod.mpr ⟨hleft, hright⟩)

/-- The exception saved under a handler is taken. -/
theorem yields_popSaved (level : Nat) : Yields B (Within B) (popSaved level) :=
  (yields_truncate _).bind fun _ _ => yields_popSlot.bind fun _ _ =>
    yields_popSlot.bind fun _ hv => yields_popSlot.bind fun _ _ => yields_pure hv

/-- What is saved under a handler is the exception handled before. -/
theorem within_savedTriplet {previous : Option Value} (h : Within B previous) :
    Within B (savedTriplet previous) := by
  cases previous with
  | none =>
      exact within_cons.mpr ⟨within_none, within_cons.mpr ⟨within_none, within_cons.mpr
        ⟨within_none, within_nil⟩⟩⟩
  | some exc =>
      refine within_cons.mpr ⟨within_some.mpr (within_of_isInert rfl), within_cons.mpr ⟨h, ?_⟩⟩
      exact within_cons.mpr ⟨within_some.mpr (within_of_isInert rfl), within_nil⟩

/-- A handler is entered with an exception that may be held. -/
theorem yields_enterHandler (level handler : Nat) {previous : Option Value} {exc : Value}
    (hprevious : Within B previous) (hexc : Within B exc) :
    Yields B (Within B) (enterHandler level handler previous exc) := by
  intro f hf
  rw [enterHandler_apply]
  refine ⟨within_withSlots (within_withTake hf (max level f.nlocals)) rfl fun slot hslot => ?_,
    within_plain _⟩
  rw [← Array.mem_toList_iff, Array.toList_appendList, Array.toList_appendList] at hslot
  rcases List.mem_append.mp hslot with hslot | hslot
  · rcases List.mem_append.mp hslot with hold | hsaved
    · exact .inl (Array.mem_toList_iff.mp hold)
    · exact .inr (within_list.mp (within_savedTriplet hprevious) slot hsaved)
  · rw [List.mem_singleton.mp hslot]
    exact .inr (within_some.mpr hexc)

end FrameAction

/-! ## §5. Computations on a store. -/

/-- A computation that succeeds leaves a store that holds `B` with the
continuations `K`, and its value has only functions whose bodies may be held. -/
def Calc.Yields [Renamable α] (B : Bodies) (K : Array Continuation) (x : Calc α) : Prop :=
  ∀ s a t, s.Holds B → s.continuations = K → x.run s = .ok (a, t) →
    t.Holds B ∧ t.continuations = K ∧ Within B a

namespace Calc

variable [Renamable α] [Renamable β] {K : Array Continuation} {v w : Value}

theorem yields_pure {a : α} (h : Within B a) : Yields B K (pure a) := by
  intro s b t hs hK hrun
  obtain ⟨rfl, rfl⟩ := Prod.mk.inj (Except.ok.inj hrun)
  exact ⟨hs, hK, h⟩

/-- A computation that raises gives nothing. -/
theorem yields_throw (c : Cause) : Yields B K (throw c : Calc α) := by
  intro s a t _ _ hrun
  cases hrun

/-- A computation that does not touch the store. -/
theorem yields_liftM {r : Except Cause α} (h : ∀ a, r = .ok a → Within B a) :
    Yields B K (liftM r : Calc α) := by
  intro s a t hs hK hrun
  cases r with
  | error c => cases hrun
  | ok b =>
      obtain ⟨rfl, rfl⟩ := Prod.mk.inj (Except.ok.inj hrun)
      exact ⟨hs, hK, h _ rfl⟩

/-- A computation that always succeeds. -/
theorem yields_modifyGet {f : Store → α × Store}
    (h : ∀ s, s.Holds B → (f s).2.Holds B ∧ (f s).2.continuations = s.continuations
      ∧ Within B (f s).1) : Yields B K (modifyGet f : Calc α) := by
  intro s a t hs hK hrun
  have heq : f s = (a, t) := Except.ok.inj hrun
  obtain ⟨ht, hcont, ha⟩ := h s hs
  rw [heq] at ht hcont ha
  exact ⟨ht, hcont.trans hK, ha⟩

/-- One computation after another. -/
theorem Yields.bind {x : Calc α} {k : α → Calc β} (hx : Yields B K x)
    (hk : ∀ a, Within B a → Yields B K (k a)) : Yields B K (x >>= k) := by
  intro s b u hs hK hrun
  rw [StateT.run_bind] at hrun
  obtain ⟨⟨a, t⟩, ha, hb⟩ := except_bind_ok.mp hrun
  obtain ⟨ht, htK, hwithin⟩ := hx s a t hs hK ha
  exact hk a hwithin t b u ht htK hb

/-- A computation that reads the store first. -/
theorem yields_get_bind {k : Store → Calc β} (h : ∀ s, s.Holds B → Yields B K (k s)) :
    Yields B K (get >>= k) :=
  fun s b u hs hK hrun => h s hs s b u hs hK hrun

/-- A combination of integers is a number. -/
theorem within_integersBy {symbol : String} {op : Int → Int → Int}
    (h : integersBy symbol op v w = .ok u) : Within B u := by
  unfold integersBy at h
  split at h
  · unfold exactly at h
    split at h
    · obtain rfl := Except.ok.inj h
      exact within_of_isInert rfl
    · cases h
  · cases h

/-- A sum holds what its operands do. -/
theorem yields_add (hv : Within B v) (hw : Within B w) : Yields B K (add v w) := by
  unfold add
  split
  · exact yields_pure (within_of_isInert rfl)
  · refine yields_pure (within_tuple.mpr (within_list.mpr fun x hx => ?_))
    rcases List.mem_append.mp hx with hx | hx
    · exact within_list.mp (within_tuple.mp hv) x hx
    · exact within_list.mp (within_tuple.mp hw) x hx
  · refine yields_modifyGet fun s hs => ⟨hs.makeList ?_, rfl, within_of_isInert rfl⟩
    refine within_array.mpr fun x hx => ?_
    rw [Array.toList_append] at hx
    rcases List.mem_append.mp hx with hx | hx
    · exact within_array.mp (hs.list _) x hx
    · exact within_array.mp (hs.list _) x hx
  · exact yields_liftM fun _ => within_integersBy

theorem yields_subtract (v w : Value) : Yields B K (liftM (subtract v w) : Calc Value) :=
  yields_liftM fun _ => within_integersBy

/-- A product is a number or a text. -/
theorem within_multiply {r : Except Cause Value} (h : multiply v w = some r) {u : Value}
    (hr : r = .ok u) : Within B u := by
  have htext {text : String} {count : Nat}
      (h : (repeated? text count).map (Except.ok ∘ Value.str) = some r) : Within B u := by
    obtain ⟨made, -, rfl⟩ := Option.map_eq_some_iff.mp h
    obtain rfl := Except.ok.inj hr
    exact within_of_isInert rfl
  unfold multiply at h
  split at h
  · exact htext h
  · exact htext h
  · exact within_integersBy ((Option.some.inj h).trans hr)

/-- A native function is made. -/
theorem yields_makeBuiltin (native : Native) :
    Yields B K (modifyGet fun s => s.makeBuiltin native) :=
  yields_modifyGet fun _ hs => ⟨hs.withSerial _, rfl, within_of_isInert rfl⟩

/-- An iterator over a value gives what the value holds. -/
theorem yields_iterate (hv : Within B v) : Yields B K (iterate v) := by
  unfold iterate
  split
  · exact yields_pure hv
  · refine yields_get_bind fun s hs => ?_
    cases hcursor : cursorOf? s v with
    | none => exact yields_throw _
    | some cursor =>
        refine yields_modifyGet fun s hs => ⟨hs.makeIterator ?_, rfl, within_of_isInert rfl⟩
        cases v with
        | tuple items =>
            obtain rfl := Option.some.inj hcursor
            exact within_tuple.mp hv
        | str text =>
            obtain rfl := Option.some.inj hcursor
            exact within_texts _ _
        | dict place =>
            obtain rfl := Option.some.inj hcursor
            exact within_texts _ _
        | list place =>
            obtain rfl := Option.some.inj hcursor
            exact within_nil
        | _ => cases hcursor

/-- An argument is put into a list. -/
theorem yields_appendItem {args : List Value} (h : Within B args) :
    Yields B K (appendItem args) := by
  refine (yields_liftM fun place _ => within_plain place).bind fun place _ => ?_
  refine Yields.bind (α := PUnit) (yields_modifyGet fun s hs => ⟨hs.setList place ?_, rfl,
    within_plain _⟩) fun _ _ => yields_pure (within_of_isInert rfl)
  refine within_array.mpr fun x hx => ?_
  rw [Array.toList_append] at hx
  rcases List.mem_append.mp hx with hx | hx
  · exact within_array.mp (hs.list _) x hx
  · exact within_list.mp h x (List.mem_of_mem_tail hx)

/-- An item is taken from a list. -/
theorem yields_popItem {args : List Value} : Yields B K (popItem args) := by
  refine (yields_liftM fun place _ => within_plain place).bind fun place _ =>
    yields_get_bind fun s hs => ?_
  dsimp only
  cases hlast : (s.list place).back? with
  | none => exact yields_throw _
  | some last =>
      refine Yields.bind (α := PUnit) (yields_modifyGet fun s' hs' => ⟨hs'.setList place ?_, rfl,
        within_plain _⟩) fun _ _ => yields_pure ?_
      · refine within_array.mpr fun x hx => ?_
        rw [Array.toList_pop] at hx
        exact within_array.mp (hs.list place) x ((List.dropLast_sublist _).subset hx)
      · rw [Array.back?_eq_getElem?] at hlast
        exact within_array.mp (hs.list place) last
          (Array.mem_toList_iff.mpr (Array.mem_of_getElem? hlast))

/-- A range holds no function. -/
theorem within_rangeCursor {args : List Value} {cursor : Cursor} (h : rangeCursor args = .ok cursor) :
    Within B cursor.fixed := by
  unfold rangeCursor at h
  split at h
  · obtain ⟨first, -, h⟩ := except_bind_ok.mp h
    obtain ⟨last, -, h⟩ := except_bind_ok.mp h
    obtain rfl := Except.ok.inj h
    exact within_nil
  · obtain ⟨increment, -, h⟩ := except_bind_ok.mp h
    split at h
    · cases h
    · obtain ⟨first, -, h⟩ := except_bind_ok.mp h
      obtain ⟨last, -, h⟩ := except_bind_ok.mp h
      obtain rfl := Except.ok.inj h
      exact within_nil
  · obtain ⟨last, -, h⟩ := except_bind_ok.mp h
    obtain rfl := Except.ok.inj h
    exact within_nil
  · obtain rfl := Except.ok.inj h
    exact within_nil

/-- An iterator over a range is made. -/
theorem yields_range (args : List Value) :
    Yields B K (do
      let cursor ← liftM (rangeCursor args)
      modifyGet fun s => s.makeIterator cursor) := by
  intro s v t hs hK hrun
  cases hcursor : rangeCursor args with
  | error c =>
      rw [hcursor] at hrun
      cases hrun
  | ok cursor =>
      rw [hcursor] at hrun
      have hmake : Yields B K (modifyGet fun s => s.makeIterator cursor) :=
        yields_modifyGet fun _ hs =>
          ⟨hs.makeIterator (within_rangeCursor hcursor), rfl, within_of_isInert rfl⟩
      exact hmake s v t hs hK hrun

end Calc

end Resumable
