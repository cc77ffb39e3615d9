/-
  Resumable.Proofs.RenamedStore
  ─────────────────────────────
  **STORES THAT HOLD THE SAME THINGS.**

  `Store.Alike ρ s t` says that the store `t` holds at `ρ p` what `s` holds at
  `p`, renamed.  It may hold more.  Both give out their next places in step, so
  what is made on both stays alike.

  Comparing and writing follow containers as deep as their store has any, so on
  the greater store they go deeper; that changes nothing
  (`Resumable.Proofs.ContainerDepth`).

  Main results:
    • `Store.Alike.repr`, `.eq`    — values are written and compared alike,
    • `tracks_add`, `tracks_iterate`, … — what computes on a store computes alike.
-/
import Resumable.Proofs.ContainerDepth

namespace Resumable

variable {α β : Type} {ρ : Renaming} {s t u : Store}

/-! ## §1. Data that holds values. -/

/-- Data whose values can be renamed. -/
class Renamable (α : Type) where
  /-- The data with its values renamed. -/
  rename : Renaming → α → α
  /-- The leaves of its values. -/
  leaves : α → List Value

export Renamable (rename leaves)

/-- Data that holds no value. -/
@[reducible] def Renamable.plain (α : Type) : Renamable α :=
  ⟨fun _ a => a, fun _ => []⟩

instance : Renamable Value := ⟨Value.rename, Value.leaves⟩
instance : Renamable Unit := .plain Unit
instance : Renamable Bool := .plain Bool
instance : Renamable Nat := .plain Nat
instance : Renamable String := .plain String
instance : Renamable Cause := .plain Cause
instance : Renamable Block := .plain Block
instance : Renamable Instruction := .plain Instruction

instance : Renamable Function := ⟨Function.rename, fun f => [.function f]⟩

instance [Renamable α] : Renamable (Option α) :=
  ⟨fun ρ => Option.map (rename ρ), fun o => o.toList.flatMap leaves⟩

instance [Renamable α] : Renamable (List α) :=
  ⟨fun ρ => List.map (rename ρ), fun l => l.flatMap leaves⟩

instance [Renamable α] : Renamable (Array α) :=
  ⟨fun ρ => Array.map (rename ρ), fun a => a.toList.flatMap leaves⟩

instance [Renamable α] [Renamable β] : Renamable (α × β) :=
  ⟨fun ρ p => (rename ρ p.1, rename ρ p.2), fun p => leaves p.1 ++ leaves p.2⟩

instance [Renamable α] [Renamable β] : Renamable (Except α β) where
  rename ρ
    | .ok b => .ok (rename ρ b)
    | .error a => .error (rename ρ a)
  leaves
    | .ok b => leaves b
    | .error a => leaves a

/-! ## §2. What a store knows. -/

/-- Whether a place or a serial number was given out by a store; of the
continuations, only the shared ones count. -/
def Value.Known (s : Store) (shared : Nat) : Value → Prop
  | .list place => place < s.lists.size
  | .dict place => place < s.dicts.size
  | .object place => place < s.objects.size
  | .iterator place => place < s.cursors.size
  | .continuation place => place < shared
  | .function f => f.serial < s.serial
  | .builtin b => b.serial < s.serial
  | .exception e => e.serial < s.serial
  | _ => True

instance (s : Store) (shared : Nat) (v : Value) : Decidable (v.Known s shared) :=
  match v with
  | .list place => inferInstanceAs (Decidable (place < s.lists.size))
  | .dict place => inferInstanceAs (Decidable (place < s.dicts.size))
  | .object place => inferInstanceAs (Decidable (place < s.objects.size))
  | .iterator place => inferInstanceAs (Decidable (place < s.cursors.size))
  | .continuation place => inferInstanceAs (Decidable (place < shared))
  | .function f => inferInstanceAs (Decidable (f.serial < s.serial))
  | .builtin b => inferInstanceAs (Decidable (b.serial < s.serial))
  | .exception e => inferInstanceAs (Decidable (e.serial < s.serial))
  | .none | .bool _ | .int _ | .str _ | .tuple _ => inferInstanceAs (Decidable True)

/-- Whether a store knows all values of some data. -/
def Fits [Renamable α] (ρ : Renaming) (s : Store) (a : α) : Prop :=
  ∀ v ∈ leaves a, v.Known s ρ.shared

theorem fits_plain (a : α) : @Fits α (.plain α) ρ s a :=
  fun _ h => nomatch h

section Fits

variable [Renamable α] [Renamable β]

theorem fits_of_leaves_nil {a : α} (h : leaves a = []) : Fits ρ s a := by
  intro v hv
  rw [h] at hv
  exact nomatch hv

@[simp] theorem fits_nil : Fits ρ s ([] : List α) :=
  fits_of_leaves_nil rfl

@[simp] theorem fits_none : Fits ρ s (none : Option α) :=
  fun _ h => nomatch h

@[simp] theorem fits_some {a : α} : Fits ρ s (some a) ↔ Fits ρ s a := by
  show (∀ v ∈ [a].flatMap leaves, _) ↔ _
  rw [List.flatMap_singleton]
  rfl

@[simp] theorem fits_list {l : List α} : Fits ρ s l ↔ ∀ a ∈ l, Fits ρ s a := by
  constructor
  · exact fun h a ha v hv => h v (List.mem_flatMap.mpr ⟨a, ha, hv⟩)
  · intro h v hv
    obtain ⟨a, ha, hv⟩ := List.mem_flatMap.mp hv
    exact h a ha v hv

@[simp] theorem fits_array {l : Array α} : Fits ρ s l ↔ ∀ a ∈ l.toList, Fits ρ s a :=
  fits_list (l := l.toList)

@[simp] theorem fits_prod {p : α × β} : Fits ρ s p ↔ Fits ρ s p.1 ∧ Fits ρ s p.2 := by
  constructor
  · exact fun h => ⟨fun v hv => h v (List.mem_append_left _ hv),
      fun v hv => h v (List.mem_append_right _ hv)⟩
  · rintro ⟨h₁, h₂⟩ v hv
    exact (List.mem_append.mp hv).elim (h₁ v) (h₂ v)

@[simp] theorem fits_ok {b : β} : Fits ρ s (Except.ok b : Except α β) ↔ Fits ρ s b := Iff.rfl

@[simp] theorem fits_error {a : α} : Fits ρ s (Except.error a : Except α β) ↔ Fits ρ s a := Iff.rfl

@[simp] theorem fits_tuple {items : List Value} :
    Fits ρ s (Value.tuple items) ↔ Fits ρ s items := by
  unfold Fits
  show (∀ v ∈ (Value.tuple items).leaves, _) ↔ _
  rw [Value.leaves_tuple]
  rfl

theorem fits_of_isLeaf {v : Value} (h : v.isLeaf = true) :
    Fits ρ s v ↔ v.Known s ρ.shared := by
  unfold Fits
  show (∀ leaf ∈ v.leaves, _) ↔ _
  rw [Value.leaves_of_isLeaf h]
  simp

@[simp] theorem fits_listPlace {place : Address} :
    Fits ρ s (Value.list place) ↔ place < s.lists.size :=
  fits_of_isLeaf rfl

@[simp] theorem fits_dictPlace {place : Address} :
    Fits ρ s (Value.dict place) ↔ place < s.dicts.size :=
  fits_of_isLeaf rfl

/-- A container is known when it was made. -/
theorem known_container {shared : Nat} {c : Container} :
    c.value.Known s shared ↔ c ∈ s.places := by
  cases c with
  | list place => exact Store.list_mem_places.symm
  | dict place => exact Store.dict_mem_places.symm

end Fits

/-! ## §3. Stores that grow. -/

/-- A store holds what another one does, and maybe more. -/
structure Store.Extends (s t : Store) : Prop where
  lists_le : s.lists.size ≤ t.lists.size
  list_eq : ∀ place < s.lists.size, t.list place = s.list place
  dicts_le : s.dicts.size ≤ t.dicts.size
  dict_eq : ∀ place < s.dicts.size, t.dict place = s.dict place
  objects_le : s.objects.size ≤ t.objects.size
  object_eq : ∀ place < s.objects.size, t.object place = s.object place
  cursors_le : s.cursors.size ≤ t.cursors.size
  continuations_le : s.continuations.size ≤ t.continuations.size
  continuation_eq : ∀ place < s.continuations.size, t.continuation place = s.continuation place
  serial_le : s.serial ≤ t.serial

namespace Store.Extends

theorem refl (s : Store) : s.Extends s where
  lists_le := Nat.le_refl _
  list_eq _ _ := rfl
  dicts_le := Nat.le_refl _
  dict_eq _ _ := rfl
  objects_le := Nat.le_refl _
  object_eq _ _ := rfl
  cursors_le := Nat.le_refl _
  continuations_le := Nat.le_refl _
  continuation_eq _ _ := rfl
  serial_le := Nat.le_refl _

theorem trans (h₁ : s.Extends t) (h₂ : t.Extends u) : s.Extends u where
  lists_le := Nat.le_trans h₁.lists_le h₂.lists_le
  list_eq p hp := (h₂.list_eq p (Nat.lt_of_lt_of_le hp h₁.lists_le)).trans (h₁.list_eq p hp)
  dicts_le := Nat.le_trans h₁.dicts_le h₂.dicts_le
  dict_eq p hp := (h₂.dict_eq p (Nat.lt_of_lt_of_le hp h₁.dicts_le)).trans (h₁.dict_eq p hp)
  objects_le := Nat.le_trans h₁.objects_le h₂.objects_le
  object_eq p hp :=
    (h₂.object_eq p (Nat.lt_of_lt_of_le hp h₁.objects_le)).trans (h₁.object_eq p hp)
  cursors_le := Nat.le_trans h₁.cursors_le h₂.cursors_le
  continuations_le := Nat.le_trans h₁.continuations_le h₂.continuations_le
  continuation_eq p hp :=
    (h₂.continuation_eq p (Nat.lt_of_lt_of_le hp h₁.continuations_le)).trans
      (h₁.continuation_eq p hp)
  serial_le := Nat.le_trans h₁.serial_le h₂.serial_le

/-- What a store knows, a greater one knows. -/
theorem known (h : s.Extends t) {shared : Nat} {v : Value} (hv : v.Known s shared) :
    v.Known t shared := by
  cases v with
  | list place => exact Nat.lt_of_lt_of_le hv h.lists_le
  | dict place => exact Nat.lt_of_lt_of_le hv h.dicts_le
  | object place => exact Nat.lt_of_lt_of_le hv h.objects_le
  | iterator place => exact Nat.lt_of_lt_of_le hv h.cursors_le
  | function f => exact Nat.lt_of_lt_of_le hv h.serial_le
  | builtin b => exact Nat.lt_of_lt_of_le hv h.serial_le
  | exception e => exact Nat.lt_of_lt_of_le hv h.serial_le
  | _ => exact hv

end Store.Extends

theorem Fits.mono [Renamable α] {a : α} (h : Fits ρ s a) (hs : s.Extends t) : Fits ρ t a :=
  fun v hv => hs.known (h v hv)

/-- Every value in a store is known to it. -/
structure Store.Closed (s : Store) (shared : Nat) : Prop where
  held : ∀ c, ∀ v ∈ s.held c, ∀ leaf ∈ v.leaves, leaf.Known s shared
  attrs : ∀ place, ∀ e ∈ (s.object place).attrs, ∀ leaf ∈ e.2.leaves, leaf.Known s shared
  lineage : ∀ place, ∀ c ∈ (s.object place).lineage, c < s.objects.size

/-! ## §4. Stores that are alike. -/

/-- A store holds what another one does, in the places a renaming tells. -/
structure Store.Alike (ρ : Renaming) (s t : Store) : Prop where
  lists_next : ∀ n, ρ.list (s.lists.size + n) = t.lists.size + n
  lists_le : s.lists.size ≤ t.lists.size
  list_eq : ∀ place < s.lists.size, t.list (ρ.list place) = (s.list place).map (Value.rename ρ)
  dicts_next : ∀ n, ρ.dict (s.dicts.size + n) = t.dicts.size + n
  dicts_le : s.dicts.size ≤ t.dicts.size
  dict_eq : ∀ place < s.dicts.size, t.dict (ρ.dict place) = (s.dict place).map (renameEntry ρ)
  objects_next : ∀ n, ρ.object (s.objects.size + n) = t.objects.size + n
  attrs_eq : ∀ place < s.objects.size,
    (t.object (ρ.object place)).attrs = (s.object place).attrs.map (renameEntry ρ)
  lineage_eq : ∀ place < s.objects.size,
    (t.object (ρ.object place)).lineage = (s.object place).lineage.map ρ.object
  cursors_next : ∀ n, ρ.iterator (s.cursors.size + n) = t.cursors.size + n
  shared_le : ρ.shared ≤ s.continuations.size
  shared_le' : ρ.shared ≤ t.continuations.size
  continuation_eq : ∀ place < ρ.shared, t.continuation place = s.continuation place
  serial_next : ∀ n, ρ.serial (s.serial + n) = t.serial + n
  closed : s.Closed ρ.shared

namespace Store

/-! ## §5. Written forms and comparisons. -/

theorem continuationRepr_congr {place place' : Address}
    (h : t.continuation place' = s.continuation place) :
    t.continuationRepr place' = s.continuationRepr place := by
  unfold continuationRepr
  rw [h]

namespace Alike

/-- The values in a container are known. -/
theorem fits_held (h : Alike ρ s t) (c : Container) : Fits ρ s (s.held c) :=
  fits_list.mpr fun v hv => h.closed.held c v hv

/-- The items of a list are known. -/
theorem fits_items (h : Alike ρ s t) (place : Address) : Fits ρ s (s.list place) :=
  h.fits_held (.list place)

/-- The values of a dict are known. -/
theorem fits_entry (h : Alike ρ s t) (place : Address) :
    ∀ e ∈ s.dict place, Fits ρ s e.2 :=
  fun _ he => h.closed.held (.dict place) _ (List.mem_map_of_mem he)

/-- A container holds the same values, renamed. -/
theorem held_eq (h : Alike ρ s t) {c : Container} (hc : c ∈ s.places) :
    t.held (c.rename ρ) = (s.held c).map (Value.rename ρ) := by
  cases c with
  | list place =>
      show (t.list (ρ.list place)).toList = _
      rw [h.list_eq place (list_mem_places.mp hc), Array.toList_map]
      rfl
  | dict place =>
      show (t.dict (ρ.dict place)).map Prod.snd = ((s.dict place).map Prod.snd).map _
      rw [h.dict_eq place (dict_mem_places.mp hc), List.map_map, List.map_map]
      rfl

/-- A container holds them under the same keys. -/
theorem keys?_eq (h : Alike ρ s t) {c : Container} (hc : c ∈ s.places) :
    t.keys? (c.rename ρ) = s.keys? c := by
  cases c with
  | list place => rfl
  | dict place =>
      show some ((t.dict (ρ.dict place)).map Prod.fst) = some ((s.dict place).map Prod.fst)
      rw [h.dict_eq place (dict_mem_places.mp hc), List.map_map]
      rfl

/-- The second store has room for the containers of the first. -/
theorem containers_le (h : Alike ρ s t) : s.containers ≤ t.containers :=
  Nat.add_le_add h.lists_le h.dicts_le

/-- At equal depths a container is written the same on both stores. -/
theorem containerRepr (h : Alike ρ s t) {n : Nat} {outer : List Container} {c : Container}
    (hc : c ∈ s.places) :
    t.containerRepr n (outer.map (Container.rename ρ)) (c.rename ρ)
      = s.containerRepr n outer c := by
  induction n generalizing outer c with
  | zero => cases c <;> rfl
  | succ n ih =>
      rw [Store.containerRepr, Store.containerRepr, h.keys?_eq hc, h.held_eq hc, itemsReprBy_eq,
        itemsReprBy_eq, List.map_map]
      have hitems : (s.held c).map (Value.reprBy (t.containerRepr n
            (c.rename ρ :: outer.map (Container.rename ρ))) t.continuationRepr ∘ Value.rename ρ)
          = (s.held c).map (Value.reprBy (s.containerRepr n (c :: outer)) s.continuationRepr) := by
        refine List.map_congr_left fun v hv => Value.reprBy_rename (fun inner hinner => ?_)
          fun place hplace => ?_
        · rw [← List.map_cons]
          exact ih (known_container.mp (h.closed.held c v hv _ hinner))
        · exact continuationRepr_congr (h.continuation_eq _ (h.closed.held c v hv _ hplace))
      rw [hitems]
      refine if_congr (List.mem_map_of_injective Container.rename_injective) ?_ ?_ <;>
        cases c <;> rfl

/-- **What a value looks like** does not depend on where its places are. -/
theorem repr (h : Alike ρ s t) {v : Value} (hv : Fits ρ s v) :
    t.repr (v.rename ρ) = s.repr v := by
  refine Value.reprBy_rename (fun c hc => ?_) fun place hp => ?_
  · have hle := h.containers_le
    rw [← containerRepr_of_le (s := s) (Nat.succ_le_succ hle)]
    show t.containerRepr _ (([] : List Container).map (Container.rename ρ)) _ = _
    exact h.containerRepr (known_container.mp (hv _ hc))
  · exact continuationRepr_congr (h.continuation_eq _ (hv _ hp))

/-- What printing a value shows does not either. -/
theorem text (h : Alike ρ s t) {v : Value} (hv : Fits ρ s v) :
    t.text (v.rename ρ) = s.text v := by
  have hrepr := h.repr hv
  cases v <;> first | rfl | exact hrepr

/-- At equal depths two containers compare the same on both stores. -/
theorem same (h : Alike ρ s t) {d : Nat} {a b : Container} (ha : a ∈ s.places)
    (hb : b ∈ s.places) : t.same d (a.rename ρ) (b.rename ρ) = s.same d a b := by
  have hself (a b : Container) : (a.rename ρ == b.rename ρ) = (a == b) := by
    rw [Bool.eq_iff_iff, beq_iff_eq, beq_iff_eq, Container.rename_injective.eq_iff]
  induction d generalizing a b with
  | zero => exact hself a b
  | succ d ih =>
      rw [Store.same, Store.same, hself, h.keys?_eq ha, h.keys?_eq hb, h.held_eq ha,
        h.held_eq hb]
      congr 2
      exact itemsEqBy_rename fun v hv w hw p q hp hq =>
        ih (known_container.mp (h.closed.held a v hv _ hp))
          (known_container.mp (h.closed.held b w hw _ hq))

/-- **Whether two values are equal** does not depend on where their places are. -/
theorem eq (h : Alike ρ s t) {a b : Value} (ha : Fits ρ s a) (hb : Fits ρ s b) :
    t.eq (a.rename ρ) (b.rename ρ) = s.eq a b := by
  refine Value.eqBy_rename fun p q hp hq => ?_
  have hle := h.containers_le
  rw [← same_of_le (s := s) (Nat.succ_le_succ (Nat.mul_le_mul hle hle))]
  exact h.same (known_container.mp (ha _ hp)) (known_container.mp (hb _ hq))

/-! ## §6. Reading. -/

/-- Values count as true alike. -/
theorem truthy (h : Alike ρ s t) {v : Value} (hv : Fits ρ s v) :
    t.truthy (v.rename ρ) = s.truthy v := by
  cases v with
  | tuple items =>
      rw [Value.rename_tuple, Store.truthy, Store.truthy]
      cases items <;> rfl
  | list place =>
      show (!(t.list (ρ.list place)).isEmpty) = !(s.list place).isEmpty
      rw [h.list_eq place (fits_listPlace.mp hv)]
      simp only [Array.isEmpty, Array.size_map]
  | dict place =>
      show (!(t.dict (ρ.dict place)).isEmpty) = !(s.dict place).isEmpty
      rw [h.dict_eq place (fits_dictPlace.mp hv), List.isEmpty_map]
  | continuation place =>
      show (!(t.continuation place).isEmpty) = !(s.continuation place).isEmpty
      rw [h.continuation_eq place ((fits_of_isLeaf rfl).mp hv)]
  | _ => rfl

/-- Containers have the same number of items. -/
theorem lengthOf (h : Alike ρ s t) {v : Value} (hv : Fits ρ s v) :
    Resumable.lengthOf t (v.rename ρ) = Resumable.lengthOf s v := by
  cases v with
  | tuple items =>
      rw [Value.rename_tuple, Resumable.lengthOf, Resumable.lengthOf, List.length_map]
  | list place =>
      show Except.ok (t.list (ρ.list place)).size = _
      rw [h.list_eq place (fits_listPlace.mp hv), Array.size_map]
      rfl
  | dict place =>
      show Except.ok (t.dict (ρ.dict place)).length = _
      rw [h.dict_eq place (fits_dictPlace.mp hv), List.length_map]
      rfl
  | continuation place =>
      show Except.ok (t.continuation place).size = _
      rw [h.continuation_eq place ((fits_of_isLeaf rfl).mp hv)]
      rfl
  | _ => rfl

/-- A sequence has the same items, renamed. -/
theorem sequenceItems (h : Alike ρ s t) {v : Value} (hv : Fits ρ s v) :
    Resumable.sequenceItems t (v.rename ρ) = rename ρ (Resumable.sequenceItems s v)
      ∧ Fits ρ s (Resumable.sequenceItems s v) := by
  cases v with
  | tuple items =>
      rw [Value.rename_tuple]
      exact ⟨rfl, fits_tuple.mp hv⟩
  | list place =>
      refine ⟨?_, h.fits_items place⟩
      show Except.ok (t.list (ρ.list place)).toList = Except.ok ((s.list place).toList.map _)
      rw [h.list_eq place (fits_listPlace.mp hv), Array.toList_map]
      rfl
  | _ => exact ⟨rfl, fits_of_leaves_nil rfl⟩

/-- An attribute is found under its name, renamed. -/
theorem find?_rename (entries : Bindings Value) (name : String) :
    Bindings.find? (entries.map (renameEntry ρ)) name = rename ρ (entries.find? name) := by
  induction entries with
  | nil => rfl
  | cons entry rest ih =>
      rw [List.map_cons, Bindings.find?_cons, Bindings.find?_cons, ih]
      show (if entry.1 = name then _ else _) = _
      split <;> rfl

theorem fits_find? {entries : Bindings Value} (h : ∀ e ∈ entries, Fits ρ s e.2) (name : String) :
    Fits ρ s (entries.find? name) := by
  induction entries with
  | nil => exact fits_none
  | cons entry rest ih =>
      rw [Bindings.find?_cons]
      split
      · exact fits_some.mpr (h entry (List.mem_cons_self ..))
      · exact ih fun e he => h e (List.mem_cons_of_mem _ he)

/-- The attribute of an object that a name finds, its own or inherited. -/
theorem lookup_map_value (s : Store) (place : Address) (name : String) :
    (s.lookup place name).map Found.value
      = (place :: (s.object place).lineage).findSome? fun c => (s.object c).attrs.find? name := by
  rw [List.findSome?_cons, Store.lookup]
  cases (s.object place).attrs.find? name with
  | some value => rfl
  | none =>
      rw [Option.map_map]
      exact Option.map_id'

/-- The value an attribute look-up finds. -/
theorem lookup (h : Alike ρ s t) {place : Address} (hp : place < s.objects.size) (name : String) :
    (t.lookup (ρ.object place) name).map Found.value
        = rename ρ ((s.lookup place name).map Found.value)
      ∧ Fits ρ s ((s.lookup place name).map Found.value) := by
  have hline : ∀ c ∈ place :: (s.object place).lineage, c < s.objects.size := by
    intro c hc
    obtain rfl | hc := List.mem_cons.mp hc
    · exact hp
    · exact h.closed.lineage place c hc
  rw [lookup_map_value, lookup_map_value, h.lineage_eq place hp, ← List.map_cons]
  generalize place :: (s.object place).lineage = line at hline
  induction line with
  | nil => exact ⟨rfl, fits_none⟩
  | cons c rest ih =>
      have hc := hline c (List.mem_cons_self ..)
      obtain ⟨heq, hfits⟩ := ih fun c hc => hline c (List.mem_cons_of_mem _ hc)
      rw [List.map_cons, List.findSome?_cons, List.findSome?_cons, h.attrs_eq c hc, find?_rename]
      have hown := fits_find? (ρ := ρ) (fun e he => h.closed.attrs c e he) name
      cases hf : (s.object c).attrs.find? name with
      | some value =>
          rw [hf] at hown
          exact ⟨rfl, hown⟩
      | none => exact ⟨heq, hfits⟩

end Alike

/-! ## §7. Making. -/

theorem lt_size_push {α : Type} (xs : Array α) (x : α) : xs.size < (xs.push x).size := by
  rw [Array.size_push]
  exact Nat.lt_succ_self _

theorem list_makeList (s : Store) (items : Array Value) (place : Address) :
    (s.makeList items).2.list place = if place = s.lists.size then items else s.list place := by
  show ((s.lists.push items)[place]?).getD #[] = _
  rw [Array.getElem?_push]
  split <;> rfl

theorem dict_makeDict (s : Store) (entries : Bindings Value) (place : Address) :
    (s.makeDict entries).2.dict place = if place = s.dicts.size then entries else s.dict place := by
  show ((s.dicts.push entries)[place]?).getD [] = _
  rw [Array.getElem?_push]
  split <;> rfl

theorem object_makeObject (s : Store) (parent : Option Address) (place : Address) :
    (s.makeObject parent).2.object place
      = if place = s.objects.size then
          { lineage := parent.elim [] fun c => c :: (s.object c).lineage }
        else s.object place := by
  show ((s.objects.push _)[place]?).getD {} = _
  rw [Array.getElem?_push]
  split
  · cases parent <;> rfl
  · rfl

theorem extends_makeList (s : Store) (items : Array Value) : s.Extends (s.makeList items).2 :=
  { Extends.refl s with
    lists_le := Nat.le_of_lt (lt_size_push ..)
    list_eq := fun place hp => by
      rw [list_makeList, if_neg (Nat.ne_of_lt hp)] }

theorem extends_makeDict (s : Store) (entries : Bindings Value) :
    s.Extends (s.makeDict entries).2 :=
  { Extends.refl s with
    dicts_le := Nat.le_of_lt (lt_size_push ..)
    dict_eq := fun place hp => by
      rw [dict_makeDict, if_neg (Nat.ne_of_lt hp)] }

theorem extends_makeObject (s : Store) (parent : Option Address) :
    s.Extends (s.makeObject parent).2 :=
  { Extends.refl s with
    objects_le := Nat.le_of_lt (lt_size_push ..)
    object_eq := fun place hp => by
      rw [object_makeObject, if_neg (Nat.ne_of_lt hp)] }

theorem extends_makeIterator (s : Store) (cursor : Cursor) :
    s.Extends (s.makeIterator cursor).2 :=
  { Extends.refl s with
    cursors_le := Nat.le_of_lt (lt_size_push ..) }

/-- A serial number is given out. -/
theorem extends_serial (s : Store) : s.Extends { s with serial := s.serial + 1 } :=
  { Extends.refl s with serial_le := Nat.le_succ _ }

/-- A store stays closed when known values are put into containers. -/
theorem Closed.put {shared : Nat} (h : s.Closed shared) (hs : s.Extends t)
    (hheld : ∀ c, ∀ v ∈ t.held c, ∀ leaf ∈ v.leaves, leaf.Known s shared)
    (hobject : ∀ place, t.object place = s.object place) : t.Closed shared where
  held c v hv leaf hleaf := hs.known (hheld c v hv leaf hleaf)
  attrs place e he leaf hleaf := hs.known (h.attrs place e (hobject place ▸ he) leaf hleaf)
  lineage place c hc := Nat.lt_of_lt_of_le (h.lineage place c (hobject place ▸ hc)) hs.objects_le

/-- A store stays closed when nothing is put into it. -/
theorem Closed.mono {shared : Nat} (h : s.Closed shared) (hs : s.Extends t)
    (hheld : ∀ c, t.held c = s.held c)
    (hobject : ∀ place, t.object place = s.object place) : t.Closed shared :=
  h.put hs (fun c v hv => h.held c v (hheld c ▸ hv)) hobject

end Store

/-- What is made on two stores is alike, and the stores stay alike. -/
structure Makes [Renamable α] (ρ : Renaming) (s : Store) (r r' : α × Store) : Prop where
  grows : s.Extends r.2
  alike : r.2.Alike ρ r'.2
  renamed : r'.1 = rename ρ r.1
  fits : Fits ρ r.2 r.1

namespace Store.Alike

/-- A list of known values is made on both stores. -/
theorem makeList (h : Alike ρ s t) {items : Array Value} (hitems : Fits ρ s items) :
    Makes ρ s (s.makeList items) (t.makeList (rename ρ items)) where
  grows := s.extends_makeList items
  renamed := congrArg Value.list (h.lists_next 0).symm
  fits := fits_listPlace.mpr (lt_size_push ..)
  alike :=
    have hnext : ρ.list s.lists.size = t.lists.size := h.lists_next 0
    have hsize : (s.makeList items).2.lists.size = s.lists.size + 1 := Array.size_push ..
    have hsize' : (t.makeList (rename ρ items)).2.lists.size = t.lists.size + 1 :=
      Array.size_push ..
    { h with
      lists_next := fun n => by
        rw [hsize, hsize', Nat.add_assoc, Nat.add_assoc]
        exact h.lists_next (1 + n)
      lists_le := by
        have := h.lists_le
        omega
      list_eq := fun place hp => by
        rw [list_makeList, list_makeList]
        by_cases hplace : place = s.lists.size
        · rw [if_pos hplace, if_pos (hplace ▸ hnext)]
          rfl
        · have hne : ρ.list place ≠ t.lists.size := fun heq =>
            hplace (ρ.list_injective (heq.trans hnext.symm))
          rw [if_neg hplace, if_neg hne]
          exact h.list_eq place (by omega)
      closed := h.closed.put (s.extends_makeList items)
        (fun c v hv => by
          cases c with
          | list place =>
              change v ∈ ((s.makeList items).2.list place).toList at hv
              rw [list_makeList] at hv
              split at hv
              · exact fits_array.mp hitems v hv
              · exact h.closed.held (.list place) v hv
          | dict place => exact h.closed.held (.dict place) v hv)
        fun _ => rfl }

/-- A dict of known values is made on both stores. -/
theorem makeDict (h : Alike ρ s t) {entries : Bindings Value}
    (hentries : ∀ e ∈ entries, Fits ρ s e.2) :
    Makes ρ s (s.makeDict entries) (t.makeDict (entries.map (renameEntry ρ))) where
  grows := s.extends_makeDict entries
  renamed := congrArg Value.dict (h.dicts_next 0).symm
  fits := fits_dictPlace.mpr (lt_size_push ..)
  alike :=
    have hnext : ρ.dict s.dicts.size = t.dicts.size := h.dicts_next 0
    have hsize : (s.makeDict entries).2.dicts.size = s.dicts.size + 1 := Array.size_push ..
    have hsize' : (t.makeDict (entries.map (renameEntry ρ))).2.dicts.size = t.dicts.size + 1 :=
      Array.size_push ..
    { h with
      dicts_next := fun n => by
        rw [hsize, hsize', Nat.add_assoc, Nat.add_assoc]
        exact h.dicts_next (1 + n)
      dicts_le := by
        have := h.dicts_le
        omega
      dict_eq := fun place hp => by
        rw [dict_makeDict, dict_makeDict]
        by_cases hplace : place = s.dicts.size
        · rw [if_pos hplace, if_pos (hplace ▸ hnext)]
        · have hne : ρ.dict place ≠ t.dicts.size := fun heq =>
            hplace (ρ.dict_injective (heq.trans hnext.symm))
          rw [if_neg hplace, if_neg hne]
          exact h.dict_eq place (by omega)
      closed := h.closed.put (s.extends_makeDict entries)
        (fun c v hv => by
          cases c with
          | list place => exact h.closed.held (.list place) v hv
          | dict place =>
              change v ∈ ((s.makeDict entries).2.dict place).map Prod.snd at hv
              rw [dict_makeDict] at hv
              split at hv
              · obtain ⟨e, he, rfl⟩ := List.mem_map.mp hv
                exact hentries e he
              · exact h.closed.held (.dict place) v hv)
        fun _ => rfl }

/-- An object without attributes is made on both stores. -/
theorem makeObject (h : Alike ρ s t) (parent : Option Address)
    (hparent : ∀ c ∈ parent, c < s.objects.size) :
    Makes ρ s (s.makeObject parent) (t.makeObject (parent.map ρ.object)) where
  grows := s.extends_makeObject parent
  renamed := congrArg Value.object (h.objects_next 0).symm
  fits := (fits_of_isLeaf rfl).mpr (lt_size_push ..)
  alike :=
    have hnext : ρ.object s.objects.size = t.objects.size := h.objects_next 0
    have hsize : (s.makeObject parent).2.objects.size = s.objects.size + 1 := Array.size_push ..
    have hsize' : (t.makeObject (parent.map ρ.object)).2.objects.size = t.objects.size + 1 :=
      Array.size_push ..
    -- renaming is injective, so no old object comes to the new place
    have hne : ∀ place, place ≠ s.objects.size → ρ.object place ≠ t.objects.size :=
      fun place hplace heq => hplace (ρ.object_injective (heq.trans hnext.symm))
    { h with
      objects_next := fun n => by
        rw [hsize, hsize', Nat.add_assoc, Nat.add_assoc]
        exact h.objects_next (1 + n)
      attrs_eq := fun place hp => by
        rw [object_makeObject, object_makeObject]
        by_cases hplace : place = s.objects.size
        · rw [if_pos hplace, if_pos (hplace ▸ hnext)]
          rfl
        · rw [if_neg hplace, if_neg (hne place hplace)]
          exact h.attrs_eq place (by omega)
      lineage_eq := fun place hp => by
        rw [object_makeObject, object_makeObject]
        by_cases hplace : place = s.objects.size
        · rw [if_pos hplace, if_pos (hplace ▸ hnext)]
          cases parent with
          | none => rfl
          -- the new object is below its parent, whose line is known on both sides
          | some c =>
              show ρ.object c :: (t.object (ρ.object c)).lineage = _
              rw [h.lineage_eq c (hparent c rfl)]
              rfl
        · rw [if_neg hplace, if_neg (hne place hplace)]
          exact h.lineage_eq place (by omega)
      closed := by
        refine ⟨fun c v hv leaf hleaf =>
            (s.extends_makeObject parent).known (h.closed.held c v hv leaf hleaf),
          fun place e he leaf hleaf => ?_, fun place c hc => ?_⟩
        · rw [object_makeObject] at he
          split at he
          · exact nomatch he
          · exact (s.extends_makeObject parent).known (h.closed.attrs place e he leaf hleaf)
        · rw [object_makeObject] at hc
          rw [hsize]
          refine Nat.lt_succ_of_lt ?_
          split at hc
          · cases parent with
            | none => exact nomatch hc
            | some d =>
                obtain rfl | hc := List.mem_cons.mp hc
                · exact hparent c rfl
                · exact h.closed.lineage d c hc
          · exact h.closed.lineage place c hc }

/-- An iterator is made on both stores; nobody asks it for an item. -/
theorem makeIterator (h : Alike ρ s t) (cursor cursor' : Cursor) :
    Makes ρ s (s.makeIterator cursor) (t.makeIterator cursor') where
  grows := s.extends_makeIterator cursor
  renamed := congrArg Value.iterator (h.cursors_next 0).symm
  fits := (fits_of_isLeaf rfl).mpr (lt_size_push ..)
  alike :=
    have hsize : (s.makeIterator cursor).2.cursors.size = s.cursors.size + 1 := Array.size_push ..
    have hsize' : (t.makeIterator cursor').2.cursors.size = t.cursors.size + 1 :=
      Array.size_push ..
    { h with
      cursors_next := fun n => by
        rw [hsize, hsize', Nat.add_assoc, Nat.add_assoc]
        exact h.cursors_next (1 + n)
      closed := h.closed.mono (s.extends_makeIterator cursor) (fun _ => rfl) fun _ => rfl }

/-- A serial number is given out on both stores. -/
theorem serial (h : Alike ρ s t) :
    Alike ρ { s with serial := s.serial + 1 } { t with serial := t.serial + 1 } :=
  { h with
    serial_next := fun n => by
      show ρ.serial (s.serial + 1 + n) = t.serial + 1 + n
      rw [Nat.add_assoc, Nat.add_assoc]
      exact h.serial_next (1 + n)
    closed := h.closed.mono s.extends_serial (fun _ => rfl) fun _ => rfl }

theorem makeFunction (h : Alike ρ s t) (code : Code) :
    Makes ρ s (s.makeFunction code) (t.makeFunction code) where
  grows := s.extends_serial
  alike := h.serial
  renamed := congrArg (Function.mk · code) (h.serial_next 0).symm
  fits := fun v hv => by
    obtain rfl := List.mem_singleton.mp hv
    exact Nat.lt_succ_self _

theorem makeException (h : Alike ρ s t) (typeName message : String) :
    Makes ρ s (s.makeException typeName message) (t.makeException typeName message) where
  grows := s.extends_serial
  alike := h.serial
  renamed := congrArg (fun n => Value.exception ⟨n, typeName, message⟩) (h.serial_next 0).symm
  fits := (fits_of_isLeaf rfl).mpr (Nat.lt_succ_self _)

/-- The value of a constant is made on both stores. -/
theorem ofConstant (h : Alike ρ s t) (constant : Constant) :
    Makes ρ s (s.ofConstant constant) (t.ofConstant constant) := by
  have hsame {v : Value} (hv : v.rename ρ = v) (hfits : Fits ρ s v) : Makes ρ s (v, s) (v, t) :=
    ⟨.refl s, h, hv.symm, hfits⟩
  cases constant with
  | names entries =>
      refine hsame ?_ (fits_tuple.mpr (fits_list.mpr fun v hv => ?_))
      · rw [Value.rename_tuple, List.map_map]
        rfl
      · obtain ⟨name, -, rfl⟩ := List.mem_map.mp hv
        exact (fits_of_isLeaf rfl).mpr trivial
  | code c =>
      have hmake := h.makeFunction c
      exact ⟨hmake.grows, hmake.alike, congrArg Value.function hmake.renamed, hmake.fits⟩
  | _ => exact hsame rfl ((fits_of_isLeaf rfl).mpr trivial)

end Store.Alike

/-! ## §8. Computing. -/

/-- Two computations on stores that are alike end alike: in the same exception,
or with the same value, renamed. -/
def Calc.Tracks [Renamable α] (ρ : Renaming) (s : Store) (x x' : Calc α) : Prop :=
  ∀ t, s.Alike ρ t →
    (∃ c, x s = .error c ∧ x' t = .error c) ∨
      ∃ r r', x s = .ok r ∧ x' t = .ok r' ∧ Makes ρ s r r'

namespace Calc

variable [Renamable α] [Renamable β]

theorem tracks_pure {a : α} (h : Fits ρ s a) : Tracks ρ s (pure a) (pure (rename ρ a)) :=
  fun t ht => .inr ⟨(a, s), (rename ρ a, t), rfl, rfl, .refl s, ht, rfl, h⟩

theorem tracks_throw (c : Cause) : Tracks (α := α) ρ s (throw c) (throw c) :=
  fun _ _ => .inl ⟨c, rfl, rfl⟩

/-- A computation that does not touch the store. -/
theorem tracks_liftM {r r' : Except Cause α} (hr : r' = rename ρ r) (h : Fits ρ s r) :
    Tracks ρ s (liftM r) (liftM r') := by
  subst hr
  cases r with
  | ok a => exact tracks_pure h
  | error c => exact tracks_throw c

theorem tracks_modifyGet {f f' : Store → α × Store}
    (h : ∀ t, s.Alike ρ t → Makes ρ s (f s) (f' t)) :
    Tracks ρ s (modifyGet f) (modifyGet f') :=
  fun t ht => .inr ⟨f s, f' t, rfl, rfl, h t ht⟩

/-- One computation after another. -/
theorem Tracks.bind {x x' : Calc α} {f f' : α → Calc β} (hx : Tracks ρ s x x')
    (hf : ∀ u a, s.Extends u → Fits ρ u a → Tracks ρ u (f a) (f' (rename ρ a))) :
    Tracks ρ s (x >>= f) (x' >>= f') := by
  intro t ht
  obtain ⟨c, hc, hc'⟩ | ⟨⟨a, u⟩, ⟨a', w⟩, hr, hr', hm⟩ := hx t ht
  · refine .inl ⟨c, ?_, ?_⟩
    · show StateT.bind x f s = _
      rw [StateT.bind, hc]
      rfl
    · show StateT.bind x' f' t = _
      rw [StateT.bind, hc']
      rfl
  · obtain rfl : a' = rename ρ a := hm.renamed
    have hbind : (x >>= f) s = f a u := by
      show StateT.bind x f s = _
      rw [StateT.bind, hr]
      rfl
    have hbind' : (x' >>= f') t = f' (rename ρ a) w := by
      show StateT.bind x' f' t = _
      rw [StateT.bind, hr']
      rfl
    rw [hbind, hbind']
    obtain ⟨c, hc, hc'⟩ | ⟨r, r', hr, hr', hm'⟩ := hf u a hm.grows hm.fits w hm.alike
    · exact .inl ⟨c, hc, hc'⟩
    · exact .inr ⟨r, r', hr, hr', hm.grows.trans hm'.grows, hm'.alike, hm'.renamed, hm'.fits⟩

/-- A computation that reads the store first. -/
theorem tracks_get_bind {f f' : Store → Calc β}
    (h : ∀ t, s.Alike ρ t → Tracks ρ s (f s) (f' t)) :
    Tracks ρ s (get >>= f) (get >>= f') :=
  fun t ht => h t ht t ht

end Calc

/-! ## §9. Operators and natives. -/

open Calc

/-- Whole numbers are in no place. -/
theorem integersBy_rename (symbol : String) (combine : Int → Int → Int) (a b : Value) :
    integersBy symbol combine (a.rename ρ) (b.rename ρ) = rename ρ (integersBy symbol combine a b)
      ∧ Fits ρ s (integersBy symbol combine a b) := by
  unfold integersBy
  rw [Value.asInt?_rename, Value.asInt?_rename, Value.typeName_rename, Value.typeName_rename]
  split
  · unfold exactly
    split
    · exact ⟨rfl, (fits_of_isLeaf rfl).mpr trivial⟩
    · exact ⟨rfl, fits_of_leaves_nil rfl⟩
  · exact ⟨rfl, fits_of_leaves_nil rfl⟩

theorem tracks_subtract (a b : Value) :
    Calc.Tracks ρ s (liftM (subtract a b)) (liftM (subtract (a.rename ρ) (b.rename ρ))) :=
  have h := integersBy_rename "-" (· - ·) a b
  tracks_liftM h.1 h.2

/-- A product is a number or a text, or there is none. -/
theorem multiply_rename (a b : Value) :
    multiply (a.rename ρ) (b.rename ρ) = rename ρ (multiply a b) ∧ Fits ρ s (multiply a b) := by
  have hint := integersBy_rename (ρ := ρ) (s := s) "*" (· * ·) a b
  have htext (text : String) (n : Int64) :
      (repeated? text n.toInt.toNat).map (Except.ok ∘ Value.str)
          = rename ρ ((repeated? text n.toInt.toNat).map (Except.ok (ε := Cause) ∘ Value.str))
        ∧ Fits ρ s ((repeated? text n.toInt.toNat).map (Except.ok (ε := Cause) ∘ Value.str)) := by
    cases repeated? text n.toInt.toNat with
    | none => exact ⟨rfl, fits_none⟩
    | some text' => exact ⟨rfl, fits_some.mpr ((fits_of_isLeaf rfl).mpr trivial)⟩
  unfold multiply
  rw [Value.asStr?_rename, Value.asStr?_rename, Value.asInt?_rename, Value.asInt?_rename]
  split
  · exact htext ..
  · exact htext ..
  · exact ⟨congrArg some hint.1, fits_some.mpr hint.2⟩

/-- A sum, or two sequences of one kind joined. -/
theorem tracks_add {a b : Value} (ha : Fits ρ s a) (hb : Fits ρ s b) :
    Calc.Tracks ρ s (add a b) (add (a.rename ρ) (b.rename ρ)) := by
  have hint : Calc.Tracks ρ s (liftM (integersBy "+" (· + ·) a b))
      (liftM (integersBy "+" (· + ·) (a.rename ρ) (b.rename ρ))) :=
    have h := integersBy_rename "+" (· + ·) a b
    tracks_liftM h.1 h.2
  cases a with
  | str text =>
      cases b with
      | str text' => exact tracks_pure ((fits_of_isLeaf rfl).mpr trivial)
      | tuple items => rw [Value.rename_tuple] at hint ⊢; exact hint
      | _ => exact hint
  | tuple items =>
      cases b with
      | tuple items' =>
          rw [Value.rename_tuple, Value.rename_tuple]
          have hfits : Fits ρ s (Value.tuple (items ++ items')) := by
            rw [fits_tuple, fits_list] at *
            intro v hv
            exact (List.mem_append.mp hv).elim (ha v) (hb v)
          have h := tracks_pure hfits
          rw [show rename ρ (Value.tuple (items ++ items'))
            = .tuple (items.map (Value.rename ρ) ++ items'.map (Value.rename ρ)) by
              rw [← List.map_append]; exact Value.rename_tuple _] at h
          exact h
      | _ => rw [Value.rename_tuple] at hint ⊢; exact hint
  | list place =>
      cases b with
      | list place' =>
          -- two lists are read in the store and joined in a new place
          refine tracks_modifyGet fun t ht => ?_
          rw [ht.list_eq place (fits_listPlace.mp ha), ht.list_eq place' (fits_listPlace.mp hb),
            ← Array.map_append]
          refine ht.makeList (fits_array.mpr fun v hv => ?_)
          rw [Array.toList_append] at hv
          exact (List.mem_append.mp hv).elim (fits_array.mp (ht.fits_items place) v)
            (fits_array.mp (ht.fits_items place') v)
      | tuple items => rw [Value.rename_tuple] at hint ⊢; exact hint
      | _ => exact hint
  | _ =>
      cases b with
      | tuple items => rw [Value.rename_tuple] at hint ⊢; exact hint
      | _ => exact hint

/-- How two values compare. -/
theorem compare_rename (h : s.Alike ρ t) (kind : Comparison) {a b : Value} (ha : Fits ρ s a)
    (hb : Fits ρ s b) : compare t kind (a.rename ρ) (b.rename ρ) = compare s kind a b := by
  have hord : ordering? (a.rename ρ) (b.rename ρ) = ordering? a b := by
    unfold ordering?
    simp only [Value.asStr?_rename, Value.asInt?_rename]
  unfold compare
  simp only [h.eq ha hb, hord, Value.typeName_rename]

/-- An iterator over a value. -/
theorem tracks_iterate {v : Value} (hv : Fits ρ s v) :
    Calc.Tracks ρ s (iterate v) (iterate (v.rename ρ)) := by
  have hmake (cursor cursor' : Cursor) : Calc.Tracks ρ s
      (modifyGet fun store => store.makeIterator cursor)
      (modifyGet fun store => store.makeIterator cursor') :=
    tracks_modifyGet fun t ht => ht.makeIterator cursor cursor'
  cases v with
  | tuple items =>
      rw [Value.rename_tuple]
      exact tracks_get_bind fun _ _ => hmake _ _
  | list place => exact tracks_get_bind fun _ _ => hmake _ _
  | dict place => exact tracks_get_bind fun _ _ => hmake _ _
  | str text => exact tracks_get_bind fun _ _ => hmake _ _
  | iterator place => exact tracks_pure hv
  | _ => exact tracks_get_bind fun _ _ => tracks_throw _

/-- A range is given by numbers. -/
theorem rangeCursor_rename (args : List Value) :
    rangeCursor (args.map (Value.rename ρ)) = rangeCursor args := by
  have harg (which : String) (v : Value) :
      rangeArgument which (v.rename ρ) = rangeArgument which v := by
    unfold rangeArgument
    rw [Value.asInt?_rename]
  match args with
  | [] => rfl
  | [_] => simp only [List.map_cons, List.map_nil, rangeCursor, harg]
  | [_, _] => simp only [List.map_cons, List.map_nil, rangeCursor, harg]
  | [_, _, _] => simp only [List.map_cons, List.map_nil, rangeCursor, harg]
  | _ :: _ :: _ :: _ :: _ => simp only [List.map_cons, rangeCursor, harg]

/-- What is shown of the first of some arguments. -/
theorem text_head?_rename (h : s.Alike ρ t) {args : List Value} (ha : Fits ρ s args) :
    (args.map (Value.rename ρ)).head?.map t.text = args.head?.map s.text := by
  cases args with
  | nil => rw [List.map_nil, List.head?_nil, Option.map_none, Option.map_none]
  | cons v rest =>
      rw [List.map_cons, List.head?_cons, List.head?_cons, Option.map_some, Option.map_some,
        h.text (fits_list.mp ha v (List.mem_cons_self ..))]

theorem tracks_exceptionOf {args : List Value} (h : Fits ρ s args) :
    Calc.Tracks ρ s (exceptionOf args) (exceptionOf (args.map (Value.rename ρ))) := by
  unfold exceptionOf
  refine tracks_modifyGet fun t ht => ?_
  rw [text_head?_rename ht h]
  exact ht.makeException _ _

theorem tracks_objectOf {args : List Value} (h : Fits ρ s args) :
    Calc.Tracks ρ s (objectOf args) (objectOf (args.map (Value.rename ρ))) := by
  have hnone : Calc.Tracks ρ s (modifyGet fun s => s.makeObject none)
      (modifyGet fun s => s.makeObject none) :=
    tracks_modifyGet fun t ht => ht.makeObject none fun _ hc => nomatch hc
  cases args with
  | nil => exact hnone
  | cons v rest =>
      have hv := fits_list.mp h v (List.mem_cons_self ..)
      cases v with
      | none => exact hnone
      | object place =>
          refine tracks_modifyGet fun t ht => ht.makeObject (some place) fun c hc => ?_
          obtain rfl := Option.some.inj hc
          exact (fits_of_isLeaf rfl).mp hv
      | tuple items =>
          rw [List.map_cons, Value.rename_tuple]
          exact tracks_throw _
      | _ => exact tracks_throw _

end Resumable
