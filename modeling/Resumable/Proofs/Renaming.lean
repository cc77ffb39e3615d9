/-
  Resumable.Proofs.Renaming
  ─────────────────────────
  **THE SAME VALUES IN OTHER PLACES.**

  Two runs that do the same work on stores of different sizes build the same
  values in different places.  A `Renaming` tells where each place of the first
  run is in the second one; it is injective, so nothing that compares places
  can tell the runs apart.  Continuations are not renamed: the runs share the
  first `shared` of them and show no other.

  A value is opened into its leaves, and everything a comparison or a written
  form asks the store about a value, it asks about a leaf:

      (1, [7], (k, ⟨a dict⟩))   has the leaves   1,  [7],  k,  ⟨a dict⟩

  Lists and dicts are leaves, since what they hold is in the store.

  Main results:
    • `Value.reprBy_rename` — renamed values are written alike,
    • `Value.eqBy_rename`   — and compare alike.
-/
import Mathlib
import Resumable.Machine.Run

namespace Resumable

/-! ## §1. Leaves. -/

/-- Whether a value holds no other value itself. -/
def Value.isLeaf : Value → Bool
  | .tuple _ => false
  | _ => true

mutual

/-- What a value holds when its tuples are opened. -/
def Value.leaves : Value → List Value
  | .tuple items => itemsLeaves items
  | v => [v]

/-- The leaves of a sequence. -/
def itemsLeaves : List Value → List Value
  | [] => []
  | item :: rest => item.leaves ++ itemsLeaves rest

end

/-- The leaves of a sequence are those of its values in turn. -/
theorem itemsLeaves_eq (items : List Value) : itemsLeaves items = items.flatMap Value.leaves := by
  induction items with
  | nil => rfl
  | cons item rest ih => rw [itemsLeaves, ih, List.flatMap_cons]

@[simp] theorem Value.leaves_tuple (items : List Value) :
    (Value.tuple items).leaves = items.flatMap Value.leaves := by
  rw [leaves, itemsLeaves_eq]

/-- A leaf is its only leaf. -/
theorem Value.leaves_of_isLeaf {v : Value} (h : v.isLeaf = true) : v.leaves = [v] := by
  cases v with
  | tuple items => exact nomatch h
  | _ => rfl

/-- Values are leaves, or hold values in a tuple. -/
theorem Value.induct {P : Value → Prop} (leaf : ∀ v, v.isLeaf = true → P v)
    (tuple : ∀ items, (∀ v ∈ items, P v) → P (.tuple items)) : ∀ v, P v
  | .tuple items => tuple items fun v _ => Value.induct leaf tuple v
  | .none => leaf _ rfl
  | .bool _ => leaf _ rfl
  | .int _ => leaf _ rfl
  | .str _ => leaf _ rfl
  | .list _ => leaf _ rfl
  | .dict _ => leaf _ rfl
  | .function _ => leaf _ rfl
  | .builtin _ => leaf _ rfl
  | .object _ => leaf _ rfl
  | .iterator _ => leaf _ rfl
  | .exception _ => leaf _ rfl
  | .continuation _ => leaf _ rfl
  termination_by v => sizeOf v
  decreasing_by
    have := List.sizeOf_lt_of_mem ‹v ∈ items›
    simp only [Value.tuple.sizeOf_spec]
    omega

/-- The leaves of a value are leaves. -/
theorem Value.isLeaf_of_mem_leaves {v leaf : Value} (h : leaf ∈ v.leaves) :
    leaf.isLeaf = true := by
  induction v using Value.induct with
  | leaf v hv =>
      rw [leaves_of_isLeaf hv] at h
      rw [List.mem_singleton.mp h]
      exact hv
  | tuple items ih =>
      rw [leaves_tuple] at h
      obtain ⟨v, hv, hleaf⟩ := List.mem_flatMap.mp h
      exact ih v hv hleaf

/-- The value that a container is. -/
def Container.value : Container → Value
  | .list place => .list place
  | .dict place => .dict place

/-! ## §2. Renamings. -/

/-- Where the places and the serial numbers of one run are in another. -/
structure Renaming where
  /-- Of lists. -/
  list : Address → Address
  /-- Of dicts. -/
  dict : Address → Address
  /-- Of objects. -/
  object : Address → Address
  /-- Of iterators. -/
  iterator : Address → Address
  /-- Of functions, natives and exceptions. -/
  serial : Nat → Nat
  /-- The number of continuations that both runs have. -/
  shared : Nat
  list_injective : Function.Injective list
  dict_injective : Function.Injective dict
  object_injective : Function.Injective object
  iterator_injective : Function.Injective iterator
  serial_injective : Function.Injective serial

variable {ρ : Renaming}

/-- A function, renamed. -/
def Function.rename (ρ : Renaming) (f : Function) : Function :=
  { f with serial := ρ.serial f.serial }

mutual

/-- A value, renamed. -/
def Value.rename (ρ : Renaming) : Value → Value
  | .tuple items => .tuple (renameItems ρ items)
  | .list place => .list (ρ.list place)
  | .dict place => .dict (ρ.dict place)
  | .function f => .function (f.rename ρ)
  | .builtin b => .builtin { b with serial := ρ.serial b.serial }
  | .object place => .object (ρ.object place)
  | .iterator place => .iterator (ρ.iterator place)
  | .exception e => .exception { e with serial := ρ.serial e.serial }
  | v => v

/-- The values of a sequence, renamed. -/
def renameItems (ρ : Renaming) : List Value → List Value
  | [] => []
  | item :: rest => item.rename ρ :: renameItems ρ rest

end

/-- A named value, renamed. -/
def renameEntry (ρ : Renaming) (entry : String × Value) : String × Value :=
  (entry.1, entry.2.rename ρ)

/-- A sequence is renamed value by value. -/
theorem renameItems_eq (items : List Value) : renameItems ρ items = items.map (Value.rename ρ) := by
  induction items with
  | nil => rfl
  | cons item rest ih => rw [renameItems, ih, List.map_cons]

/-- A container, renamed. -/
def Container.rename (ρ : Renaming) : Container → Container
  | .list place => .list (ρ.list place)
  | .dict place => .dict (ρ.dict place)

/-- Different containers stay different. -/
theorem Container.rename_injective : Function.Injective (Container.rename ρ) := by
  intro a b h
  cases a <;> cases b <;> simp only [rename, list.injEq, dict.injEq, reduceCtorEq] at h
  · exact congrArg _ (ρ.list_injective h)
  · exact congrArg _ (ρ.dict_injective h)

namespace Value

@[simp] theorem rename_tuple (items : List Value) :
    (Value.tuple items).rename ρ = .tuple (items.map (rename ρ)) := by
  rw [rename, renameItems_eq]

/-- A value whose leaves stay where they are stays what it is. -/
theorem rename_eq_self {v : Value} (h : ∀ leaf ∈ v.leaves, leaf.rename ρ = leaf) :
    v.rename ρ = v := by
  induction v using Value.induct with
  | leaf v hv =>
      rw [leaves_of_isLeaf hv] at h
      exact h v (List.mem_singleton.mpr rfl)
  | tuple items ih =>
      rw [rename_tuple]
      congr 1
      rw [leaves_tuple] at h
      conv => rhs; rw [← List.map_id items]
      exact List.map_congr_left fun v hv =>
        ih v hv fun leaf hleaf => h leaf (List.mem_flatMap.mpr ⟨v, hv, hleaf⟩)

end Value

/-- The renaming that leaves everything where it is. -/
def Renaming.refl (shared : Nat) : Renaming where
  list := id
  dict := id
  object := id
  iterator := id
  serial := id
  shared := shared
  list_injective := Function.injective_id
  dict_injective := Function.injective_id
  object_injective := Function.injective_id
  iterator_injective := Function.injective_id
  serial_injective := Function.injective_id

@[simp] theorem Container.rename_refl (shared : Nat) (c : Container) :
    c.rename (.refl shared) = c := by
  cases c <;> rfl

namespace Value

/-- Where everything stays, a value stays what it is. -/
@[simp] theorem rename_refl (shared : Nat) (v : Value) : v.rename (.refl shared) = v :=
  rename_eq_self fun leaf hleaf => by
    have h := isLeaf_of_mem_leaves hleaf
    cases leaf with
    | tuple items => exact nomatch h
    | _ => rfl

/-! ## §3. What a renaming does not touch. -/

/-- Numbers are in no place. -/
@[simp] theorem asInt?_rename (v : Value) : (v.rename ρ).asInt? = v.asInt? := by
  cases v <;> rfl

/-- Texts are in no place. -/
@[simp] theorem asStr?_rename (v : Value) : (v.rename ρ).asStr? = v.asStr? := by
  cases v <;> rfl

/-- A type has the same name wherever its values are. -/
@[simp] theorem typeName_rename (v : Value) : (v.rename ρ).typeName = v.typeName := by
  cases v <;> rfl

/-- A tuple of names passes the same names. -/
@[simp] theorem asNames?_rename (v : Value) : (v.rename ρ).asNames? = v.asNames? := by
  cases v with
  | tuple items =>
      rw [rename_tuple, asNames?, asNames?]
      induction items with
      | nil => rfl
      | cons item rest ih => simp only [List.map_cons, List.mapM_cons, asStr?_rename, ih]
  | _ => rfl

end Value

/-! ## §4. Written forms. -/

section Written

variable {f f' : Container → String} {k k' : Address → String}

/-- The values of a sequence are written one by one. -/
theorem itemsReprBy_eq (f : Container → String) (k : Address → String) (items : List Value) :
    itemsReprBy f k items = items.map (Value.reprBy f k) := by
  induction items with
  | nil => rfl
  | cons item rest ih => rw [itemsReprBy, ih, List.map_cons]

/-- A tuple of one value is written with a comma. -/
theorem Value.reprBy_single (f : Container → String) (k : Address → String) (v : Value) :
    (Value.tuple [v]).reprBy f k = "(" ++ v.reprBy f k ++ ",)" := rfl

theorem Value.reprBy_items (f : Container → String) (k : Address → String) {items : List Value}
    (h : items.length ≠ 1) :
    (Value.tuple items).reprBy f k
      = "(" ++ Text.joined ", " (items.map (Value.reprBy f k)) ++ ")" := by
  rw [← itemsReprBy_eq]
  match items, h with
  | [], _ => rfl
  | _ :: _ :: _, _ => rfl

/-- A tuple is written by the written forms of its items. -/
theorem Value.reprBy_tuple_congr {items items' : List Value}
    (h : items'.map (Value.reprBy f' k') = items.map (Value.reprBy f k)) :
    (Value.tuple items').reprBy f' k' = (Value.tuple items).reprBy f k := by
  have hlen := congrArg List.length h
  rw [List.length_map, List.length_map] at hlen
  by_cases hone : items.length = 1
  · obtain ⟨v, rfl⟩ := List.length_eq_one_iff.mp hone
    obtain ⟨v', rfl⟩ := List.length_eq_one_iff.mp (hlen.trans hone)
    have hv : v'.reprBy f' k' = v.reprBy f k := (List.cons.inj h).1
    rw [reprBy_single, reprBy_single, hv]
  · rw [reprBy_items f k hone, reprBy_items f' k' (hlen ▸ hone), h]

/-- **Renamed values are written alike**, when their containers and
continuations are. -/
theorem Value.reprBy_rename {v : Value}
    (hheld : ∀ c : Container, c.value ∈ v.leaves → f' (c.rename ρ) = f c)
    (hcont : ∀ place, .continuation place ∈ v.leaves → k' place = k place) :
    (v.rename ρ).reprBy f' k' = v.reprBy f k := by
  induction v using Value.induct with
  | leaf v hv =>
      cases v with
      | tuple items => exact nomatch hv
      | list place => exact hheld (.list place) (List.mem_singleton.mpr rfl)
      | dict place => exact hheld (.dict place) (List.mem_singleton.mpr rfl)
      | continuation place => exact hcont place (List.mem_singleton.mpr rfl)
      | bool b => cases b <;> rfl
      | _ => rfl
  | tuple items ih =>
      rw [leaves_tuple] at hheld hcont
      rw [rename_tuple]
      apply reprBy_tuple_congr
      rw [List.map_map]
      exact List.map_congr_left fun v hv =>
        ih v hv (fun c hc => hheld c (List.mem_flatMap.mpr ⟨v, hv, hc⟩))
          fun place hp => hcont place (List.mem_flatMap.mpr ⟨v, hv, hp⟩)

end Written

/-! ## §5. Comparisons. -/

section Compared

variable {same same' : Container → Container → Bool}

/-- Places compare alike under a map that keeps them apart. -/
theorem beq_of_injective {f : Nat → Nat} (hf : Function.Injective f) (a b : Nat) :
    (f a == f b) = (a == b) := by
  rw [Bool.eq_iff_iff, beq_iff_eq, beq_iff_eq, hf.eq_iff]

/-- **Renamed values compare alike**, when their containers do. -/
theorem Value.eqBy_rename {a b : Value}
    (h : ∀ p q : Container, p.value ∈ a.leaves → q.value ∈ b.leaves →
      same' (p.rename ρ) (q.rename ρ) = same p q) :
    (a.rename ρ).eqBy same' (b.rename ρ) = a.eqBy same b := by
  induction a using Value.induct generalizing b with
  | leaf a ha =>
      cases a with
      | tuple items => exact nomatch ha
      | bool i => simp [rename, eqBy]
      | int i => simp [rename, eqBy]
      | _ =>
          cases b <;> first
            | rfl
            | exact h (.list _) (.list _) (List.mem_singleton.mpr rfl) (List.mem_singleton.mpr rfl)
            | exact h (.dict _) (.dict _) (List.mem_singleton.mpr rfl) (List.mem_singleton.mpr rfl)
            | exact beq_of_injective ρ.serial_injective _ _
            | exact beq_of_injective ρ.object_injective _ _
            | exact beq_of_injective ρ.iterator_injective _ _
  | tuple items ih =>
      cases b with
      | tuple items' =>
          rw [leaves_tuple, leaves_tuple] at h
          rw [rename_tuple, rename_tuple, eqBy, eqBy]
          induction items generalizing items' with
          | nil => cases items' <;> rfl
          | cons v rest ih' =>
              cases items' with
              | nil => rfl
              | cons v' rest' =>
                  rw [List.map_cons, List.map_cons, itemsEqBy, itemsEqBy,
                    ih v (List.mem_cons_self ..) fun p q hp hq =>
                      h p q (List.mem_append_left _ hp) (List.mem_append_left _ hq),
                    ih' (fun v hv => ih v (List.mem_cons_of_mem _ hv)) rest' fun p q hp hq =>
                      h p q (List.mem_append_right _ hp) (List.mem_append_right _ hq)]
      | _ => rw [rename_tuple]; rfl

/-- Renamed sequences compare alike, when the containers in them do. -/
theorem itemsEqBy_rename {as bs : List Value}
    (h : ∀ a ∈ as, ∀ b ∈ bs, ∀ p q : Container, p.value ∈ a.leaves → q.value ∈ b.leaves →
      same' (p.rename ρ) (q.rename ρ) = same p q) :
    itemsEqBy same' (as.map (Value.rename ρ)) (bs.map (Value.rename ρ)) = itemsEqBy same as bs := by
  have heq : ((Value.tuple as).rename ρ).eqBy same' ((Value.tuple bs).rename ρ)
      = (Value.tuple as).eqBy same (.tuple bs) := by
    refine Value.eqBy_rename fun p q hp hq => ?_
    rw [Value.leaves_tuple] at hp hq
    obtain ⟨a, ha, hp⟩ := List.mem_flatMap.mp hp
    obtain ⟨b, hb, hq⟩ := List.mem_flatMap.mp hq
    exact h a ha b hb p q hp hq
  rwa [Value.rename_tuple, Value.rename_tuple, Value.eqBy, Value.eqBy] at heq

end Compared

end Resumable
