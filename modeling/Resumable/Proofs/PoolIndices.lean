/-
  Resumable.Proofs.PoolIndices
  ────────────────────────────
  **WHERE THE ENTRIES OF A POOL ARE.**

  What is added to a pool gets a place: that of an equal entry, if it can be shared and
  there is one, else a new place at the end.  The index that is answered is the place,
  as far as an operand can tell it:

      add    "a"   "b"   "a"   …   the 65537th different one
      place   0     1     0    …   65536
      index   0     1     0    …   0

  The places of a pool are all filled, from the first one on, and two additions have the
  same place exactly if they are equal and can be shared.  So the indices are those of
  what was added as long as no more than 65536 places are filled, and no longer: the
  index of the next one is that of the first.

  Main results:
    • `Fills.resolves_iff` — the indices resolve if the pool is small enough,
    • `Pool.InStep.add`    — an addition keeps pool and index map in step,
    • `pool_indices`       — the indices of the constants and names of a finished body.
-/
import Resumable.Proofs.AssemblyCalls

namespace Resumable

/-! ## §1. Places and indices. -/

section Pools

variable {α κ : Type} {key? : α → Option κ} {pool : Array α} {placed : List (α × Nat)}

/-- The additions to a pool, each with its place. -/
structure Fills (key? : α → Option κ) (pool : Array α) (placed : List (α × Nat)) : Prop where
  /-- What was added is at its place. -/
  found : ∀ {x place}, (x, place) ∈ placed → pool[place]? = some x
  /-- Two additions have the same place if they are equal and can be shared. -/
  shared : placed.Pairwise fun e e' => e.2 = e'.2 ↔ e.1 = e'.1 ∧ (key? e.1).isSome
  /-- There is nothing else in the pool. -/
  full : ∀ {place}, place < pool.size → ∃ x, (x, place) ∈ placed

/-- The index of an addition is as much of its place as an operand can tell. -/
def answered (placed : List (α × Nat)) : List (α × UInt16) :=
  placed.map fun e => (e.1, e.2.toUInt16)

/-- The indices of additions are those of what was added, in the pool they were added to. -/
structure Resolves (key? : α → Option κ) (pool : Array α) (added : List (α × UInt16)) : Prop where
  /-- At the index of an addition is what was added. -/
  found : ∀ {x index}, (x, index) ∈ added → pool[index.toNat]? = some x
  /-- Two additions have the same index if they are equal and can be shared. -/
  shared : added.Pairwise fun e e' => e.2 = e'.2 ↔ e.1 = e'.1 ∧ (key? e.1).isSome

namespace Fills

theorem lt_size {x : α} {place : Nat} (h : Fills key? pool placed) (hmem : (x, place) ∈ placed) :
    place < pool.size :=
  (Array.getElem?_eq_some_iff.mp (h.found hmem)).1

/-- An entry that can be shared has one place. -/
theorem place_eq {x : α} {m n : Nat} (h : Fills key? pool placed) (hkey : (key? x).isSome)
    (hm : pool[m]? = some x) (hn : pool[n]? = some x) : m = n := by
  obtain ⟨hmlt, -⟩ := Array.getElem?_eq_some_iff.mp hm
  obtain ⟨hnlt, -⟩ := Array.getElem?_eq_some_iff.mp hn
  obtain ⟨y, hy⟩ := h.full hmlt
  obtain ⟨z, hz⟩ := h.full hnlt
  obtain rfl : y = x := Option.some.inj ((h.found hy).symm.trans hm)
  obtain rfl : z = y := Option.some.inj ((h.found hz).symm.trans hn)
  -- an entry of the pool was added there, and additions of it have one place
  have hsymm : Std.Symm fun e e' : α × Nat => e.1 = e'.1 → (key? e.1).isSome → e.2 = e'.2 :=
    ⟨fun e e' hee heq hsome => (hee heq.symm (heq ▸ hsome)).symm⟩
  have hsame : placed.Pairwise fun e e' => e.1 = e'.1 → (key? e.1).isSome → e.2 = e'.2 :=
    h.shared.imp fun hiff heq hsome => hiff.mpr ⟨heq, hsome⟩
  exact hsame.forall_of_forall (fun _ _ _ _ => rfl) hy hz rfl hkey

/-- Indices that resolve tell all places apart. -/
theorem place_eq_of_index {x y : α} {m n : Nat} (h : Fills key? pool placed)
    (hresolves : Resolves key? pool (answered placed)) (hx : (x, m) ∈ placed)
    (hy : (y, n) ∈ placed) (hindex : m.toUInt16 = n.toUInt16) : m = n := by
  have hsymm : Std.Symm fun e e' : α × Nat => e.2.toUInt16 = e'.2.toUInt16 → e.2 = e'.2 :=
    ⟨fun e e' hee heq => (hee heq.symm).symm⟩
  have hsame : placed.Pairwise fun e e' => e.2.toUInt16 = e'.2.toUInt16 → e.2 = e'.2 := by
    have hindices := List.pairwise_map.mp hresolves.shared
    exact (hindices.and h.shared).imp fun hboth heq => hboth.2.mpr (hboth.1.mp heq)
  exact hsame.forall_of_forall (fun _ _ _ => rfl) hx hy hindex

/-- In a small pool they are the places. -/
theorem resolves (h : Fills key? pool placed) (hfew : pool.size ≤ 65536) :
    Resolves key? pool (answered placed) := by
  have hcut {x : α} {place : Nat} (hmem : (x, place) ∈ placed) :
      place.toUInt16.toNat = place := by
    have hlt := h.lt_size hmem
    exact Nat.mod_eq_of_lt (by omega)
  refine ⟨fun {x index} hmem => ?_, List.pairwise_map.mpr ?_⟩
  · obtain ⟨⟨y, place⟩, hplaced, heq⟩ := List.mem_map.mp hmem
    obtain ⟨rfl, rfl⟩ := Prod.mk.inj heq
    rw [hcut hplaced]
    exact h.found hplaced
  · refine h.shared.imp_of_mem fun {e e'} he he' hiff => Iff.trans ?_ hiff
    constructor
    · intro heq
      rw [← hcut he, ← hcut he']
      exact congrArg UInt16.toNat heq
    · exact congrArg Nat.toUInt16

/-- **The indices resolve** exactly if there are no more places than indices. -/
theorem resolves_iff (h : Fills key? pool placed) :
    Resolves key? pool (answered placed) ↔ pool.size ≤ 65536 := by
  refine ⟨fun hresolves => ?_, h.resolves⟩
  by_contra hmany
  -- the first place and the one after as many as there are indices have one index
  obtain ⟨x, hx⟩ := h.full (show 0 < pool.size by omega)
  obtain ⟨y, hy⟩ := h.full (show 65536 < pool.size by omega)
  have hindex : (0 : Nat).toUInt16 = (65536 : Nat).toUInt16 := by decide
  have hsame := h.place_eq_of_index hresolves hx hy hindex
  omega

/-- Different values fill as many places. -/
theorem length_le (h : Fills key? pool placed) (hnodup : (placed.map Prod.fst).Nodup) :
    placed.length ≤ pool.size := by
  have hplaces : (placed.map Prod.snd).Nodup := by
    refine List.pairwise_map.mpr (((List.pairwise_map.mp hnodup).and h.shared).imp ?_)
    exact fun hboth heq => hboth.1 (hboth.2.mp heq).1
  have hsubset : placed.map Prod.snd ⊆ List.range pool.size := by
    intro place hmem
    obtain ⟨⟨x, n⟩, hplaced, rfl⟩ := List.mem_map.mp hmem
    exact List.mem_range.mpr (h.lt_size hplaced)
  have hlength := (hplaces.subperm hsubset).length_le
  rwa [List.length_map, List.length_range] at hlength

/-- A value that cannot be shared, or is nowhere in the pool, gets a new place. -/
theorem push {x : α} (h : Fills key? pool placed)
    (hnew : (key? x).isSome → ∀ place : Nat, pool[place]? ≠ some x) :
    Fills key? (pool.push x) (placed ++ [(x, pool.size)]) where
  found {y place} hmem := by
    rcases List.mem_append.mp hmem with hmem | hmem
    · rw [Array.getElem?_push_lt (h.lt_size hmem), ← Array.getElem?_eq_getElem]
      exact h.found hmem
    · obtain ⟨rfl, rfl⟩ := Prod.mk.inj (List.mem_singleton.mp hmem)
      exact Array.getElem?_push_size
  shared := by
    refine List.pairwise_append.mpr ⟨h.shared, List.pairwise_singleton .., fun e he e' he' => ?_⟩
    obtain rfl := List.mem_singleton.mp he'
    constructor
    · intro heq
      exact absurd heq (Nat.ne_of_lt (h.lt_size he))
    · rintro ⟨rfl, hsome⟩
      exact absurd (h.found he) (hnew hsome _)
  full {place} hlt := by
    rw [Array.size_push] at hlt
    rcases Nat.lt_succ_iff_lt_or_eq.mp hlt with hlt | rfl
    · obtain ⟨y, hy⟩ := h.full hlt
      exact ⟨y, List.mem_append_left _ hy⟩
    · exact ⟨x, List.mem_append_right _ (List.mem_singleton_self _)⟩

/-- One that is shared has the place it had. -/
theorem share {x : α} {place : Nat} (h : Fills key? pool placed) (hkey : (key? x).isSome)
    (hplace : pool[place]? = some x) : Fills key? pool (placed ++ [(x, place)]) where
  found {y other} hmem := by
    rcases List.mem_append.mp hmem with hmem | hmem
    · exact h.found hmem
    · obtain ⟨rfl, rfl⟩ := Prod.mk.inj (List.mem_singleton.mp hmem)
      exact hplace
  shared := by
    refine List.pairwise_append.mpr ⟨h.shared, List.pairwise_singleton .., fun e he e' he' => ?_⟩
    obtain rfl := List.mem_singleton.mp he'
    constructor
    · intro heq
      have hsame : e.1 = x := Option.some.inj ((h.found he).symm.trans (heq ▸ hplace))
      exact ⟨hsame, hsame ▸ hkey⟩
    · rintro ⟨rfl, hsome⟩
      exact h.place_eq hsome (h.found he) hplace
  full hlt := by
    obtain ⟨y, hy⟩ := h.full hlt
    exact ⟨y, List.mem_append_left _ hy⟩

end Fills

/-- What the keys of a pool are told by, after a value has been put at its end. -/
theorem exists_push_iff {x : α} {key : κ} {index : UInt16} :
    (∃ (place : Nat) (y : α), (pool.push x)[place]? = some y ∧ key? y = some key
        ∧ index = place.toUInt16)
      ↔ (∃ (place : Nat) (y : α), pool[place]? = some y ∧ key? y = some key
        ∧ index = place.toUInt16)
        ∨ (key? x = some key ∧ index = pool.size.toUInt16) := by
  constructor
  · rintro ⟨place, y, hy, hkey, rfl⟩
    rw [Array.getElem?_push] at hy
    split at hy
    · next hplace =>
        obtain rfl := Option.some.inj hy
        exact .inr ⟨hkey, congrArg Nat.toUInt16 hplace⟩
    · exact .inl ⟨place, y, hy, hkey, rfl⟩
  · rintro (⟨place, y, hy, hkey, rfl⟩ | ⟨hkey, rfl⟩)
    · obtain ⟨hlt, hget⟩ := Array.getElem?_eq_some_iff.mp hy
      exact ⟨place, y, by rw [Array.getElem?_push_lt hlt, hget], hkey, rfl⟩
    · exact ⟨pool.size, x, Array.getElem?_push_size, hkey, rfl⟩

end Pools

/-! ## §2. Adding to a pool. -/

/-- A pool under assembly. -/
structure Pool (α κ : Type) [BEq κ] [Hashable κ] where
  /-- The entries. -/
  entries : Array α
  /-- The index of each key there is. -/
  index : Std.HashMap κ UInt16

namespace Pool

variable {α κ : Type} [DecidableEq κ] [Hashable κ] {key? : α → Option κ} {p : Pool α κ}
  {placed : List (α × Nat)}

/-- Add a value, unless there is one of its key: the index of it, and the pool after. -/
def add (key? : α → Option κ) (p : Pool α κ) (x : α) : UInt16 × Pool α κ :=
  let next := p.entries.size.toUInt16
  match key? x with
  | none => (next, { p with entries := p.entries.push x })
  | some key =>
      match p.index[key]? with
      | some index => (index, p)
      | none => (next, ⟨p.entries.push x, p.index.insert key next⟩)

/-- A pool and its index map are in step with what was added. -/
structure InStep (key? : α → Option κ) (p : Pool α κ) (placed : List (α × Nat)) : Prop where
  fills : Fills key? p.entries placed
  /-- The map tells the place of each key. -/
  index_iff : ∀ {key index}, p.index[key]? = some index ↔
    ∃ (place : Nat) (x : α), p.entries[place]? = some x ∧ key? x = some key ∧ index = place.toUInt16

/-- A new pool has no places. -/
theorem inStep_empty (key? : α → Option κ) : InStep key? ⟨#[], {}⟩ [] where
  fills := ⟨fun h => (by cases h), .nil, fun h => (by cases h)⟩
  index_iff := by
    intro key index
    rw [Std.HashMap.getElem?_empty]
    constructor
    · intro h
      cases h
    · rintro ⟨place, x, h, -⟩
      cases h

/-- **An addition keeps them in step**, if a key tells its value. -/
theorem InStep.add (hkey : ∀ {x y key}, key? x = some key → key? y = some key → x = y)
    (h : p.InStep key? placed) (x : α) :
    ∃ place : Nat, (p.add key? x).1 = place.toUInt16
      ∧ (p.add key? x).2.InStep key? (placed ++ [(x, place)]) := by
  unfold Pool.add
  cases hx : key? x with
  | none =>
      refine ⟨p.entries.size, rfl, h.fills.push (by rw [hx]; exact fun h => (by cases h)), ?_⟩
      intro key index
      rw [exists_push_iff, hx, h.index_iff]
      simp only [reduceCtorEq, false_and, or_false]
  | some key =>
      dsimp only
      cases hindex : p.index[key]? with
      | some index =>
          -- the key was put there by a value that is the same one
          obtain ⟨place, y, hy, hkeyY, rfl⟩ := h.index_iff.mp hindex
          obtain rfl := hkey hkeyY hx
          exact ⟨place, rfl, h.fills.share (by rw [hx]; rfl) hy, h.index_iff⟩
      | none =>
          have hnew : ∀ place : Nat, p.entries[place]? ≠ some x := by
            intro place hplace
            rw [h.index_iff.mpr ⟨place, x, hplace, hx, rfl⟩] at hindex
            cases hindex
          refine ⟨p.entries.size, rfl, h.fills.push fun _ => hnew, ?_⟩
          intro other index
          rw [exists_push_iff, hx, ← h.index_iff, Std.HashMap.getElem?_insert]
          by_cases hother : key = other
          · subst hother
            simp only [beq_self_eq_true, if_true, hindex, reduceCtorEq, false_or, true_and,
              Option.some.injEq]
            exact eq_comm
          · simp only [beq_iff_eq, hother, if_false, Option.some.injEq, false_and, or_false]

end Pool

/-! ## §3. The pools of an assembler. -/

namespace Assembler

/-- The constants. -/
def constantPool (a : Assembler) : Pool Constant PoolKey :=
  ⟨a.constants, a.constantIndex⟩

/-- The names of globals and attributes. -/
def namePool (a : Assembler) : Pool String String :=
  ⟨a.names, a.nameIndex⟩

variable {a a' a'' : Assembler}

theorem answer_addConstant (a : Assembler) (c : Constant) :
    answer (addConstant c) a = (a.constantPool.add Constant.poolKey? c).1 := by
  unfold addConstant Pool.add
  simp only [answer_bind, answer_get, after_get]
  cases c.poolKey? with
  | none => rfl
  | some key =>
      dsimp only [constantPool]
      cases a.constantIndex[key]? <;> rfl

theorem constantPool_addConstant (a : Assembler) (c : Constant) :
    (after (addConstant c) a).constantPool = (a.constantPool.add Constant.poolKey? c).2 := by
  unfold addConstant Pool.add
  simp only [after_bind, answer_get, after_get]
  cases c.poolKey? with
  | none => rfl
  | some key =>
      dsimp only [constantPool]
      cases a.constantIndex[key]? <;> rfl

theorem namePool_addConstant (a : Assembler) (c : Constant) :
    (after (addConstant c) a).namePool = a.namePool := by
  unfold addConstant
  simp only [after_bind, answer_get, after_get]
  cases c.poolKey? with
  | none => rfl
  | some key =>
      dsimp only
      cases a.constantIndex[key]? <;> rfl

theorem answer_addName (a : Assembler) (name : String) :
    answer (addName name) a = (a.namePool.add some name).1 := by
  unfold addName Pool.add
  simp only [answer_bind, answer_get, after_get]
  dsimp only [namePool]
  cases a.nameIndex[name]? <;> rfl

theorem namePool_addName (a : Assembler) (name : String) :
    (after (addName name) a).namePool = (a.namePool.add some name).2 := by
  unfold addName Pool.add
  simp only [after_bind, answer_get, after_get]
  dsimp only [namePool]
  cases a.nameIndex[name]? <;> rfl

theorem constantPool_addName (a : Assembler) (name : String) :
    (after (addName name) a).constantPool = a.constantPool := by
  unfold addName
  simp only [after_bind, answer_get, after_get]
  cases a.nameIndex[name]? <;> rfl

/-- Neither pool has changed. -/
structure SamePools (a a' : Assembler) : Prop where
  constants_eq : a'.constantPool = a.constantPool
  names_eq : a'.namePool = a.namePool

theorem SamePools.refl (a : Assembler) : SamePools a a :=
  ⟨rfl, rfl⟩

theorem samePools_setLine (a : Assembler) (line : Nat) : SamePools a (after (setLine line) a) := by
  show SamePools a (if line = a.currentLine then a else _)
  split <;> exact ⟨rfl, rfl⟩

theorem samePools_emit (a : Assembler) (opcode : Opcode) (arg : UInt16) :
    SamePools a (after (emit opcode arg) a) := by
  rw [after_emit]
  exact ⟨rfl, rfl⟩

/-- Emitting a constant or a name adds it, and leaves the pools alone after that. -/
theorem samePools_emitConstant (a : Assembler) (c : Constant) :
    SamePools (after (addConstant c) a) (after (emitConstant c) a) :=
  samePools_emit _ .loadConst (answer (addConstant c) a)

theorem samePools_emitNamed (a : Assembler) (opcode : Opcode) (name : String) :
    SamePools (after (addName name) a) (after (emitNamed opcode name) a) :=
  samePools_emit ..

theorem samePools_emitReturnNone (a : Assembler) :
    SamePools (after (addConstant .none) a) (after emitReturnNone a) := by
  have hfirst := samePools_emitConstant a .none
  have hsecond := samePools_emit (after (emitConstant .none) a) .returnValue 0
  exact ⟨hsecond.constants_eq.trans hfirst.constants_eq, hsecond.names_eq.trans hfirst.names_eq⟩

theorem samePools_emitJump (a : Assembler) (opcode : Opcode) (label : Nat) :
    SamePools a (after (emitJump opcode label) a) := by
  rw [after_emitJump]
  exact ⟨rfl, rfl⟩

theorem samePools_declareLocal (a : Assembler) (name : String) :
    SamePools a (after (declareLocal name) a) := by
  cases hslot : a.localSlot[name]? with
  | some slot =>
      rw [after_declareLocal_known a hslot]
      exact .refl a
  | none =>
      rw [after_declareLocal_new a hslot]
      exact ⟨rfl, rfl⟩

theorem samePools_param (a : Assembler) (name : String) :
    SamePools a (after (AssemblerCall.perform (.param name)) a) := by
  rw [AssemblerCall.after_param]
  by_cases h : a.varnames.size = a.argCount.toNat
  · rw [(declareParam_early a name h).2]
    obtain ⟨hconstants, hnames⟩ := samePools_declareLocal a name
    exact ⟨hconstants, hnames⟩
  · rw [(declareParam_late a name h).2]
    exact .refl a

end Assembler

open Assembler

/-! ## §4. What calls add. -/

namespace AssemblerCall

/-- The constant that a call adds. -/
def constant? : AssemblerCall → Option Constant
  | .constant c | .emitConstant c => some c
  | .emitReturnNone => some .none
  | _ => none

/-- The name that a call adds. -/
def name? : AssemblerCall → Option String
  | .name n | .emitNamed _ n => some n
  | _ => none

/-- A call that adds no constant leaves the constants alone. -/
theorem constantPool_perform (call : AssemblerCall) (a : Assembler) :
    (after call.perform a).constantPool
      = call.constant?.elim a.constantPool fun c => (a.constantPool.add Constant.poolKey? c).2 := by
  cases call with
  | constant c => exact constantPool_addConstant a c
  | name n => exact constantPool_addName a n
  | emitConstant c =>
      exact (samePools_emitConstant a c).constants_eq.trans (constantPool_addConstant a c)
  | emitNamed opcode n =>
      exact (samePools_emitNamed a opcode n).constants_eq.trans (constantPool_addName a n)
  | emitReturnNone =>
      exact (samePools_emitReturnNone a).constants_eq.trans (constantPool_addConstant a .none)
  | line l => exact (samePools_setLine a l).constants_eq
  | param n => exact (samePools_param a n).constants_eq
  | «local» n => exact (samePools_declareLocal a n).constants_eq
  | emit opcode arg => exact (samePools_emit ..).constants_eq
  | emitJump opcode label => exact (samePools_emitJump ..).constants_eq
  | _ => rfl

/-- A call that adds no name leaves the names alone. -/
theorem namePool_perform (call : AssemblerCall) (a : Assembler) :
    (after call.perform a).namePool
      = call.name?.elim a.namePool fun n => (a.namePool.add some n).2 := by
  cases call with
  | constant c => exact namePool_addConstant a c
  | name n => exact namePool_addName a n
  | emitConstant c => exact (samePools_emitConstant a c).names_eq.trans (namePool_addConstant a c)
  | emitNamed opcode n => exact (samePools_emitNamed a opcode n).names_eq.trans (namePool_addName a n)
  | emitReturnNone =>
      exact (samePools_emitReturnNone a).names_eq.trans (namePool_addConstant a .none)
  | line l => exact (samePools_setLine a l).names_eq
  | param n => exact (samePools_param a n).names_eq
  | «local» n => exact (samePools_declareLocal a n).names_eq
  | emit opcode arg => exact (samePools_emit ..).names_eq
  | emitJump opcode label => exact (samePools_emitJump ..).names_eq
  | _ => rfl

end AssemblerCall

/-- What calls add to a pool, each with the index that is answered or emitted. -/
def additions {α : Type} (added? : AssemblerCall → Option α) (add : α → Assembly UInt16) :
    List AssemblerCall → Assembler → List (α × UInt16)
  | [], _ => []
  | call :: calls, a => ((added? call).map fun x => (x, answer (add x) a)).toList
      ++ additions added? add calls (after call.perform a)

/-- The constants that calls add. -/
def constantsAdded : List AssemblerCall → Assembler → List (Constant × UInt16) :=
  additions AssemblerCall.constant? addConstant

/-- The names that calls add. -/
def namesAdded : List AssemblerCall → Assembler → List (String × UInt16) :=
  additions AssemblerCall.name? addName

/-- A pool of an assembler, and how calls add to it. -/
structure AddsTo {α κ : Type} [DecidableEq κ] [Hashable κ] (view : Assembler → Pool α κ)
    (key? : α → Option κ) (added? : AssemblerCall → Option α) (add : α → Assembly UInt16) : Prop where
  /-- A key tells its value. -/
  lawful : ∀ {x y key}, key? x = some key → key? y = some key → x = y
  answers : ∀ a x, answer (add x) a = ((view a).add key? x).1
  performs : ∀ (call : AssemblerCall) (a : Assembler),
    view (after call.perform a) = (added? call).elim (view a) fun x => ((view a).add key? x).2

/-- The constant of a key. -/
def PoolKey.constant : PoolKey → Constant
  | .none => .none
  | .bool b => .bool b
  | .int i => .int i
  | .str s => .str s
  | .names entries => .names entries

theorem Constant.eq_of_poolKey? {c : Constant} {key : PoolKey} (h : c.poolKey? = some key) :
    c = key.constant := by
  cases c <;> cases h <;> rfl

theorem addsTo_constants :
    AddsTo constantPool Constant.poolKey? AssemblerCall.constant? addConstant where
  lawful h h' := (Constant.eq_of_poolKey? h).trans (Constant.eq_of_poolKey? h').symm
  answers := answer_addConstant
  performs := AssemblerCall.constantPool_perform

theorem addsTo_names : AddsTo namePool some AssemblerCall.name? addName where
  lawful h h' := Option.some.inj (h.trans h'.symm)
  answers := answer_addName
  performs := AssemblerCall.namePool_perform

/-- **Calls keep a pool in step** with what they add to it. -/
theorem AddsTo.inStep {α κ : Type} [DecidableEq κ] [Hashable κ] {view : Assembler → Pool α κ}
    {key? : α → Option κ} {added? : AssemblerCall → Option α} {add : α → Assembly UInt16}
    (h : AddsTo view key? added? add) (calls : List AssemblerCall) {a : Assembler}
    {placed : List (α × Nat)} (hstep : (view a).InStep key? placed) :
    ∃ more, additions added? add calls a = answered more
      ∧ (view (after (performAll calls) a)).InStep key? (placed ++ more) := by
  induction calls generalizing a placed with
  | nil => exact ⟨[], rfl, (List.append_nil placed).symm ▸ hstep⟩
  | cons call calls ih =>
      have hperforms := h.performs call a
      cases hadded : added? call with
      | none =>
          rw [hadded, Option.elim_none] at hperforms
          obtain ⟨more, hmore, hend⟩ := ih (hperforms.symm ▸ hstep)
          refine ⟨more, ?_, hend⟩
          rw [additions, hadded]
          exact hmore
      | some x =>
          rw [hadded, Option.elim_some] at hperforms
          obtain ⟨place, hplace, hnext⟩ := hstep.add h.lawful x
          obtain ⟨more, hmore, hend⟩ := ih (hperforms.symm ▸ hnext)
          refine ⟨(x, place) :: more, ?_, ?_⟩
          · rw [additions, hadded, hmore]
            show (x, answer (add x) a) :: answered more = (x, place.toUInt16) :: answered more
            rw [h.answers, hplace]
          · rw [List.append_cons]
            exact hend

/-! ## §5. The pools of a finished body. -/

/-- How the indices of what was added to a pool relate to the finished pool. -/
structure PoolIndices {α κ : Type} (key? : α → Option κ) (pool : Array α)
    (added : List (α × UInt16)) : Prop where
  /-- Each is as much of a place as an operand can tell. -/
  places : ∃ placed, added = answered placed ∧ Fills key? pool placed
  /-- They are the places as long as there are no more places than indices. -/
  resolves_iff : Resolves key? pool added ↔ pool.size ≤ 65536

theorem AddsTo.poolIndices {α κ : Type} [DecidableEq κ] [Hashable κ] {view : Assembler → Pool α κ}
    {key? : α → Option κ} {added? : AssemblerCall → Option α} {add : α → Assembly UInt16}
    (h : AddsTo view key? added? add) (calls : List AssemblerCall) {a : Assembler}
    (hnew : view a = ⟨#[], {}⟩) :
    PoolIndices key? (view (after (performAll calls) a)).entries (additions added? add calls a) := by
  have hstep : (view a).InStep key? [] := hnew ▸ Pool.inStep_empty key?
  obtain ⟨placed, hadded, hend⟩ := h.inStep calls hstep
  rw [hadded]
  exact ⟨⟨placed, rfl, hend.fills⟩, hend.fills.resolves_iff⟩

/-- **The indices of a finished body**, whatever calls it was made by: those of constants
and names resolve exactly if the pools have no more entries than an operand can tell. -/
theorem pool_indices {name : String} {calls : List AssemblerCall} {c : Code}
    (h : (after (performAll calls) { name := name }).finish = .ok c) :
    PoolIndices Constant.poolKey? c.constants (constantsAdded calls { name := name })
      ∧ PoolIndices some c.names (namesAdded calls { name := name }) := by
  obtain ⟨bytes, -, -, -, rfl⟩ := finish_ok.mpr h
  exact ⟨addsTo_constants.poolIndices calls rfl, addsTo_names.poolIndices calls rfl⟩

/-- Calls that only add to the pools emit nothing. -/
theorem answer_performAll_eq_nil {calls : List AssemblerCall}
    (h : ∀ call ∈ calls, ∀ a : Assembler, answer call.perform a = []) (a : Assembler) :
    answer (performAll calls) a = [] := by
  induction calls generalizing a with
  | nil => rfl
  | cons call calls ih =>
      obtain ⟨hcall, hcalls⟩ := List.forall_mem_cons.mp h
      show answer call.perform a ++ answer (performAll calls) (after call.perform a) = []
      rw [hcall, ih hcalls]
      rfl

theorem answer_performAll_constants (cs : List Constant) (a : Assembler) :
    answer (performAll (cs.map .constant)) a = [] := by
  refine answer_performAll_eq_nil (fun call hmem a => ?_) a
  obtain ⟨c, -, rfl⟩ := List.mem_map.mp hmem
  rfl

theorem constantsAdded_constants (cs : List Constant) (a : Assembler) :
    (constantsAdded (cs.map .constant) a).map Prod.fst = cs := by
  induction cs generalizing a with
  | nil => rfl
  | cons c cs ih =>
      exact congrArg (c :: ·) (ih (after (AssemblerCall.perform (.constant c)) a))

/-- More different constants than there are indices do not resolve. -/
theorem not_resolves_of_many {name : String} {cs : List Constant} (hnodup : cs.Nodup)
    (hmany : 65536 < cs.length) :
    ∃ c, (after (performAll (cs.map .constant)) { name := name }).finish = .ok c
      ∧ ¬ Resolves Constant.poolKey? c.constants
        (constantsAdded (cs.map .constant) { name := name }) := by
  have hlog := answer_performAll_constants cs { name := name }
  have hadded := constantsAdded_constants cs { name := name }
  obtain ⟨c, hfinish⟩ := exists_finish hlog rfl (Nat.zero_le _) fun label h => by cases h
  obtain ⟨bytes, -, -, -, rfl⟩ := finish_ok.mpr hfinish
  obtain ⟨⟨placed, heq, hfills⟩, hiff⟩ :=
    addsTo_constants.poolIndices (cs.map .constant) (a := { name := name }) rfl
  refine ⟨_, hfinish, fun hresolves => ?_⟩
  have hsize := hiff.mp hresolves
  have hcs : placed.map Prod.fst = cs := by
    rw [← hadded]
    show _ = (additions AssemblerCall.constant? addConstant _ _).map Prod.fst
    rw [heq, answered, List.map_map]
    rfl
  have hlength := hfills.length_le (hcs ▸ hnodup)
  rw [← List.length_map (f := Prod.fst), hcs] at hlength
  omega

/-- As many integers as there are indices, and one more. -/
def manyIntegers : List Constant :=
  (List.range 65537).map fun n => .int (Int64.ofNat n)

theorem nodup_manyIntegers : manyIntegers.Nodup := by
  refine List.nodup_range.map_on fun m hm n hn heq => ?_
  have hm := List.mem_range.mp hm
  have hn := List.mem_range.mp hn
  have hint := congrArg Int64.toInt (Constant.int.inj heq)
  rw [Int64.toInt_ofNat_of_lt (by omega), Int64.toInt_ofNat_of_lt (by omega)] at hint
  exact Int.ofNat.inj hint

/-- The body is finished, but the last integer has the index of the first. -/
theorem not_pool_indices :
    ∃ c, (after (performAll (manyIntegers.map .constant)) { name := "f" }).finish = .ok c
      ∧ ¬ Resolves Constant.poolKey? c.constants
        (constantsAdded (manyIntegers.map .constant) { name := "f" }) := by
  refine not_resolves_of_many nodup_manyIntegers ?_
  rw [manyIntegers, List.length_map, List.length_range]
  omega

/-- Calls that add equal and different constants, and a name twice. -/
def sharing : List AssemblerCall :=
  [.constant (.int 42), .constant (.int 42), .name "x", .constant (.names ["a", "b"]), .name "x"]

/-- A body is made by them. -/
theorem pool_indices_sharing :
    ∃ c, (after (performAll sharing) { name := "f" }).finish = .ok c
      ∧ PoolIndices Constant.poolKey? c.constants (constantsAdded sharing { name := "f" })
      ∧ PoolIndices some c.names (namesAdded sharing { name := "f" }) := by
  have hlog : answer (performAll sharing) { name := "f" } = [] := by
    refine answer_performAll_eq_nil (fun call hmem a => ?_) _
    simp only [sharing, List.mem_cons, List.not_mem_nil, or_false] at hmem
    rcases hmem with rfl | rfl | rfl | rfl | rfl <;> rfl
  obtain ⟨c, hfinish⟩ := exists_finish hlog rfl (Nat.zero_le _) fun label h => by cases h
  exact ⟨c, hfinish, pool_indices hfinish⟩

end Resumable
