/-
  Resumable.Proofs.LocalSlots
  ───────────────────────────
  **A SLOT IS THE PLACE OF ITS LOCAL.**

  Locals get slots in the order in which they are first declared, and a local that is
  declared again keeps the slot it has.  Parameters are declared before all others:

      declared   param x   param y   param x   local t   local x   param z
      slot          0         1         0         2         0      refused

  So the names of a body are what was declared, each once, and the parameters are the
  first of them.  A parameter is refused exactly if there is a local that is none, since
  then it could not come next to the others.  A slot is a byte: with more than 256 locals
  there is a violation, and the body is not finished.

  Main results:
    • `Slotted.declareLocal` — a declaration keeps names and slots in step,
    • `slotted_performAll`   — and so do any calls, as long as there is no violation,
    • `locals_allocated`     — the locals of a finished body.
-/
import Resumable.Proofs.AssemblyCalls

namespace Resumable

open Assembler AssemblyLog

/-! ## §1. What calls declare. -/

/-- The parameter that a call declares, unless it is refused. -/
def AssemblerCall.param? (a : Assembler) : AssemblerCall → Option String
  | .param n => if (answer (declareParam n) a).isOk then some n else none
  | _ => none

/-- The parameters that calls declare, one after the other. -/
def paramsDeclared : List AssemblerCall → Assembler → List String
  | [], _ => []
  | call :: calls, a => (call.param? a).toList ++ paramsDeclared calls (after call.perform a)

/-- All locals that calls declare, parameters among them. -/
def localsDeclared (calls : List AssemblerCall) (a : Assembler) : List String :=
  names (answer (performAll calls) a)

/-- At some time a name was told to have a slot. -/
inductive SlotTold (calls : List AssemblerCall) (a : Assembler) (name : String) (slot : UInt8) : Prop
  /-- When it was declared as a parameter. -/
  | param {before rest : List AssemblerCall} : calls = before ++ .param name :: rest →
      answer (declareParam name) (after (performAll before) a) = .ok slot → SlotTold calls a name slot
  /-- When it was declared as a local. -/
  | «local» {before rest : List AssemblerCall} : calls = before ++ .local name :: rest →
      answer (declareLocal name) (after (performAll before) a) = slot → SlotTold calls a name slot
  /-- When it was looked up between two calls. -/
  | lookup {before rest : List AssemblerCall} : calls = before ++ rest →
      (after (performAll before) a).slotOf? name = some slot → SlotTold calls a name slot

section Names

variable {names : List String} {name : String}

/-- A name that comes again is not listed again. -/
theorem eraseDups_concat_of_mem (h : name ∈ names) :
    (names ++ [name]).eraseDups = names.eraseDups := by
  rw [List.eraseDups_append, List.cons_removeAll, if_neg (by simpa using h)]
  exact List.append_nil _

/-- A new one is listed last. -/
theorem eraseDups_concat_of_not_mem (h : name ∉ names) :
    (names ++ [name]).eraseDups = names.eraseDups ++ [name] := by
  rw [List.eraseDups_append, List.cons_removeAll, if_pos (by simpa using h)]
  rfl

/-- Names that are listed alike are so with one more. -/
theorem eraseDups_concat_congr {names' : List String} (h : names.eraseDups = names'.eraseDups) :
    (names ++ [name]).eraseDups = (names' ++ [name]).eraseDups := by
  have hmem : name ∈ names ↔ name ∈ names' := by
    rw [← List.mem_eraseDups, h, List.mem_eraseDups]
  by_cases hold : name ∈ names
  · rw [eraseDups_concat_of_mem hold, eraseDups_concat_of_mem (hmem.mp hold), h]
  · rw [eraseDups_concat_of_not_mem hold, eraseDups_concat_of_not_mem (hmem.not.mp hold), h]

/-- What was listed before comes first. -/
theorem eraseDups_prefix (names more : List String) :
    names.eraseDups <+: (names ++ more).eraseDups := by
  rw [List.eraseDups_append]
  exact List.prefix_append ..

end Names

/-! ## §2. Names and slots in step. -/

/-- The locals of an assembler are those that were declared, in as many slots. -/
structure Slotted (a : Assembler) (declared params : List String) : Prop where
  names_eq : a.varnames.toList = declared.eraseDups
  /-- The slot of a local is its place. -/
  slot_iff : ∀ (name : String) (slot : UInt8),
    a.localSlot[name]? = some slot ↔ a.varnames[slot.toNat]? = some name
  /-- There are slots for all of them. -/
  few : a.varnames.size ≤ 256
  count_le : a.argCount.toNat ≤ a.varnames.size
  params_eq : a.varnames.toList.take a.argCount.toNat = params.eraseDups

namespace Slotted

variable {a : Assembler} {declared params : List String} {name : String}

theorem new (name : String) : Slotted { name := name } [] [] where
  names_eq := rfl
  slot_iff other slot := by
    rw [Std.HashMap.getElem?_empty]
    exact ⟨fun h => (nomatch h), fun h => (nomatch h)⟩
  few := Nat.zero_le _
  count_le := Nat.zero_le _
  params_eq := rfl

theorem mem_iff (h : Slotted a declared params) : name ∈ a.varnames.toList ↔ name ∈ declared := by
  rw [h.names_eq, List.mem_eraseDups]

/-- The locals with a slot are those that were declared. -/
theorem exists_slot_iff (h : Slotted a declared params) :
    (∃ slot, a.localSlot[name]? = some slot) ↔ name ∈ declared := by
  rw [← h.mem_iff, List.mem_iff_getElem?]
  constructor
  · rintro ⟨slot, hslot⟩
    exact ⟨slot.toNat, Array.getElem?_toList.trans ((h.slot_iff name slot).mp hslot)⟩
  · rintro ⟨place, hplace⟩
    rw [Array.getElem?_toList] at hplace
    -- places are below 256, so a place is told by a byte
    have hlt := (Array.getElem?_eq_some_iff.mp hplace).1
    have hfew := h.few
    have hcut : place.toUInt8.toNat = place := Nat.mod_eq_of_lt (by omega)
    exact ⟨place.toUInt8, (h.slot_iff name _).mpr (hcut.symm ▸ hplace)⟩

theorem knowsLocals (h : Slotted a declared params) : a.KnowsLocals :=
  fun _ => h.exists_slot_iff.trans h.mem_iff.symm

/-- A name has one place, since it has one slot. -/
theorem nodup (h : Slotted a declared params) : a.varnames.toList.Nodup := by
  rw [List.nodup_iff_getElem?_ne_getElem?]
  intro i j hij hj heq
  rw [Array.length_toList] at hj
  have hfew := h.few
  have hcut {n : Nat} (hn : n < a.varnames.size) : n.toUInt8.toNat = n := Nat.mod_eq_of_lt (by omega)
  rw [Array.getElem?_toList, Array.getElem?_toList, Array.getElem?_eq_getElem hj] at heq
  have hplace : a.varnames[j.toUInt8.toNat]? = some a.varnames[j] := by
    rw [hcut hj, Array.getElem?_eq_getElem hj]
  have hplace' : a.varnames[i.toUInt8.toNat]? = some a.varnames[j] := by
    rw [hcut (hij.trans hj)]
    exact heq
  have hslot := (h.slot_iff _ _).mpr hplace
  have hslot' := (h.slot_iff _ _).mpr hplace'
  have hsame := congrArg UInt8.toNat (Option.some.inj (hslot'.symm.trans hslot))
  rw [hcut (hij.trans hj), hcut hj] at hsame
  omega

/-- **A declaration** of a local puts it last, unless it was declared before. -/
theorem declareLocal (h : Slotted a declared params) (name : String)
    (hnone : (after (Assembler.declareLocal name) a).violation = none) :
    Slotted (after (Assembler.declareLocal name) a) (declared ++ [name]) params := by
  cases hslot : a.localSlot[name]? with
  | some slot =>
      have hmem : name ∈ declared := h.exists_slot_iff.mp ⟨slot, hslot⟩
      rw [after_declareLocal_known a hslot]
      exact ⟨by rw [h.names_eq, eraseDups_concat_of_mem hmem], h.slot_iff, h.few, h.count_le,
        h.params_eq⟩
  | none =>
      have hnew : name ∉ declared := fun hmem => by
        obtain ⟨slot, hsome⟩ := h.exists_slot_iff.mpr hmem
        rw [hslot] at hsome
        cases hsome
      rw [after_declareLocal_new a hslot] at hnone ⊢
      have hroom : a.varnames.size ≤ 255 := crowding?_eq_none.mp (violation_of_orElse hnone).2
      -- as long as the slot fits a byte, it is the place in the list
      have hcut : a.varnames.size.toUInt8.toNat = a.varnames.size := Nat.mod_eq_of_lt (by omega)
      refine ⟨?_, fun other slot => ?_, ?_, ?_, ?_⟩
      · rw [eraseDups_concat_of_not_mem hnew, ← h.names_eq]
        exact Array.toList_push
      · show (a.localSlot.insert name _)[other]? = some slot ↔ (a.varnames.push name)[slot.toNat]? = _
        rw [Std.HashMap.getElem?_insert, Array.getElem?_push]
        have hplace : a.varnames.size.toUInt8 = slot ↔ slot.toNat = a.varnames.size := by
          rw [← UInt8.toNat_inj, hcut, eq_comm]
        by_cases heq : name = other
        · subst heq
          -- no other slot can hold the new name
          have hnowhere : a.varnames[slot.toNat]? ≠ some name := by
            rw [ne_eq, ← h.slot_iff, hslot]
            exact nofun
          by_cases hlast : slot.toNat = a.varnames.size
          · simp [hlast, hplace.mpr hlast]
          · simp [hlast, hplace, hnowhere]
        · rw [if_neg (by simpa using heq), h.slot_iff]
          by_cases hlast : slot.toNat = a.varnames.size
          · simp [hlast, heq]
          · rw [if_neg hlast]
      · show (a.varnames.push name).size ≤ 256
        rw [Array.size_push]
        omega
      · show _ ≤ (a.varnames.push name).size
        rw [Array.size_push]
        exact h.count_le.trans (Nat.le_succ _)
      · show (a.varnames.push name).toList.take a.argCount.toNat = _
        rw [Array.toList_push, List.take_append_of_le_length h.count_le]
        exact h.params_eq

/-- All locals so far are made parameters. -/
theorem countAll {params' : List String} (h : Slotted a declared params)
    (hall : a.varnames.toList = params'.eraseDups) :
    Slotted { a with argCount := a.varnames.size.toUInt16 } declared params' := by
  have hfew := h.few
  have hcut : a.varnames.size.toUInt16.toNat = a.varnames.size := Nat.mod_eq_of_lt (by omega)
  refine ⟨h.names_eq, h.slot_iff, h.few, Nat.le_of_eq hcut, ?_⟩
  show a.varnames.toList.take a.varnames.size.toUInt16.toNat = _
  rw [hcut, ← hall, ← Array.length_toList, List.take_length]

/-- **A parameter comes in time** exactly if all locals so far are parameters. -/
theorem size_eq_iff (h : Slotted a declared params) :
    a.varnames.size = a.argCount.toNat ↔ ∀ name ∈ declared, name ∈ params := by
  have hparam {name : String} :
      name ∈ params ↔ name ∈ a.varnames.toList.take a.argCount.toNat := by
    rw [h.params_eq, List.mem_eraseDups]
  constructor
  · intro hsize name hmem
    rw [hparam, ← hsize, ← Array.length_toList, List.take_length, h.mem_iff]
    exact hmem
  · intro hall
    refine Nat.le_antisymm (Nat.le_of_not_lt fun hlt => ?_) h.count_le
    -- the local after the parameters would be among them as well
    have hmem := hall _ (h.mem_iff.mp (Array.getElem_mem_toList hlt))
    obtain ⟨place, hplace, heq⟩ := List.mem_take_iff_getElem.mp (hparam.mp hmem)
    have hinj := h.nodup.getElem_inj_iff.mp heq
    omega

/-- **A parameter** is declared if it comes in time, and nothing else is done. -/
theorem declareParam (h : Slotted a declared params) (name : String)
    (hnone : (after (Assembler.declareParam name) a).violation = none) :
    Slotted (after (Assembler.declareParam name) a)
      (declared ++ ((AssemblerCall.param name).param? a).toList)
      (params ++ ((AssemblerCall.param name).param? a).toList) := by
  show Slotted _ (declared ++ (if _ then some name else none).toList)
    (params ++ (if _ then some name else none).toList)
  by_cases hsize : a.varnames.size = a.argCount.toNat
  · obtain ⟨hanswer, hafter⟩ := declareParam_early a name hsize
    rw [hafter] at hnone ⊢
    rw [hanswer]
    have hlocal := h.declareLocal name hnone
    have hsame : declared.eraseDups = params.eraseDups := by
      rw [← h.names_eq, ← h.params_eq, ← hsize, ← Array.length_toList, List.take_length]
    exact hlocal.countAll (hlocal.names_eq.trans (eraseDups_concat_congr hsame))
  · obtain ⟨hanswer, hafter⟩ := declareParam_late a name hsize
    rw [hanswer, hafter]
    show Slotted a (declared ++ []) (params ++ [])
    rw [List.append_nil, List.append_nil]
    exact h

/-- What leaves the locals alone declares none. -/
theorem of_sameLocals {a' : Assembler} (h : Slotted a declared params) (hsame : a.SameLocals a') :
    Slotted a' declared params := by
  obtain ⟨hnames, hslots, hcount⟩ := hsame
  constructor
  · rw [hnames]
    exact h.names_eq
  · rw [hnames, hslots]
    exact h.slot_iff
  · rw [hnames]
    exact h.few
  · rw [hnames, hcount]
    exact h.count_le
  · rw [hnames, hcount]
    exact h.params_eq

/-- A parameter is refused exactly if a local was declared that is none. -/
theorem late_iff (h : Slotted a declared params) :
    answer (Assembler.declareParam name) a = .error (.lateParam name)
      ↔ ∃ other ∈ declared, other ∉ params := by
  have hearly := h.size_eq_iff
  by_cases hsize : a.varnames.size = a.argCount.toNat
  · rw [(declareParam_early a name hsize).1]
    have hparams := hearly.mp hsize
    constructor
    · intro herror
      cases herror
    · rintro ⟨other, hmem, hnot⟩
      exact absurd (hparams other hmem) hnot
  · rw [(declareParam_late a name hsize).1]
    have hnot := mt hearly.mpr hsize
    push Not at hnot
    exact ⟨fun _ => hnot, fun _ => rfl⟩

/-- Later locals come behind those there were, so a slot stays the place of its name. -/
theorem place_later {a' : Assembler} {more params' : List String} {slot : UInt8}
    (h : Slotted a declared params) (h' : Slotted a' (declared ++ more) params')
    (hslot : a.slotOf? name = some slot) : a'.varnames[slot.toNat]? = some name := by
  have hplace := (h.slot_iff name slot).mp hslot
  rw [← Array.getElem?_toList, h.names_eq] at hplace
  obtain ⟨last, hlast⟩ := eraseDups_prefix declared more
  obtain ⟨hlt, -⟩ := List.getElem?_eq_some_iff.mp hplace
  rw [← Array.getElem?_toList, h'.names_eq, ← hlast, List.getElem?_append_left hlt]
  exact hplace

end Slotted

/-- A parameter is refused for one reason only, and then nothing changes. -/
theorem declareParam_refused (a : Assembler) {name : String} {e : AssemblyError}
    (h : answer (declareParam name) a = .error e) :
    e = .lateParam name ∧ after (declareParam name) a = a := by
  by_cases hsize : a.varnames.size = a.argCount.toNat
  · rw [(declareParam_early a name hsize).1] at h
    cases h
  · obtain ⟨hanswer, hafter⟩ := declareParam_late a name hsize
    rw [hanswer] at h
    exact ⟨(Except.error.inj h).symm, hafter⟩

/-! ## §3. Any calls. -/

namespace AssemblerCall

/-- A parameter that is not refused is the local that its call declares. -/
theorem names_param (a : Assembler) (n : String) :
    names (answer (AssemblerCall.perform (.param n)) a) = ((AssemblerCall.param n).param? a).toList := by
  unfold AssemblerCall.perform
  rw [answer_bind]
  show _ = (if (answer (declareParam n) a).isOk then some n else none).toList
  cases answer (declareParam n) a <;> rfl

/-- Only the calls that declare something change the locals. -/
theorem sameLocals_perform (call : AssemblerCall) (a : Assembler) :
    (∃ n, call = .param n ∨ call = .local n)
      ∨ (names (answer call.perform a) = [] ∧ call.param? a = none
        ∧ a.SameLocals (after call.perform a)) := by
  cases call with
  | param n => exact .inl ⟨n, .inl rfl⟩
  | «local» n => exact .inl ⟨n, .inr rfl⟩
  | line l => exact .inr ⟨rfl, rfl, sameLocals_setLine a l⟩
  | constant c => exact .inr ⟨rfl, rfl, (sameTables_addConstant a c).toSameLocals⟩
  | name n => exact .inr ⟨rfl, rfl, (sameTables_addName a n).toSameLocals⟩
  | emit opcode arg => exact .inr ⟨rfl, rfl, (sameTables_emit a opcode arg).toSameLocals⟩
  | emitJump opcode l => exact .inr ⟨rfl, rfl, (sameTables_emitJump a opcode l).toSameLocals⟩
  | emitConstant c => exact .inr ⟨rfl, rfl, (sameTables_emitConstant a c).toSameLocals⟩
  | emitNamed opcode n => exact .inr ⟨rfl, rfl, (sameTables_emitNamed a opcode n).toSameLocals⟩
  | emitReturnNone => exact .inr ⟨rfl, rfl, (sameTables_emitReturnNone a).toSameLocals⟩
  | _ => exact .inr ⟨rfl, rfl, rfl, rfl, rfl⟩

end AssemblerCall

section Calls

variable {a : Assembler} {declared params : List String} {calls before rest : List AssemblerCall}

/-- **A call keeps names and slots in step**, if there is no violation. -/
theorem Slotted.perform (h : Slotted a declared params) (call : AssemblerCall)
    (hnone : (after call.perform a).violation = none) :
    Slotted (after call.perform a) (declared ++ names (answer call.perform a))
      (params ++ (call.param? a).toList) := by
  rcases call.sameLocals_perform a with ⟨n, rfl | rfl⟩ | ⟨hnames, hparam, hsame⟩
  · rw [AssemblerCall.after_param] at hnone ⊢
    rw [AssemblerCall.names_param]
    exact h.declareParam n hnone
  · show Slotted (after (Assembler.declareLocal n) a) (declared ++ [n]) (params ++ [])
    rw [List.append_nil]
    exact h.declareLocal n hnone
  · rw [hnames, hparam]
    show Slotted _ (declared ++ []) (params ++ [])
    rw [List.append_nil, List.append_nil]
    exact h.of_sameLocals hsame

/-- A violation is never taken back. -/
theorem violation_of_performAll (hknows : a.KnowsLocals)
    (hnone : (after (performAll calls) a).violation = none) : a.violation = none := by
  obtain ⟨-, -, hviolation⟩ := (logs_performAll calls a).locals hknows
  rw [hviolation, Option.or_eq_none_iff] at hnone
  exact hnone.1

theorem localsDeclared_cons (call : AssemblerCall) (calls : List AssemblerCall) (a : Assembler) :
    localsDeclared (call :: calls) a
      = names (answer call.perform a) ++ localsDeclared calls (after call.perform a) :=
  List.filterMap_append

theorem after_performAll_append (before rest : List AssemblerCall) (a : Assembler) :
    after (performAll (before ++ rest)) a = after (performAll rest) (after (performAll before) a) := by
  induction before generalizing a with
  | nil => rfl
  | cons call before ih => exact ih _

theorem localsDeclared_append (before rest : List AssemblerCall) (a : Assembler) :
    localsDeclared (before ++ rest) a
      = localsDeclared before a ++ localsDeclared rest (after (performAll before) a) := by
  induction before generalizing a with
  | nil => rfl
  | cons call before ih =>
      rw [List.cons_append, localsDeclared_cons, localsDeclared_cons, ih, List.append_assoc]
      rfl

/-- **So do any calls.** -/
theorem slotted_performAll (h : Slotted a declared params)
    (hnone : (after (performAll calls) a).violation = none) :
    Slotted (after (performAll calls) a) (declared ++ localsDeclared calls a)
      (params ++ paramsDeclared calls a) := by
  induction calls generalizing a declared params with
  | nil =>
      show Slotted a (declared ++ []) (params ++ [])
      rw [List.append_nil, List.append_nil]
      exact h
  | cons call calls ih =>
      obtain ⟨hknows, -, -⟩ := (call.logs_perform a).locals h.knowsLocals
      have hcalls := ih (h.perform call (violation_of_performAll hknows hnone)) hnone
      rw [List.append_assoc, List.append_assoc] at hcalls
      rw [localsDeclared_cons]
      exact hcalls

/-- A name that was told to have a slot has it from then on. -/
theorem SlotTold.exists_lookup {name : String} {slot : UInt8} (h : SlotTold calls a name slot) :
    ∃ before rest, calls = before ++ rest
      ∧ (after (performAll before) a).slotOf? name = some slot := by
  cases h with
  | @param before rest hsplit hslot =>
      refine ⟨before ++ [.param name], rest, by rw [hsplit]; simp, ?_⟩
      rw [after_performAll_append]
      show (after (AssemblerCall.perform (.param name)) _).slotOf? name = _
      rw [AssemblerCall.after_param]
      by_cases hsize : (after (performAll before) a).varnames.size
          = (after (performAll before) a).argCount.toNat
      · obtain ⟨hanswer, hafter⟩ := declareParam_early _ name hsize
        rw [hanswer] at hslot
        rw [hafter, ← Except.ok.inj hslot]
        exact slotOf?_declareLocal _ name
      · rw [(declareParam_late _ name hsize).1] at hslot
        cases hslot
  | @«local» before rest hsplit hslot =>
      refine ⟨before ++ [.local name], rest, by rw [hsplit]; simp, ?_⟩
      rw [after_performAll_append, ← hslot]
      exact slotOf?_declareLocal _ name
  | @lookup before rest hsplit hslot => exact ⟨before, rest, hsplit, hslot⟩

end Calls

/-! ## §4. The locals of a finished body. -/

/-- How the locals of a body come from the calls that declared them. -/
structure LocalsAllocated (calls : List AssemblerCall) (a : Assembler) (c : Code) : Prop where
  distinct : c.varnames.toList.Nodup
  few : c.varnames.size ≤ 256
  argCount_le : c.argCount ≤ c.nlocals
  /-- The locals are those that were declared, in the order of their first declarations. -/
  varnames_eq : c.varnames.toList = (localsDeclared calls a).eraseDups
  /-- So are the parameters, which come first. -/
  params_eq : c.varnames.toList.take c.argCount = (paramsDeclared calls a).eraseDups
  /-- A slot that was told at any time is the place of its name. -/
  slots : ∀ {name slot}, SlotTold calls a name slot → c.varnames[slot.toNat]? = some name
  /-- A parameter comes too late exactly if a local was declared that is none. -/
  late_iff : ∀ {before rest name}, calls = before ++ .param name :: rest →
    (answer (declareParam name) (after (performAll before) a) = .error (.lateParam name)
      ↔ ∃ other ∈ localsDeclared before a, other ∉ paramsDeclared before a)
  /-- There is no other reason to refuse it, and then nothing changes. -/
  refused : ∀ {before rest name e}, calls = before ++ .param name :: rest →
    answer (declareParam name) (after (performAll before) a) = .error e →
    e = .lateParam name
      ∧ after (declareParam name) (after (performAll before) a) = after (performAll before) a

/-- **The locals of a finished body are allocated consistently**, whatever calls it was made by. -/
theorem locals_allocated {name : String} {calls : List AssemblerCall} {c : Code}
    (hfinish : (after (performAll calls) { name := name }).finish = .ok c) :
    LocalsAllocated calls { name := name } c := by
  obtain ⟨bytes, hnone, -, -, rfl⟩ := finish_ok.mpr hfinish
  have hslotted {before rest : List AssemblerCall} (hsplit : calls = before ++ rest) :
      Slotted (after (performAll before) { name := name }) (localsDeclared before { name := name })
        (paramsDeclared before { name := name }) := by
    obtain ⟨hknows, -, -⟩ := (logs_performAll before _).locals (isNew name).knows
    rw [hsplit, after_performAll_append] at hnone
    exact slotted_performAll (.new name) (violation_of_performAll hknows hnone)
  have hall := hslotted (List.append_nil calls).symm
  refine ⟨hall.nodup, hall.few, hall.count_le, hall.names_eq, hall.params_eq, fun htold => ?_,
    fun hsplit => (hslotted hsplit).late_iff, fun _ => declareParam_refused _⟩
  obtain ⟨before, rest, hsplit, hslot⟩ := htold.exists_lookup
  rw [hsplit, localsDeclared_append] at hall
  rw [hsplit]
  exact (hslotted hsplit).place_later hall hslot

/-! ## §5. Declarations in turn. -/

/-- Calls that only declare log what they declare. -/
theorem declared_of_mem_log {calls : List AssemblerCall}
    (hcalls : ∀ call ∈ calls, ∃ n, call = .param n ∨ call = .local n) (a : Assembler) :
    (∀ e ∈ answer (performAll calls) a, ∃ n, e = .declared n)
      ∧ (answer (performAll calls) a).length ≤ calls.length := by
  induction calls generalizing a with
  | nil => exact ⟨fun e he => (nomatch he), Nat.le_refl _⟩
  | cons call calls ih =>
      obtain ⟨hcall, hrest⟩ := List.forall_mem_cons.mp hcalls
      obtain ⟨hevents, hlength⟩ := ih hrest (after call.perform a)
      have hone : (∀ e ∈ answer call.perform a, ∃ n, e = .declared n)
          ∧ (answer call.perform a).length ≤ 1 := by
        obtain ⟨n, rfl | rfl⟩ := hcall
        · unfold AssemblerCall.perform
          rw [answer_bind]
          cases answer (declareParam n) a with
          | ok slot => exact ⟨fun e he => ⟨n, List.mem_singleton.mp he⟩, Nat.le_refl 1⟩
          | error e => exact ⟨fun e he => (nomatch he), Nat.zero_le 1⟩
        · exact ⟨fun e he => ⟨n, List.mem_singleton.mp he⟩, Nat.le_refl 1⟩
      refine ⟨fun e he => ?_, ?_⟩
      · rcases List.mem_append.mp he with he | he
        · exact hone.1 e he
        · exact hevents e he
      · show (answer call.perform a ++ answer (performAll calls) (after call.perform a)).length ≤ _
        rw [List.length_append, List.length_cons]
        omega

/-- As many declarations as there are slots make a body. -/
theorem exists_finish_of_declares {name : String} {calls : List AssemblerCall}
    (hcalls : ∀ call ∈ calls, ∃ n, call = .param n ∨ call = .local n) (hfew : calls.length ≤ 256) :
    ∃ c, (after (performAll calls) { name := name }).finish = .ok c := by
  obtain ⟨hevents, hlength⟩ := declared_of_mem_log hcalls { name := name }
  generalize hlog : answer (performAll calls) { name := name } = log at hevents hlength
  have hnames : (names log).length ≤ log.length := List.length_filterMap_le ..
  have hnone : firstViolation [] log = none := by
    refine (firstViolation_eq_none (Nat.zero_le _)).mpr ⟨fun hmem => ?_, fun hmem => ?_, ?_⟩
    · obtain ⟨n, hn⟩ := hevents _ hmem
      cases hn
    · obtain ⟨n, hn⟩ := hevents _ hmem
      cases hn
    · rw [length_learnAll]
      have hdedup := (List.dedup_sublist (names log)).length_le
      omega
  have hsize : size log = 0 := by
    refine List.sum_eq_zero fun width hwidth => ?_
    obtain ⟨e, he, rfl⟩ := List.mem_map.mp hwidth
    obtain ⟨n, rfl⟩ := hevents e he
    rfl
  refine exists_finish hlog hnone (hsize ▸ Nat.zero_le _) fun label hlabel => ?_
  obtain ⟨e, he, htarget⟩ := List.mem_filterMap.mp hlabel
  obtain ⟨n, rfl⟩ := hevents e he
  cases htarget

/-- Parameters that are declared again and too late. -/
def inTurn : List AssemblerCall :=
  [.param "x", .param "y", .param "x", .local "t", .local "x", .param "z", .param "y", .local "z"]

/-- They make a body. -/
theorem locals_allocated_inTurn :
    ∃ c, (after (performAll inTurn) { name := "f" }).finish = .ok c
      ∧ LocalsAllocated inTurn { name := "f" } c := by
  obtain ⟨c, hfinish⟩ : ∃ c, (after (performAll inTurn) { name := "f" }).finish = .ok c :=
    exists_finish_of_declares (by simp [inTurn]) (by decide)
  exact ⟨c, hfinish, locals_allocated hfinish⟩

end Resumable
