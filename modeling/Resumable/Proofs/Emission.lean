/-
  Resumable.Proofs.Emission
  ─────────────────────────
  **WHAT AN ASSEMBLER WILL HAVE WRITTEN.**

  While a body is put together the operands of its jumps are not known; but the bytes
  that the assembly will end with are, once the final labels are given:

      resolved labels a  =  the bytes so far, with all jumps so far filled in

  Emitting an instruction appends it to these, a jump with the offset of its label, and
  all else that an assembler is told changes nothing before it (`Emits`).  So the jumps
  are filled in one by one, while the instructions after them are still to come.

  Main results:
    • `emits_emit`, `emits_emitJump` — each call appends its own instruction,
    • `Emits.trans`                  — and what is emitted adds up.
-/
import Resumable.Assembly.Finish
import Resumable.Proofs.InstructionBytes

namespace Resumable

/-! ## §1. Instructions as they are written. -/

namespace OperandClass

/-- What is left of an operand when it is written. -/
def kept : OperandClass → UInt16 → UInt16
  | .none, _ => 0
  | _, arg => arg

end OperandClass

namespace Instruction

/-- The instruction that is read back when one is written at an offset. -/
def written (offset : Nat) (opcode : Opcode) (arg : UInt16) : Instruction :=
  ⟨offset, opcode, opcode.operandClass.kept arg⟩

/-- A jump to an offset. -/
def jumping (offset : Nat) (opcode : Opcode) (target : Nat) : Instruction :=
  ⟨offset, opcode, target.toUInt16⟩

variable (offset : Nat) (opcode : Opcode)

@[simp] theorem offset_written (arg : UInt16) : (written offset opcode arg).offset = offset := rfl
@[simp] theorem opcode_written (arg : UInt16) : (written offset opcode arg).opcode = opcode := rfl
@[simp] theorem width_written (arg : UInt16) : (written offset opcode arg).width = opcode.width := rfl
@[simp] theorem offset_jumping (target : Nat) : (jumping offset opcode target).offset = offset := rfl
@[simp] theorem opcode_jumping (target : Nat) : (jumping offset opcode target).opcode = opcode := rfl

@[simp] theorem width_jumping (target : Nat) :
    (jumping offset opcode target).width = opcode.width := rfl

end Instruction

/-- An offset within the longest body can be jumped to. -/
theorem toNat_of_le {n : Nat} (h : n ≤ Assembler.maxSize) : n.toUInt16.toNat = n := by
  unfold Assembler.maxSize at h
  exact Nat.mod_eq_of_lt (by omega)

/-- What an operation does not keep of its operand is not written either. -/
theorem encode_kept (opcode : Opcode) (arg : UInt16) :
    encode opcode (opcode.operandClass.kept arg) = encode opcode arg := by
  unfold encode
  cases opcode.operandClass with
  | none => rfl
  | byte => rfl
  | word => rfl

/-! ## §2. One call at a time. -/

namespace Assembler

/-- The assembler after some action. -/
def after {α : Type} (x : Assembly α) (a : Assembler) : Assembler :=
  (x.run a).2

/-- What the action answers. -/
def answer {α : Type} (x : Assembly α) (a : Assembler) : α :=
  (x.run a).1

section Actions

variable {α β : Type} (a : Assembler)

@[simp] theorem after_pure (v : α) : after (pure v) a = a := rfl

@[simp] theorem after_bind (x : Assembly α) (y : α → Assembly β) :
    after (x >>= y) a = after (y (answer x a)) (after x a) := rfl

@[simp] theorem after_map (f : α → β) (x : Assembly α) : after (f <$> x) a = after x a := rfl

@[simp] theorem answer_pure (v : α) : answer (pure v) a = v := rfl

@[simp] theorem answer_bind (x : Assembly α) (y : α → Assembly β) :
    answer (x >>= y) a = answer (y (answer x a)) (after x a) := rfl

@[simp] theorem after_get : after get a = a := rfl

@[simp] theorem answer_get : answer get a = a := rfl

@[simp] theorem answer_createLabel : answer createLabel a = a.nextLabel := rfl

end Actions

/-- The violation of an instruction whose operand is too wide. -/
def wideness? (opcode : Opcode) (arg : UInt16) : Option AssemblyError :=
  if opcode.operandClass = .byte ∧ 255 < arg.toNat then some (.wideOperand opcode arg.toNat) else none

/-- That of a jump by an operation that does not jump. -/
def standstill? (opcode : Opcode) : Option AssemblyError :=
  if opcode.isJump then none else some (.notAJump opcode)

/-- That of a local for which no slot is left, by the number of those before it. -/
def crowding? (size : Nat) : Option AssemblyError :=
  if 255 < size then some (.wideOperand .loadFast size) else none

section Calls

variable (a : Assembler) (opcode : Opcode) (label : Nat)

/-- An instruction is answered with its offset, and so is a jump. -/
@[simp] theorem answer_emit (arg : UInt16) : answer (emit opcode arg) a = a.bytes.size := by
  unfold answer emit
  split <;> rfl

/-- Emitting appends the bytes of an instruction. -/
theorem after_emit (arg : UInt16) :
    after (emit opcode arg) a
      = { a with
          bytes := a.bytes ++ encode opcode arg
          violation := a.violation <|> wideness? opcode arg } := by
  unfold after emit wideness?
  split
  · rfl
  · show _ = { a with bytes := _, violation := a.violation <|> none }
    rw [Option.orElse_eq_orElse, Option.orElse_eq_or, Option.or_none]
    rfl

@[simp] theorem answer_emitJump : answer (emitJump opcode label) a = a.bytes.size := by
  unfold emitJump
  cases opcode.isJump with
  | true => exact answer_emit a opcode 0
  | false => exact answer_emit _ opcode 0

/-- A jump is emitted as an instruction without its operand, which is left for the end. -/
theorem after_emitJump :
    after (emitJump opcode label) a
      = { a with
          bytes := a.bytes ++ encode opcode 0
          jumps := a.jumps.push ⟨a.bytes.size + 1, label⟩
          violation := a.violation <|> standstill? opcode } := by
  -- the operand written for now is 0, so whether the last one fits is not asked here
  have hfits : wideness? opcode 0 = none := by
    refine if_neg ?_
    rintro ⟨-, h⟩
    exact absurd h (by decide)
  unfold emitJump standstill?
  cases opcode.isJump with
  | true =>
      show { after (emit opcode 0) a with
        jumps := (after (emit opcode 0) a).jumps.push ⟨answer (emit opcode 0) a + 1, label⟩ } = _
      rw [answer_emit, after_emit, hfits]
      rfl
  | false =>
      show { after (emit opcode 0) (after (report (.notAJump opcode)) a) with
        jumps := (after (emit opcode 0) (after (report (.notAJump opcode)) a)).jumps.push
          ⟨answer (emit opcode 0) (after (report (.notAJump opcode)) a) + 1, label⟩ } = _
      rw [answer_emit, after_emit, hfits, Option.orElse_eq_orElse, Option.orElse_eq_or, Option.or_none]
      rfl

/-- A local that is declared again is the one it was. -/
theorem after_declareLocal_known {name : String} {slot : UInt8} (h : a.localSlot[name]? = some slot) :
    after (declareLocal name) a = a := by
  unfold declareLocal
  simp only [after_bind, after_get, answer_get, h]
  rfl

/-- A new one comes after the others. -/
theorem after_declareLocal_new {name : String} (h : a.localSlot[name]? = none) :
    after (declareLocal name) a
      = { a with
          localSlot := a.localSlot.insert name a.varnames.size.toUInt8
          varnames := a.varnames.push name
          violation := a.violation <|> crowding? a.varnames.size } := by
  unfold declareLocal crowding?
  simp only [after_bind, after_get, answer_get, h]
  by_cases hroom : 255 < a.varnames.size
  · simp only [hroom, if_true]
    rfl
  · simp only [hroom, if_false, Option.orElse_eq_orElse, Option.orElse_eq_or, Option.or_none]
    rfl

/-- The slot that is answered is the one the local has from then on. -/
theorem slotOf?_declareLocal (name : String) :
    (after (declareLocal name) a).slotOf? name = some (answer (declareLocal name) a) := by
  cases hslot : a.localSlot[name]? with
  | some slot =>
      have hanswer : answer (declareLocal name) a = slot := by
        unfold declareLocal
        simp only [answer_bind, after_get, answer_get, hslot]
        rfl
      rw [after_declareLocal_known a hslot, hanswer]
      exact hslot
  | none =>
      have hanswer : answer (declareLocal name) a = a.varnames.size.toUInt8 := by
        unfold declareLocal
        simp only [answer_bind, after_get, answer_get, hslot]
        by_cases hroom : 255 < a.varnames.size
        · simp only [hroom, if_true]
          rfl
        · simp only [hroom, if_false]
          rfl
      rw [after_declareLocal_new a hslot, hanswer]
      exact Std.HashMap.getElem?_insert_self

/-- A parameter is declared as a local, and then all locals count as parameters. -/
theorem declareParam_early (name : String) (h : a.varnames.size = a.argCount.toNat) :
    answer (declareParam name) a = .ok (answer (declareLocal name) a)
      ∧ after (declareParam name) a
        = { after (declareLocal name) a with
            argCount := (after (declareLocal name) a).varnames.size.toUInt16 } := by
  unfold declareParam
  simp only [after_bind, answer_bind, after_get, answer_get, h, if_true]
  exact ⟨rfl, rfl⟩

/-- With locals that are no parameters it comes too late. -/
theorem declareParam_late (name : String) (h : a.varnames.size ≠ a.argCount.toNat) :
    answer (declareParam name) a = .error (.lateParam name) ∧ after (declareParam name) a = a := by
  unfold declareParam
  simp only [after_bind, answer_bind, after_get, answer_get, h, if_false]
  exact ⟨rfl, rfl⟩

theorem after_createLabel : after createLabel a = { a with nextLabel := a.nextLabel + 1 } := rfl

theorem after_bindLabel :
    after (bindLabel label) a = { a with labels := a.labels.insert label a.bytes.size } := rfl

/-- A label that is placed is where emission stands, and the others stay where they are.
-/
theorem bindLabel_same : (after (bindLabel label) a).labels[label]? = some a.bytes.size :=
  Std.HashMap.getElem?_insert_self

theorem bindLabel_other {l : Nat} (hne : l ≠ label) :
    (after (bindLabel label) a).labels[l]? = a.labels[l]? := by
  show (a.labels.insert label a.bytes.size)[l]? = a.labels[l]?
  rw [Std.HashMap.getElem?_insert, if_neg (by simpa using hne.symm)]

end Calls

/-- The bytes, the jumps, the labels and the first violation are the same. -/
structure Quiet (a a' : Assembler) : Prop where
  bytes_eq : a'.bytes = a.bytes
  jumps_eq : a'.jumps = a.jumps
  labels_eq : a'.labels = a.labels
  nextLabel_eq : a'.nextLabel = a.nextLabel
  localSlot_eq : a'.localSlot = a.localSlot
  varnames_eq : a'.varnames = a.varnames
  violation_eq : a'.violation = a.violation

theorem Quiet.refl (a : Assembler) : Quiet a a :=
  ⟨rfl, rfl, rfl, rfl, rfl, rfl, rfl⟩

variable (a : Assembler)

/-- Constants, names, locals and lines emit nothing. -/
theorem quiet_addConstant (c : Constant) : Quiet a (after (addConstant c) a) := by
  unfold addConstant
  simp only [after_bind, after_get, answer_get]
  cases c.poolKey? with
  | none => exact ⟨rfl, rfl, rfl, rfl, rfl, rfl, rfl⟩
  | some key =>
      dsimp only
      cases a.constantIndex[key]? with
      | none => exact ⟨rfl, rfl, rfl, rfl, rfl, rfl, rfl⟩
      | some index => exact ⟨rfl, rfl, rfl, rfl, rfl, rfl, rfl⟩

theorem quiet_addName (name : String) : Quiet a (after (addName name) a) := by
  unfold addName
  simp only [after_bind, after_get, answer_get]
  cases a.nameIndex[name]? with
  | none => exact ⟨rfl, rfl, rfl, rfl, rfl, rfl, rfl⟩
  | some index => exact ⟨rfl, rfl, rfl, rfl, rfl, rfl, rfl⟩

theorem quiet_setLine (line : Nat) : Quiet a (after (setLine line) a) := by
  show Quiet a (if line = a.currentLine then a else _)
  split <;> exact ⟨rfl, rfl, rfl, rfl, rfl, rfl, rfl⟩

/-- The line table is the same. -/
structure SameLines (a a' : Assembler) : Prop where
  lines_eq : a'.lines = a.lines
  lineStart_eq : a'.lineStart = a.lineStart
  currentLine_eq : a'.currentLine = a.currentLine

/-- The locals are the same. -/
structure SameLocals (a a' : Assembler) : Prop where
  varnames_eq : a'.varnames = a.varnames
  localSlot_eq : a'.localSlot = a.localSlot
  argCount_eq : a'.argCount = a.argCount

/-- So are both: what pools and bytes leave alone. -/
structure SameTables (a a' : Assembler) : Prop extends SameLines a a', SameLocals a a'

namespace SameTables

variable {a a' a'' : Assembler}

/-- The tables agree if their parts do. -/
theorem of_eq (hlines : a'.lines = a.lines) (hstart : a'.lineStart = a.lineStart)
    (hcurrent : a'.currentLine = a.currentLine) (hnames : a'.varnames = a.varnames)
    (hslots : a'.localSlot = a.localSlot) (hcount : a'.argCount = a.argCount) : SameTables a a' where
  toSameLines := ⟨hlines, hstart, hcurrent⟩
  toSameLocals := ⟨hnames, hslots, hcount⟩

theorem trans (h : SameTables a a') (h' : SameTables a' a'') : SameTables a a'' :=
  .of_eq (h'.lines_eq.trans h.lines_eq) (h'.lineStart_eq.trans h.lineStart_eq)
    (h'.currentLine_eq.trans h.currentLine_eq) (h'.varnames_eq.trans h.varnames_eq)
    (h'.localSlot_eq.trans h.localSlot_eq) (h'.argCount_eq.trans h.argCount_eq)

end SameTables

/-- What emits, or fills a pool, leaves lines and locals alone. -/
theorem sameTables_addConstant (c : Constant) : SameTables a (after (addConstant c) a) := by
  unfold addConstant
  simp only [after_bind, after_get, answer_get]
  cases c.poolKey? with
  | none => exact .of_eq rfl rfl rfl rfl rfl rfl
  | some key =>
      dsimp only
      cases a.constantIndex[key]? <;> exact .of_eq rfl rfl rfl rfl rfl rfl

theorem sameTables_addName (name : String) : SameTables a (after (addName name) a) := by
  unfold addName
  simp only [after_bind, after_get, answer_get]
  cases a.nameIndex[name]? <;> exact .of_eq rfl rfl rfl rfl rfl rfl

theorem sameTables_emit (opcode : Opcode) (arg : UInt16) :
    SameTables a (after (emit opcode arg) a) := by
  rw [after_emit]
  exact .of_eq rfl rfl rfl rfl rfl rfl

theorem sameTables_emitJump (opcode : Opcode) (label : Nat) :
    SameTables a (after (emitJump opcode label) a) := by
  rw [after_emitJump]
  exact .of_eq rfl rfl rfl rfl rfl rfl

theorem sameTables_emitConstant (c : Constant) : SameTables a (after (emitConstant c) a) :=
  (sameTables_addConstant a c).trans (sameTables_emit _ .loadConst (answer (addConstant c) a))

theorem sameTables_emitNamed (opcode : Opcode) (name : String) :
    SameTables a (after (emitNamed opcode name) a) :=
  (sameTables_addName a name).trans (sameTables_emit _ opcode (answer (addName name) a))

theorem sameTables_emitReturnNone : SameTables a (after emitReturnNone a) :=
  (sameTables_emitConstant a .none).trans (sameTables_emit _ .returnValue 0)

/-- Declaring a local starts no line. -/
theorem sameLines_declareLocal (name : String) : SameLines a (after (declareLocal name) a) := by
  cases hslot : a.localSlot[name]? with
  | some slot =>
      rw [after_declareLocal_known a hslot]
      exact ⟨rfl, rfl, rfl⟩
  | none =>
      rw [after_declareLocal_new a hslot]
      exact ⟨rfl, rfl, rfl⟩

theorem sameLines_declareParam (name : String) : SameLines a (after (declareParam name) a) := by
  by_cases h : a.varnames.size = a.argCount.toNat
  · rw [(declareParam_early a name h).2]
    obtain ⟨hlines, hstart, hcurrent⟩ := sameLines_declareLocal a name
    exact ⟨hlines, hstart, hcurrent⟩
  · rw [(declareParam_late a name h).2]
    exact ⟨rfl, rfl, rfl⟩

/-- Setting a line declares no local. -/
theorem sameLocals_setLine (line : Nat) : SameLocals a (after (setLine line) a) := by
  show SameLocals a (if line = a.currentLine then a else _)
  split <;> exact ⟨rfl, rfl, rfl⟩

end Assembler

/-! ## §3. Filling in the jumps. -/

namespace Assembler

/-- The bytes once all jumps so far have their labels. -/
def resolved (labels : Std.HashMap Nat Nat) (a : Assembler) : Except AssemblyError Bytes :=
  a.jumps.toList.foldlM (resolveJump labels) a.bytes

/-- The operands of all jumps so far are among the bytes. -/
def InBounds (a : Assembler) : Prop :=
  ∀ j ∈ a.jumps, j.operand + 1 < a.bytes.size

variable {labels : Std.HashMap Nat Nat} {bytes bytes' : Bytes} {j : PendingJump}

@[simp] theorem size_append_list (bytes : Bytes) (l : List UInt8) :
    (bytes ++ l).size = bytes.size + l.length := by
  simp [← Array.length_toList]

/-- A patch overwrites: no byte comes or goes. -/
@[simp] theorem size_patch (bytes : Bytes) (position target : Nat) :
    (patch bytes position target).size = bytes.size := by
  simp [patch]

/-- What comes after the operand does not matter. -/
theorem patch_append {position target : Nat} (l : List UInt8) (h : position + 1 < bytes.size) :
    patch (bytes ++ l) position target = patch bytes position target ++ l := by
  apply Array.ext'
  simp only [patch, Array.toList_setIfInBounds, Array.toList_appendList]
  rw [List.set_append_left _ _ (by rw [Array.length_toList]; omega),
    List.set_append_left _ _ (by rw [List.length_set, Array.length_toList]; omega)]

/-- The operand of a jump is written over the two bytes kept for it. -/
theorem patch_encode {opcode : Opcode} (hclass : opcode.operandClass = .word) (bytes : Bytes)
    (target : Nat) :
    patch (bytes ++ encode opcode 0) (bytes.size + 1) target
      = bytes ++ encode opcode target.toUInt16 := by
  apply Array.ext'
  unfold patch encode
  rw [hclass]
  simp only [Array.toList_setIfInBounds, Array.toList_appendList, operandBytes]
  rw [List.set_append_right _ _ (by rw [Array.length_toList]; omega),
    List.set_append_right _ _ (by rw [Array.length_toList]; omega), Array.length_toList]
  simp [show bytes.size + 1 - bytes.size = 1 by omega, show bytes.size + 1 + 1 - bytes.size = 2 by omega]

/-- A jump inside the bytes is resolved without a look at what follows. -/
theorem resolveJump_append (l : List UInt8) (h : j.operand + 1 < bytes.size) :
    resolveJump labels (bytes ++ l) j = (resolveJump labels bytes j).map fun b : Bytes => b ++ l := by
  unfold resolveJump
  cases labels[j.label]? with
  | none => rfl
  | some target => exact congrArg Except.ok (patch_append l h)

/-- Resolving overwrites an operand. -/
theorem size_of_resolveJump (h : resolveJump labels bytes j = .ok bytes') :
    bytes'.size = bytes.size := by
  unfold resolveJump at h
  cases hlabel : labels[j.label]? with
  | none =>
      rw [hlabel] at h
      cases h
  | some target =>
      rw [hlabel] at h
      obtain rfl := Except.ok.inj h
      exact size_patch ..

/-- All jumps together, jump by jump. -/
theorem resolve_append {jumps : List PendingJump} (l : List UInt8)
    (h : ∀ j ∈ jumps, j.operand + 1 < bytes.size) :
    jumps.foldlM (resolveJump labels) (bytes ++ l)
      = (jumps.foldlM (resolveJump labels) bytes).map fun b : Bytes => b ++ l := by
  induction jumps generalizing bytes with
  | nil => rfl
  | cons j jumps ih =>
      obtain ⟨hj, hjumps⟩ := List.forall_mem_cons.mp h
      rw [List.foldlM_cons, List.foldlM_cons, resolveJump_append l hj]
      cases hresolve : resolveJump labels bytes j with
      | error e => rfl
      | ok bytes' =>
          -- filling in a jump keeps the number of bytes, so the later ones stay in bounds
          rw [← size_of_resolveJump hresolve] at hjumps
          exact ih hjumps

/-- So the size of the body is known before any jump is resolved. -/
theorem size_of_resolve {jumps : List PendingJump}
    (h : jumps.foldlM (resolveJump labels) bytes = .ok bytes') : bytes'.size = bytes.size := by
  induction jumps generalizing bytes with
  | nil => exact congrArg Array.size (Except.ok.inj h).symm
  | cons j jumps ih =>
      rw [List.foldlM_cons] at h
      cases hj : resolveJump labels bytes j with
      | error e =>
          rw [hj] at h
          cases h
      | ok middle =>
          rw [hj] at h
          rw [ih h, size_of_resolveJump hj]

end Assembler

/-! ## §4. Emitting. -/

open Assembler

/-- From one assembler to another some instructions have been emitted, with the labels
given in the end. -/
structure Emits (labels : Std.HashMap Nat Nat) (code : List Instruction) (a a' : Assembler) : Prop where
  size_eq : a'.bytes.size = a.bytes.size + widthOf code
  inBounds : a.InBounds → a'.InBounds
  resolved_eq : a.InBounds →
    a'.resolved labels = (a.resolved labels).map fun b : Bytes => b ++ bytesOf code
  fits : a'.violation = none → a.violation = none ∧ ∀ i ∈ code, i.Fits

section Emission

variable {labels : Std.HashMap Nat Nat} {code code' : List Instruction} {a a' a'' : Assembler}
variable {start target label : Nat}

/-- Two emissions in a row. -/
theorem Emits.trans (h : Emits labels code a a') (h' : Emits labels code' a' a'') :
    Emits labels (code ++ code') a a'' := by
  refine ⟨?_, fun hin => h'.inBounds (h.inBounds hin), fun hin => ?_, fun hnone => ?_⟩
  · rw [h'.size_eq, h.size_eq, widthOf_append, Nat.add_assoc]
  · rw [h'.resolved_eq (h.inBounds hin), h.resolved_eq hin, bytesOf_append]
    cases a.resolved labels with
    | error e => rfl
    | ok bytes => exact congrArg Except.ok (Array.ext' (by simp))
  · obtain ⟨hmiddle, hcode'⟩ := h'.fits hnone
    obtain ⟨hstart, hcode⟩ := h.fits hmiddle
    exact ⟨hstart, List.forall_mem_append.mpr ⟨hcode, hcode'⟩⟩

/-- An emission grows the body by the width of what it emits. -/
theorem Emits.size_of (h : Emits labels code a a') (hstart : a.bytes.size = start) :
    a'.bytes.size = start + widthOf code := by
  rw [h.size_eq, hstart]

/-- Nothing is emitted where the bytes stay. -/
theorem Emits.of_eq (hbytes : a'.bytes = a.bytes) (hjumps : a'.jumps = a.jumps)
    (hviolation : a'.violation = none → a.violation = none) : Emits labels [] a a' := by
  refine ⟨by rw [hbytes]; rfl, fun hin => ?_, fun _ => ?_, fun hnone => ?_⟩
  · unfold InBounds
    rw [hbytes, hjumps]
    exact hin
  · unfold resolved
    rw [hbytes, hjumps, bytesOf_nil]
    cases a.jumps.toList.foldlM (resolveJump labels) a.bytes with
    | error e => rfl
    | ok bytes => exact congrArg Except.ok (by simp)
  · refine ⟨hviolation hnone, ?_⟩
    intro i hi
    cases hi

/-- What is quiet emits the empty code. -/
theorem Assembler.Quiet.emits (h : Quiet a a') : Emits labels [] a a' :=
  .of_eq h.bytes_eq h.jumps_eq fun hnone => h.violation_eq ▸ hnone

/-- There was no violation before if there is none later. -/
theorem violation_of_orElse {o later : Option AssemblyError} (h : (o <|> later) = none) :
    o = none ∧ later = none := by
  cases o with
  | none => exact ⟨rfl, h⟩
  | some e => cases h

/-- An instruction is emitted. -/
theorem emits_emit (opcode : Opcode) (arg : UInt16) (hstart : a.bytes.size = start) :
    Emits labels [.written start opcode arg] a (after (emit opcode arg) a) := by
  rw [after_emit]
  refine ⟨?_, fun hin j hj => ?_, fun hin => ?_, fun hnone => ?_⟩
  · simp
  · have := hin j hj
    show j.operand + 1 < (a.bytes ++ encode opcode arg).size
    rw [size_append_list]
    omega
  · show a.jumps.toList.foldlM _ (a.bytes ++ encode opcode arg) = _
    rw [resolve_append _ (fun j hj => hin j (Array.mem_toList_iff.mp hj))]
    rw [bytesOf_cons, bytesOf_nil, List.append_nil]
    exact congrArg (fun l : List UInt8 => Except.map (fun b : Bytes => b ++ l) _)
      (encode_kept opcode arg).symm
  · obtain ⟨hbefore, hnarrow⟩ := violation_of_orElse hnone
    refine ⟨hbefore, List.forall_mem_singleton.mpr ?_⟩
    show opcode.operandClass.Fits (opcode.operandClass.kept arg)
    unfold wideness? at hnarrow
    cases hclass : opcode.operandClass with
    | none => rfl
    | byte =>
        refine Nat.not_lt.mp fun hwide => ?_
        rw [if_pos ⟨hclass, hwide⟩] at hnarrow
        cases hnarrow
    | word => trivial

/-- A jump to a label is emitted. -/
theorem emits_emitJump {opcode : Opcode} (hjump : opcode.isJump = true)
    (hlabel : labels[label]? = some target) (hstart : a.bytes.size = start) :
    Emits labels [.jumping start opcode target] a (after (emitJump opcode label) a) := by
  have hclass := Opcode.operandClass_of_isJump hjump
  have hwidth : opcode.width = 3 := by
    unfold Opcode.width
    rw [hclass]
    rfl
  rw [after_emitJump]
  refine ⟨?_, fun hin j hj => ?_, fun hin => ?_, fun hnone => ?_⟩
  · simp
  · show j.operand + 1 < (a.bytes ++ encode opcode 0).size
    rw [size_append_list, length_encode, hwidth]
    rcases Array.mem_push.mp hj with hj | rfl
    · have := hin j hj
      omega
    · show a.bytes.size + 1 + 1 < _
      omega
  · show (a.jumps.push _).toList.foldlM _ (a.bytes ++ encode opcode 0) = _
    rw [Array.toList_push, List.foldlM_append,
      resolve_append _ (fun j hj => hin j (Array.mem_toList_iff.mp hj))]
    show ((a.resolved labels).map _ >>= _) = _
    cases hresolved : a.resolved labels with
    | error e => rfl
    | ok bytes =>
        -- the jumps before it have kept the place of its operand
        have hsize : bytes.size = a.bytes.size := size_of_resolve hresolved
        have hpatch := patch_encode hclass bytes target
        rw [hsize] at hpatch
        show (resolveJump labels (bytes ++ encode opcode 0) ⟨a.bytes.size + 1, label⟩ >>= pure) = _
        rw [bind_pure, resolveJump]
        dsimp only
        rw [hlabel, bytesOf_cons, bytesOf_nil, List.append_nil]
        exact congrArg Except.ok hpatch
  · refine ⟨(violation_of_orElse hnone).1, List.forall_mem_singleton.mpr ?_⟩
    show opcode.operandClass.Fits _
    rw [hclass]
    trivial

/-- A label is made, but nothing is emitted. -/
theorem emits_createLabel : Emits labels [] a (after createLabel a) :=
  .of_eq rfl rfl id

/-- A label gets its place, but nothing is emitted. -/
theorem emits_bindLabel (label : Nat) : Emits labels [] a (after (bindLabel label) a) :=
  .of_eq rfl rfl id

/-- A local is declared, but nothing is emitted. -/
theorem emits_declareLocal (name : String) : Emits labels [] a (after (declareLocal name) a) := by
  cases hslot : a.localSlot[name]? with
  | some slot =>
      rw [after_declareLocal_known a hslot]
      exact (Quiet.refl a).emits
  | none =>
      rw [after_declareLocal_new a hslot]
      exact .of_eq rfl rfl fun hnone => (violation_of_orElse hnone).1

/-! ## §5. Finishing. -/

/-- The first violation met goes before everything else. -/
theorem finish_of_violation {e : AssemblyError} (h : a.violation = some e) :
    a.finish = .error e := by
  unfold finish
  rw [h]

/-- Then the size counts. -/
theorem finish_of_long (h : a.violation = none) (hlong : maxSize < a.bytes.size) :
    a.finish = .error (.tooLong a.bytes.size) := by
  unfold finish
  rw [h]
  exact if_pos hlong

/-- Then the first jump that cannot be resolved. -/
theorem finish_of_unresolved {e : AssemblyError} (h : a.violation = none)
    (hshort : a.bytes.size ≤ maxSize) (hresolved : a.resolved a.labels = .error e) :
    a.finish = .error e := by
  unfold finish
  rw [h]
  dsimp only
  rw [if_neg (Nat.not_lt.mpr hshort)]
  show (a.resolved a.labels >>= _) = _
  rw [hresolved]
  rfl

/-- Where none of the three is wrong there is a body. -/
theorem finish_of_resolved {bytes : Bytes} (h : a.violation = none)
    (hshort : a.bytes.size ≤ maxSize) (hresolved : a.resolved a.labels = .ok bytes) :
    a.finish = .ok {
      name := a.name
      qualname := a.qualname
      filename := a.filename
      firstLine := a.firstLine
      bytes := bytes
      constants := a.constants
      names := a.names
      varnames := a.varnames
      argCount := a.argCount.toNat
      lines := a.closedLines.toList } := by
  unfold finish
  rw [h]
  dsimp only
  rw [if_neg (Nat.not_lt.mpr hshort)]
  show (a.resolved a.labels >>= _) = _
  rw [hresolved]
  rfl

/-- A body that is finished has no violation, is short enough, and has all its jumps
filled in. -/
theorem finish_ok {c : Code} :
    (∃ bytes, a.violation = none ∧ a.bytes.size ≤ maxSize ∧ a.resolved a.labels = .ok bytes
      ∧ c = {
          name := a.name
          qualname := a.qualname
          filename := a.filename
          firstLine := a.firstLine
          bytes := bytes
          constants := a.constants
          names := a.names
          varnames := a.varnames
          argCount := a.argCount.toNat
          lines := a.closedLines.toList }) ↔ a.finish = .ok c := by
  constructor
  · rintro ⟨bytes, hnone, hshort, hresolved, rfl⟩
    exact finish_of_resolved hnone hshort hresolved
  · intro h
    cases hviolation : a.violation with
    | some e =>
        rw [finish_of_violation hviolation] at h
        cases h
    | none =>
        by_cases hlong : maxSize < a.bytes.size
        · rw [finish_of_long hviolation hlong] at h
          cases h
        · have hshort : a.bytes.size ≤ maxSize := Nat.not_lt.mp hlong
          cases hresolved : a.resolved a.labels with
          | error e =>
              rw [finish_of_unresolved hviolation hshort hresolved] at h
              cases h
          | ok bytes =>
              rw [finish_of_resolved hviolation hshort hresolved] at h
              exact ⟨bytes, rfl, hshort, rfl, (Except.ok.inj h).symm⟩

end Emission

end Resumable
