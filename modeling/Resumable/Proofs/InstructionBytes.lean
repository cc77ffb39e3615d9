/-
  Resumable.Proofs.InstructionBytes
  ─────────────────────────────────
  **READING BACK WHAT WAS WRITTEN.**

  Instructions that stand in a row are written one after the other, and reading
  the bytes lists them again, each at its offset:

      i₀, i₁, …   ──encode──▸   bytes   ──decode──▸   i₀, i₁, …

  as long as every operand fits its operation.  The other way round any bytes that can
  be read are written again from what was read; and where they cannot be read, all that
  was read until then has been written so:

      bytes   =   i₀ i₁ … iₙ   ▴ no operation, or a cut off operand

  Main results:
    • `decodeAt_encode`   — an instruction is read where it was written,
    • `decode_bytesOf`    — so all of them are listed,
    • `encode_of_decodeAt`, `stopsAt_of_decodeAt` — what is read at an offset, and what is
      wrong there if nothing is,
    • `decode_encodeAll_inverse` — reading and writing are inverse to each other.
-/
import Resumable.Proofs.Boundaries

namespace Resumable

/-! ## §1. Instructions in a row. -/

/-- The operand of an instruction fits its operation. -/
def Instruction.Fits (i : Instruction) : Prop :=
  i.opcode.operandClass.Fits i.arg

instance (i : Instruction) : Decidable i.Fits :=
  inferInstanceAs (Decidable (i.opcode.operandClass.Fits i.arg))

/-- The bytes of instructions. -/
def bytesOf (code : List Instruction) : List UInt8 :=
  code.flatMap fun i => encode i.opcode i.arg

/-- The number of bytes they take. -/
def widthOf (code : List Instruction) : Nat :=
  (code.map Instruction.width).sum

/-- Each instruction starts where the one before it ends. -/
def InRow : Nat → List Instruction → Prop
  | _, [] => True
  | offset, i :: rest => i.offset = offset ∧ InRow (offset + i.width) rest

variable {code rest : List Instruction} {i : Instruction} {offset : Nat}

@[simp] theorem bytesOf_nil : bytesOf [] = [] := rfl

@[simp] theorem bytesOf_cons (i : Instruction) (rest : List Instruction) :
    bytesOf (i :: rest) = encode i.opcode i.arg ++ bytesOf rest :=
  List.flatMap_cons

@[simp] theorem bytesOf_append (code rest : List Instruction) :
    bytesOf (code ++ rest) = bytesOf code ++ bytesOf rest :=
  List.flatMap_append

@[simp] theorem widthOf_nil : widthOf [] = 0 := rfl

@[simp] theorem widthOf_cons (i : Instruction) (rest : List Instruction) :
    widthOf (i :: rest) = i.width + widthOf rest := by
  simp [widthOf]

@[simp] theorem widthOf_append (code rest : List Instruction) :
    widthOf (code ++ rest) = widthOf code + widthOf rest := by
  simp [widthOf]

@[simp] theorem length_bytesOf (code : List Instruction) :
    (bytesOf code).length = widthOf code := by
  induction code with
  | nil => rfl
  | cons i rest ih =>
      simp only [bytesOf_cons, List.length_append, length_encode, widthOf_cons, ih]
      rfl

theorem inRow_append : InRow offset (code ++ rest)
    ↔ InRow offset code ∧ InRow (offset + widthOf code) rest := by
  induction code generalizing offset with
  | nil => simp [InRow]
  | cons i code ih =>
      simp only [List.cons_append, InRow, ih, widthOf_cons, and_assoc, Nat.add_assoc]

/-- What stands in a row has its offsets between the two ends. -/
theorem InRow.bounds (h : InRow offset code) (hi : i ∈ code) :
    offset ≤ i.offset ∧ i.offset + i.width ≤ offset + widthOf code := by
  induction code generalizing offset with
  | nil => cases hi
  | cons j code ih =>
      obtain ⟨hj, hrest⟩ := h
      rw [widthOf_cons]
      rcases List.mem_cons.mp hi with rfl | hi
      · omega
      · have := ih hrest hi
        omega

/-! ## §2. One instruction. -/

/-- The two bytes of an operand make it up again. -/
theorem word_of_bytes (arg : UInt16) :
    arg.toUInt8.toUInt16 ||| ((arg >>> 8).toUInt8.toUInt16 <<< 8) = arg := by
  apply UInt16.toNat_inj.mp
  have hlt := arg.toNat_lt
  have hlow : arg.toNat % 256 < 2 ^ 8 := Nat.mod_lt _ (by decide)
  simp only [UInt16.toNat_or, UInt16.toNat_shiftLeft, UInt8.toNat_toUInt16, UInt16.toNat_toUInt8,
    UInt16.toNat_shiftRight]
  show arg.toNat % 256 ||| (((arg.toNat >>> 8) % 256) <<< 8) % 2 ^ 16 = arg.toNat
  have hhigh : arg.toNat >>> 8 % 256 = arg.toNat / 256 := by
    rw [Nat.shiftRight_eq_div_pow]
    omega
  have hshift : (arg.toNat / 256) <<< 8 % 2 ^ 16 = (arg.toNat / 256) <<< 8 := by
    rw [Nat.shiftLeft_eq]
    omega
  rw [hhigh, hshift, Nat.or_comm, ← Nat.shiftLeft_add_eq_or_of_lt hlow, Nat.shiftLeft_eq]
  omega

/-- The byte of an operand makes it up again if it fits. -/
theorem byte_of_operand {arg : UInt16} (h : arg.toNat ≤ 255) : arg.toUInt8.toUInt16 = arg := by
  apply UInt16.toNat_inj.mp
  simp only [UInt8.toNat_toUInt16, UInt16.toNat_toUInt8]
  omega

/-- **An instruction is read where it was written.** -/
theorem decodeAt_encode {bytes : Bytes} {before after : List UInt8}
    (hbytes : bytes.toList = before ++ (encode i.opcode i.arg ++ after))
    (hoffset : before.length = i.offset) (hfits : i.Fits) :
    decodeAt bytes i.offset = .ok i := by
  obtain ⟨offset, opcode, arg⟩ := i
  obtain rfl : before.length = offset := hoffset
  have hat (k : Nat) : bytes[before.length + k]? = (encode opcode arg ++ after)[k]? := by
    rw [← Array.getElem?_toList, hbytes, List.getElem?_append_right (Nat.le_add_right _ _),
      Nat.add_sub_cancel_left]
  have hbyte : bytes[before.length]? = some opcode.byte := hat 0
  have hoperand : operandAt bytes (before.length + 1) opcode.operandClass = some arg := by
    have hfirst := hat 1
    have hsecond := hat 2
    unfold encode at hfirst hsecond
    unfold Instruction.Fits at hfits
    cases hclass : opcode.operandClass with
    | none =>
        rw [hclass] at hfits
        exact congrArg some hfits.symm
    | byte =>
        rw [hclass] at hfits hfirst
        unfold operandAt
        rw [hfirst]
        exact congrArg some (byte_of_operand hfits)
    | word =>
        rw [hclass] at hfirst hsecond
        unfold operandAt
        rw [hfirst, hsecond]
        exact congrArg some (word_of_bytes arg)
  unfold decodeAt
  simp only [hbyte, Opcode.ofByte?_byte, hoperand]

/-! ## §3. All of them. -/

theorem decodeFrom_bytesOf {bytes : Bytes} {before : List UInt8} (read : Array Instruction)
    (hbytes : bytes.toList = before ++ bytesOf code) (hrow : InRow before.length code)
    (hfits : ∀ i ∈ code, i.Fits) :
    decodeFrom bytes before.length read = .ok (read ++ code.toArray) := by
  induction code generalizing before read with
  | nil =>
      have hsize : bytes.size = before.length := by
        rw [← Array.length_toList, hbytes, bytesOf_nil, List.append_nil]
      rw [decodeFrom, if_neg (by omega)]
      simp
  | cons i code ih =>
      obtain ⟨hoffset, hrest⟩ := hrow
      obtain ⟨hi, hfits⟩ := List.forall_mem_cons.mp hfits
      rw [bytesOf_cons] at hbytes
      have hdecodes := decodeAt_encode hbytes hoffset.symm hi
      have hlt := lt_size_of_decodeAt hdecodes
      rw [hoffset] at hdecodes hlt
      rw [decodeFrom, if_pos hlt, hdecodes]
      -- the rest is read with this instruction behind it
      have hlength : (before ++ encode i.opcode i.arg).length = before.length + i.width := by
        rw [List.length_append, length_encode]
        rfl
      rw [← hlength] at hrest
      have hread := ih (read.push i) (by rw [hbytes, List.append_assoc]) hrest hfits
      rw [hlength] at hread
      dsimp only
      rw [hread]
      simp

/-- **What was written in a row is listed.** -/
theorem decode_bytesOf (hrow : InRow 0 code) (hfits : ∀ i ∈ code, i.Fits) :
    decode (bytesOf code).toArray = .ok code.toArray := by
  have hbytes : (bytesOf code).toArray.toList = [] ++ bytesOf code := rfl
  have h := decodeFrom_bytesOf #[] hbytes hrow hfits
  simpa [decode] using h

/-! ## §4. Writing what was read. -/

/-- The two bytes that make up an operand are those it is written with. -/
theorem bytes_of_word (low high : UInt8) :
    (low.toUInt16 ||| (high.toUInt16 <<< 8)).toUInt8 = low
      ∧ ((low.toUInt16 ||| (high.toUInt16 <<< 8)) >>> 8).toUInt8 = high := by
  have hlow := low.toNat_lt
  have hhigh := high.toNat_lt
  -- the two bytes share no bit, so `or` adds them
  have hword : (low.toUInt16 ||| (high.toUInt16 <<< 8)).toNat = low.toNat + high.toNat * 256 := by
    simp only [UInt16.toNat_or, UInt16.toNat_shiftLeft, UInt8.toNat_toUInt16]
    show low.toNat ||| (high.toNat <<< 8) % 2 ^ 16 = _
    have hshift : (high.toNat <<< 8) % 2 ^ 16 = high.toNat <<< 8 := by
      rw [Nat.shiftLeft_eq]
      omega
    rw [hshift, Nat.or_comm, ← Nat.shiftLeft_add_eq_or_of_lt hlow, Nat.shiftLeft_eq]
    omega
  constructor <;> apply UInt8.toNat_inj.mp
  · rw [UInt16.toNat_toUInt8, hword]
    omega
  · rw [UInt16.toNat_toUInt8, UInt16.toNat_shiftRight, hword]
    show (low.toNat + high.toNat * 256) >>> 8 % 2 ^ 8 = _
    rw [Nat.shiftRight_eq_div_pow]
    omega

theorem byte_of_byte (low : UInt8) : low.toUInt16.toUInt8 = low := by
  apply UInt8.toNat_inj.mp
  simp

section Reading

variable {bytes : Bytes}

/-- What stands at an offset comes first of what is left there. -/
theorem drop_of_getElem? {byte : UInt8} (h : bytes[offset]? = some byte) :
    bytes.toList.drop offset = byte :: bytes.toList.drop (offset + 1) := by
  obtain ⟨hlt, rfl⟩ := Array.getElem?_eq_some_iff.mp h
  exact List.drop_eq_getElem_cons hlt

/-- An operand that is read fits its class, and is written with the bytes it was read from. -/
theorem operandBytes_of_operandAt {c : OperandClass} {arg : UInt16}
    (h : operandAt bytes offset c = some arg) :
    c.Fits arg
      ∧ bytes.toList.drop offset = operandBytes c arg ++ bytes.toList.drop (offset + c.size) := by
  unfold operandAt at h
  cases c with
  | none =>
      obtain rfl := Option.some.inj h
      exact ⟨rfl, rfl⟩
  | byte =>
      obtain ⟨low, hlow, rfl⟩ := Option.map_eq_some_iff.mp h
      refine ⟨?_, ?_⟩
      · have hlt := low.toNat_lt
        show low.toUInt16.toNat ≤ 255
        rw [UInt8.toNat_toUInt16]
        omega
      · rw [drop_of_getElem? hlow]
        show _ = [low.toUInt16.toUInt8] ++ _
        rw [byte_of_byte]
        rfl
  | word =>
      cases hlow : bytes[offset]? with
      | none => simp [hlow] at h
      | some low =>
          cases hhigh : bytes[offset + 1]? with
          | none => simp [hhigh] at h
          | some high =>
              rw [hlow, hhigh] at h
              obtain rfl := Option.some.inj h
              refine ⟨trivial, ?_⟩
              obtain ⟨hfirst, hsecond⟩ := bytes_of_word low high
              rw [drop_of_getElem? hlow, drop_of_getElem? hhigh]
              simp only [operandBytes, hfirst, hsecond]
              rfl

/-- An operand cannot be read if the bytes end inside it. -/
theorem lt_of_operandAt {c : OperandClass} (h : operandAt bytes offset c = none) :
    bytes.size < offset + c.size := by
  unfold operandAt at h
  cases c with
  | none => cases h
  | byte =>
      have hnone := Array.getElem?_eq_none_iff.mp (Option.map_eq_none_iff.mp h)
      exact Nat.lt_succ_of_le hnone
  | word =>
      by_contra hlong
      have hfirst : offset < bytes.size := by
        simp only [OperandClass.size] at hlong
        omega
      have hsecond : offset + 1 < bytes.size := by
        simp only [OperandClass.size] at hlong
        omega
      rw [Array.getElem?_eq_getElem hfirst, Array.getElem?_eq_getElem hsecond] at h
      cases h

/-- **What is read at an offset was written there.** -/
theorem encode_of_decodeAt (h : decodeAt bytes offset = .ok i) :
    i.Fits ∧ bytes.toList.drop offset
      = encode i.opcode i.arg ++ bytes.toList.drop (offset + i.width) := by
  unfold decodeAt at h
  cases hbyte : bytes[offset]? with
  | none =>
      rw [hbyte] at h
      cases h
  | some byte =>
      simp only [hbyte] at h
      cases hop : Opcode.ofByte? byte with
      | none =>
          rw [hop] at h
          cases h
      | some opcode =>
          simp only [hop] at h
          cases harg : operandAt bytes (offset + 1) opcode.operandClass with
          | none =>
              rw [harg] at h
              cases h
          | some arg =>
              rw [harg] at h
              obtain rfl := Except.ok.inj h
              obtain ⟨hfits, hdrop⟩ := operandBytes_of_operandAt harg
              refine ⟨hfits, ?_⟩
              rw [drop_of_getElem? hbyte, hdrop, ← Opcode.byte_of_ofByte? hop, Nat.add_assoc]
              rfl

/-- Where reading stops, and why: the byte there stands for no operation, or the bytes end
inside the operand of the one it stands for. -/
inductive StopsAt (bytes : Bytes) (offset : Nat) : DecodeError → Prop
  | noOperation {byte : UInt8} : bytes[offset]? = some byte → Opcode.ofByte? byte = none →
      StopsAt bytes offset (.noOperation offset byte)
  | cutOff {opcode : Opcode} : bytes[offset]? = some opcode.byte →
      bytes.size < offset + opcode.width → StopsAt bytes offset (.cutOff offset opcode)

/-- **What is wrong where nothing can be read.** -/
theorem stopsAt_of_decodeAt {e : DecodeError} (h : decodeAt bytes offset = .error e)
    (hlt : offset < bytes.size) : StopsAt bytes offset e := by
  have hbyte : bytes[offset]? = some bytes[offset] := Array.getElem?_eq_getElem hlt
  unfold decodeAt at h
  simp only [hbyte] at h
  cases hop : Opcode.ofByte? bytes[offset] with
  | none =>
      rw [hop] at h
      obtain rfl := Except.error.inj h
      exact .noOperation hbyte hop
  | some opcode =>
      simp only [hop] at h
      cases harg : operandAt bytes (offset + 1) opcode.operandClass with
      | some arg =>
          rw [harg] at h
          cases h
      | none =>
          rw [harg] at h
          obtain rfl := Except.error.inj h
          rw [← Opcode.byte_of_ofByte? hop] at hbyte
          have hend := lt_of_operandAt harg
          refine .cutOff hbyte ?_
          unfold Opcode.width
          omega

/-- What can be read from an offset on is written again, after what was read before it; and
if reading stops, so is what was read until then. -/
theorem bytesOf_decodeFrom (bytes : Bytes) (read : Array Instruction) (hle : offset ≤ bytes.size)
    (hread : bytes.toList.take offset = bytesOf read.toList) (hfits : ∀ i ∈ read, i.Fits) :
    match decodeFrom bytes offset read with
    | .ok code => bytes.toList = bytesOf code.toList ∧ ∀ i ∈ code, i.Fits
    | .error e => ∃ code : Array Instruction,
        bytes.toList.take (widthOf code.toList) = bytesOf code.toList ∧ (∀ i ∈ code, i.Fits)
          ∧ StopsAt bytes (widthOf code.toList) e := by
  have hwidth {offset : Nat} {read : Array Instruction} (hle : offset ≤ bytes.size)
      (hread : bytes.toList.take offset = bytesOf read.toList) : widthOf read.toList = offset := by
    rw [← length_bytesOf, ← hread, List.length_take, Array.length_toList, Nat.min_eq_left hle]
  induction offset, read using @decodeFrom.induct bytes with
  | case1 offset read hlt e he =>
      rw [decodeFrom, if_pos hlt, he]
      refine ⟨read, ?_, hfits, ?_⟩
      · rw [hwidth hle hread]
        exact hread
      · rw [hwidth hle hread]
        exact stopsAt_of_decodeAt he hlt
  | case2 offset read hlt i hi ih =>
      rw [decodeFrom, if_pos hlt, hi]
      obtain ⟨hi, hdrop⟩ := encode_of_decodeAt hi
      -- what was read so far, and this instruction after it
      have hnext : bytes.toList.take (offset + i.width) = bytesOf (read.push i).toList := by
        have hlength : (encode i.opcode i.arg).length = i.width := length_encode ..
        rw [List.take_add, hread, hdrop, List.take_left' hlength]
        simp
      have hlong : offset + i.width ≤ bytes.size := by
        have hlength := congrArg List.length hdrop
        rw [List.length_append, length_encode, List.length_drop, Array.length_toList] at hlength
        have hdef : i.width = i.opcode.width := rfl
        omega
      refine ih hlong hnext fun j hj => ?_
      rcases Array.mem_push.mp hj with hold | rfl
      · exact hfits j hold
      · exact hi
  | case3 offset read hnot =>
      rw [decodeFrom, if_neg hnot]
      refine ⟨?_, hfits⟩
      rw [← hread, List.take_of_length_le]
      rw [Array.length_toList]
      exact Nat.le_of_not_lt hnot

end Reading

/-! ## §5. Both ways. -/

/-- An instruction without its offset. -/
def Instruction.operation (i : Instruction) : Opcode × UInt16 :=
  (i.opcode, i.arg)

/-- The bytes of operations with operands. -/
def widthsOf (ops : List (Opcode × UInt16)) : Nat :=
  (ops.map fun op => op.1.width).sum

/-- Operations with operands one after the other: each starts where the widths of those before
it add up to. -/
def laidOut (offset : Nat) (ops : List (Opcode × UInt16)) : List Instruction :=
  ops.mapIdx fun n op => ⟨offset + widthsOf (ops.take n), op.1, op.2⟩

section Layout

variable {ops : List (Opcode × UInt16)}

theorem laidOut_cons (op : Opcode × UInt16) :
    laidOut offset (op :: ops) = ⟨offset, op.1, op.2⟩ :: laidOut (offset + op.1.width) ops := by
  simp [laidOut, widthsOf, Nat.add_assoc]

@[simp] theorem map_operation_laidOut : (laidOut offset ops).map Instruction.operation = ops := by
  induction ops generalizing offset with
  | nil => rfl
  | cons op ops ih =>
      rw [laidOut_cons, List.map_cons, ih]
      rfl

theorem inRow_laidOut (offset : Nat) : InRow offset (laidOut offset ops) := by
  induction ops generalizing offset with
  | nil => trivial
  | cons op ops ih =>
      rw [laidOut_cons]
      exact ⟨rfl, ih _⟩

theorem forall_mem_laidOut {P : Opcode × UInt16 → Prop} :
    (∀ i ∈ laidOut offset ops, P i.operation) ↔ ∀ op ∈ ops, P op := by
  rw [← List.forall_mem_map, map_operation_laidOut]

theorem toList_encodeAll (code : List Instruction) :
    (encodeAll (code.map Instruction.operation)).toList = bytesOf code := by
  have hfold (bytes : Bytes) : ((code.map Instruction.operation).foldl
      (fun (bytes : Bytes) op => bytes ++ encode op.1 op.2) bytes).toList
        = bytes.toList ++ bytesOf code := by
    induction code generalizing bytes with
    | nil => simp
    | cons i code ih =>
        rw [List.map_cons, List.foldl_cons, ih]
        simp [Instruction.operation]
  exact hfold #[]

end Layout

/-- **Reading and writing are inverse to each other.**  Operations whose operands fit are read
back as written, each where the widths before it add up to; bytes that can be read are those
of what was read; and if they cannot, then all bytes until then are those of some operations,
and after them one stands for no operation or an operand is cut off. -/
theorem decode_encodeAll_inverse :
    (∀ ops : List (Opcode × UInt16), decode (encodeAll ops) = .ok (laidOut 0 ops).toArray
      ↔ ∀ op ∈ ops, op.1.operandClass.Fits op.2)
    ∧ ∀ bytes : Bytes, match decode bytes with
      | .ok code => encodeAll (code.toList.map Instruction.operation) = bytes
      | .error e => ∃ ops : List (Opcode × UInt16), (∀ op ∈ ops, op.1.operandClass.Fits op.2)
          ∧ bytes.take (widthsOf ops) = encodeAll ops ∧ StopsAt bytes (widthsOf ops) e := by
  have hwritten (bytes : Bytes) :=
    bytesOf_decodeFrom bytes #[] (Nat.zero_le _) (by simp) (by simp)
  have hbytes {ops : List (Opcode × UInt16)} : (encodeAll ops).toList = bytesOf (laidOut 0 ops) := by
    rw [← toList_encodeAll, map_operation_laidOut]
  refine ⟨fun ops => ⟨fun h => ?_, fun h => ?_⟩, fun bytes => ?_⟩
  · -- what is read fits, and it is what was written
    have hfits := hwritten (encodeAll ops)
    rw [← decode, h] at hfits
    exact forall_mem_laidOut.mp fun i hi => hfits.2 i (List.mem_toArray.mpr hi)
  · have hread := decode_bytesOf (inRow_laidOut 0) (forall_mem_laidOut.mpr h)
    rwa [← hbytes] at hread
  · have hread := hwritten bytes
    rw [← decode] at hread
    cases hdecode : decode bytes with
    | ok code =>
        rw [hdecode] at hread
        exact Array.ext' ((toList_encodeAll code.toList).trans hread.1.symm)
    | error e =>
        rw [hdecode] at hread
        obtain ⟨code, hbefore, hfits, hstops⟩ := hread
        -- the operations read are as wide as the instructions they came from
        have hwidth : widthsOf (code.toList.map Instruction.operation) = widthOf code.toList := by
          unfold widthsOf widthOf
          rw [List.map_map]
          rfl
        refine ⟨code.toList.map Instruction.operation, ?_, ?_, ?_⟩
        · exact List.forall_mem_map.mpr fun i hi => hfits i (Array.mem_toList_iff.mp hi)
        · rw [hwidth]
          refine Array.ext' ?_
          rw [Array.take_eq_extract, Array.toList_extract, List.extract_eq_take_drop, List.drop_zero,
            Nat.sub_zero, toList_encodeAll]
          exact hbefore
        · rw [hwidth]
          exact hstops

end Resumable
