/-
  Resumable.Proofs.Boundaries
  ───────────────────────────
  **WHERE THE INSTRUCTIONS OF A BODY START.**

  A body is read in two ways: `decode` lists all of it in offset order, and a
  running frame reads one instruction at the offset where it stands.  The two
  agree at the offsets the list reaches:

      0 ──▸ i₀.next ──▸ i₁.next ──▸ …            `decode`
      0 ──▸ … ──▸ target ──▸ …                    a run

  A frame stays on these offsets (`OnTrack`) as long as its jumps do, which is
  what makes a body `Sound`; and a body is well formed if it and all bodies
  nested in its constants are sound.

  Main results:
    • `decodeAt_of_mem`, `next_of_mem` — a listed instruction is the one read at
      its offset, and the next one is listed as well,
    • `ListedAt.onTrack_next`, `Code.Sound.onTrack_target` — so a sound body keeps
      a frame on track.
-/
import Mathlib
import Resumable.Bytecode.Code

namespace Resumable

variable {bytes : Bytes} {code : Array Instruction} {i : Instruction} {offset : Nat}

/-! ## §1. What a decoded body lists. -/

/-- All that `decodeFrom` adds to what it has read: each instruction is the one at
its offset, and what follows it is listed too unless it ends the bytes. -/
theorem decodeFrom_spec (read : Array Instruction) (h : decodeFrom bytes offset read = .ok code) :
    (∀ i ∈ read, i ∈ code) ∧ (offset < bytes.size → ∃ i ∈ code, i.offset = offset) ∧
      ∀ i ∈ code, i ∈ read ∨
        (decodeAt bytes i.offset = .ok i ∧
          (bytes.size ≤ i.next ∨ ∃ j ∈ code, j.offset = i.next)) := by
  induction offset, read using @decodeFrom.induct bytes with
  | case1 offset read hlt e he =>
      rw [decodeFrom, if_pos hlt, he] at h
      cases h
  | case2 offset read hlt j hj ih =>
      rw [decodeFrom, if_pos hlt, hj] at h
      obtain ⟨hread, hnext, hlisted⟩ := ih h
      have hoffset : j.offset = offset := offset_of_decodeAt hj
      have hmem : j ∈ code := hread j (Array.mem_push_self ..)
      refine ⟨fun i hi => hread i (Array.mem_push_of_mem _ hi), fun _ => ⟨j, hmem, hoffset⟩, ?_⟩
      intro i hi
      rcases hlisted i hi with hpush | hlater
      · -- the instruction just read: its successor is where the reading goes on
        rcases Array.mem_push.mp hpush with hold | rfl
        · exact .inl hold
        · refine .inr ⟨hoffset.symm ▸ hj, ?_⟩
          unfold Instruction.next
          rw [hoffset]
          by_cases hend : offset + i.width < bytes.size
          · exact .inr (hnext hend)
          · exact .inl (by omega)
      · exact .inr hlater
  | case3 offset read hnot =>
      rw [decodeFrom, if_neg hnot] at h
      obtain rfl := Except.ok.inj h
      exact ⟨fun i hi => hi, fun hlt => absurd hlt hnot, fun i hi => .inl hi⟩

/-- A listed instruction is the one read at its offset. -/
theorem decodeAt_of_mem (h : decode bytes = .ok code) (hi : i ∈ code) :
    decodeAt bytes i.offset = .ok i := by
  obtain ⟨-, -, hlisted⟩ := decodeFrom_spec #[] h
  rcases hlisted i hi with hnone | ⟨hat, -⟩
  · simp at hnone
  · exact hat

/-- The instruction after a listed one is listed, if there is one. -/
theorem next_of_mem (h : decode bytes = .ok code) (hi : i ∈ code) :
    bytes.size ≤ i.next ∨ ∃ j ∈ code, j.offset = i.next := by
  obtain ⟨-, -, hlisted⟩ := decodeFrom_spec #[] h
  rcases hlisted i hi with hnone | ⟨-, hnext⟩
  · simp at hnone
  · exact hnext

/-- The list starts with the first byte. -/
theorem exists_first (h : decode bytes = .ok code) (hsize : 0 < bytes.size) :
    ∃ i ∈ code, i.offset = 0 :=
  (decodeFrom_spec #[] h).2.1 hsize

/-- No two listed instructions start at one offset. -/
theorem eq_of_offset_eq (h : decode bytes = .ok code) (hi : i ∈ code) {j : Instruction}
    (hj : j ∈ code) (heq : i.offset = j.offset) : i = j := by
  have hat := decodeAt_of_mem h hi
  rw [heq, decodeAt_of_mem h hj] at hat
  exact (Except.ok.inj hat).symm

/-- Looking an instruction up finds the one listed at the offset. -/
theorem instructionAt_of_mem (h : decode bytes = .ok code) (hi : i ∈ code) :
    instructionAt code i.offset = some i := by
  unfold instructionAt
  cases hfind : code.find? (fun j => j.offset == i.offset) with
  | none =>
      rw [Array.find?_eq_none] at hfind
      simpa using hfind i hi
  | some j =>
      have hoffset := Array.find?_some hfind
      rw [beq_iff_eq] at hoffset
      rw [eq_of_offset_eq h (Array.mem_of_find?_eq_some hfind) hi hoffset]

/-! ## §2. Frames on track. -/

/-- The instruction that a body lists at an offset. -/
def ListedAt (bytes : Bytes) (offset : Nat) (i : Instruction) : Prop :=
  ∃ code, decode bytes = .ok code ∧ i ∈ code ∧ i.offset = offset

/-- An offset where an instruction is listed, or past the end. -/
def OnTrack (bytes : Bytes) (offset : Nat) : Prop :=
  (∃ i, ListedAt bytes offset i) ∨ bytes.size ≤ offset

theorem ListedAt.decodeAt_eq (h : ListedAt bytes offset i) : decodeAt bytes offset = .ok i := by
  obtain ⟨code, hcode, hi, rfl⟩ := h
  exact decodeAt_of_mem hcode hi

theorem ListedAt.instructionAt_eq (h : ListedAt bytes offset i) (hcode : decode bytes = .ok code) :
    instructionAt code offset = some i := by
  obtain ⟨code', hcode', hi, rfl⟩ := h
  obtain rfl := Except.ok.inj (hcode.symm.trans hcode')
  exact instructionAt_of_mem hcode hi

/-- A frame on track goes on from one instruction to the next. -/
theorem ListedAt.onTrack_next (hi : ListedAt bytes offset i) : OnTrack bytes i.next := by
  obtain ⟨code, hcode, hi, -⟩ := hi
  rcases next_of_mem hcode hi with hend | ⟨j, hj, hoffset⟩
  · exact .inr hend
  · exact .inl ⟨j, code, hcode, hj, hoffset⟩

/-- Before the end of the bytes it finds an instruction. -/
theorem OnTrack.exists_listedAt (h : OnTrack bytes offset) (hlt : offset < bytes.size) :
    ∃ i, ListedAt bytes offset i := by
  rcases h with hi | hend
  · exact hi
  · omega

/-- On track, the instruction that is read is the one that is listed. -/
theorem OnTrack.listedAt (h : OnTrack bytes offset) (hat : decodeAt bytes offset = .ok i) :
    ListedAt bytes offset i := by
  rcases h with ⟨j, hj⟩ | hend
  · obtain rfl := Except.ok.inj (hat.symm.trans hj.decodeAt_eq)
    exact hj
  · have hlt := lt_size_of_decodeAt hat
    omega

namespace Code

/-- A body that can be decoded and whose jumps stay on track. -/
def Sound (c : Code) : Prop :=
  ∃ code, decode c.bytes = .ok code ∧
    ∀ i ∈ code, ∀ target, i.target? = some target → OnTrack c.bytes target

/-- Whether a body is sound, by its decoded instructions. -/
def isSound (c : Code) : Bool :=
  match decode c.bytes with
  | .error _ => false
  | .ok code => code.all fun i =>
      match i.target? with
      | none => true
      | some target => code.any (fun j => j.offset == target) || decide (c.bytes.size ≤ target)

theorem isSound_iff (c : Code) : c.isSound = true ↔ c.Sound := by
  unfold isSound Sound OnTrack ListedAt
  cases decode c.bytes with
  | error e => simp
  | ok code =>
      simp only [Except.ok.injEq, exists_eq_left', Array.all_eq_true']
      refine forall₂_congr fun i _ => ?_
      cases i.target? with
      | none => simp only [reduceCtorEq, false_implies, implies_true]
      | some target =>
          simp only [Bool.or_eq_true, Array.any_eq_true', beq_iff_eq, decide_eq_true_eq,
            Option.some.injEq, forall_eq']

instance (c : Code) : Decidable c.Sound :=
  decidable_of_iff _ c.isSound_iff

/-- A sound body in whose constants all bodies are well formed. -/
inductive WellFormed : Code → Prop
  | intro {c : Code} (sound : c.Sound)
      (nested : ∀ inner, Constant.code inner ∈ c.constants → WellFormed inner) : WellFormed c

theorem WellFormed.sound {c : Code} (h : c.WellFormed) : c.Sound := by
  cases h with
  | intro sound nested => exact sound

theorem WellFormed.nested {c inner : Code} (h : c.WellFormed)
    (hinner : Constant.code inner ∈ c.constants) : inner.WellFormed := by
  cases h with
  | intro sound nested => exact nested inner hinner

namespace Sound

variable {c d : Code}

/-- Only the bytes count. -/
theorem congr (h : c.Sound) (hbytes : d.bytes = c.bytes) : d.Sound := by
  unfold Sound
  rw [hbytes]
  exact h

/-- A frame starts on track. -/
theorem onTrack_zero (h : c.Sound) : OnTrack c.bytes 0 := by
  obtain ⟨code, hcode, -⟩ := h
  by_cases hsize : 0 < c.bytes.size
  · obtain ⟨i, hi, hoffset⟩ := exists_first hcode hsize
    exact .inl ⟨i, code, hcode, hi, hoffset⟩
  · exact .inr (by omega)

/-- It jumps to where an instruction is. -/
theorem onTrack_target (h : c.Sound) (hi : ListedAt c.bytes offset i)
    (hjump : i.opcode.isJump = true) : OnTrack c.bytes i.arg.toNat := by
  obtain ⟨code, hcode, hjumps⟩ := h
  obtain ⟨code', hcode', hi, -⟩ := hi
  obtain rfl := Except.ok.inj (hcode.symm.trans hcode')
  refine hjumps i hi _ ?_
  unfold Instruction.target?
  rw [if_pos hjump]

end Sound

end Code

end Resumable
