/-
  Resumable.Proofs.LoopCode
  ─────────────────────────
  **LOOP NESTING IS RECOVERED FROM THE BYTES.**

  A body can be made of straight code, jumps forward and loops, one after the other and
  one inside the other, and from inside a loop its head can be gone back to:

      head:  FOR_ITER exit            head:  any other instruction
             …  JUMP head  …                 …  JUMP head  …
             JUMP_ABSOLUTE head              JUMP_ABSOLUTE head
      exit:

  The bytes keep nothing of this but the jumps.  Still, of whatever calls an assembler
  was asked to emit such a body, the number that is read off the finished bytes for a
  call in it is the number of for-loops that have the call in their body.

  Main results:
    • `LoopCode.nests`        — code made of loops counts the loops around its sites,
    • `loopNesting_assembled` — so does what is read off the bytes of a body.
-/
import Resumable.Proofs.AssemblyCalls
import Resumable.Proofs.LoopReading

namespace Resumable

open Assembler

/-- Code made of loops; the index tells whether it lies in a loop, to whose head it can go
back. -/
inductive LoopCode : Bool → Type where
  /-- No instruction. -/
  | nothing {inside : Bool} : LoopCode inside
  /-- An instruction that does not jump, or that jumps forward. -/
  | instr {inside : Bool} (opcode : Opcode) (arg : UInt16) : LoopCode inside
  /-- A jump back to the head of the innermost loop. -/
  | again (opcode : Opcode) : LoopCode true
  /-- One part after the other. -/
  | seq {inside : Bool} (first second : LoopCode inside) : LoopCode inside
  /-- A for-loop: its head is left when there is no item, and gone back to after the body. -/
  | forLoop {inside : Bool} (body : LoopCode true) : LoopCode inside
  /-- Another loop: an instruction for its head, which is gone back to after the body. -/
  | whileLoop {inside : Bool} (opcode : Opcode) (arg : UInt16) (body : LoopCode true) :
      LoopCode inside

namespace LoopCode

/-! ## §1. Code and its listing. -/

/-- The bytes it takes. -/
def width : {inside : Bool} → LoopCode inside → Nat
  | _, .nothing => 0
  | _, .instr opcode _ => opcode.width
  | _, .again opcode => opcode.width
  | _, .seq first second => first.width + second.width
  | _, .forLoop body => Opcode.forIter.width + body.width + Opcode.jumpAbsolute.width
  | _, .whileLoop opcode _ body => opcode.width + body.width + Opcode.jumpAbsolute.width

/-- Its instructions from `start` on, each with the number of for-loops it lies in, where code
in `loops` for-loops goes back to `head`. -/
def sites : {inside : Bool} → LoopCode inside → (loops head start : Nat) → List Site
  | _, .nothing, _, _, _ => []
  | _, .instr opcode arg, loops, _, start => [⟨.written start opcode arg, loops⟩]
  | _, .again opcode, loops, head, start => [⟨.jumping start opcode head, loops⟩]
  | _, .seq first second, loops, head, start =>
      first.sites loops head start ++ second.sites loops head (start + first.width)
  | _, .forLoop body, loops, _, start =>
      let item := start + Opcode.forIter.width
      let back := item + body.width
      [⟨.jumping start .forIter (back + Opcode.jumpAbsolute.width), loops⟩]
        ++ body.sites (loops + 1) start item ++ [⟨.jumping back .jumpAbsolute start, loops + 1⟩]
  | _, .whileLoop opcode arg body, loops, _, start =>
      let item := start + opcode.width
      [⟨.written start opcode arg, loops⟩] ++ body.sites loops start item
        ++ [⟨.jumping (item + body.width) .jumpAbsolute start, loops⟩]

/-- The instructions of a body. -/
def listing (b : LoopCode false) : List Instruction :=
  (b.sites 0 0 0).map Site.instr

/-- Jumps that are to go forward do, those that are to go back jump, and no for-loop has its
head where another loop has one. -/
def Proper : {inside : Bool} → LoopCode inside → (start : Nat) → Prop
  | _, .nothing, _ => True
  | _, .instr opcode arg, start => opcode.isJump = true → start < arg.toNat
  | _, .again opcode, _ => opcode.isJump = true
  | _, .seq first second, start => first.Proper start ∧ second.Proper (start + first.width)
  | _, .forLoop body, start => body.Proper (start + Opcode.forIter.width)
  | _, .whileLoop opcode arg body, start =>
      opcode ≠ .forIter ∧ (opcode.isJump = true → start < arg.toNat)
        ∧ body.Proper (start + opcode.width)

/-- Whether code is proper can be computed. -/
instance decidableProper :
    {inside : Bool} → (b : LoopCode inside) → (start : Nat) → Decidable (b.Proper start)
  | _, .nothing, _ => .isTrue trivial
  | _, .instr opcode arg, start =>
      inferInstanceAs (Decidable (opcode.isJump = true → start < arg.toNat))
  | _, .again opcode, _ => inferInstanceAs (Decidable (opcode.isJump = true))
  | _, .seq first second, start =>
      have := decidableProper first start
      have := decidableProper second (start + first.width)
      inferInstanceAs (Decidable (first.Proper start ∧ second.Proper (start + first.width)))
  | _, .forLoop body, start => decidableProper body (start + Opcode.forIter.width)
  | _, .whileLoop opcode arg body, start =>
      have := decidableProper body (start + opcode.width)
      inferInstanceAs (Decidable (opcode ≠ .forIter ∧ (opcode.isJump = true → start < arg.toNat) ∧ _))

/-- The byte ranges of the bodies of its for-loops. -/
def bodies : {inside : Bool} → LoopCode inside → (start : Nat) → List (Nat × Nat)
  | _, .nothing, _ | _, .instr _ _, _ | _, .again _, _ => []
  | _, .seq first second, start => first.bodies start ++ second.bodies (start + first.width)
  | _, .forLoop body, start =>
      let item := start + Opcode.forIter.width
      (item, item + body.width) :: body.bodies item
  | _, .whileLoop opcode _ body, start => body.bodies (start + opcode.width)

/-- Whether an offset lies in a byte range. -/
def liesIn (offset : Nat) (range : Nat × Nat) : Bool :=
  range.1 ≤ offset && offset < range.2

/-- The number of for-loops of a body that have an offset in their body. -/
def loopsAround (b : LoopCode false) (offset : Nat) : Nat :=
  (b.bodies 0).countP (liesIn offset)

variable {inside : Bool} {loops head start offset : Nat}

theorem widthOf_sites (b : LoopCode inside) :
    widthOf ((b.sites loops head start).map Site.instr) = b.width := by
  induction b generalizing loops head start with
  | nothing => rfl
  | instr opcode arg => rfl
  | again opcode => rfl
  | seq first second ihf ihs =>
      rw [sites, List.map_append, widthOf_append, ihf, ihs]
      rfl
  | forLoop body ih =>
      rw [sites, List.map_append, List.map_append, widthOf_append, widthOf_append, ih]
      rfl
  | whileLoop opcode arg body ih =>
      rw [sites, List.map_append, List.map_append, widthOf_append, widthOf_append, ih]
      rfl

/-- The instructions stand in a row. -/
theorem inRow_sites (b : LoopCode inside) :
    InRow start ((b.sites loops head start).map Site.instr) := by
  induction b generalizing loops head start with
  | nothing => trivial
  | instr opcode arg => exact ⟨rfl, trivial⟩
  | again opcode => exact ⟨rfl, trivial⟩
  | seq first second ihf ihs =>
      rw [sites, List.map_append, inRow_append, widthOf_sites]
      exact ⟨ihf, ihs⟩
  | forLoop body ih =>
      rw [sites, List.append_assoc, List.singleton_append, List.map_cons]
      refine ⟨rfl, ?_⟩
      rw [List.map_append, inRow_append, widthOf_sites]
      exact ⟨ih, rfl, trivial⟩
  | whileLoop opcode arg body ih =>
      rw [sites, List.append_assoc, List.singleton_append, List.map_cons]
      refine ⟨rfl, ?_⟩
      rw [List.map_append, inRow_append, widthOf_sites]
      exact ⟨ih, rfl, trivial⟩

theorem bounds_sites (b : LoopCode inside) {q : Site} (hq : q ∈ b.sites loops head start) :
    start ≤ q.instr.offset ∧ q.instr.offset < start + b.width := by
  have hbounds := b.inRow_sites.bounds (List.mem_map_of_mem hq)
  have hpos := q.instr.opcode.width_pos
  have hwidth : q.instr.width = q.instr.opcode.width := rfl
  rw [widthOf_sites] at hbounds
  omega

/-! ## §2. The loops around a call. -/

theorem bounds_bodies (b : LoopCode inside) {range : Nat × Nat} (h : range ∈ b.bodies start) :
    start ≤ range.1 ∧ range.2 ≤ start + b.width := by
  induction b generalizing start with
  | nothing => cases h
  | instr opcode arg => cases h
  | again opcode => cases h
  | seq first second ihf ihs =>
      unfold width
      rcases List.mem_append.mp h with h | h
      · have := ihf h
        omega
      · have := ihs h
        omega
  | forLoop body ih =>
      unfold width
      rcases List.mem_cons.mp h with rfl | h
      · dsimp only
        omega
      · have := ih h
        omega
  | whileLoop opcode arg body ih =>
      unfold width
      have := ih h
      omega

/-- No loop has an offset outside of the code in its body. -/
theorem countP_bodies_of_outside (b : LoopCode inside)
    (h : offset < start ∨ start + b.width ≤ offset) :
    (b.bodies start).countP (liesIn offset) = 0 := by
  refine List.countP_eq_zero.mpr fun range hrange => ?_
  have hbounds := b.bounds_bodies hrange
  unfold liesIn
  rw [Bool.and_eq_true, decide_eq_true_eq, decide_eq_true_eq]
  omega

/-- **The loops a call lies in** are those that have it in their body. -/
theorem loops_of_isCall (b : LoopCode inside) {q : Site} (hq : q ∈ b.sites loops head start)
    (hcall : q.instr.opcode.isCall = true) :
    q.loops = loops + (b.bodies start).countP (liesIn q.instr.offset) := by
  induction b generalizing loops head start with
  | nothing => cases hq
  | instr opcode arg =>
      obtain rfl := List.mem_singleton.mp hq
      rfl
  | again opcode =>
      obtain rfl := List.mem_singleton.mp hq
      rfl
  | seq first second ihf ihs =>
      rw [bodies, List.countP_append]
      rcases List.mem_append.mp hq with hq | hq
      · -- two parts do not overlap, so the loops of the other one do not count
        have hbounds := first.bounds_sites hq
        rw [second.countP_bodies_of_outside (.inl hbounds.2), ihf hq]
        rfl
      · have hbounds := second.bounds_sites hq
        rw [first.countP_bodies_of_outside (.inr hbounds.1), ihs hq, Nat.zero_add]
  | forLoop body ih =>
      rcases List.mem_append.mp hq with hq | hq
      · rcases List.mem_append.mp hq with hq | hq
        · obtain rfl := List.mem_singleton.mp hq
          cases hcall
        · have hbounds := body.bounds_sites hq
          -- a site of the body lies in this loop and in those that count inside
          have hlies : liesIn q.instr.offset
              (start + Opcode.forIter.width, start + Opcode.forIter.width + body.width) = true := by
            unfold liesIn
            rw [Bool.and_eq_true, decide_eq_true_eq, decide_eq_true_eq]
            exact hbounds
          rw [bodies, List.countP_cons_of_pos hlies, ih hq]
          omega
      · obtain rfl := List.mem_singleton.mp hq
        cases hcall
  | whileLoop opcode arg body ih =>
      rcases List.mem_append.mp hq with hq | hq
      · rcases List.mem_append.mp hq with hq | hq
        · -- the head lies before the body
          obtain rfl := List.mem_singleton.mp hq
          have hpos := opcode.width_pos
          have hout : (body.bodies (start + opcode.width)).countP (liesIn start) = 0 :=
            body.countP_bodies_of_outside (.inl (by omega))
          show loops = loops + (body.bodies (start + opcode.width)).countP (liesIn start)
          rw [hout, Nat.add_zero]
        · exact ih hq
      · obtain rfl := List.mem_singleton.mp hq
        cases hcall

/-! ## §3. What is read off the bytes. -/

/-- The head of the innermost loop around code, if it lies in one. -/
def innermost : Bool → Nat → Option Nat
  | true, head => some head
  | false, _ => none

/-- An instruction that does not jump back. -/
theorem nests_instr {code : Array Instruction} (inner : Option Nat) (loops : Nat)
    {opcode : Opcode} {arg : UInt16} (h : opcode.isJump = true → start < arg.toNat) :
    Nests code inner loops start (start + opcode.width) [⟨.written start opcode arg, loops⟩] := by
  cases hjump : opcode.isJump with
  | false => exact .still inner loops hjump
  | true =>
      refine .single (q := ⟨.written start opcode arg, loops⟩) rfl rfl fun s => .inl ?_
      refine advance_of_lt_target ?_ s
      unfold Instruction.written
      rw [Opcode.operandClass_of_isJump hjump]
      exact h hjump

/-- **Code made of loops counts the loops around its sites.** -/
theorem nests {code : Array Instruction} {b : LoopCode inside} (hproper : b.Proper start)
    (hhead : head ≤ start) (hshort : start + b.width ≤ maxSize)
    (hcode : ∀ q ∈ b.sites loops head start, instructionAt code q.instr.offset = some q.instr) :
    Nests code (innermost inside head) loops start (start + b.width)
      (b.sites loops head start) := by
  have hwidth (op : Opcode) := op.width_pos
  induction b generalizing loops head start with
  | nothing => exact .nil
  | @instr inside opcode arg => exact nests_instr (innermost inside head) loops hproper
  | again opcode =>
      unfold width at hshort
      exact .again loops hproper hhead (by omega)
  | seq first second ihf ihs =>
      unfold width at hshort ⊢
      rw [← Nat.add_assoc] at hshort ⊢
      obtain ⟨hfirst, hsecond⟩ := List.forall_mem_append.mp hcode
      exact (ihf hproper.1 hhead (by omega) hfirst).append
        (ihs hproper.2 (Nat.le_trans hhead (Nat.le_add_right _ _)) hshort hsecond)
  | @forLoop inside body ih =>
      unfold width at hshort ⊢
      simp only [← Nat.add_assoc] at hshort ⊢
      simp only [sites, List.forall_mem_append, List.forall_mem_singleton] at hcode
      obtain ⟨⟨hstart, hbody⟩, -⟩ := hcode
      exact Nests.forLoop (innermost inside head)
        (ih hproper (Nat.le_add_right _ _) (by omega) hbody) rfl rfl hshort
        (isLoopHeadAt_of_forIter hstart)
  | @whileLoop inside opcode arg body ih =>
      obtain ⟨hne, hforward, hproper⟩ := hproper
      unfold width at hshort ⊢
      simp only [← Nat.add_assoc] at hshort ⊢
      simp only [sites, List.forall_mem_append, List.forall_mem_singleton] at hcode
      obtain ⟨⟨hstart, hbody⟩, -⟩ := hcode
      -- the head and the body go back to the head, and it is not that of a for-loop
      have hfirst : Nests code (some start) loops start (start + opcode.width)
          [⟨.written start opcode arg, loops⟩] := nests_instr (some start) loops hforward
      have hinside := hfirst.append (ih hproper (Nat.le_add_right _ _) (by omega) hbody)
      exact Nests.whileLoop _ hinside (isLoopHeadAt_of_ne hstart hne) (Nat.le_refl start) (by omega)

/-- **Loop nesting is recovered exactly.**  Whatever calls an assembler was given, if they come
to a body made of straight code, jumps forward and loops with jumps back to their heads, then
its bytes list that body, and what is read off them for a call is the number of for-loops that
have the call in their body. -/
theorem loopNesting_assembled {name : String} {calls : List AssemblerCall} {c : Code}
    {b : LoopCode false} (hfinish : (after (performAll calls) { name := name }).finish = .ok c)
    (hbody : AssemblyLog.instructions (answer (performAll calls) { name := name }) = b.listing)
    (hproper : b.Proper 0) :
    decode c.bytes = .ok b.listing.toArray ∧ ∀ i ∈ b.listing, i.opcode.isCall = true →
      loopNesting b.listing.toArray i.offset i.offset = b.loopsAround i.offset := by
  obtain ⟨hdecode, hshort⟩ := decode_of_finish hfinish
  rw [hbody] at hdecode hshort
  refine ⟨hdecode, fun i hi hcall => ?_⟩
  obtain ⟨q, hq, rfl⟩ := List.mem_map.mp hi
  have hwidth : b.width ≤ maxSize := by
    rw [← b.widthOf_sites]
    exact hshort
  have hcode : ∀ q ∈ b.sites 0 0 0,
      instructionAt b.listing.toArray q.instr.offset = some q.instr := by
    intro q hq
    exact instructionAt_of_mem hdecode (List.mem_toArray.mpr (List.mem_map_of_mem hq))
  have hnests := nests hproper (Nat.le_refl 0) (by rw [Nat.zero_add]; exact hwidth) hcode
  rw [hnests.loopNesting_eq rfl b.inRow_sites hq, b.loops_of_isCall hq hcall, Nat.zero_add]
  rfl

/-- A for-loop that calls, goes on early, and has in it a loop that calls in its test, which has
in it another for-loop that calls and goes on early; then one more call. -/
def nestedLoops : LoopCode false :=
  .seq (.instr .loadGlobal 0) <| .seq (.instr .getIter 0) <| .seq
    (.forLoop <| .seq (.instr .storeFast 0) <| .seq (.instr .loadGlobal 1) <|
      .seq (.instr .callFunction 0) <| .seq (.again .popJumpIfTrue) <|
      .whileLoop .loadGlobal 1 <| .seq (.instr .callFunction 0) <| .seq (.instr .popJumpIfFalse 42) <|
        .seq (.instr .loadFast 0) <| .seq (.instr .getIter 0) <|
        .forLoop <| .seq (.instr .callFunction 0) (.again .popJumpIfFalse)) <|
    .seq (.instr .loadGlobal 1) <| .seq (.instr .callFunction 0) (.instr .returnValue 0)

/-- Calls that emit it. -/
def nestedCalls : List AssemblerCall :=
  [.createLabel, .createLabel, .createLabel, .createLabel, .createLabel, .createLabel,
    .emit .loadGlobal 0, .emit .getIter 0,
    .bindLabel 0, .emitJump .forIter 1, .emit .storeFast 0,
      .emit .loadGlobal 1, .emit .callFunction 0, .emitJump .popJumpIfTrue 0,
      .bindLabel 2, .emit .loadGlobal 1, .emit .callFunction 0, .emitJump .popJumpIfFalse 3,
        .emit .loadFast 0, .emit .getIter 0,
        .bindLabel 4, .emitJump .forIter 5, .emit .callFunction 0, .emitJump .popJumpIfFalse 4,
          .emitJump .jumpAbsolute 4,
      .bindLabel 5, .emitJump .jumpAbsolute 2,
    .bindLabel 3, .emitJump .jumpAbsolute 0,
    .bindLabel 1, .emit .loadGlobal 1, .emit .callFunction 0, .emit .returnValue 0,
    .name "xs", .name "f", .local "x"]

/-- The calls in it lie in one for-loop, in one, in two and in none. -/
theorem loopNesting_assembled_nested :
    ∃ c code, (after (performAll nestedCalls) { name := "f" }).finish = .ok c
      ∧ decode c.bytes = .ok code
      ∧ loopNesting code 12 12 = 1 ∧ loopNesting code 20 20 = 1
      ∧ loopNesting code 31 31 = 2 ∧ loopNesting code 48 48 = 0 := by
  obtain ⟨c, hfinish⟩ : ∃ c, (after (performAll nestedCalls) { name := "f" }).finish = .ok c :=
    exists_finish rfl (by decide +kernel) (by decide +kernel) (by decide +kernel)
  have hbody : AssemblyLog.instructions (answer (performAll nestedCalls) { name := "f" })
      = nestedLoops.listing := by decide +kernel
  obtain ⟨hdecode, hcalls⟩ := loopNesting_assembled hfinish hbody (by decide)
  have hat (offset : Nat) (h : ⟨offset, .callFunction, 0⟩ ∈ nestedLoops.listing) :
      loopNesting nestedLoops.listing.toArray offset offset = nestedLoops.loopsAround offset :=
    hcalls ⟨offset, .callFunction, 0⟩ h rfl
  exact ⟨c, _, hfinish, hdecode, hat 12 (by decide), hat 20 (by decide), hat 31 (by decide),
    hat 48 (by decide)⟩

end LoopCode

end Resumable
