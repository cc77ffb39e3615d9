/-
  Resumable.Proofs.StructuredBodies
  ─────────────────────────────────
  **BODIES MADE OF LOOPS AND HANDLERS.**

  A structured body is straight code, loops, try statements, raises and returns,
  nested and in sequence.  It tells an assembler what to emit:

      for     iterable  GET_ITER  head: FOR_ITER exit  STORE_FAST  …  JUMP head  exit:
      while   head: test  POP_JUMP exit  …  JUMP head  exit:
      try     SETUP_EXCEPT catch  …  POP_BLOCK  JUMP exit
              catch: POP_TOP  …  POP_EXCEPT  exit:

  and what the stack holds at each of its instructions (`Body.points`): under the
  operands of the code itself the iterators of the loops around it, the saved
  slots of the handlers around it, and operands that were pushed before these were
  entered.

      base  =  locals + loops + 3 · handlers + operands buried under them

  Straight code is all that takes only operands of its own, calls of every shape
  among it (`Straight`), and a body is balanced if loops and try statements end
  with the operands they started with (`Body.Balanced`).

  Main results:
    • `Body.inRow_points`   — the instructions stand in a row,
    • `Body.handlers_points` — the blocks at a point hold the handlers around it.
-/
import Resumable.Proofs.Emission
import Resumable.Proofs.StackEffect

namespace Resumable

/-! ## §1. Straight code. -/

namespace Instruction

/-- The entries that a plain instruction or a call takes. -/
def takes (i : Instruction) : Nat :=
  if i.opcode.isCall then i.callSize else i.pops

/-- The entries it leaves in their place. -/
def gives (i : Instruction) : Nat :=
  if i.opcode.isCall then 1 else i.pushes

end Instruction

/-- What an assembler can be told between two instructions. -/
inductive Note where
  | constant (c : Constant)
  | name (name : String)
  | «local» (name : String)
  | line (line : Nat)

/-- A step of straight code. -/
inductive Op where
  | emit (opcode : Opcode) (arg : UInt16)
  | note (note : Note)

namespace Op

/-- The operands after straight code, of those before it. -/
def depthAfter : List Op → Nat → Nat
  | [], depth => depth
  | .note _ :: ops, depth => depthAfter ops depth
  | .emit opcode arg :: ops, depth =>
      depthAfter ops (depth - (Instruction.written 0 opcode arg).takes
        + (Instruction.written 0 opcode arg).gives)

/-- Each instruction is plain or a call, and takes no more operands than there are. -/
def Straight : List Op → Nat → Prop
  | [], _ => True
  | .note _ :: ops, depth => Straight ops depth
  | .emit opcode arg :: ops, depth =>
      (opcode.isPlain || opcode.isCall) = true ∧ (Instruction.written 0 opcode arg).takes ≤ depth
        ∧ Straight ops (depth - (Instruction.written 0 opcode arg).takes
          + (Instruction.written 0 opcode arg).gives)

/-- Whether code is straight can be computed. -/
instance decidableStraight : (ops : List Op) → (depth : Nat) → Decidable (Straight ops depth)
  | [], _ => .isTrue trivial
  | .note _ :: ops, depth => decidableStraight ops depth
  | .emit opcode arg :: ops, depth =>
      have := decidableStraight ops (depth - (Instruction.written 0 opcode arg).takes
        + (Instruction.written 0 opcode arg).gives)
      inferInstanceAs (Decidable (_ = true ∧ _ ≤ depth ∧ _))

/-- The number of bytes of straight code. -/
def width : List Op → Nat
  | [] => 0
  | .note _ :: ops => width ops
  | .emit opcode _ :: ops => opcode.width + width ops

end Op

/-! ## §2. Bodies. -/

/-- A structured body. -/
inductive Body where
  | straight (ops : List Op)
  | seq (first second : Body)
  /-- Raise the value that some code leaves on top. -/
  | raises (ops : List Op)
  /-- Return it. -/
  | returns (ops : List Op)
  /-- Loop over the value that some code leaves on top; the items go into a local, or
  are dropped. -/
  | forLoop (iterable : List Op) (target : Option UInt16) (body : Body)
  /-- Leave the loop when the value that the test leaves on top counts as told. -/
  | whileLoop (test : List Op) (leaves : Bool) (body : Body)
  | forever (body : Body)
  | tryExcept (body handler : Body)

/-- What a for-loop does with an item. -/
def Op.ofTarget : Option UInt16 → Op
  | some slot => .emit .storeFast slot
  | none => .emit .popTop 0

/-- The jump out of a while-loop. -/
def Opcode.leaving (leaves : Bool) : Opcode :=
  if leaves then .popJumpIfTrue else .popJumpIfFalse

namespace Body

/-- The operands after a body, of those before it. -/
def depthAfter : Body → Nat → Nat
  | .straight ops, depth => Op.depthAfter ops depth
  | .seq first second, depth => second.depthAfter (first.depthAfter depth)
  | .raises _, depth => depth
  | .returns _, depth => depth
  | .forLoop iterable _ _, depth => Op.depthAfter iterable depth - 1
  | .whileLoop test _ _, depth => Op.depthAfter test depth - 1
  | .forever _, depth => depth
  | .tryExcept _ _, depth => depth

/-- Its code is straight, and loops and try statements end with the operands they
started with.  In a for-loop, a try body and a handler those before it are buried. -/
def Balanced : Body → Nat → Prop
  | .straight ops, depth => Op.Straight ops depth
  | .seq first second, depth => first.Balanced depth ∧ second.Balanced (first.depthAfter depth)
  | .raises ops, depth => Op.Straight ops depth ∧ 0 < Op.depthAfter ops depth
  | .returns ops, depth => Op.Straight ops depth ∧ 0 < Op.depthAfter ops depth
  | .forLoop iterable _ body, depth =>
      Op.Straight iterable depth ∧ 0 < Op.depthAfter iterable depth
        ∧ body.Balanced 0 ∧ body.depthAfter 0 = 0
  | .whileLoop test _ body, depth =>
      Op.Straight test depth ∧ 0 < Op.depthAfter test depth
        ∧ body.Balanced (Op.depthAfter test depth - 1)
        ∧ body.depthAfter (Op.depthAfter test depth - 1) = depth
  | .forever body, depth => body.Balanced depth ∧ body.depthAfter depth = depth
  | .tryExcept body handler, _ =>
      (body.Balanced 0 ∧ body.depthAfter 0 = 0) ∧ handler.Balanced 0 ∧ handler.depthAfter 0 = 0

/-- Whether a body is balanced can be computed. -/
instance decidableBalanced : (b : Body) → (depth : Nat) → Decidable (b.Balanced depth)
  | .straight ops, depth => inferInstanceAs (Decidable (Op.Straight ops depth))
  | .seq first second, depth =>
      have := decidableBalanced first depth
      have := decidableBalanced second (first.depthAfter depth)
      inferInstanceAs (Decidable (_ ∧ _))
  | .raises ops, depth => inferInstanceAs (Decidable (Op.Straight ops depth ∧ _ < _))
  | .returns ops, depth => inferInstanceAs (Decidable (Op.Straight ops depth ∧ _ < _))
  | .forLoop iterable _ body, depth =>
      have := decidableBalanced body 0
      inferInstanceAs (Decidable (Op.Straight iterable depth ∧ _ < _ ∧ body.Balanced 0 ∧ _ = _))
  | .whileLoop test _ body, depth =>
      have := decidableBalanced body (Op.depthAfter test depth - 1)
      inferInstanceAs (Decidable (Op.Straight test depth ∧ _ < _ ∧ body.Balanced _ ∧ _ = _))
  | .forever body, depth =>
      have := decidableBalanced body depth
      inferInstanceAs (Decidable (body.Balanced depth ∧ _ = _))
  | .tryExcept body handler, _ =>
      have := decidableBalanced body 0
      have := decidableBalanced handler 0
      inferInstanceAs (Decidable ((body.Balanced 0 ∧ _ = _) ∧ handler.Balanced 0 ∧ _ = _))

/-- The number of bytes of a body. -/
def width : Body → Nat
  | .straight ops => Op.width ops
  | .seq first second => first.width + second.width
  | .raises ops => Op.width ops + Opcode.raise.width
  | .returns ops => Op.width ops + Opcode.returnValue.width
  | .forLoop iterable target body =>
      Op.width (iterable ++ [.emit .getIter 0]) + Opcode.forIter.width
        + Op.width [.ofTarget target] + body.width + Opcode.jumpAbsolute.width
  | .whileLoop test leaves body =>
      Op.width test + (Opcode.leaving leaves).width + body.width + Opcode.jumpAbsolute.width
  | .forever body => body.width + Opcode.jumpAbsolute.width
  | .tryExcept body handler =>
      Opcode.setupExcept.width + body.width + Opcode.popBlock.width + Opcode.jumpAbsolute.width
        + Op.width [.emit .popTop 0] + handler.width + Opcode.popExcept.width

end Body

/-! ## §3. What the stack holds. -/

/-- What is around some code of a body. -/
structure Place where
  /-- The locals of the body. -/
  nlocals : Nat
  /-- The for-loops around. -/
  loops : Nat
  /-- The handlers around. -/
  handlers : Nat
  /-- The operands pushed before these were entered. -/
  buried : Nat
  /-- The blocks, innermost first. -/
  blocks : List Block

namespace Place

/-- Around a whole body there is nothing. -/
def outside (nlocals : Nat) : Place :=
  ⟨nlocals, 0, 0, 0, []⟩

/-- The slots below the operands of the code. -/
def base (p : Place) : Nat :=
  p.nlocals + p.loops + savedSlots * p.handlers + p.buried

/-- The body of a for-loop that buries `depth` operands. -/
def inLoop (p : Place) (depth : Nat) : Place :=
  { p with loops := p.loops + 1, buried := p.buried + depth }

/-- A try body with a handler at `catches`. -/
def inTry (p : Place) (depth catches : Nat) : Place :=
  { p with buried := p.buried + depth, blocks := .guarded (p.base + depth) catches :: p.blocks }

/-- Its handler. -/
def inHandler (p : Place) (depth : Nat) : Place :=
  { p with
    handlers := p.handlers + 1
    buried := p.buried + depth
    blocks := .handling (p.base + depth) :: p.blocks }

variable (p : Place) (depth catches : Nat)

@[simp] theorem nlocals_inLoop : (p.inLoop depth).nlocals = p.nlocals := rfl
@[simp] theorem nlocals_inTry : (p.inTry depth catches).nlocals = p.nlocals := rfl
@[simp] theorem nlocals_inHandler : (p.inHandler depth).nlocals = p.nlocals := rfl
@[simp] theorem blocks_inLoop : (p.inLoop depth).blocks = p.blocks := rfl

@[simp] theorem blocks_inTry :
    (p.inTry depth catches).blocks = .guarded (p.base + depth) catches :: p.blocks := rfl

@[simp] theorem blocks_inHandler :
    (p.inHandler depth).blocks = .handling (p.base + depth) :: p.blocks := rfl

/-- In a for-loop the iterator comes on top of what is buried. -/
theorem base_inLoop : (p.inLoop depth).base = p.base + depth + 1 := by
  simp only [base, inLoop]
  omega

/-- A try body starts at the height where its block was opened. -/
theorem base_inTry : (p.inTry depth catches).base = p.base + depth := by
  simp only [base, inTry]
  omega

/-- A handler has the saved slots under it. -/
theorem base_inHandler : (p.inHandler depth).base = p.base + depth + savedSlots := by
  simp only [base, inHandler, savedSlots]
  omega

/-- The locals are at the bottom. -/
theorem nlocals_le_base : p.nlocals ≤ p.base := by
  unfold base
  omega

end Place

/-- An instruction of a body, and what the stack holds before it. -/
structure Point where
  instr : Instruction
  place : Place
  /-- The operands of the code above what is around it. -/
  depth : Nat

namespace Point

/-- The slots of a frame at the point. -/
def size (q : Point) : Nat :=
  q.place.base + q.depth

/-- The operands on the stack, buried or not. -/
def operands (q : Point) : Nat :=
  q.place.buried + q.depth

/-- The height of a point, counted as call sites count it. -/
theorem size_eq (q : Point) :
    q.size = q.place.nlocals + q.place.loops + savedSlots * q.place.handlers + q.operands := by
  simp only [size, operands, Place.base]
  omega

end Point

/-- The points of straight code. -/
def Op.points (p : Place) : List Op → Nat → Nat → List Point
  | [], _, _ => []
  | .note _ :: ops, depth, start => Op.points p ops depth start
  | .emit opcode arg :: ops, depth, start =>
      ⟨.written start opcode arg, p, depth⟩ ::
        Op.points p ops (depth - (Instruction.written 0 opcode arg).takes
          + (Instruction.written 0 opcode arg).gives) (start + opcode.width)

namespace Body

/-- The points of a body with `depth` operands on top, from an offset on. -/
def points : Body → Place → Nat → Nat → List Point
  | .straight ops, p, depth, start => Op.points p ops depth start
  | .seq first second, p, depth, start =>
      first.points p depth start
        ++ second.points p (first.depthAfter depth) (start + first.width)
  | .raises ops, p, depth, start =>
      Op.points p ops depth start
        ++ [⟨.written (start + Op.width ops) .raise 0, p, Op.depthAfter ops depth⟩]
  | .returns ops, p, depth, start =>
      Op.points p ops depth start
        ++ [⟨.written (start + Op.width ops) .returnValue 0, p, Op.depthAfter ops depth⟩]
  | .forLoop iterable target body, p, depth, start =>
      -- at the head the iterator is an operand still; in the loop it counts as a slot of its own
      let outer := Op.depthAfter iterable depth - 1
      let head := start + Op.width (iterable ++ [.emit .getIter 0])
      let item := head + Opcode.forIter.width
      let inner := item + Op.width [.ofTarget target]
      let back := inner + body.width
      let exit := back + Opcode.jumpAbsolute.width
      Op.points p (iterable ++ [.emit .getIter 0]) depth start
        ++ [⟨.jumping head .forIter exit, p, outer + 1⟩]
        ++ Op.points (p.inLoop outer) [.ofTarget target] 1 item
        ++ body.points (p.inLoop outer) 0 inner
        ++ [⟨.jumping back .jumpAbsolute head, p.inLoop outer, 0⟩]
  | .whileLoop test leaves body, p, depth, start =>
      -- no iterator is kept, so the operands of the test stay those of the body
      let outer := Op.depthAfter test depth - 1
      let out := start + Op.width test
      let inner := out + (Opcode.leaving leaves).width
      let back := inner + body.width
      let exit := back + Opcode.jumpAbsolute.width
      Op.points p test depth start
        ++ [⟨.jumping out (.leaving leaves) exit, p, outer + 1⟩]
        ++ body.points p outer inner
        ++ [⟨.jumping back .jumpAbsolute start, p, depth⟩]
  | .forever body, p, depth, start =>
      body.points p depth start
        ++ [⟨.jumping (start + body.width) .jumpAbsolute start, p, depth⟩]
  | .tryExcept body handler, p, depth, start =>
      -- the handler starts with the exception on top of the three slots that save another
      let inner := start + Opcode.setupExcept.width
      let closes := inner + body.width
      let skips := closes + Opcode.popBlock.width
      let catches := skips + Opcode.jumpAbsolute.width
      let handles := catches + Op.width [.emit .popTop 0]
      let leaves := handles + handler.width
      let exit := leaves + Opcode.popExcept.width
      [⟨.jumping start .setupExcept catches, p, depth⟩]
        ++ body.points (p.inTry depth catches) 0 inner
        ++ [⟨.written closes .popBlock 0, p.inTry depth catches, 0⟩,
          ⟨.jumping skips .jumpAbsolute exit, p, depth⟩]
        ++ Op.points (p.inHandler depth) [.emit .popTop 0] 1 catches
        ++ handler.points (p.inHandler depth) 0 handles
        ++ [⟨.written leaves .popExcept 0, p.inHandler depth, 0⟩]

/-- The instructions of a body from an offset on. -/
def listing (b : Body) (p : Place) (depth start : Nat) : List Instruction :=
  (b.points p depth start).map Point.instr

end Body

/-! ## §4. Instructions in a row. -/

section Rows

variable {p : Place} {depth start : Nat}

/-- Widths add up. -/
@[simp] theorem Op.width_append (ops more : List Op) :
    Op.width (ops ++ more) = Op.width ops + Op.width more := by
  induction ops with
  | nil => simp [Op.width]
  | cons op ops ih =>
      cases op with
      | note n => exact ih
      | emit opcode arg =>
          show opcode.width + Op.width (ops ++ more) = opcode.width + Op.width ops + Op.width more
          omega

/-- The instructions of straight code are as wide as it is; notes have no width. -/
@[simp] theorem Op.widthOf_points (ops : List Op) :
    widthOf ((Op.points p ops depth start).map Point.instr) = Op.width ops := by
  induction ops generalizing depth start with
  | nil => rfl
  | cons op ops ih =>
      cases op with
      | note n => exact ih
      | emit opcode arg => simp [Op.points, Op.width, ih]

/-- Each starts where the one before it ends. -/
@[simp] theorem Op.inRow_points (ops : List Op) :
    InRow start ((Op.points p ops depth start).map Point.instr) := by
  induction ops generalizing depth start with
  | nil => trivial
  | cons op ops ih =>
      cases op with
      | note n => exact ih
      | emit opcode arg => exact ⟨rfl, ih⟩

namespace Body

/-- The instructions of a body are as wide as it is. -/
@[simp] theorem widthOf_points (b : Body) :
    widthOf ((b.points p depth start).map Point.instr) = b.width := by
  induction b generalizing p depth start with
  | _ => simp_all [points, width, Nat.add_assoc]

/-- **The instructions of a body stand in a row.** -/
@[simp] theorem inRow_points (b : Body) :
    InRow start ((b.points p depth start).map Point.instr) := by
  induction b generalizing p depth start with
  | _ => simp_all [points, inRow_append, InRow, Nat.add_assoc]

end Body

end Rows

/-! ## §5. Straight code in sequence. -/

section Sequences

variable {depth : Nat}

/-- Operands after two pieces of straight code. -/
theorem Op.depthAfter_append (ops more : List Op) (depth : Nat) :
    Op.depthAfter (ops ++ more) depth = Op.depthAfter more (Op.depthAfter ops depth) := by
  induction ops generalizing depth with
  | nil => rfl
  | cons op ops ih => cases op <;> exact ih _

/-- Two pieces are straight if each is, the second with what the first leaves. -/
theorem Op.straight_append {ops more : List Op} :
    Op.Straight (ops ++ more) depth
      ↔ Op.Straight ops depth ∧ Op.Straight more (Op.depthAfter ops depth) := by
  induction ops generalizing depth with
  | nil => simp [Op.Straight, Op.depthAfter]
  | cons op ops ih =>
      cases op with
      | note n => exact ih
      | emit opcode arg => simp only [List.cons_append, Op.Straight, Op.depthAfter, ih, and_assoc]

/-- The iterator takes the place of the value that is looped over. -/
theorem Op.straight_iterator {iterable : List Op} (h : Op.Straight iterable depth)
    (hpos : 0 < Op.depthAfter iterable depth) :
    Op.Straight (iterable ++ [.emit .getIter 0]) depth
      ∧ Op.depthAfter (iterable ++ [.emit .getIter 0]) depth = Op.depthAfter iterable depth - 1 + 1 := by
  refine ⟨Op.straight_append.mpr ⟨h, rfl, ?_, trivial⟩, Op.depthAfter_append ..⟩
  exact hpos

/-- A handler first drops the exception it was entered with. -/
theorem Op.straight_popTop :
    Op.Straight [.emit .popTop 0] 1 ∧ Op.depthAfter [.emit .popTop 0] 1 = 0 :=
  ⟨⟨rfl, Nat.le_refl 1, trivial⟩, rfl⟩

/-- An item goes into its local, or is dropped. -/
theorem Op.straight_ofTarget (target : Option UInt16) :
    Op.Straight [.ofTarget target] 1 ∧ Op.depthAfter [.ofTarget target] 1 = 0 := by
  cases target with
  | some slot => exact ⟨⟨rfl, Nat.le_refl 1, trivial⟩, rfl⟩
  | none => exact Op.straight_popTop

end Sequences

/-! ## §6. What is around a point. -/

section Places

variable {p : Place} {depth start : Nat}

/-- Straight code does not change what is around it. -/
theorem Op.place_points {ops : List Op} : ∀ q ∈ Op.points p ops depth start, q.place = p := by
  induction ops generalizing depth start with
  | nil =>
      intro q hq
      cases hq
  | cons op ops ih =>
      cases op with
      | note n => exact ih
      | emit opcode arg => exact List.forall_mem_cons.mpr ⟨rfl, ih⟩

/-- What entering loops, try bodies and handlers keeps holds around every point. -/
theorem Body.place_points {P : Place → Prop} (hloop : ∀ {p : Place} (depth : Nat), P p → P (p.inLoop depth))
    (htry : ∀ {p : Place} (depth catches : Nat), P p → P (p.inTry depth catches))
    (hhandler : ∀ {p : Place} (depth : Nat), P p → P (p.inHandler depth)) (b : Body) (hp : P p) :
    ∀ q ∈ b.points p depth start, P q.place := by
  have hops {p : Place} {depth start : Nat} {ops : List Op} (hp : P p) :
      ∀ q ∈ Op.points p ops depth start, P q.place := fun q hq => Op.place_points q hq ▸ hp
  induction b generalizing p depth start with
  | straight ops => exact hops hp
  | seq first second ihf ihs => exact List.forall_mem_append.mpr ⟨ihf hp, ihs hp⟩
  | raises ops => exact List.forall_mem_append.mpr ⟨hops hp, List.forall_mem_singleton.mpr hp⟩
  | returns ops => exact List.forall_mem_append.mpr ⟨hops hp, List.forall_mem_singleton.mpr hp⟩
  | forLoop iterable target body ih =>
      have hinner : P (p.inLoop (Op.depthAfter iterable depth - 1)) := hloop _ hp
      simp only [points, List.forall_mem_append, List.forall_mem_singleton]
      exact ⟨⟨⟨⟨hops hp, hp⟩, hops hinner⟩, ih hinner⟩, hinner⟩
  | whileLoop test leaves body ih =>
      simp only [points, List.forall_mem_append, List.forall_mem_singleton]
      exact ⟨⟨⟨hops hp, hp⟩, ih hp⟩, hp⟩
  | forever body ih => exact List.forall_mem_append.mpr ⟨ih hp, List.forall_mem_singleton.mpr hp⟩
  | tryExcept body handler ihb ihh =>
      have hhandler := hhandler depth hp
      simp only [points, List.forall_mem_append, List.forall_mem_singleton, List.forall_mem_cons]
      exact ⟨⟨⟨⟨⟨hp, ihb (htry _ _ hp)⟩, htry _ _ hp, hp⟩, hops hhandler⟩, ihh hhandler⟩, hhandler⟩

/-- The locals are the same at every point. -/
theorem Body.nlocals_points (b : Body) : ∀ q ∈ b.points p depth start, q.place.nlocals = p.nlocals :=
  b.place_points (P := fun place => place.nlocals = p.nlocals) (fun _ h => h) (fun _ _ h => h)
    (fun _ h => h) rfl

/-- **The blocks at a point hold the handlers around it**, and no others. -/
theorem Body.handlers_points (b : Body) (h : p.blocks.countP Block.isHandling = p.handlers) :
    ∀ q ∈ b.points p depth start, q.place.blocks.countP Block.isHandling = q.place.handlers := by
  refine b.place_points (P := fun place => place.blocks.countP Block.isHandling = place.handlers)
    (fun _ h => h) (fun depth catches h => ?_) (fun depth h => ?_) h
  · rw [Place.blocks_inTry, List.countP_cons_of_neg (by simp [Block.isHandling])]
    exact h
  · rw [Place.blocks_inHandler, List.countP_cons_of_pos rfl, h]
    rfl

/-- No instruction of straight code takes what is buried. -/
theorem Op.takes_points {ops : List Op} (h : Straight ops depth) :
    ∀ q ∈ Op.points p ops depth start, q.instr.takes ≤ q.depth := by
  induction ops generalizing depth start with
  | nil =>
      intro q hq
      cases hq
  | cons op ops ih =>
      cases op with
      | note n => exact ih h
      | emit opcode arg =>
          obtain ⟨-, htakes, hrest⟩ := h
          exact List.forall_mem_cons.mpr ⟨htakes, ih hrest⟩

/-- A call takes operands of the code it stands in. -/
theorem Body.callSize_points {b : Body} (hbalanced : b.Balanced depth) :
    ∀ q ∈ b.points p depth start, q.instr.opcode.isCall = true → q.instr.callSize ≤ q.depth := by
  have hops {p : Place} {depth start : Nat} {ops : List Op} (h : Op.Straight ops depth) :
      ∀ q ∈ Op.points p ops depth start, q.instr.opcode.isCall = true → q.instr.callSize ≤ q.depth := by
    intro q hq hcall
    have htakes := Op.takes_points h q hq
    unfold Instruction.takes at htakes
    rw [if_pos hcall] at htakes
    exact htakes
  -- the instructions that bodies add to their straight code do not call
  have hnot {i : Instruction} {n : Nat} (h : i.opcode.isCall = false) :
      i.opcode.isCall = true → i.callSize ≤ n := fun hcall => absurd (h.symm.trans hcall) Bool.false_ne_true
  induction b generalizing p depth start with
  | straight ops => exact hops hbalanced
  | seq first second ihf ihs =>
      exact List.forall_mem_append.mpr ⟨ihf hbalanced.1, ihs hbalanced.2⟩
  | raises ops =>
      exact List.forall_mem_append.mpr ⟨hops hbalanced.1, List.forall_mem_singleton.mpr (hnot rfl)⟩
  | returns ops =>
      exact List.forall_mem_append.mpr ⟨hops hbalanced.1, List.forall_mem_singleton.mpr (hnot rfl)⟩
  | forLoop iterable target body ih =>
      obtain ⟨hstraight, hpos, hbody, -⟩ := hbalanced
      simp only [points, List.forall_mem_append, List.forall_mem_singleton]
      refine ⟨⟨⟨⟨hops (Op.straight_iterator hstraight hpos).1, hnot rfl⟩, ?_⟩, ih hbody⟩, hnot rfl⟩
      exact hops (Op.straight_ofTarget target).1
  | whileLoop test leaves body ih =>
      obtain ⟨hstraight, -, hbody, -⟩ := hbalanced
      simp only [points, List.forall_mem_append, List.forall_mem_singleton]
      exact ⟨⟨⟨hops hstraight, hnot (by cases leaves <;> rfl)⟩, ih hbody⟩, hnot rfl⟩
  | forever body ih =>
      exact List.forall_mem_append.mpr ⟨ih hbalanced.1, List.forall_mem_singleton.mpr (hnot rfl)⟩
  | tryExcept body handler ihb ihh =>
      obtain ⟨⟨hbody, -⟩, hhandler, -⟩ := hbalanced
      simp only [points, List.forall_mem_append, List.forall_mem_singleton, List.forall_mem_cons]
      exact ⟨⟨⟨⟨⟨hnot rfl, ihb hbody⟩, hnot rfl, hnot rfl⟩, hops Op.straight_popTop.1⟩, ihh hhandler⟩,
        hnot rfl⟩

end Places

end Resumable
