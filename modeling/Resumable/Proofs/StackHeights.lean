/-
  Resumable.Proofs.StackHeights
  ─────────────────────────────
  **A STRUCTURED BODY KEEPS ITS STACK.**

  Wherever a frame of a balanced body stands at one of its points, with the blocks
  and the slots of that point, its instructions lead it to another point, past the
  end, or out of the body:

      straight code     to the next instruction, with the operands it leaves
      heads and jumps   around a loop, whose iterator stays where it is
      an exception      to the handler of the innermost try body around, cut back
                        to what is around it, whatever was on the stack

  The places a frame may stand at are kept abstract (`Spots`), so that a part of a
  body needs to know of the whole only where its own end and its exceptions lead.

  Main results:
    • `Body.entry`        — the start of a body is one of its points, or its end,
    • `Body.leads_points` — the points of a body lead to its points and its end.
-/
import Resumable.Proofs.StructuredBodies

namespace Resumable

/-- Offsets, blocks and slot counts that a frame may have. -/
abbrev Spots := Nat → List Block → Nat → Prop

variable {K : Spots} {p : Place} {depth start offset target : Nat}

/-- A point is one of the spots. -/
def Point.In (K : Spots) (q : Point) : Prop :=
  K q.instr.offset q.place.blocks q.size

/-- The instruction at a point leads to the spots. -/
def Point.Leads (K : Spots) (q : Point) : Prop :=
  ∀ next blocks slots,
    q.instr.Goes q.place.nlocals q.place.blocks q.size next blocks slots → K next blocks slots

/-- So does every exception raised at a place, whatever is on top. -/
def Place.Catches (K : Spots) (p : Place) : Prop :=
  ∀ kept next blocks slots,
    p.base ≤ kept → Unwinds p.nlocals p.blocks kept next blocks slots → K next blocks slots

/-! ## §1. Exceptions. -/

namespace Place.Catches

/-- A for-loop catches nothing. -/
theorem inLoop (h : p.Catches K) (depth : Nat) : (p.inLoop depth).Catches K := by
  intro kept next blocks slots hkept hunwinds
  rw [base_inLoop] at hkept
  exact h kept next blocks slots (by omega) hunwinds

/-- A try body has its handler. -/
theorem inTry {catches : Nat}
    (h : K catches (.handling (p.base + depth) :: p.blocks) (p.base + depth + 4)) :
    (p.inTry depth catches).Catches K := by
  intro kept next blocks slots hkept hunwinds
  rw [base_inTry] at hkept
  have hlocals := p.nlocals_le_base
  rw [blocks_inTry] at hunwinds
  cases hunwinds with
  | enter =>
      have hlevel : min kept (max (p.base + depth) (p.inTry depth catches).nlocals)
          = p.base + depth := by
        rw [nlocals_inTry]
        omega
      rw [hlevel]
      exact h

/-- A handler is left on the way, and with it what it saved. -/
theorem inHandler (h : p.Catches K) (depth : Nat) : (p.inHandler depth).Catches K := by
  intro kept next blocks slots hkept hunwinds
  rw [base_inHandler] at hkept
  unfold savedSlots at hkept
  rw [blocks_inHandler] at hunwinds
  cases hunwinds with
  | @leave level size kept' next slots rest blocks hsaved hrest =>
      exact h kept' next blocks slots (by omega) hrest

end Place.Catches

/-! ## §2. Instructions. -/

section Instructions

variable {i : Instruction} {nlocals size next slots : Nat} {blocks blocks' : List Block}

/-- Code that is straight goes on with the next instruction, or raises an exception with
no less on the stack than it does not take. -/
theorem goes_straight (h : (i.opcode.isPlain || i.opcode.isCall) = true)
    (hgoes : i.Goes nlocals blocks size next blocks' slots) :
    (next = i.next ∧ blocks' = blocks ∧ slots + i.takes = size + i.gives)
      ∨ ∃ kept, size ≤ kept + i.takes ∧ Unwinds nlocals blocks kept next blocks' slots := by
  -- every other way to go on belongs to an operation that straight code does not have
  have hnot {op : Opcode} (hop : i.opcode = op) (hplain : op.isPlain = false)
      (hcall : op.isCall = false) : False := by
    rw [hop, hplain, hcall] at h
    cases h
  cases hgoes with
  | plain hplain hslots =>
      have hcall : i.opcode.isCall = false := by
        revert hplain
        cases i.opcode <;> simp [Opcode.isPlain, Opcode.isCall]
      left
      unfold Instruction.takes Instruction.gives
      rw [hcall]
      exact ⟨rfl, rfl, hslots⟩
  | called hcall hslots =>
      left
      unfold Instruction.takes Instruction.gives
      rw [if_pos hcall, if_pos hcall]
      exact ⟨rfl, rfl, hslots⟩
  | @caught kept next slots handlers hkept hunwinds =>
      refine .inr ⟨kept, ?_, hunwinds⟩
      unfold Instruction.takes
      by_cases hcall : i.opcode.isCall = true
      · -- a call that raises has taken nothing
        have hpops : i.pops = 0 := by
          unfold Instruction.pops
          revert hcall
          cases i.opcode <;> simp [Opcode.isCall]
        rw [if_pos hcall]
        omega
      · rw [if_neg hcall]
        exact hkept
  | jump hop => exact (hnot hop rfl rfl).elim
  | branch hop => rcases hop with hop | hop <;> exact (hnot hop rfl rfl).elim
  | item hop => exact (hnot hop rfl rfl).elim
  | exhausted hop => exact (hnot hop rfl rfl).elim
  | opens hop => exact (hnot hop rfl rfl).elim
  | closes hop => exact (hnot hop rfl rfl).elim
  | leaves hop => exact (hnot hop rfl rfl).elim

end Instructions

namespace Point

open Instruction (written jumping)

/-- What is taken and left depends on the operation and its operand alone. -/
theorem leads_straight {opcode : Opcode} {arg : UInt16}
    (hstraight : (opcode.isPlain || opcode.isCall) = true) (htakes : (written 0 opcode arg).takes ≤ depth)
    (hnext : K (start + opcode.width) p.blocks
      (p.base + (depth - (written 0 opcode arg).takes + (written 0 opcode arg).gives)))
    (hcatch : p.Catches K) : Leads K ⟨written start opcode arg, p, depth⟩ := by
  intro next blocks slots hgoes
  have htake : (written start opcode arg).takes = (written 0 opcode arg).takes := rfl
  have hgive : (written start opcode arg).gives = (written 0 opcode arg).gives := rfl
  rcases goes_straight hstraight hgoes with ⟨rfl, rfl, hslots⟩ | ⟨kept, hkept, hunwinds⟩
  · rw [htake, hgive] at hslots
    have hsize : slots
        = p.base + (depth - (written 0 opcode arg).takes + (written 0 opcode arg).gives) := by
      simp only [size] at hslots
      omega
    rw [hsize]
    exact hnext
  · rw [htake] at hkept
    simp only [size] at hkept
    exact hcatch kept next blocks slots (by omega) hunwinds

/-- An exception that the instruction raises is caught. -/
theorem caught {q : Point} {kept next slots : Nat} {blocks : List Block} (hcatch : q.place.Catches K)
    (hpops : q.instr.pops ≤ q.depth) (hkept : q.size ≤ kept + q.instr.pops)
    (hunwinds : Unwinds q.place.nlocals q.place.blocks kept next blocks slots) : K next blocks slots := by
  refine hcatch kept next blocks slots ?_ hunwinds
  unfold size at hkept
  omega

theorem leads_jump (htarget : target ≤ Assembler.maxSize) (hjump : K target p.blocks (p.base + depth))
    (hcatch : p.Catches K) : Leads K ⟨jumping offset .jumpAbsolute target, p, depth⟩ := by
  intro next blocks slots hgoes
  cases hgoes with
  | jump =>
      show K target.toUInt16.toNat _ _
      rw [toNat_of_le htarget]
      exact hjump
  | caught hkept hunwinds => exact caught hcatch (Nat.zero_le _) hkept hunwinds
  | plain h | item h | exhausted h | opens h | closes h | leaves h | called h => cases h
  | branch h => rcases h with h | h <;> cases h

theorem leads_leaving {leaves : Bool} (htarget : target ≤ Assembler.maxSize)
    (hnext : K (offset + (Opcode.leaving leaves).width) p.blocks (p.base + depth))
    (hjump : K target p.blocks (p.base + depth)) (hcatch : p.Catches K) :
    Leads K ⟨jumping offset (.leaving leaves) target, p, depth + 1⟩ := by
  have hpops : (jumping offset (.leaving leaves) target).pops = 1 := by
    cases leaves <;> rfl
  have hnot {op : Opcode} (h : Opcode.leaving leaves = op) (hfalse : op ≠ .popJumpIfTrue)
      (htrue : op ≠ .popJumpIfFalse) : False := by
    cases leaves with
    | true => exact hfalse h.symm
    | false => exact htrue h.symm
  intro next blocks slots hgoes
  cases hgoes with
  | branch _ hnexts hslots =>
      have hsize : slots = p.base + depth := by
        simp only [size] at hslots
        omega
      rw [hsize]
      rcases hnexts with rfl | rfl
      · exact hnext
      · show K target.toUInt16.toNat _ _
        rw [toNat_of_le htarget]
        exact hjump
  | caught hkept hunwinds =>
      refine caught hcatch ?_ hkept hunwinds
      rw [hpops]
      exact Nat.le_add_left 1 depth
  | plain h => cases leaves <;> cases h
  | called h => cases leaves <;> cases h
  | jump h | item h | exhausted h | opens h | closes h | leaves h =>
      exact (hnot h (by decide) (by decide)).elim

theorem leads_forIter (htarget : target ≤ Assembler.maxSize)
    (hnext : K (offset + Opcode.forIter.width) p.blocks (p.base + depth + 2))
    (hexit : K target p.blocks (p.base + depth)) (hcatch : p.Catches K) :
    Leads K ⟨jumping offset .forIter target, p, depth + 1⟩ := by
  intro next blocks slots hgoes
  cases hgoes with
  | item => exact hnext
  | exhausted _ hslots =>
      have hsize : slots = p.base + depth := by
        simp only [size] at hslots
        omega
      show K target.toUInt16.toNat _ _
      rw [toNat_of_le htarget, hsize]
      exact hexit
  | caught hkept hunwinds => exact caught hcatch (Nat.zero_le _) hkept hunwinds
  | plain h | jump h | opens h | closes h | leaves h | called h => cases h
  | branch h => rcases h with h | h <;> cases h

theorem leads_setupExcept (htarget : target ≤ Assembler.maxSize)
    (hnext : K (offset + Opcode.setupExcept.width) (.guarded (p.base + depth) target :: p.blocks)
      (p.base + depth)) (hcatch : p.Catches K) :
    Leads K ⟨jumping offset .setupExcept target, p, depth⟩ := by
  intro next blocks slots hgoes
  cases hgoes with
  | opens =>
      show K _ (.guarded _ target.toUInt16.toNat :: _) _
      rw [toNat_of_le htarget]
      exact hnext
  | caught hkept hunwinds => exact caught hcatch (Nat.zero_le _) hkept hunwinds
  | plain h | jump h | item h | exhausted h | closes h | leaves h | called h => cases h
  | branch h => rcases h with h | h <;> cases h

theorem leads_popBlock {catches : Nat}
    (hnext : K (offset + Opcode.popBlock.width) p.blocks (p.base + depth))
    (hcatch : (p.inTry depth catches).Catches K) :
    Leads K ⟨written offset .popBlock 0, p.inTry depth catches, 0⟩ := by
  intro next blocks slots hgoes
  cases hgoes with
  | closes _ hblocks =>
      obtain ⟨-, rfl⟩ := List.cons.inj hblocks
      show K _ _ ((p.inTry depth catches).base + 0)
      rw [Place.base_inTry]
      exact hnext
  | caught hkept hunwinds => exact caught hcatch (Nat.zero_le _) hkept hunwinds
  | plain h | jump h | item h | exhausted h | opens h | leaves h | called h => cases h
  | branch h => rcases h with h | h <;> cases h

theorem leads_popExcept (hnext : K (offset + Opcode.popExcept.width) p.blocks (p.base + depth))
    (hcatch : (p.inHandler depth).Catches K) :
    Leads K ⟨written offset .popExcept 0, p.inHandler depth, 0⟩ := by
  have hlocals := p.nlocals_le_base
  intro next blocks slots hgoes
  cases hgoes with
  | leaves _ hblocks hsaved =>
      obtain ⟨hblock, rfl⟩ := List.cons.inj hblocks
      obtain rfl := Block.handling.inj hblock
      have hsize : slots = p.base + depth := by
        simp only [size, Place.base_inHandler, Place.nlocals_inHandler, savedSlots] at hsaved
        omega
      rw [hsize]
      exact hnext
  | caught hkept hunwinds => exact caught hcatch (Nat.zero_le _) hkept hunwinds
  | plain h | jump h | item h | exhausted h | opens h | closes h | called h => cases h
  | branch h => rcases h with h | h <;> cases h

/-- After a raise or a return there is only what catches. -/
theorem leads_last {opcode : Opcode} (hop : opcode = .raise ∨ opcode = .returnValue) (hdepth : 0 < depth)
    (hcatch : p.Catches K) : Leads K ⟨written offset opcode 0, p, depth⟩ := by
  have hpops : (written offset opcode 0).pops ≤ depth := by
    rcases hop with rfl | rfl <;> exact hdepth
  intro next blocks slots hgoes
  rcases hop with rfl | rfl
  all_goals
    cases hgoes with
    | caught hkept hunwinds => exact caught hcatch hpops hkept hunwinds
    | plain h | jump h | item h | exhausted h | opens h | closes h | leaves h | called h => cases h
    | branch h => rcases h with h | h <;> cases h

end Point

/-! ## §3. Straight code. -/

namespace Op

/-- Straight code starts at its first point, or where it ends. -/
theorem entry {ops : List Op} (hpoints : ∀ q ∈ points p ops depth start, q.In K)
    (hexit : K (start + width ops) p.blocks (p.base + depthAfter ops depth)) :
    K start p.blocks (p.base + depth) := by
  induction ops with
  | nil => exact hexit
  | cons op ops ih =>
      cases op with
      | note n => exact ih hpoints hexit
      | emit opcode arg => exact hpoints _ (List.mem_cons_self ..)

theorem leads_points {ops : List Op} (hstraight : Straight ops depth)
    (hpoints : ∀ q ∈ points p ops depth start, q.In K)
    (hexit : K (start + width ops) p.blocks (p.base + depthAfter ops depth)) (hcatch : p.Catches K) :
    ∀ q ∈ points p ops depth start, q.Leads K := by
  induction ops generalizing depth start with
  | nil =>
      intro q hq
      cases hq
  | cons op ops ih =>
      cases op with
      | note n => exact ih hstraight hpoints hexit
      | emit opcode arg =>
          obtain ⟨hkind, htakes, hrest⟩ := hstraight
          obtain ⟨-, hpoints⟩ := List.forall_mem_cons.mp hpoints
          unfold width at hexit
          rw [← Nat.add_assoc] at hexit
          -- the instruction leads to where the rest of the code starts
          have hnext := entry hpoints hexit
          exact List.forall_mem_cons.mpr
            ⟨Point.leads_straight hkind htakes hnext hcatch, ih hrest hpoints hexit⟩

end Op

/-! ## §4. Bodies. -/

namespace Body

/-- **A body starts at its first point**, or where it ends. -/
theorem entry {b : Body} (hbalanced : b.Balanced depth) (hpoints : ∀ q ∈ b.points p depth start, q.In K)
    (hexit : K (start + b.width) p.blocks (p.base + b.depthAfter depth)) :
    K start p.blocks (p.base + depth) := by
  induction b generalizing p depth start with
  | straight ops => exact Op.entry hpoints hexit
  | seq first second ihf ihs =>
      obtain ⟨hfirst, hsecond⟩ := List.forall_mem_append.mp hpoints
      unfold width at hexit
      rw [← Nat.add_assoc] at hexit
      exact ihf hbalanced.1 hfirst (ihs hbalanced.2 hsecond hexit)
  | raises ops =>
      obtain ⟨hops, hlast⟩ := List.forall_mem_append.mp hpoints
      exact Op.entry hops (hlast _ (List.mem_singleton_self _))
  | returns ops =>
      obtain ⟨hops, hlast⟩ := List.forall_mem_append.mp hpoints
      exact Op.entry hops (hlast _ (List.mem_singleton_self _))
  | forLoop iterable target body ih =>
      obtain ⟨hstraight, hpos, -⟩ := hbalanced
      obtain ⟨-, hdepth⟩ := Op.straight_iterator hstraight hpos
      simp only [points, List.forall_mem_append, List.forall_mem_singleton] at hpoints
      obtain ⟨⟨⟨⟨hiterator, hhead⟩, -⟩, -⟩, -⟩ := hpoints
      refine Op.entry hiterator ?_
      rw [hdepth]
      exact hhead
  | whileLoop test leaves body ih =>
      obtain ⟨-, hpos, -⟩ := hbalanced
      simp only [points, List.forall_mem_append, List.forall_mem_singleton] at hpoints
      obtain ⟨⟨⟨htest, hout⟩, -⟩, -⟩ := hpoints
      refine Op.entry htest ?_
      have hdepth : Op.depthAfter test depth - 1 + 1 = Op.depthAfter test depth := by omega
      rw [← hdepth]
      exact hout
  | forever body ih =>
      obtain ⟨hbody, hlast⟩ := List.forall_mem_append.mp hpoints
      refine ih hbalanced.1 hbody ?_
      rw [hbalanced.2]
      exact hlast _ (List.mem_singleton_self _)
  | tryExcept body handler ihb ihh => exact hpoints _ (List.mem_cons_self ..)

/-- **The points of a body lead to its points**, to its end, or to where an exception
that leaves it is caught. -/
theorem leads_points {b : Body} (hbalanced : b.Balanced depth)
    (hshort : start + b.width ≤ Assembler.maxSize)
    (hpoints : ∀ q ∈ b.points p depth start, q.In K)
    (hexit : K (start + b.width) p.blocks (p.base + b.depthAfter depth)) (hcatch : p.Catches K) :
    ∀ q ∈ b.points p depth start, q.Leads K := by
  induction b generalizing p depth start with
  | straight ops => exact Op.leads_points hbalanced hpoints hexit hcatch
  | seq first second ihf ihs =>
      unfold width at hexit hshort
      rw [← Nat.add_assoc] at hexit hshort
      simp only [points, List.forall_mem_append] at hpoints ⊢
      obtain ⟨hfirst, hsecond⟩ := hpoints
      have hmiddle := entry hbalanced.2 hsecond hexit
      exact ⟨ihf hbalanced.1 (by omega) hfirst hmiddle hcatch,
        ihs hbalanced.2 hshort hsecond hexit hcatch⟩
  | raises ops =>
      obtain ⟨hstraight, hpos⟩ := hbalanced
      simp only [points, List.forall_mem_append, List.forall_mem_singleton] at hpoints ⊢
      exact ⟨Op.leads_points hstraight hpoints.1 hpoints.2 hcatch,
        Point.leads_last (.inl rfl) hpos hcatch⟩
  | returns ops =>
      obtain ⟨hstraight, hpos⟩ := hbalanced
      simp only [points, List.forall_mem_append, List.forall_mem_singleton] at hpoints ⊢
      exact ⟨Op.leads_points hstraight hpoints.1 hpoints.2 hcatch,
        Point.leads_last (.inr rfl) hpos hcatch⟩
  | forLoop iterable target body ih =>
      obtain ⟨hstraight, hpos, hbody, hends⟩ := hbalanced
      obtain ⟨hiterator, hdepth⟩ := Op.straight_iterator hstraight hpos
      obtain ⟨hitem, hdropped⟩ := Op.straight_ofTarget target
      unfold width at hexit hshort
      simp only [← Nat.add_assoc] at hexit hshort
      simp only [points, List.forall_mem_append, List.forall_mem_singleton] at hpoints ⊢
      obtain ⟨⟨⟨⟨hiterators, hhead⟩, hitems⟩, hinner⟩, hback⟩ := hpoints
      -- from the end back to the start: the jump, the body, the item, the head
      have hbase := p.base_inLoop (Op.depthAfter iterable depth - 1)
      have hfinish := hback
      simp only [Point.In, Point.size, hbase, Instruction.offset_jumping] at hhead hback
      have hbegin := entry hbody hinner (by rw [hends]; exact hfinish)
      have hstore := Op.entry hitems (by rw [hdropped]; exact hbegin)
      have hcatch' := hcatch.inLoop (Op.depthAfter iterable depth - 1)
      refine ⟨⟨⟨⟨?_, ?_⟩, ?_⟩, ?_⟩, ?_⟩
      · refine Op.leads_points hiterator hiterators ?_ hcatch
        rw [hdepth]
        exact hhead
      · refine Point.leads_forIter hshort ?_ hexit hcatch
        rw [hbase] at hstore
        exact hstore
      · refine Op.leads_points hitem hitems ?_ hcatch'
        rw [hdropped]
        exact hbegin
      · refine ih hbody (by omega) hinner ?_ hcatch'
        rw [hends]
        exact hfinish
      · refine Point.leads_jump (by simp only [Op.width_append] at hshort ⊢; omega) ?_ hcatch'
        rw [hbase]
        exact hhead
  | whileLoop test leaves body ih =>
      obtain ⟨hstraight, hpos, hbody, hends⟩ := hbalanced
      have hdepth : Op.depthAfter test depth - 1 + 1 = Op.depthAfter test depth := by omega
      unfold width at hexit hshort
      simp only [← Nat.add_assoc] at hexit hshort
      simp only [points, List.forall_mem_append, List.forall_mem_singleton] at hpoints ⊢
      obtain ⟨⟨⟨htests, hout⟩, hinner⟩, hback⟩ := hpoints
      have htested : K (start + Op.width test) p.blocks (p.base + Op.depthAfter test depth) := by
        rw [← hdepth]
        exact hout
      have hhead := Op.entry htests htested
      have hbegin := entry hbody hinner (by rw [hends]; exact hback)
      refine ⟨⟨⟨?_, ?_⟩, ?_⟩, ?_⟩
      · exact Op.leads_points hstraight htests htested hcatch
      · exact Point.leads_leaving hshort hbegin hexit hcatch
      · refine ih hbody (by omega) hinner ?_ hcatch
        rw [hends]
        exact hback
      · exact Point.leads_jump (by omega) hhead hcatch
  | forever body ih =>
      obtain ⟨hbody, hends⟩ := hbalanced
      unfold width at hexit hshort
      simp only [← Nat.add_assoc] at hexit hshort
      simp only [points, List.forall_mem_append, List.forall_mem_singleton] at hpoints ⊢
      obtain ⟨hinner, hback⟩ := hpoints
      have hfinish : K (start + body.width) p.blocks (p.base + body.depthAfter depth) := by
        rw [hends]
        exact hback
      exact ⟨ih hbody (by omega) hinner hfinish hcatch,
        Point.leads_jump (by omega) (entry hbody hinner hfinish) hcatch⟩
  | tryExcept body handler ihb ihh =>
      obtain ⟨⟨hbody, hends⟩, hhandler, hends'⟩ := hbalanced
      unfold width at hexit hshort
      simp only [← Nat.add_assoc] at hexit hshort
      simp only [points, List.forall_mem_append, List.forall_mem_singleton, List.forall_mem_cons] at hpoints ⊢
      obtain ⟨⟨⟨⟨⟨-, htry⟩, hclose, hskip⟩, hpops⟩, hhandles⟩, hleave⟩ := hpoints
      -- first the handler, from its end to its start: it is where the body's exceptions lead
      obtain ⟨hpop, hpopped⟩ := Op.straight_popTop
      have hcatchHandler := hcatch.inHandler depth
      have hhandled := entry hhandler hhandles (by rw [hends']; exact hleave)
      have hcaught := Op.entry hpops (by rw [hpopped]; exact hhandled)
      rw [Place.base_inHandler] at hcaught
      have hcatchTry := Place.Catches.inTry hcaught
      have hbegin := entry hbody htry (by rw [hends]; exact hclose)
      rw [Place.base_inTry] at hbegin
      refine ⟨⟨⟨⟨⟨?_, ?_⟩, ?_, ?_⟩, ?_⟩, ?_⟩, ?_⟩
      · exact Point.leads_setupExcept (by omega) hbegin hcatch
      · refine ihb hbody (by omega) htry ?_ hcatchTry
        rw [hends]
        exact hclose
      · exact Point.leads_popBlock hskip hcatchTry
      · exact Point.leads_jump hshort hexit hcatch
      · refine Op.leads_points hpop hpops ?_ hcatchHandler
        rw [hpopped]
        exact hhandled
      · refine ihh hhandler (by omega) hhandles ?_ hcatchHandler
        rw [hends']
        exact hleave
      · exact Point.leads_popExcept hexit hcatchHandler

end Body

end Resumable
