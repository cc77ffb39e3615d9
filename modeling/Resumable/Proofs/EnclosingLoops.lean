/-
  Resumable.Proofs.EnclosingLoops
  ───────────────────────────────
  **THE LOOPS AROUND A CALL ARE READ OFF THE LISTING.**

  Reading a structured body forward from one of its points, the jumps back that go
  before all that was read so far are those of the loops around the point, from the
  inside out; and those to the head of a for-loop are counted.

  A loop of a body that keeps no iterator starts with its test, or with what it
  repeats, and neither starts with the head of a for-loop: what is looped over comes
  before that (`Body.lt_of_forIter`).  So its jump back is never counted.

  Main results:
    • `Body.nests`         — a body counts the loops around its points,
    • `loopNesting_points` — all loops around a point are counted.
-/
import Resumable.Proofs.LoopReading
import Resumable.Proofs.StackHeights

namespace Resumable

section Bodies

variable {code : Array Instruction} {p : Place} {depth start : Nat}

/-- A point as a site: its instruction, and the loops it lies in. -/
def Point.site (q : Point) : Site :=
  ⟨q.instr, q.place.loops⟩

theorem Point.map_site (l : List Point) : (l.map Point.site).map Site.instr = l.map Point.instr := by
  rw [List.map_map]
  rfl

theorem isJump_of_straight {opcode : Opcode} (h : (opcode.isPlain || opcode.isCall) = true) :
    opcode.isJump = false := by
  revert h
  cases opcode <;> simp [Opcode.isPlain, Opcode.isCall, Opcode.isJump]

theorem Op.isJump_points {ops : List Op} (h : Op.Straight ops depth) :
    ∀ q ∈ Op.points p ops depth start, q.instr.opcode.isJump = false := by
  induction ops generalizing depth start with
  | nil =>
      intro q hq
      cases hq
  | cons op ops ih =>
      cases op with
      | note n => exact ih h
      | emit opcode arg =>
          obtain ⟨hkind, -, hrest⟩ := h
          exact List.forall_mem_cons.mpr ⟨isJump_of_straight hkind, ih hrest⟩

/-- Straight code closes no loop. -/
theorem Op.nests (inner : Option Nat) (p : Place) (start : Nat) {ops : List Op}
    (h : Op.Straight ops depth) :
    Nests code inner p.loops start (start + Op.width ops)
      ((Op.points p ops depth start).map Point.site) := by
  induction ops generalizing depth start with
  | nil => exact .nil
  | cons op ops ih =>
      cases op with
      | note n => exact ih start h
      | emit opcode arg =>
          obtain ⟨hkind, -, hrest⟩ := h
          have hnext := ih (start + opcode.width) hrest
          rw [Nat.add_assoc] at hnext
          exact (Nests.still inner p.loops (isJump_of_straight hkind)).append hnext

/-- A body does not start with the head of a for-loop: what is looped over comes before it. -/
theorem Body.lt_of_forIter {b : Body} (hbalanced : b.Balanced depth) {q : Point}
    (hq : q ∈ b.points p depth start) (hop : q.instr.opcode = .forIter) : start < q.instr.offset := by
  -- straight code has no jumps, and what a statement adds to it is no head but in a for-loop
  have hplain {ops : List Op} {p : Place} {depth start : Nat} (h : Op.Straight ops depth)
      (hq : q ∈ Op.points p ops depth start) : False := by
    have := Op.isJump_points h q hq
    rw [hop] at this
    cases this
  have hsingle {i : Instruction} {p : Place} {depth : Nat} (hi : i.opcode ≠ .forIter)
      (hq : q ∈ [Point.mk i p depth]) : False := by
    obtain rfl := List.mem_singleton.mp hq
    exact hi hop
  induction b generalizing p depth start with
  | straight ops => exact (hplain hbalanced hq).elim
  | seq first second ihf ihs =>
      rcases List.mem_append.mp hq with hq | hq
      · exact ihf hbalanced.1 hq
      · have := ihs hbalanced.2 hq
        omega
  | raises ops =>
      rcases List.mem_append.mp hq with hq | hq
      · exact (hplain hbalanced.1 hq).elim
      · exact (hsingle (fun h => by cases h) hq).elim
  | returns ops =>
      rcases List.mem_append.mp hq with hq | hq
      · exact (hplain hbalanced.1 hq).elim
      · exact (hsingle (fun h => by cases h) hq).elim
  | forLoop iterable target body ih =>
      obtain ⟨hstraight, hpos, hbody, -⟩ := hbalanced
      have hwidth : Op.width [.emit .getIter 0] = 1 := rfl
      simp only [points, List.mem_append, Op.width_append, hwidth] at hq
      -- the iterable with its iterator, the head, the item, the body, the jump back
      rcases hq with (((hq | hq) | hq) | hq) | hq
      · exact (hplain (Op.straight_iterator hstraight hpos).1 hq).elim
      · obtain rfl := List.mem_singleton.mp hq
        rw [Instruction.offset_jumping]
        omega
      · exact (hplain (Op.straight_ofTarget target).1 hq).elim
      · have := ih hbody hq
        omega
      · exact (hsingle (fun h => by cases h) hq).elim
  | whileLoop test leaves body ih =>
      obtain ⟨hstraight, -, hbody, -⟩ := hbalanced
      simp only [points, List.mem_append] at hq
      rcases hq with ((hq | hq) | hq) | hq
      · exact (hplain hstraight hq).elim
      · exact (hsingle (by cases leaves <;> exact fun h => by cases h) hq).elim
      · have := ih hbody hq
        omega
      · exact (hsingle (fun h => by cases h) hq).elim
  | forever body ih =>
      rcases List.mem_append.mp hq with hq | hq
      · exact ih hbalanced.1 hq
      · exact (hsingle (fun h => by cases h) hq).elim
  | tryExcept body handler ihb ihh =>
      obtain ⟨⟨hbody, -⟩, hhandler, -⟩ := hbalanced
      have hpop := Op.straight_popTop.1
      simp only [points, List.mem_append] at hq
      -- the start of the try, its body, its end, the dropped exception, the handler, its end
      rcases hq with ((((hq | hq) | hq) | hq) | hq) | hq
      · exact (hsingle (fun h => by cases h) hq).elim
      · have := ihb hbody hq
        omega
      · rcases List.mem_cons.mp hq with rfl | hq
        · cases hop
        · exact (hsingle (fun h => by cases h) hq).elim
      · exact (hplain hpop hq).elim
      · have := ihh hhandler hq
        omega
      · exact (hsingle (fun h => by cases h) hq).elim

/-- A loop without an iterator is never counted: no for-loop has its head where it starts. -/
theorem isLoopHeadAt_start {l : List Point} (hne : l ≠ [])
    (hrow : InRow start (l.map Point.instr))
    (hcode : ∀ q ∈ l, instructionAt code q.instr.offset = some q.instr)
    (hheads : ∀ q ∈ l, q.instr.opcode = .forIter → start < q.instr.offset) :
    isLoopHeadAt code start = false := by
  cases l with
  | nil => exact absurd rfl hne
  | cons q l =>
      obtain ⟨hoffset, -⟩ := hrow
      have hat := hcode q (List.mem_cons_self ..)
      rw [hoffset] at hat
      refine isLoopHeadAt_of_ne hat fun hop => ?_
      have := hheads q (List.mem_cons_self ..) hop
      omega

/-- **A body counts the loops around its points**, and is passed when it is read from before. -/
theorem Body.nests (inner : Option Nat) {b : Body} (hbalanced : b.Balanced depth)
    (hshort : start + b.width ≤ Assembler.maxSize)
    (hcode : ∀ q ∈ b.points p depth start, instructionAt code q.instr.offset = some q.instr) :
    Nests code inner p.loops start (start + b.width) ((b.points p depth start).map Point.site) := by
  have hwidth (op : Opcode) := op.width_pos
  induction b generalizing inner p depth start with
  | straight ops => exact Op.nests inner p start hbalanced
  | seq first second ihf ihs =>
      unfold width at hshort ⊢
      rw [← Nat.add_assoc] at hshort ⊢
      obtain ⟨hfirst, hsecond⟩ := List.forall_mem_append.mp hcode
      rw [points, List.map_append]
      exact (ihf inner hbalanced.1 (by omega) hfirst).append (ihs inner hbalanced.2 hshort hsecond)
  | raises ops =>
      unfold width
      rw [← Nat.add_assoc, points, List.map_append]
      exact (Op.nests inner p start hbalanced.1).append (.still inner p.loops rfl)
  | returns ops =>
      unfold width
      rw [← Nat.add_assoc, points, List.map_append]
      exact (Op.nests inner p start hbalanced.1).append (.still inner p.loops rfl)
  | forLoop iterable target body ih =>
      obtain ⟨hstraight, hpos, hbody, -⟩ := hbalanced
      obtain ⟨hiterator, -⟩ := Op.straight_iterator hstraight hpos
      unfold width at hshort ⊢
      simp only [← Nat.add_assoc] at hshort ⊢
      simp only [points, List.forall_mem_append, List.forall_mem_singleton] at hcode
      obtain ⟨⟨⟨⟨-, hhead⟩, -⟩, hinner⟩, -⟩ := hcode
      -- the part inside: an item goes to its place, then the body
      have hinside (head : Nat) := (Op.nests (some head)
        (p.inLoop (Op.depthAfter iterable depth - 1)) _ (Op.straight_ofTarget target).1).append
          (ih (some head) hbody (by omega) hinner)
      have hloop := Nests.forLoop inner (hinside _) rfl rfl hshort (isLoopHeadAt_of_forIter hhead)
      simp only [points, List.map_append, List.append_assoc] at hloop ⊢
      exact (Op.nests inner p start hiterator).append hloop
  | whileLoop test leaves body ih =>
      have hhead : isLoopHeadAt code start = false :=
        isLoopHeadAt_start (by simp [points]) (inRow_points _) hcode fun q hq =>
          lt_of_forIter hbalanced hq
      obtain ⟨hstraight, -, hbody, -⟩ := hbalanced
      unfold width at hshort ⊢
      simp only [← Nat.add_assoc] at hshort ⊢
      simp only [points, List.forall_mem_append, List.forall_mem_singleton] at hcode
      obtain ⟨⟨-, hinner⟩, -⟩ := hcode
      have hout := hwidth (Opcode.leaving leaves)
      -- the test, the jump out, and what is repeated
      have hinside := ((Op.nests (some start) p start hstraight).append
        (.forward _ p.loops hshort (by omega))).append (ih (some start) hbody (by omega) hinner)
      have hloop := Nests.whileLoop inner hinside hhead (Nat.le_refl start) (by omega)
      simp only [points, List.map_append, List.append_assoc] at hloop ⊢
      exact hloop
  | forever body ih =>
      have hhead : isLoopHeadAt code start = false :=
        isLoopHeadAt_start (by simp [points]) (inRow_points _) hcode fun q hq =>
          lt_of_forIter hbalanced hq
      unfold width at hshort ⊢
      rw [← Nat.add_assoc] at hshort ⊢
      obtain ⟨hinner, -⟩ := List.forall_mem_append.mp hcode
      rw [points, List.map_append]
      exact Nests.whileLoop inner (ih (some start) hbalanced.1 (by omega) hinner) hhead
        (Nat.le_refl start) (by omega)
  | tryExcept body handler ihb ihh =>
      obtain ⟨⟨hbody, -⟩, hhandler, -⟩ := hbalanced
      unfold width at hshort ⊢
      simp only [← Nat.add_assoc] at hshort ⊢
      simp only [points, List.forall_mem_append] at hcode
      obtain ⟨⟨⟨⟨⟨-, htry⟩, -⟩, -⟩, hhandles⟩, -⟩ := hcode
      have hclose := hwidth .popBlock
      have hskip := hwidth .jumpAbsolute
      have hleave := hwidth .popExcept
      simp only [points, List.map_append, List.append_assoc]
      -- two more blocks, but no loop: both parts count from those around
      refine (Nests.forward inner p.loops (by omega) (by omega)).append ?_
      refine Nests.append (ihb inner hbody (by omega) htry) ?_
      refine Nests.append ((Nests.still inner p.loops rfl).append
        (.forward inner p.loops hshort (by omega))) ?_
      refine Nests.append (Op.nests inner (p.inHandler depth) _ Op.straight_popTop.1) ?_
      exact Nests.append (ihh inner hhandler (by omega) hhandles) (.still inner p.loops rfl)

/-- **All for-loops around a point are counted**, and no others. -/
theorem Body.loopNesting_points {bytes : Bytes} {b : Body}
    (hdecode : decode bytes = .ok (b.listing p depth 0).toArray) (hbalanced : b.Balanced depth)
    (hshort : b.width ≤ Assembler.maxSize) (hnone : p.loops = 0) {q : Point}
    (hq : q ∈ b.points p depth 0) :
    loopNesting (b.listing p depth 0).toArray q.instr.offset q.instr.offset = q.place.loops := by
  have hcode : ∀ q ∈ b.points p depth 0,
      instructionAt (b.listing p depth 0).toArray q.instr.offset = some q.instr := by
    intro q hq
    exact instructionAt_of_mem hdecode (by simpa [listing] using ⟨q, hq, rfl⟩)
  have hnests := nests none hbalanced (by simpa using hshort) hcode
  rw [hnone] at hnests
  refine hnests.loopNesting_eq (q := q.site) ?_ ?_ (List.mem_map_of_mem hq)
  · rw [Point.map_site]
    rfl
  · rw [Point.map_site]
    exact inRow_points b

end Bodies

end Resumable
