/-
  Resumable.Proofs.LoopReading
  ────────────────────────────
  **READING A LISTING FORWARD COUNTS THE LOOPS AROUND A SITE.**

  Of the jumps back that are met when a listing is read forward from a site, those that
  go before all that was read so far, to the head of a for-loop, are counted.  In a
  listing that is made of loops these are the jumps of the loops around the site, from
  the inside out:

      head: FOR_ITER …  ┌ site … head': FOR_ITER … JUMP head' ┐ … JUMP head
                        └ jumps in here go back to after site ┘   goes before it

  A loop can be gone back to more than once, but after the first time its head is where
  the reading starts, and the other jumps no longer go before that.  So a part of the
  listing does one of two things to what was read before (`Closes`): nothing, or it
  closes the loop around itself, by a jump from inside.

  Main results:
    • `Nests.append`, `Nests.forLoop`, `Nests.whileLoop` — parts in sequence, and a loop
      around a part,
    • `Nests.loopNesting_eq` — in a whole listing, all for-loops around a site are counted.
-/
import Resumable.Bytecode.LoopNesting
import Resumable.Proofs.Emission

namespace Resumable

/-! ## §1. Reading from an offset on. -/

/-- An instruction of a listing, and the number of for-loops it lies in. -/
structure Site where
  instr : Instruction
  loops : Nat

/-- Read sites in order. -/
def scan (code : Array Instruction) (s : NestingScan) (l : List Site) : NestingScan :=
  (l.map Site.instr).foldl (NestingScan.advance code) s

/-- The sites at or after an offset. -/
def sitesFrom (offset : Nat) (l : List Site) : List Site :=
  l.filter fun q => decide (offset ≤ q.instr.offset)

section Reading

variable {code : Array Instruction} {s : NestingScan} {l l' : List Site} {offset start : Nat}

@[simp] theorem scan_nil : scan code s [] = s := rfl

@[simp] theorem scan_cons (q : Site) :
    scan code s (q :: l) = scan code (s.advance code q.instr) l := rfl

@[simp] theorem scan_append : scan code s (l ++ l') = scan code (scan code s l) l' := by
  unfold scan
  rw [List.map_append, List.foldl_append]

@[simp] theorem sitesFrom_append :
    sitesFrom offset (l ++ l') = sitesFrom offset l ++ sitesFrom offset l' :=
  List.filter_append ..

/-- What starts later is read as a whole. -/
theorem sitesFrom_of_le (h : ∀ q ∈ l, offset ≤ q.instr.offset) : sitesFrom offset l = l :=
  List.filter_eq_self.mpr fun q hq => decide_eq_true (h q hq)

/-- What lies before is not read. -/
theorem sitesFrom_of_lt (h : ∀ q ∈ l, q.instr.offset < offset) : sitesFrom offset l = [] := by
  refine List.filter_eq_nil_iff.mpr fun q hq => ?_
  rw [decide_eq_true_eq]
  exact Nat.not_le.mpr (h q hq)

/-- In a row, what is left when the instructions before an offset are dropped is what
stands at or after it. -/
theorem dropWhile_of_inRow {code : List Instruction} (h : InRow start code) :
    code.dropWhile (fun i => i.offset < offset) = code.filter (fun i => decide (offset ≤ i.offset)) := by
  induction code generalizing start with
  | nil => rfl
  | cons i code ih =>
      obtain ⟨hi, hrest⟩ := h
      by_cases hlt : i.offset < offset
      · rw [List.dropWhile_cons_of_pos (by simpa using hlt),
          List.filter_cons_of_neg (by simpa using hlt)]
        exact ih hrest
      · have hle : offset ≤ i.offset := Nat.not_lt.mp hlt
        rw [List.dropWhile_cons_of_neg (by simpa using hle),
          List.filter_cons_of_pos (by simpa using hle)]
        -- all that follows stands even later
        refine congrArg (i :: ·) (List.filter_eq_self.mpr fun j hj => ?_).symm
        have hbounds := hrest.bounds hj
        rw [decide_eq_true_eq]
        omega

end Reading

/-! ## §2. Parts of a listing. -/

/-- What reading a part of a listing comes to, where `inner` is the head of the innermost loop
around the part: nothing has changed, or that loop is a for-loop and has been closed. -/
def Closes (code : Array Instruction) (inner : Option Nat) (s s' : NestingScan) : Prop :=
  s' = s ∨ ∃ head, inner = some head ∧ isLoopHeadAt code head = true ∧ head < s.start
    ∧ s' = ⟨head, s.level + 1⟩

/-- Sites from `start` to `stop` that lie in `loops` for-loops, and in a loop with the head
`inner` if they lie in any. -/
structure Nests (code : Array Instruction) (inner : Option Nat) (loops start stop : Nat)
    (l : List Site) : Prop where
  le : start ≤ stop
  bounds : ∀ q ∈ l, start ≤ q.instr.offset ∧ q.instr.offset < stop
  /-- Read from before, they close no loop of their own. -/
  passes : ∀ s : NestingScan, s.start ≤ start → Closes code inner s (scan code s l)
  /-- Read from one of them on, they count the loops of their own around it. -/
  counts : ∀ q ∈ l, ∃ s : NestingScan, start ≤ s.start ∧ s.start ≤ q.instr.offset
    ∧ s.level + loops = q.loops
    ∧ Closes code inner s (scan code ⟨q.instr.offset, 0⟩ (sitesFrom q.instr.offset l))

section Nesting

variable {code : Array Instruction} {inner : Option Nat} {loops start middle stop : Nat}
  {l l' : List Site} {s s' s'' : NestingScan}

theorem Closes.refl (s : NestingScan) : Closes code inner s s :=
  .inl rfl

theorem Closes.start_le (h : Closes code inner s s') : s'.start ≤ s.start := by
  rcases h with rfl | ⟨head, -, -, hlt, rfl⟩
  · exact Nat.le_refl _
  · exact Nat.le_of_lt hlt

/-- A loop is closed once. -/
theorem Closes.trans (h : Closes code inner s s') (h' : Closes code inner s' s'') :
    Closes code inner s s'' := by
  rcases h' with rfl | ⟨head, hinner, hhead, hlt, rfl⟩
  · exact h
  · rcases h with rfl | ⟨head', hinner', -, -, rfl⟩
    · exact .inr ⟨head, hinner, hhead, hlt, rfl⟩
    · obtain rfl := Option.some.inj (hinner.symm.trans hinner')
      exact absurd hlt (Nat.lt_irrefl _)

/-- From the head of a loop on, nothing in it closes it. -/
theorem Closes.eq_of_le {head : Nat} (h : Closes code (some head) s s') (hle : s.start ≤ head) :
    s' = s := by
  rcases h with heq | ⟨head', hinner, -, hlt, -⟩
  · exact heq
  · obtain rfl := Option.some.inj hinner
    omega

/-- Nothing closes a loop that is not a for-loop. -/
theorem Closes.eq_of_not_head {head : Nat} (h : Closes code (some head) s s')
    (hhead : isLoopHeadAt code head = false) : s' = s := by
  rcases h with heq | ⟨head', hinner, hhead', -, -⟩
  · exact heq
  · obtain rfl := Option.some.inj hinner
    rw [hhead] at hhead'
    cases hhead'

theorem Nests.nil : Nests code inner loops start start [] := by
  refine ⟨Nat.le_refl start, ?_, fun s _ => .refl s, ?_⟩ <;> intro q hq <;> cases hq

/-- An instruction that closes no loop but the innermost one. -/
theorem Nests.single {q : Site} (hoffset : q.instr.offset = start) (hloops : q.loops = loops)
    (hcloses : ∀ s : NestingScan, Closes code inner s (s.advance code q.instr)) :
    Nests code inner loops start (start + q.instr.width) [q] := by
  have hpos := q.instr.opcode.width_pos
  have hwidth : q.instr.width = q.instr.opcode.width := rfl
  refine ⟨Nat.le_add_right _ _, ?_, fun s _ => hcloses s, ?_⟩
  · intro r hr
    obtain rfl := List.mem_singleton.mp hr
    omega
  · intro r hr
    obtain rfl := List.mem_singleton.mp hr
    refine ⟨⟨r.instr.offset, 0⟩, by show start ≤ r.instr.offset; omega, Nat.le_refl _,
      by show 0 + loops = _; omega, ?_⟩
    rw [sitesFrom_of_le (by simp)]
    exact hcloses _

/-- One part after the other. -/
theorem Nests.append (h : Nests code inner loops start middle l)
    (h' : Nests code inner loops middle stop l') : Nests code inner loops start stop (l ++ l') := by
  have hle := h.le
  have hle' := h'.le
  refine ⟨Nat.le_trans hle hle', ?_, ?_, ?_⟩
  · intro q hq
    rcases List.mem_append.mp hq with hq | hq
    · have := h.bounds q hq
      omega
    · have := h'.bounds q hq
      omega
  · intro s hs
    have hfirst := h.passes s hs
    rw [scan_append]
    exact hfirst.trans (h'.passes _ (Nat.le_trans hfirst.start_le (Nat.le_trans hs hle)))
  · intro q hq
    rcases List.mem_append.mp hq with hq | hq
    · -- from a site of the first part on, the second one is passed
      obtain ⟨s, hstart, hs, hlevel, hscan⟩ := h.counts q hq
      have hbounds := h.bounds q hq
      have hlater : ∀ r ∈ l', q.instr.offset ≤ r.instr.offset := by
        intro r hr
        have := h'.bounds r hr
        omega
      refine ⟨s, hstart, hs, hlevel, ?_⟩
      rw [sitesFrom_append, sitesFrom_of_le hlater, scan_append]
      have hreached := hscan.start_le
      exact hscan.trans (h'.passes _ (by omega))
    · -- from a site of the second part on, the first one is not read at all
      obtain ⟨s, hstart, hs, hlevel, hscan⟩ := h'.counts q hq
      have hbounds := h'.bounds q hq
      have hbefore : ∀ r ∈ l, r.instr.offset < q.instr.offset := by
        intro r hr
        have := h.bounds r hr
        omega
      refine ⟨s, Nat.le_trans hle hstart, hs, hlevel, ?_⟩
      rw [sitesFrom_append, sitesFrom_of_lt hbefore, List.nil_append]
      exact hscan

/-- What lies in a loop that is not a for-loop closes no loop at all. -/
theorem Nests.outside {head : Nat} (h : Nests code (some head) loops start stop l)
    (hhead : isLoopHeadAt code head = false) : Nests code inner loops start stop l := by
  refine ⟨h.le, h.bounds, fun s hs => ?_, fun q hq => ?_⟩
  · exact .inl ((h.passes s hs).eq_of_not_head hhead)
  · obtain ⟨s, hstart, hs, hlevel, hscan⟩ := h.counts q hq
    exact ⟨s, hstart, hs, hlevel, .inl (hscan.eq_of_not_head hhead)⟩

/-! ## §3. Jumps. -/

open Instruction (written jumping offset_jumping opcode_jumping)

theorem advance_of_not_jump {i : Instruction} (h : i.opcode.isJump = false) (s : NestingScan) :
    s.advance code i = s := by
  unfold NestingScan.advance Instruction.target?
  rw [if_neg (by rw [h]; decide)]

/-- A jump forward closes no loop. -/
theorem advance_of_lt_target {i : Instruction} (hforward : i.offset < i.arg.toNat) (s : NestingScan) :
    s.advance code i = s := by
  unfold NestingScan.advance Instruction.goesBack Instruction.target?
  cases i.opcode.isJump with
  | false => rfl
  | true => simp [Nat.not_le.mpr hforward]

theorem advance_forward {offset target : Nat} {opcode : Opcode}
    (htarget : target ≤ Assembler.maxSize) (hforward : offset < target) (s : NestingScan) :
    s.advance code (jumping offset opcode target) = s :=
  advance_of_lt_target (i := jumping offset opcode target)
    (by show offset < target.toUInt16.toNat; rw [toNat_of_le htarget]; exact hforward) s

/-- A jump back closes a loop if it goes before all that was read, to the head of a for-loop. -/
theorem advance_back {offset target : Nat} {opcode : Opcode} (hjump : opcode.isJump = true)
    (htarget : target ≤ Assembler.maxSize) (hback : target ≤ offset) (s : NestingScan) :
    s.advance code (jumping offset opcode target)
      = if target < s.start ∧ isLoopHeadAt code target = true then ⟨target, s.level + 1⟩ else s := by
  have htarget? : (jumping offset opcode target).target? = some target := by
    unfold Instruction.target?
    rw [opcode_jumping, if_pos hjump]
    exact congrArg some (toNat_of_le htarget)
  unfold NestingScan.advance Instruction.goesBack
  rw [htarget?]
  simp [hback]

/-- An instruction that does not jump. -/
theorem Nests.still (inner : Option Nat) (loops : Nat) {offset : Nat} {opcode : Opcode}
    {arg : UInt16} (hjump : opcode.isJump = false) :
    Nests code inner loops offset (offset + opcode.width) [⟨written offset opcode arg, loops⟩] := by
  refine .single (q := ⟨written offset opcode arg, loops⟩) rfl rfl fun s => .inl ?_
  exact advance_of_not_jump hjump s

/-- A jump forward. -/
theorem Nests.forward (inner : Option Nat) (loops : Nat) {offset target : Nat} {opcode : Opcode}
    (htarget : target ≤ Assembler.maxSize) (hforward : offset < target) :
    Nests code inner loops offset (offset + opcode.width) [⟨jumping offset opcode target, loops⟩] := by
  refine .single (q := ⟨jumping offset opcode target, loops⟩) rfl rfl fun s => .inl ?_
  exact advance_forward htarget hforward s

/-- A jump back to the head of the innermost loop. -/
theorem Nests.again (loops : Nat) {offset head : Nat} {opcode : Opcode}
    (hjump : opcode.isJump = true) (hback : head ≤ offset) (hshort : offset ≤ Assembler.maxSize) :
    Nests code (some head) loops offset (offset + opcode.width)
      [⟨jumping offset opcode head, loops⟩] := by
  refine .single (q := ⟨jumping offset opcode head, loops⟩) rfl rfl fun s => ?_
  rw [advance_back hjump (by omega) hback]
  split
  · next h => exact .inr ⟨head, rfl, h.2, h.1, rfl⟩
  · exact .refl s

/-! ## §4. Loops. -/

theorem isLoopHeadAt_of_forIter {head exit : Nat}
    (h : instructionAt code head = some (jumping head .forIter exit)) :
    isLoopHeadAt code head = true := by
  unfold isLoopHeadAt
  rw [h]
  rfl

theorem isLoopHeadAt_of_ne {head : Nat} {i : Instruction} (h : instructionAt code head = some i)
    (hne : i.opcode ≠ .forIter) : isLoopHeadAt code head = false := by
  unfold isLoopHeadAt
  rw [h]
  show i.opcode.isLoopHead = false
  revert hne
  cases i.opcode <;> simp [Opcode.isLoopHead]

/-- **A loop that is not a for-loop** around a part, with its jump after it. -/
theorem Nests.whileLoop {head back : Nat} (inner : Option Nat)
    (h : Nests code (some head) loops start back l) (hhead : isLoopHeadAt code head = false) (hle : head ≤ start)
    (hshort : back ≤ Assembler.maxSize) :
    Nests code inner loops start (back + Opcode.jumpAbsolute.width)
      (l ++ [⟨jumping back .jumpAbsolute head, loops⟩]) :=
  (h.append (.again loops rfl (Nat.le_trans hle h.le) hshort)).outside hhead

/-- **A for-loop around a part**, with its head before and its jump after it. -/
theorem Nests.forLoop {head item back exit : Nat} (inner : Option Nat)
    (h : Nests code (some head) (loops + 1) item back l) (hitem : item = head + Opcode.forIter.width)
    (hexit : exit = back + Opcode.jumpAbsolute.width) (hshort : exit ≤ Assembler.maxSize)
    (hhead : isLoopHeadAt code head = true) :
    Nests code inner loops head exit
      ([⟨jumping head .forIter exit, loops⟩] ++ l
        ++ [⟨jumping back .jumpAbsolute head, loops + 1⟩]) := by
  have hle := h.le
  have hwidth : Opcode.forIter.width = 3 := rfl
  have hwidth' : Opcode.jumpAbsolute.width = 3 := rfl
  have hforward (s : NestingScan) : s.advance code (jumping head .forIter exit) = s :=
    advance_forward hshort (by omega) s
  have hback (s : NestingScan) : s.advance code (jumping back .jumpAbsolute head)
      = if head < s.start then ⟨head, s.level + 1⟩ else s := by
    rw [advance_back rfl (by omega) (by omega), hhead]
    simp only [and_true]
  refine ⟨by omega, ?_, ?_, ?_⟩
  · intro q hq
    rcases List.mem_append.mp hq with hq | hq
    · rcases List.mem_append.mp hq with hq | hq
      · obtain rfl := List.mem_singleton.mp hq
        rw [offset_jumping]
        omega
      · have := h.bounds q hq
        omega
    · obtain rfl := List.mem_singleton.mp hq
      rw [offset_jumping]
      omega
  · -- from before the head, no jump goes back to what was not read
    intro s hs
    simp only [scan_append, scan_cons, scan_nil]
    rw [hforward, (h.passes s (by omega)).eq_of_le hs, hback, if_neg (by omega)]
    exact .refl s
  · intro q hq
    have hrest : ∀ r ∈ l, head < r.instr.offset ∧ r.instr.offset < back := by
      intro r hr
      have := h.bounds r hr
      omega
    rcases List.mem_append.mp hq with hq | hq
    · rcases List.mem_append.mp hq with hq | hq
      · -- from the head: nothing in the loop goes back to before it
        obtain rfl := List.mem_singleton.mp hq
        refine ⟨⟨head, 0⟩, Nat.le_refl _, Nat.le_refl _, Nat.zero_add _, ?_⟩
        have hpasses := (h.passes ⟨head, 0⟩ (by show head ≤ item; omega)).eq_of_le (Nat.le_refl _)
        rw [sitesFrom_of_le (by
          simp only [List.forall_mem_append, List.forall_mem_singleton, offset_jumping]
          exact ⟨⟨Nat.le_refl _, fun r hr => Nat.le_of_lt (hrest r hr).1⟩, by omega⟩)]
        simp only [scan_append, scan_cons, scan_nil, offset_jumping]
        rw [hforward, hpasses, hback, if_neg (Nat.lt_irrefl _)]
        exact .refl _
      · -- from inside: one of the jumps to the head closes one more loop, the others do not
        obtain ⟨s, hstart, hs, hlevel, hscan⟩ := h.counts q hq
        have hbounds := hrest q hq
        refine ⟨⟨head, s.level + 1⟩, Nat.le_refl _, Nat.le_of_lt hbounds.1,
          by show s.level + 1 + loops = _; omega, .inl ?_⟩
        have hjump : ∀ r ∈ [Site.mk (jumping back .jumpAbsolute head) (loops + 1)],
            q.instr.offset ≤ r.instr.offset :=
          List.forall_mem_singleton.mpr (Nat.le_of_lt hbounds.2)
        rw [sitesFrom_append, sitesFrom_append, sitesFrom_of_lt (by simpa using hbounds.1),
          List.nil_append, scan_append, sitesFrom_of_le hjump]
        simp only [scan_cons, scan_nil]
        rcases hscan with heq | ⟨head', hinner, -, -, heq⟩
        · rw [heq, hback, if_pos (by omega)]
        · obtain rfl := Option.some.inj hinner
          rw [heq, hback, if_neg (Nat.lt_irrefl _)]
    · -- from the jump back: the loop is the only one it closes
      obtain rfl := List.mem_singleton.mp hq
      refine ⟨⟨head, 1⟩, Nat.le_refl _, by show head ≤ back; omega, Nat.add_comm .., .inl ?_⟩
      have hbefore : ∀ r ∈ [Site.mk (jumping head .forIter exit) loops] ++ l,
          r.instr.offset < back := by
        simp only [List.forall_mem_append, List.forall_mem_singleton, offset_jumping]
        exact ⟨by omega, fun r hr => (hrest r hr).2⟩
      rw [offset_jumping, sitesFrom_append, sitesFrom_of_lt hbefore, List.nil_append,
        sitesFrom_of_le (by simp)]
      simp only [scan_cons, scan_nil]
      rw [hback, if_pos (by show head < back; omega)]

/-- **All for-loops around a site are counted**, and no others. -/
theorem Nests.loopNesting_eq (h : Nests code none 0 start stop l)
    (hcode : code.toList = l.map Site.instr) (hrow : InRow start (l.map Site.instr)) {q : Site}
    (hq : q ∈ l) : loopNesting code q.instr.offset q.instr.offset = q.loops := by
  obtain ⟨s, -, -, hlevel, hscan⟩ := h.counts q hq
  have hfilter : (l.map Site.instr).filter (fun i => decide (q.instr.offset ≤ i.offset))
      = (sitesFrom q.instr.offset l).map Site.instr := by
    unfold sitesFrom
    rw [List.filter_map]
    rfl
  unfold loopNesting
  rw [hcode, dropWhile_of_inRow hrow, hfilter]
  show (scan _ _ _).level = _
  rcases hscan with heq | ⟨head, hinner, -⟩
  · rw [heq]
    omega
  · cases hinner

end Nesting

end Resumable
