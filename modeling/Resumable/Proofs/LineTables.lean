/-
  Resumable.Proofs.LineTables
  ───────────────────────────
  **EACH BYTE HAS THE LINE IT WAS EMITTED AT.**

  An assembler keeps the ranges of the line table that are closed, and where the open one
  starts.  A range is closed when another line is set, and the last one at the end:

      emitted at    5  5  5  7  7  7  7
      closed       [0 ── 3)│                line 5
      open                  3 ── …          line 7

  The closed ranges follow one another from the first byte to where the open one starts,
  and the open one reaches to the last byte.  So the table, written out byte by byte, is
  the lines that were current at each emission, whatever was called in which order.  Only
  the call that sets the first line closes nothing: it has to come before all bytes.

  Main results:
    • `Covers.find?`          — a table in which ranges follow one another, at an offset,
    • `Lined.perform`         — a call adds to the table what it has emitted,
    • `line_table_partitions` — the table of a finished body.
-/
import Resumable.Proofs.AssemblyCalls

namespace Resumable

open Assembler AssemblyLog

/-! ## §1. Ranges that follow one another. -/

/-- Ranges that are not empty follow one another from an offset to another. -/
def Covers : Nat → List LineEntry → Nat → Prop
  | start, [], stop => start = stop
  | start, e :: entries, stop => e.start = start ∧ start < e.stop ∧ Covers e.stop entries stop

/-- The lines of a table, byte by byte. -/
def linesWritten (entries : List LineEntry) : List Nat :=
  entries.flatMap fun e => List.replicate (e.stop - e.start) e.line

section Tables

variable {start middle stop : Nat} {entries entries' : List LineEntry}

theorem linesWritten_append :
    linesWritten (entries ++ entries') = linesWritten entries ++ linesWritten entries' :=
  List.flatMap_append

theorem Covers.append (h : Covers start entries middle) (h' : Covers middle entries' stop) :
    Covers start (entries ++ entries') stop := by
  induction entries generalizing start with
  | nil =>
      obtain rfl : start = middle := h
      exact h'
  | cons e entries ih =>
      obtain ⟨hstart, hlt, hrest⟩ := h
      exact ⟨hstart, hlt, ih hrest⟩

theorem Covers.le (h : Covers start entries stop) : start ≤ stop := by
  induction entries generalizing start with
  | nil => exact Nat.le_of_eq h
  | cons e entries ih =>
      obtain ⟨-, hlt, hrest⟩ := h
      exact hlt.le.trans (ih hrest)

theorem Covers.length (h : Covers start entries stop) :
    (linesWritten entries).length = stop - start := by
  induction entries generalizing start with
  | nil =>
      obtain rfl : start = stop := h
      exact (Nat.sub_self start).symm
  | cons e entries ih =>
      obtain ⟨rfl, hlt, hrest⟩ := h
      have hle := hrest.le
      show (List.replicate (e.stop - e.start) e.line ++ linesWritten entries).length = _
      rw [List.length_append, List.length_replicate, ih hrest]
      omega

/-- There is no range exactly if there is no offset. -/
theorem Covers.eq_nil_iff (h : Covers start entries stop) : entries = [] ↔ start = stop := by
  cases entries with
  | nil => exact ⟨fun _ => h, fun _ => rfl⟩
  | cons e entries =>
      obtain ⟨-, hlt, hrest⟩ := h
      have hle := hrest.le
      exact ⟨fun hnil => (nomatch hnil), fun heq => by omega⟩

/-- **The range of an offset** is the one it is written in. -/
theorem Covers.find? (h : Covers start entries stop) (n : Nat) :
    (entries.find? fun e => e.start ≤ start + n && start + n < e.stop).map LineEntry.line
      = (linesWritten entries)[n]? := by
  induction entries generalizing start n with
  | nil => rfl
  | cons e entries ih =>
      obtain ⟨rfl, hlt, hrest⟩ := h
      show _ = (List.replicate (e.stop - e.start) e.line ++ linesWritten entries)[n]?
      by_cases hin : e.start + n < e.stop
      · rw [List.find?_cons_of_pos (by simpa using hin), List.getElem?_append_left (by simp; omega),
          List.getElem?_replicate_of_lt (by omega)]
        rfl
      · -- what is left of the offset is counted from where the rest of the table starts
        obtain ⟨m, rfl⟩ : ∃ m, n = (e.stop - e.start) + m := ⟨n - (e.stop - e.start), by omega⟩
        have hsum : e.start + (e.stop - e.start + m) = e.stop + m := by omega
        rw [List.find?_cons_of_neg (by simpa using hin), hsum, ih hrest m,
          List.getElem?_append_right (by simp), List.length_replicate, Nat.add_sub_cancel_left]

end Tables

/-! ## §2. The table of an assembler. -/

/-- The line of what is emitted after a call. -/
def AssemblerCall.lineAfter (line : Nat) : AssemblerCall → Nat
  | .firstLine l | .line l => l
  | _ => line

/-- The line that was current when each byte was emitted. -/
def byteLines (line : Nat) : List AssemblerCall → Assembler → List Nat
  | [], _ => []
  | call :: calls, a => List.replicate (size (answer call.perform a)) line
      ++ byteLines (call.lineAfter line) calls (after call.perform a)

/-- Line table, bytes and current line of an assembler are in step with the lines of the bytes. -/
structure Lined (a : Assembler) (line : Nat) (lines : List Nat) : Prop where
  current : a.currentLine = line
  covers : Covers 0 a.lines.toList a.lineStart
  start_le : a.lineStart ≤ a.bytes.size
  lines_eq : lines
    = linesWritten a.lines.toList ++ List.replicate (a.bytes.size - a.lineStart) line

section Assemblers

variable {a a' : Assembler} {line : Nat} {lines : List Nat}

namespace Lined

/-- The table of a new assembler is empty. -/
theorem new (name : String) : Lined { name := name } 1 [] :=
  ⟨rfl, rfl, Nat.le_refl _, rfl⟩

theorem length_eq (h : Lined a line lines) : lines.length = a.bytes.size := by
  have hle := h.start_le
  rw [h.lines_eq, List.length_append, h.covers.length, List.length_replicate]
  omega

/-- With the open range closed, the table reaches to the last byte. -/
theorem closed (h : Lined a line lines) :
    Covers 0 a.closedLines.toList a.bytes.size ∧ lines = linesWritten a.closedLines.toList := by
  unfold closedLines
  split
  · next hlt =>
      rw [Array.toList_push, linesWritten_append, h.lines_eq, h.current]
      exact ⟨h.covers.append ⟨rfl, hlt, rfl⟩, by simp [linesWritten]⟩
  · next hlt =>
      have hall : a.lineStart = a.bytes.size := Nat.le_antisymm h.start_le (Nat.not_lt.mp hlt)
      refine ⟨hall ▸ h.covers, ?_⟩
      rw [h.lines_eq, hall, Nat.sub_self]
      simp

/-- What is emitted gets the current line. -/
theorem grow (h : Lined a line lines) {n : Nat} (hbytes : a'.bytes.size = a.bytes.size + n)
    (hlines : a'.lines = a.lines) (hstart : a'.lineStart = a.lineStart)
    (hcurrent : a'.currentLine = a.currentLine) :
    Lined a' line (lines ++ List.replicate n line) where
  current := hcurrent.trans h.current
  covers := by
    rw [hlines, hstart]
    exact h.covers
  start_le := by
    have hle := h.start_le
    omega
  lines_eq := by
    have hle := h.start_le
    have hsum : a.bytes.size + n - a.lineStart = (a.bytes.size - a.lineStart) + n := by omega
    rw [hlines, hstart, hbytes, hsum, h.lines_eq, List.append_assoc, List.replicate_append_replicate]

/-- Another line closes the open range. -/
theorem setLine (h : Lined a line lines) (l : Nat) :
    Lined (after (Assembler.setLine l) a) l lines := by
  show Lined (if l = a.currentLine then a else _) l lines
  split
  · next heq => exact (heq.trans h.current) ▸ h
  · obtain ⟨hcovers, hlines⟩ := h.closed
    exact ⟨rfl, hcovers, Nat.le_refl _, by simp [hlines]⟩

/-- The first line closes nothing, so it has to be set before the first byte. -/
theorem setFirstLine (h : Lined a line lines) (hnone : a.bytes.size = 0) (l : Nat) :
    Lined (after (Assembler.setFirstLine l) a) l lines where
  current := rfl
  covers := h.covers
  start_le := h.start_le
  lines_eq := by
    have hstart : a.bytes.size - a.lineStart = 0 := by omega
    show lines = linesWritten a.lines.toList ++ List.replicate (a.bytes.size - a.lineStart) l
    rw [h.lines_eq, hstart, List.replicate_zero, List.replicate_zero]

end Lined

/-- Only the calls that set a line change more of the table than its end. -/
theorem AssemblerCall.sameLines_perform (call : AssemblerCall) (a : Assembler) :
    (∃ l, call = .firstLine l ∨ call = .line l)
      ∨ ((∀ line, call.lineAfter line = line) ∧ a.SameLines (after call.perform a)) := by
  cases call with
  | firstLine l => exact .inl ⟨l, .inl rfl⟩
  | line l => exact .inl ⟨l, .inr rfl⟩
  | param name =>
      refine .inr ⟨fun _ => rfl, ?_⟩
      rw [after_param]
      exact sameLines_declareParam a name
  | «local» name => exact .inr ⟨fun _ => rfl, sameLines_declareLocal a name⟩
  | constant c => exact .inr ⟨fun _ => rfl, (sameTables_addConstant a c).toSameLines⟩
  | name n => exact .inr ⟨fun _ => rfl, (sameTables_addName a n).toSameLines⟩
  | emit opcode arg => exact .inr ⟨fun _ => rfl, (sameTables_emit a opcode arg).toSameLines⟩
  | emitJump opcode l => exact .inr ⟨fun _ => rfl, (sameTables_emitJump a opcode l).toSameLines⟩
  | emitConstant c => exact .inr ⟨fun _ => rfl, (sameTables_emitConstant a c).toSameLines⟩
  | emitNamed opcode n => exact .inr ⟨fun _ => rfl, (sameTables_emitNamed a opcode n).toSameLines⟩
  | emitReturnNone => exact .inr ⟨fun _ => rfl, (sameTables_emitReturnNone a).toSameLines⟩
  | _ => exact .inr ⟨fun _ => rfl, rfl, rfl, rfl⟩

/-- **A call keeps the table in step**: what it emits is at the line that is current. -/
theorem Lined.perform (h : Lined a line lines) (call : AssemblerCall)
    (hfirst : ∀ l, call = .firstLine l → a.bytes.size = 0) :
    Lined (after call.perform a) (call.lineAfter line)
      (lines ++ List.replicate (size (answer call.perform a)) line) := by
  rcases call.sameLines_perform a with ⟨l, rfl | rfl⟩ | ⟨hline, hsame⟩
  · show Lined _ l (lines ++ [])
    rw [List.append_nil]
    exact h.setFirstLine (hfirst l rfl) l
  · show Lined _ l (lines ++ [])
    rw [List.append_nil]
    exact h.setLine l
  · rw [hline line]
    exact h.grow (call.logs_perform a).size_eq hsame.lines_eq hsame.lineStart_eq hsame.currentLine_eq

/-- **So do any calls**, if the first line is set before all bytes. -/
theorem Lined.performAll (h : Lined a line lines) (calls : List AssemblerCall)
    (hfirst : ∀ before rest l, calls = before ++ .firstLine l :: rest →
      (after (Resumable.performAll before) a).bytes.size = 0) :
    ∃ last, Lined (after (Resumable.performAll calls) a) last (lines ++ byteLines line calls a) := by
  induction calls generalizing a line lines with
  | nil => exact ⟨line, (List.append_nil lines).symm ▸ h⟩
  | cons call calls ih =>
      have hcall := h.perform call fun l hl => hfirst [] calls l (hl ▸ rfl)
      obtain ⟨last, hlast⟩ := ih hcall fun before rest l hsplit =>
        hfirst (call :: before) rest l (hsplit ▸ rfl)
      rw [List.append_assoc] at hlast
      exact ⟨last, hlast⟩

end Assemblers

/-! ## §3. The table of a finished body. -/

/-- **The line table partitions the bytes.**  If nothing is emitted before the first line is set for
the last time, then the ranges of a finished body are not empty and follow one another from the
first byte to the last; and each byte is found at the line that was current when it was emitted, but
an offset behind the last byte at none. -/
theorem line_table_partitions {name : String} {calls : List AssemblerCall} {c : Code}
    (hfinish : (after (performAll calls) { name := name }).finish = .ok c)
    (hfirst : ∀ before rest l, calls = before ++ .firstLine l :: rest →
      size (answer (performAll before) { name := name }) = 0) :
    Covers 0 c.lines c.bytes.size
      ∧ (c.lines = [] ↔ c.bytes.size = 0)
      ∧ (byteLines 1 calls { name := name }).length = c.bytes.size
      ∧ ∀ offset, c.lineAt? offset = (byteLines 1 calls { name := name })[offset]? := by
  obtain ⟨last, hlined⟩ := (Lined.new name).performAll calls fun before rest l hsplit => by
    rw [(logs_performAll before _).size_of_new (isNew name)]
    exact hfirst before rest l hsplit
  rw [List.nil_append] at hlined
  obtain ⟨bytes, -, -, hresolved, rfl⟩ := finish_ok.mpr hfinish
  -- filling in the jumps keeps the number of bytes
  have hsize : bytes.size = (after (performAll calls) { name := name }).bytes.size :=
    size_of_resolve hresolved
  obtain ⟨hcovers, hlines⟩ := hlined.closed
  have hnil := hcovers.eq_nil_iff
  refine ⟨hsize ▸ hcovers, ?_, hsize ▸ hlined.length_eq, fun offset => ?_⟩
  · show _ = [] ↔ bytes.size = 0
    rw [hsize, hnil, eq_comm]
  · have hfound := hcovers.find? offset
    rw [Nat.zero_add, ← hlines] at hfound
    exact hfound

/-- Calls that set lines at which nothing is emitted, and one line again after another. -/
def relined : List AssemblerCall :=
  [.line 4, .firstLine 7, .emit .nop 0, .line 8, .line 9, .emitJump .jumpAbsolute 0, .line 8,
    .line 9, .bindLabel 0, .emit .returnValue 0, .line 7]

/-- Only the lines at which something is emitted are in the table. -/
theorem line_table_partitions_relined :
    ∃ c, (after (performAll relined) { name := "f" }).finish = .ok c
      ∧ Covers 0 c.lines c.bytes.size
      ∧ ∀ offset, c.lineAt? offset = [7, 9, 9, 9, 9][offset]? := by
  obtain ⟨c, hfinish⟩ : ∃ c, (after (performAll relined) { name := "f" }).finish = .ok c :=
    exists_finish rfl rfl (by decide) (by decide)
  have hfirst : ∀ before rest l, relined = before ++ .firstLine l :: rest →
      size (answer (performAll before) { name := "f" }) = 0 := by
    intro before rest l hsplit
    rcases before with _ | ⟨one, _ | ⟨two, before⟩⟩
    · cases hsplit
    · cases hsplit
      rfl
    · -- the first line is set once
      have hmem : AssemblerCall.firstLine l ∈ relined.drop 2 := by
        rw [hsplit]
        simp
      simp [relined] at hmem
  obtain ⟨hcovers, -, -, hlines⟩ := line_table_partitions hfinish hfirst
  exact ⟨c, hfinish, hcovers, hlines⟩

end Resumable
