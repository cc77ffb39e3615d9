/-
  Resumable.Proofs.AssemblyCalls
  ──────────────────────────────
  **AN ASSEMBLER EMITS WHAT IT WAS ASKED TO.**

  Whatever calls an assembler is given, what counts of them is written down as they
  are answered: the locals that were declared, where labels were bound, and what was
  emitted at which offset:

      declared x │ emitted 0 LOAD_FAST 0 │ jumped 2 POP_JUMP_IF_TRUE l │ bound l 5 │ …

  The finished body can be read off this log, or why there is none: it lists what was
  emitted, each jump with the offset its label was bound at last, if no violation was
  noted on the way, the bytes are not too many, and each label of a jump was bound,
  before the jump or after it.

  A call only adds to the log of those before it (`Logs.trans`), so each is looked at
  on its own.

  Main results:
    • `logs_performAll`   — the log of any calls tells what the assembler has become,
    • `decode_of_finish`  — a finished body lists what was emitted,
    • `finish_performAll` — what any calls come to when the assembler is finished.
-/
import Resumable.Proofs.Emission

namespace Resumable

open Assembler

/-! ## §1. Calls and their log. -/

/-- A call that may change an assembler; the others only look something up. -/
inductive AssemblerCall where
  | qualname (qualname : String)
  | filename (filename : String)
  | firstLine (line : Nat)
  | line (line : Nat)
  | param (name : String)
  | «local» (name : String)
  | constant (c : Constant)
  | name (name : String)
  | createLabel
  | bindLabel (label : Nat)
  | emit (opcode : Opcode) (arg : UInt16)
  | emitJump (opcode : Opcode) (label : Nat)
  | emitConstant (c : Constant)
  | emitNamed (opcode : Opcode) (name : String)
  | emitReturnNone

/-- What a call has come to. -/
inductive AssemblyEvent where
  /-- A local was declared. -/
  | declared (name : String)
  /-- A label was bound at an offset. -/
  | bound (label offset : Nat)
  /-- An instruction was emitted, and the call answered its offset. -/
  | emitted (offset : Nat) (opcode : Opcode) (arg : UInt16)
  /-- So was a jump to a label. -/
  | jumped (offset : Nat) (opcode : Opcode) (label : Nat)

/-- Make a call, and note what it has come to.  A constant and a name are emitted by their
index in the pool. -/
def AssemblerCall.perform : AssemblerCall → Assembly (List AssemblyEvent)
  | .qualname q => do
      setQualname q
      pure []
  | .filename f => do
      setFilename f
      pure []
  | .firstLine l => do
      setFirstLine l
      pure []
  | .line l => do
      setLine l
      pure []
  | .param n => do
      match ← declareParam n with
      | .ok _ => pure [.declared n]
      | .error _ => pure []
  | .local n => do
      let _ ← declareLocal n
      pure [.declared n]
  | .constant c => do
      let _ ← addConstant c
      pure []
  | .name n => do
      let _ ← addName n
      pure []
  | .createLabel => do
      let _ ← Assembler.createLabel
      pure []
  | .bindLabel label => do
      let a ← get
      Assembler.bindLabel label
      pure [.bound label a.offset]
  | .emit opcode arg => do
      let offset ← Assembler.emit opcode arg
      pure [.emitted offset opcode arg]
  | .emitJump opcode label => do
      let offset ← Assembler.emitJump opcode label
      pure [.jumped offset opcode label]
  | .emitConstant c => do
      let a ← get
      let offset ← Assembler.emitConstant c
      pure [.emitted offset .loadConst (answer (addConstant c) a)]
  | .emitNamed opcode n => do
      let a ← get
      let offset ← Assembler.emitNamed opcode n
      pure [.emitted offset opcode (answer (addName n) a)]
  | .emitReturnNone => do
      let a ← get
      let offset ← Assembler.emitReturnNone
      pure [.emitted offset .loadConst (answer (addConstant .none) a),
        .emitted (offset + Opcode.loadConst.width) .returnValue 0]

/-- Make calls one after the other. -/
def performAll : List AssemblerCall → Assembly (List AssemblyEvent)
  | [] => pure []
  | call :: calls => do
      let log ← call.perform
      let rest ← performAll calls
      pure (log ++ rest)

/-! ## §2. Reading a log. -/

namespace AssemblyEvent

/-- The bytes that were emitted. -/
def width : AssemblyEvent → Nat
  | .emitted _ opcode _ | .jumped _ opcode _ => opcode.width
  | _ => 0

/-- Whether the offset it tells is that of the next instruction. -/
def Starts (offset : Nat) : AssemblyEvent → Prop
  | .declared _ => True
  | .bound _ start | .emitted start _ _ | .jumped start _ _ => start = offset

/-- The name that was declared. -/
def declared? : AssemblyEvent → Option String
  | .declared name => some name
  | _ => none

/-- The place that was given to a label. -/
def place? (label : Nat) : AssemblyEvent → Option Nat
  | .bound l offset => if l = label then some offset else none
  | _ => none

/-- The label that was jumped to. -/
def target? : AssemblyEvent → Option Nat
  | .jumped _ _ label => some label
  | _ => none

/-- The instruction that was emitted, with the places that labels have. -/
def instruction? (place : Nat → Nat) : AssemblyEvent → Option Instruction
  | .emitted offset opcode arg => some (.written offset opcode arg)
  | .jumped offset opcode label => some (.jumping offset opcode (place label))
  | _ => none

/-- The locals after it, of those before. -/
def learn (known : List String) : AssemblyEvent → List String
  | .declared name => if name ∈ known then known else known ++ [name]
  | _ => known

/-- What was wrong with it, given the locals before. -/
def violation? (known : List String) : AssemblyEvent → Option AssemblyError
  | .declared name => if name ∈ known then none else crowding? known.length
  | .bound _ _ => none
  | .emitted _ opcode arg => wideness? opcode arg
  | .jumped _ opcode _ => standstill? opcode

end AssemblyEvent

namespace AssemblyLog

/-- The bytes that were emitted. -/
def size (log : List AssemblyEvent) : Nat :=
  (log.map AssemblyEvent.width).sum

/-- The names that were declared. -/
def names (log : List AssemblyEvent) : List String :=
  log.filterMap AssemblyEvent.declared?

/-- The place that was given to a label last. -/
def place? (log : List AssemblyEvent) (label : Nat) : Option Nat :=
  (log.filterMap (AssemblyEvent.place? label)).getLast?

/-- What was emitted, each jump to where its label was bound last. -/
def instructions (log : List AssemblyEvent) : List Instruction :=
  log.filterMap (AssemblyEvent.instruction? fun label => (place? log label).getD 0)

/-- The offsets are those of instructions one after the other. -/
def Placed : Nat → List AssemblyEvent → Prop
  | _, [] => True
  | start, e :: log => e.Starts start ∧ Placed (start + e.width) log

/-- All locals, of those known before. -/
def learnAll (known : List String) (log : List AssemblyEvent) : List String :=
  log.foldl AssemblyEvent.learn known

/-- The first thing that was wrong, given the locals known before. -/
def firstViolation : List String → List AssemblyEvent → Option AssemblyError
  | _, [] => none
  | known, e :: log => (e.violation? known).or (firstViolation (e.learn known) log)

/-- Nothing was wrong with what was asked for. -/
structure Sound (log : List AssemblyEvent) : Prop where
  narrow : ∀ {offset opcode arg}, .emitted offset opcode arg ∈ log →
    opcode.operandClass = .byte → arg.toNat ≤ 255
  jumps : ∀ {offset opcode label}, .jumped offset opcode label ∈ log → opcode.isJump = true
  locals : (names log).dedup.length ≤ 256
  short : size log ≤ maxSize
  placed : ∀ {offset opcode label}, .jumped offset opcode label ∈ log →
    ∃ place, .bound label place ∈ log

/-- What was wrong: the first violation noted, else too many bytes, else the label of the
first jump to one that was never bound. -/
inductive FailsWith (log : List AssemblyEvent) : AssemblyError → Prop
  | violation {e : AssemblyError} : firstViolation [] log = some e → FailsWith log e
  | tooLong : firstViolation [] log = none → maxSize < size log → FailsWith log (.tooLong (size log))
  | unplaced {before after : List AssemblyEvent} {offset : Nat} {opcode : Opcode} {label : Nat} :
      firstViolation [] log = none → size log ≤ maxSize →
      log = before ++ .jumped offset opcode label :: after →
      (∀ {offset opcode l}, .jumped offset opcode l ∈ before → ∃ place, .bound l place ∈ log) →
      (∀ place, .bound label place ∉ log) → FailsWith log (.unplacedLabel label)

variable {log log' : List AssemblyEvent} {start label : Nat} {known : List String}

@[simp] theorem size_append : size (log ++ log') = size log + size log' := by
  simp [size]

theorem placed_append : Placed start (log ++ log')
    ↔ Placed start log ∧ Placed (start + size log) log' := by
  induction log generalizing start with
  | nil => simp [Placed, size]
  | cons e log ih =>
      simp only [List.cons_append, Placed, ih, size, List.map_cons, List.sum_cons, and_assoc,
        Nat.add_assoc]

theorem place?_append : place? (log ++ log') label = (place? log' label).or (place? log label) := by
  unfold place?
  rw [List.filterMap_append, List.getLast?_append]

theorem learnAll_append : learnAll known (log ++ log') = learnAll (learnAll known log) log' :=
  List.foldl_append

theorem learnAll_singleton (e : AssemblyEvent) : learnAll known [e] = e.learn known :=
  rfl

theorem firstViolation_singleton (e : AssemblyEvent) :
    firstViolation known [e] = e.violation? known := by
  rw [firstViolation, firstViolation, Option.or_none]

theorem firstViolation_append : firstViolation known (log ++ log')
    = (firstViolation known log).or (firstViolation (learnAll known log) log') := by
  induction log generalizing known with
  | nil => rfl
  | cons e log ih =>
      rw [List.cons_append, firstViolation, ih, firstViolation, Option.or_assoc]
      rfl

/-- A label is where it was bound. -/
theorem bound_of_place? {place : Nat} (h : place? log label = some place) :
    .bound label place ∈ log := by
  obtain ⟨e, he, hplace⟩ := List.mem_filterMap.mp (List.mem_of_getLast? h)
  cases e with
  | bound l offset =>
      obtain ⟨rfl, rfl⟩ : l = label ∧ offset = place := by simpa [AssemblyEvent.place?] using hplace
      exact he
  | _ => cases hplace

/-- A label that was bound has a place. -/
theorem exists_place? {place : Nat} (h : .bound label place ∈ log) :
    ∃ p, place? log label = some p := by
  have hmem : place ∈ log.filterMap (AssemblyEvent.place? label) :=
    List.mem_filterMap.mpr ⟨_, h, if_pos rfl⟩
  exact Option.isSome_iff_exists.mp (List.getLast?_isSome.mpr (List.ne_nil_of_mem hmem))

/-- Labels are bound between instructions. -/
theorem Placed.le {place : Nat} (h : Placed start log) (hbound : .bound label place ∈ log) :
    place ≤ start + size log := by
  induction log generalizing start with
  | nil => cases hbound
  | cons e log ih =>
      obtain ⟨hstarts, hrest⟩ := h
      have hsize : size (e :: log) = e.width + size log := by simp [size]
      rw [hsize]
      rcases List.mem_cons.mp hbound with rfl | hbound
      · have : place = start := hstarts
        omega
      · have := ih hrest hbound
        omega

/-- The instructions emitted take the bytes emitted. -/
theorem widthOf_instructions : widthOf (instructions log) = size log := by
  unfold instructions
  generalize (fun label => (place? log label).getD 0) = place
  induction log with
  | nil => rfl
  | cons e log ih =>
      have hsize : size (e :: log) = e.width + size log := by simp [size]
      rw [hsize, ← ih]
      cases e with
      | declared name => exact (Nat.zero_add _).symm
      | bound l offset => exact (Nat.zero_add _).symm
      | emitted offset opcode arg => exact widthOf_cons ..
      | jumped offset opcode l => exact widthOf_cons ..

/-- The instructions emitted stand in a row. -/
theorem inRow_of_placed {place : Nat → Nat} (h : Placed start log) :
    InRow start (log.filterMap (AssemblyEvent.instruction? place)) := by
  induction log generalizing start with
  | nil => trivial
  | cons e log ih =>
      obtain ⟨hstarts, hrest⟩ := h
      cases e with
      | declared name => exact ih hrest
      | bound l offset => exact ih hrest
      | emitted offset opcode arg => exact ⟨hstarts, ih hrest⟩
      | jumped offset opcode l => exact ⟨hstarts, ih hrest⟩

theorem learn_known {name : String} (h : name ∈ known) :
    AssemblyEvent.learn known (.declared name) = known :=
  if_pos h

theorem learn_new {name : String} (h : name ∉ known) :
    AssemblyEvent.learn known (.declared name) = known ++ [name] :=
  if_neg h

/-- Locals are only added. -/
theorem length_le_learnAll (known : List String) (log : List AssemblyEvent) :
    known.length ≤ (learnAll known log).length := by
  induction log generalizing known with
  | nil => exact Nat.le_refl _
  | cons e log ih =>
      refine Nat.le_trans ?_ (ih _)
      cases e with
      | declared name =>
          by_cases h : name ∈ known
          · rw [learn_known h]
          · simp [learn_new h]
      | _ => exact Nat.le_refl _

/-- No local is there twice, and all are there. -/
theorem nodup_learnAll (log : List AssemblyEvent) (h : known.Nodup) :
    (learnAll known log).Nodup
      ∧ ∀ name, name ∈ learnAll known log ↔ name ∈ known ∨ name ∈ names log := by
  induction log generalizing known with
  | nil => exact ⟨h, fun name => by simp [learnAll, names]⟩
  | cons e log ih =>
      cases e with
      | declared name =>
          have hnext : (AssemblyEvent.learn known (.declared name)).Nodup
              ∧ ∀ other, other ∈ AssemblyEvent.learn known (.declared name)
                ↔ other ∈ known ∨ other = name := by
            by_cases hold : name ∈ known
            · rw [learn_known hold]
              exact ⟨h, fun other => ⟨.inl, fun h => h.elim id fun heq => heq ▸ hold⟩⟩
            · rw [learn_new hold]
              refine ⟨List.nodup_append.mpr ⟨h, List.nodup_singleton name, ?_⟩, fun other => by simp⟩
              rintro a ha b hb rfl
              exact hold (List.mem_singleton.mp hb ▸ ha)
          obtain ⟨hnodup, hmem⟩ := ih hnext.1
          refine ⟨hnodup, fun other => (hmem other).trans ?_⟩
          rw [hnext.2]
          simp [names, AssemblyEvent.declared?, or_assoc]
      | _ => exact ih h

theorem length_learnAll : (learnAll [] log).length = (names log).dedup.length := by
  obtain ⟨hnodup, hmem⟩ := nodup_learnAll log List.nodup_nil
  refine ((List.perm_ext_iff_of_nodup hnodup (List.nodup_dedup _)).mpr fun name => ?_).length_eq
  rw [hmem, List.mem_dedup]
  simp

theorem wideness?_eq_none {opcode : Opcode} {arg : UInt16} :
    wideness? opcode arg = none ↔ (opcode.operandClass = .byte → arg.toNat ≤ 255) := by
  unfold wideness?
  split
  · next h => simpa using ⟨h.1, h.2⟩
  · next h => simpa [not_and] using h

theorem standstill?_eq_none {opcode : Opcode} : standstill? opcode = none ↔ opcode.isJump = true := by
  unfold standstill?
  split
  · next h => simp [h]
  · next h => simp [h]

theorem crowding?_eq_none {n : Nat} : crowding? n = none ↔ n ≤ 255 := by
  unfold crowding?
  split
  · next h => simp [h]
  · next h => simpa using h

/-- **No violation is noted** if operands are narrow enough, jumps jump, and locals are few. -/
theorem firstViolation_eq_none (hknown : known.length ≤ 256) : firstViolation known log = none
    ↔ (∀ {offset opcode arg}, .emitted offset opcode arg ∈ log →
          opcode.operandClass = .byte → arg.toNat ≤ 255)
      ∧ (∀ {offset opcode label}, .jumped offset opcode label ∈ log → opcode.isJump = true)
      ∧ (learnAll known log).length ≤ 256 := by
  induction log generalizing known with
  | nil => simpa [firstViolation, learnAll] using hknown
  | cons e log ih =>
      rw [firstViolation, Option.or_eq_none_iff]
      show _ ↔ _ ∧ _ ∧ (learnAll (e.learn known) log).length ≤ 256
      cases e with
      | declared name =>
          by_cases h : name ∈ known
          · simp only [AssemblyEvent.violation?, if_pos h, learn_known h, ih hknown]
            simp
          · simp only [AssemblyEvent.violation?, if_neg h, learn_new h, crowding?_eq_none]
            have hlength : (known ++ [name]).length = known.length + 1 := List.length_append
            -- the first local over the limit is a violation when it is declared
            by_cases hroom : known.length ≤ 255
            · rw [ih (by omega)]
              simp [hroom]
            · -- one local too many stays too many, whatever comes after it
              have hle := length_le_learnAll (known ++ [name]) log
              constructor
              · rintro ⟨hfew, -⟩
                exact absurd hfew hroom
              · rintro ⟨-, -, hfew⟩
                omega
      | bound l offset =>
          show none = none ∧ firstViolation known log = none
            ↔ _ ∧ _ ∧ (learnAll known log).length ≤ 256
          rw [ih hknown]
          simp
      | emitted offset opcode arg =>
          show wideness? opcode arg = none ∧ firstViolation known log = none
            ↔ _ ∧ _ ∧ (learnAll known log).length ≤ 256
          rw [ih hknown, wideness?_eq_none]
          constructor
          · rintro ⟨hfits, hnarrow, hjumps, hfew⟩
            refine ⟨fun hmem => ?_, fun hmem => hjumps (by simpa using hmem), hfew⟩
            rcases List.mem_cons.mp hmem with heq | hmem
            · obtain ⟨rfl, rfl, rfl⟩ := AssemblyEvent.emitted.inj heq
              exact hfits
            · exact hnarrow hmem
          · rintro ⟨hnarrow, hjumps, hfew⟩
            exact ⟨hnarrow (List.mem_cons_self ..), fun hmem => hnarrow (List.mem_cons_of_mem _ hmem),
              fun hmem => hjumps (List.mem_cons_of_mem _ hmem), hfew⟩
      | jumped offset opcode l =>
          show standstill? opcode = none ∧ firstViolation known log = none
            ↔ _ ∧ _ ∧ (learnAll known log).length ≤ 256
          rw [ih hknown, standstill?_eq_none]
          constructor
          · rintro ⟨hjump, hnarrow, hjumps, hfew⟩
            refine ⟨fun hmem => hnarrow (by simpa using hmem), fun hmem => ?_, hfew⟩
            rcases List.mem_cons.mp hmem with heq | hmem
            · obtain ⟨rfl, rfl, rfl⟩ := AssemblyEvent.jumped.inj heq
              exact hjump
            · exact hjumps hmem
          · rintro ⟨hnarrow, hjumps, hfew⟩
            exact ⟨hjumps (List.mem_cons_self ..), fun hmem => hnarrow (List.mem_cons_of_mem _ hmem),
              fun hmem => hjumps (List.mem_cons_of_mem _ hmem), hfew⟩

end AssemblyLog

/-! ## §3. What an assembler has become. -/

/-- The locals with a slot are those that are listed. -/
def Assembler.KnowsLocals (a : Assembler) : Prop :=
  ∀ name, (∃ slot, a.localSlot[name]? = some slot) ↔ name ∈ a.varnames.toList

open AssemblyLog

/-- What the log of some calls tells of the assembler they were made to. -/
structure Logs (a : Assembler) (log : List AssemblyEvent) (a' : Assembler) : Prop where
  placed : Placed a.bytes.size log
  size_eq : a'.bytes.size = a.bytes.size + size log
  labels_eq : ∀ label, a'.labels[label]? = (place? log label).or a.labels[label]?
  jumps_eq : a'.jumps.toList.map PendingJump.label
    = a.jumps.toList.map PendingJump.label ++ log.filterMap AssemblyEvent.target?
  locals : a.KnowsLocals → a'.KnowsLocals ∧ a'.varnames.toList = learnAll a.varnames.toList log
    ∧ a'.violation = a.violation.or (firstViolation a.varnames.toList log)
  /-- With places for all labels that are jumped to, the instructions have been emitted. -/
  emits : ∀ (labels : Std.HashMap Nat Nat), (∀ {offset opcode label},
      .jumped offset opcode label ∈ log → opcode.isJump = true ∧ ∃ place, labels[label]? = some place) →
    Emits labels (log.filterMap (AssemblyEvent.instruction? fun label => (labels[label]?).getD 0)) a a'

section Calls

variable {a a' a'' : Assembler} {log log' : List AssemblyEvent}

theorem Logs.trans (h : Logs a log a') (h' : Logs a' log' a'') : Logs a (log ++ log') a'' where
  placed := placed_append.mpr ⟨h.placed, h.size_eq ▸ h'.placed⟩
  size_eq := by rw [h'.size_eq, h.size_eq, size_append, Nat.add_assoc]
  labels_eq label := by rw [h'.labels_eq, h.labels_eq, place?_append, Option.or_assoc]
  jumps_eq := by rw [h'.jumps_eq, h.jumps_eq, List.filterMap_append, List.append_assoc]
  locals hknows := by
    obtain ⟨hmiddle, hnames, hviolation⟩ := h.locals hknows
    obtain ⟨hend, hnames', hviolation'⟩ := h'.locals hmiddle
    refine ⟨hend, ?_, ?_⟩
    · rw [hnames', hnames, learnAll_append]
    · rw [hviolation', hviolation, hnames, firstViolation_append, Option.or_assoc]
  emits labels hlabels := by
    rw [List.filterMap_append]
    exact (h.emits labels fun hmem => hlabels (List.mem_append_left _ hmem)).trans
      (h'.emits labels fun hmem => hlabels (List.mem_append_right _ hmem))

/-- Nothing is noted of a call that leaves bytes, jumps, labels and locals alone. -/
theorem Logs.of_same (hbytes : a'.bytes = a.bytes) (hjumps : a'.jumps = a.jumps)
    (hlabels : a'.labels = a.labels) (hslots : a'.localSlot = a.localSlot)
    (hnames : a'.varnames = a.varnames) (hviolation : a'.violation = a.violation) : Logs a [] a' where
  placed := trivial
  size_eq := by rw [hbytes]; rfl
  labels_eq label := by rw [hlabels]; rfl
  jumps_eq := by rw [hjumps]; exact (List.append_nil _).symm
  locals hknows := by
    refine ⟨?_, by rw [hnames]; rfl, by rw [hviolation]; exact Option.or_none.symm⟩
    unfold KnowsLocals
    rw [hslots, hnames]
    exact hknows
  emits labels _ := .of_eq hbytes hjumps fun hnone => hviolation ▸ hnone

theorem Assembler.Quiet.logs (h : Quiet a a') : Logs a [] a' :=
  .of_same h.bytes_eq h.jumps_eq h.labels_eq h.localSlot_eq h.varnames_eq h.violation_eq

theorem logs_emit (opcode : Opcode) (arg : UInt16) :
    Logs a [.emitted a.bytes.size opcode arg] (after (emit opcode arg) a) where
  placed := ⟨rfl, trivial⟩
  size_eq := by rw [after_emit]; simp [size, AssemblyEvent.width]
  labels_eq label := by rw [after_emit]; rfl
  jumps_eq := by rw [after_emit]; exact (List.append_nil _).symm
  locals hknows := by
    rw [after_emit, Option.orElse_eq_orElse, Option.orElse_eq_or, firstViolation_singleton]
    exact ⟨hknows, rfl, rfl⟩
  emits labels _ := emits_emit opcode arg rfl

theorem logs_emitJump (opcode : Opcode) (label : Nat) :
    Logs a [.jumped a.bytes.size opcode label] (after (emitJump opcode label) a) where
  placed := ⟨rfl, trivial⟩
  size_eq := by rw [after_emitJump]; simp [size, AssemblyEvent.width]
  labels_eq label := by rw [after_emitJump]; rfl
  jumps_eq := by rw [after_emitJump]; simp [AssemblyEvent.target?]
  locals hknows := by
    rw [after_emitJump, Option.orElse_eq_orElse, Option.orElse_eq_or, firstViolation_singleton]
    exact ⟨hknows, rfl, rfl⟩
  emits labels hlabels := by
    obtain ⟨hjump, place, hplace⟩ := hlabels (List.mem_singleton_self _)
    have hone := emits_emitJump hjump hplace (rfl : a.bytes.size = _)
    rw [List.filterMap_cons, AssemblyEvent.instruction?, hplace]
    exact hone

theorem logs_bindLabel (label : Nat) :
    Logs a [.bound label a.bytes.size] (after (bindLabel label) a) where
  placed := ⟨rfl, trivial⟩
  size_eq := rfl
  labels_eq l := by
    by_cases heq : l = label
    · subst heq
      rw [bindLabel_same]
      simp [place?, AssemblyEvent.place?]
    · rw [bindLabel_other a label heq]
      simp [place?, AssemblyEvent.place?, Ne.symm heq]
  jumps_eq := (List.append_nil _).symm
  locals hknows := ⟨hknows, rfl, Option.or_none.symm⟩
  emits labels _ := emits_bindLabel label

theorem logs_declareLocal (name : String) :
    Logs a [.declared name] (after (declareLocal name) a) := by
  have hlocals : a.KnowsLocals → (after (declareLocal name) a).KnowsLocals
      ∧ (after (declareLocal name) a).varnames.toList = learnAll a.varnames.toList [.declared name]
      ∧ (after (declareLocal name) a).violation
        = a.violation.or (firstViolation a.varnames.toList [.declared name]) := by
    intro hknows
    rw [learnAll_singleton, firstViolation_singleton]
    cases hslot : a.localSlot[name]? with
    | some slot =>
        have hmem : name ∈ a.varnames.toList := (hknows name).mp ⟨slot, hslot⟩
        rw [after_declareLocal_known a hslot, learn_known hmem, AssemblyEvent.violation?, if_pos hmem]
        exact ⟨hknows, rfl, Option.or_none.symm⟩
    | none =>
        -- a listed name would have a slot
        have hmem : name ∉ a.varnames.toList := by
          intro h
          obtain ⟨slot, hsome⟩ := (hknows name).mpr h
          rw [hslot] at hsome
          cases hsome
        rw [after_declareLocal_new a hslot, learn_new hmem, AssemblyEvent.violation?, if_neg hmem,
          Option.orElse_eq_orElse, Option.orElse_eq_or]
        refine ⟨fun other => ?_, Array.toList_push, rfl⟩
        show (∃ slot, (a.localSlot.insert name _)[other]? = some slot)
          ↔ other ∈ (a.varnames.push name).toList
        rw [Std.HashMap.getElem?_insert, Array.toList_push, List.mem_append, List.mem_singleton,
          ← hknows]
        by_cases heq : name = other
        · simp [heq]
        · simp [heq, Ne.symm heq]
  cases hslot : a.localSlot[name]? with
  | some slot =>
      refine ⟨⟨trivial, trivial⟩, ?_, fun label => ?_, ?_, hlocals,
        fun labels _ => emits_declareLocal name⟩
      · rw [after_declareLocal_known a hslot]
        rfl
      · rw [after_declareLocal_known a hslot]
        rfl
      · rw [after_declareLocal_known a hslot]
        exact (List.append_nil _).symm
  | none =>
      refine ⟨⟨trivial, trivial⟩, ?_, fun label => ?_, ?_, hlocals,
        fun labels _ => emits_declareLocal name⟩
      · rw [after_declareLocal_new a hslot]
        rfl
      · rw [after_declareLocal_new a hslot]
        rfl
      · rw [after_declareLocal_new a hslot]
        exact (List.append_nil _).symm

/-- A call that declares a parameter does nothing else. -/
theorem AssemblerCall.after_param (a : Assembler) (name : String) :
    after (AssemblerCall.perform (.param name)) a = after (declareParam name) a := by
  unfold AssemblerCall.perform
  rw [after_bind]
  cases answer (declareParam name) a <;> rfl

/-- A parameter is declared as a local, if it is not too late for that. -/
theorem logs_param (name : String) :
    Logs a (answer (AssemblerCall.perform (.param name)) a)
      (after (AssemblerCall.perform (.param name)) a) := by
  unfold AssemblerCall.perform declareParam
  simp only [after_bind, answer_bind, after_get, answer_get]
  by_cases h : a.varnames.size = a.argCount.toNat
  · simp only [h, if_true]
    have hone := logs_declareLocal (a := a) name
    have hsame : Logs (after (declareLocal name) a) [] { after (declareLocal name) a with
        argCount := (after (declareLocal name) a).varnames.size.toUInt16 } :=
      .of_same rfl rfl rfl rfl rfl rfl
    exact hone.trans hsame
  · simp only [h, if_false]
    exact (Quiet.refl a).logs

/-- After a call that changes none of it, an instruction is emitted where the bytes ended. -/
theorem Assembler.Quiet.logs_emit (h : Quiet a a') (opcode : Opcode) (arg : UInt16) :
    Logs a [.emitted (answer (emit opcode arg) a') opcode arg] (after (emit opcode arg) a') := by
  rw [answer_emit]
  exact h.logs.trans (Resumable.logs_emit opcode arg)

theorem logs_emitConstant (c : Constant) :
    Logs a [.emitted (answer (emitConstant c) a) .loadConst (answer (addConstant c) a)]
      (after (emitConstant c) a) :=
  (quiet_addConstant a c).logs_emit .loadConst _

/-- **The log of a call** tells what it has changed. -/
theorem AssemblerCall.logs_perform (call : AssemblerCall) (a : Assembler) :
    Logs a (answer call.perform a) (after call.perform a) := by
  cases call with
  | qualname q => exact .of_same rfl rfl rfl rfl rfl rfl
  | filename f => exact .of_same rfl rfl rfl rfl rfl rfl
  | firstLine l => exact .of_same rfl rfl rfl rfl rfl rfl
  | line l => exact (quiet_setLine a l).logs
  | param name => exact logs_param name
  | «local» name => exact logs_declareLocal name
  | constant c => exact (quiet_addConstant a c).logs
  | name n => exact (quiet_addName a n).logs
  | createLabel => exact .of_same rfl rfl rfl rfl rfl rfl
  | bindLabel label => exact logs_bindLabel label
  | emit opcode arg =>
      have h := logs_emit (a := a) opcode arg
      rw [← answer_emit a opcode arg] at h
      exact h
  | emitJump opcode label =>
      have h := logs_emitJump (a := a) opcode label
      rw [← answer_emitJump a opcode label] at h
      exact h
  | emitConstant c => exact logs_emitConstant c
  | emitNamed opcode n => exact (quiet_addName a n).logs_emit opcode _
  | emitReturnNone =>
      -- the second instruction is logged where the first one ends, whatever its constant's index
      have hfirst := logs_emitConstant (a := a) .none
      have hoffset : answer (Assembler.emitConstant .none) a = a.bytes.size := hfirst.placed.1
      have hsize : (after (Assembler.emitConstant .none) a).bytes.size
          = answer (Assembler.emitConstant .none) a + Opcode.loadConst.width := by
        rw [hfirst.size_eq, hoffset]
        rfl
      have hsecond := logs_emit (a := after (Assembler.emitConstant .none) a) .returnValue 0
      rw [hsize] at hsecond
      exact hfirst.trans hsecond

/-- **So does the log of any calls**, one after the other. -/
theorem logs_performAll (calls : List AssemblerCall) (a : Assembler) :
    Logs a (answer (performAll calls) a) (after (performAll calls) a) := by
  induction calls generalizing a with
  | nil => exact (Quiet.refl a).logs
  | cons call calls ih => exact (call.logs_perform a).trans (ih _)

end Calls

/-! ## §4. Finishing. -/

section Finishing

variable {labels : Std.HashMap Nat Nat} {bytes : Bytes} {jumps : List PendingJump}

/-- The first jump whose label has no place stops the filling in. -/
theorem resolve_error {before after : List PendingJump} {j : PendingJump}
    (hbefore : ∀ i ∈ before, ∃ place, labels[i.label]? = some place)
    (hj : labels[j.label]? = none) :
    (before ++ j :: after).foldlM (resolveJump labels) bytes = .error (.unplacedLabel j.label) := by
  induction before generalizing bytes with
  | nil =>
      rw [List.nil_append, List.foldlM_cons, resolveJump, hj]
      rfl
  | cons i before ih =>
      obtain ⟨⟨place, hplace⟩, hrest⟩ := List.forall_mem_cons.mp hbefore
      rw [List.cons_append, List.foldlM_cons, resolveJump, hplace]
      exact ih hrest

/-- There is a first jump to a label of a kind, if there is one. -/
theorem exists_first_jump {P : Nat → Prop} {log : List AssemblyEvent}
    (h : ¬ ∀ {offset opcode label}, .jumped offset opcode label ∈ log → P label) :
    ∃ before after offset opcode label, log = before ++ .jumped offset opcode label :: after
      ∧ (∀ {offset opcode l}, .jumped offset opcode l ∈ before → P l) ∧ ¬ P label := by
  induction log with
  | nil =>
      refine (h fun hmem => ?_).elim
      cases hmem
  | cons e log ih =>
      by_cases hhead : ∃ offset opcode label, e = .jumped offset opcode label ∧ ¬ P label
      · obtain ⟨offset, opcode, label, rfl, hnot⟩ := hhead
        refine ⟨[], log, offset, opcode, label, rfl, fun hmem => ?_, hnot⟩
        cases hmem
      · have he {offset opcode label} (heq : .jumped offset opcode label = e) : P label := by
          by_contra hnot
          exact hhead ⟨offset, opcode, label, heq.symm, hnot⟩
        have htail : ¬ ∀ {offset opcode label}, .jumped offset opcode label ∈ log → P label := by
          intro hall
          refine h fun hmem => ?_
          exact (List.mem_cons.mp hmem).elim he hall
        obtain ⟨before, after, offset, opcode, label, rfl, hbefore, hnot⟩ := ih htail
        refine ⟨e :: before, after, offset, opcode, label, rfl, fun hmem => ?_, hnot⟩
        exact (List.mem_cons.mp hmem).elim he hbefore

end Finishing

section Outcomes

variable {a a₀ : Assembler} {log : List AssemblyEvent}

/-- A new assembler has nothing. -/
structure Assembler.IsNew (a : Assembler) : Prop where
  bytes_eq : a.bytes = #[]
  jumps_eq : a.jumps = #[]
  labels_eq : ∀ label : Nat, a.labels[label]? = none
  knows : a.KnowsLocals
  varnames_eq : a.varnames = #[]
  violation_eq : a.violation = none

theorem Assembler.isNew (name : String) : IsNew { name := name } := by
  refine ⟨rfl, rfl, fun label => Std.HashMap.getElem?_empty, fun other => ?_, rfl, rfl⟩
  constructor
  · rintro ⟨slot, h⟩
    rw [Std.HashMap.getElem?_empty] at h
    cases h
  · intro h
    cases h

namespace Logs

theorem violation_of_new (h : Logs a₀ log a) (hnew : a₀.IsNew) :
    a.violation = firstViolation [] log := by
  obtain ⟨-, -, hviolation⟩ := h.locals hnew.knows
  rw [hviolation, hnew.violation_eq, hnew.varnames_eq]
  rfl

theorem size_of_new (h : Logs a₀ log a) (hnew : a₀.IsNew) : a.bytes.size = size log := by
  rw [h.size_eq, hnew.bytes_eq]
  exact Nat.zero_add _

theorem place_of_new (h : Logs a₀ log a) (hnew : a₀.IsNew) (label : Nat) :
    a.labels[label]? = place? log label := by
  rw [h.labels_eq, hnew.labels_eq, Option.or_none]

/-- **The bytes of an assembler**, filled in, are those of the instructions in its log. -/
theorem resolved_of_new (h : Logs a₀ log a) (hnew : a₀.IsNew)
    (hjumps : ∀ {offset opcode label}, .jumped offset opcode label ∈ log → opcode.isJump = true)
    (hplaced : ∀ {offset opcode label}, .jumped offset opcode label ∈ log →
      ∃ place, .bound label place ∈ log) :
    a.resolved a.labels = .ok (bytesOf (instructions log)).toArray
      ∧ (a.violation = none → ∀ i ∈ instructions log, i.Fits) := by
  have hemits := h.emits a.labels fun hmem => ⟨hjumps hmem, by
    obtain ⟨place, hbound⟩ := hplaced hmem
    rw [h.place_of_new hnew]
    exact exists_place? hbound⟩
  simp only [h.place_of_new hnew] at hemits
  refine ⟨?_, fun hnone => (hemits.fits hnone).2⟩
  -- all bytes come after those of the new assembler, which has none
  have hin : a₀.InBounds := by
    intro j hj
    rw [hnew.jumps_eq] at hj
    simp at hj
  have hempty : a₀.resolved a.labels = .ok #[] := by
    unfold resolved
    rw [hnew.jumps_eq, hnew.bytes_eq]
    rfl
  rw [hemits.resolved_eq hin, hempty]
  exact congrArg Except.ok (Array.ext' (by simp [instructions]))

/-- With no violation, few enough bytes and a place for each label, it is finished, and the body
lists the instructions in its log. -/
theorem finish_of_new (h : Logs a₀ log a) (hnew : a₀.IsNew) (hnone : firstViolation [] log = none)
    (hshort : size log ≤ maxSize)
    (hplaced : ∀ {offset opcode label}, .jumped offset opcode label ∈ log →
      ∃ place, .bound label place ∈ log) :
    ∃ c, a.finish = .ok c ∧ decode c.bytes = .ok (instructions log).toArray := by
  obtain ⟨-, hjumps, -⟩ := (firstViolation_eq_none (Nat.zero_le _)).mp hnone
  have hviolation : a.violation = none := (h.violation_of_new hnew).trans hnone
  obtain ⟨hresolved, hfits⟩ := h.resolved_of_new hnew hjumps hplaced
  have hsize := (h.size_of_new hnew).trans_le hshort
  have hplaces : Placed 0 log := by
    have hplaces := h.placed
    rw [hnew.bytes_eq] at hplaces
    exact hplaces
  exact ⟨_, finish_ok.mp ⟨_, hviolation, hsize, hresolved, rfl⟩,
    decode_bytesOf (inRow_of_placed hplaces) (hfits hviolation)⟩

/-- A jump to a label that was never bound cannot be filled in. -/
theorem unresolved_of_new (h : Logs a₀ log a) (hnew : a₀.IsNew) {before after : List AssemblyEvent}
    {offset label : Nat} {opcode : Opcode} (hlog : log = before ++ .jumped offset opcode label :: after)
    (hbefore : ∀ {offset opcode l}, .jumped offset opcode l ∈ before → ∃ place, .bound l place ∈ log)
    (hnever : ∀ place, .bound label place ∉ log) :
    a.resolved a.labels = .error (.unplacedLabel label) := by
  have hlabels : a.jumps.toList.map PendingJump.label = before.filterMap AssemblyEvent.target?
      ++ label :: after.filterMap AssemblyEvent.target? := by
    rw [h.jumps_eq, hnew.jumps_eq, hlog, List.filterMap_append]
    rfl
  -- the log and the pending jumps agree on labels only, so the jumps are split where these are
  obtain ⟨first, rest, hjumps, hfirst, hrest⟩ := List.map_eq_append_iff.mp hlabels
  obtain ⟨j, last, rfl, hj, -⟩ := List.map_eq_cons_iff.mp hrest
  unfold resolved
  rw [hjumps, ← hj]
  refine resolve_error (fun i hi => ?_) ?_
  · have hmem : i.label ∈ before.filterMap AssemblyEvent.target? := hfirst ▸ List.mem_map_of_mem hi
    obtain ⟨e, he, htarget⟩ := List.mem_filterMap.mp hmem
    cases e with
    | jumped offset opcode l =>
        obtain rfl := Option.some.inj htarget
        obtain ⟨place, hbound⟩ := hbefore he
        rw [h.place_of_new hnew]
        exact exists_place? hbound
    | _ => cases htarget
  · rw [h.place_of_new hnew, hj]
    cases hplace : place? log label with
    | none => rfl
    | some place => exact absurd (bound_of_place? hplace) (hnever place)

end Logs

end Outcomes

/-- **A finished body** lists what was emitted. -/
theorem decode_of_finish {name : String} {calls : List AssemblerCall} {c : Code}
    (h : (after (performAll calls) { name := name }).finish = .ok c) :
    decode c.bytes = .ok (instructions (answer (performAll calls) { name := name })).toArray
      ∧ widthOf (instructions (answer (performAll calls) { name := name })) ≤ maxSize := by
  have hlogs := logs_performAll calls { name := name }
  have hnew := isNew name
  generalize after (performAll calls) { name := name } = a at h hlogs
  generalize answer (performAll calls) { name := name } = log at hlogs ⊢
  obtain ⟨bytes, hnone, hshort, hresolved, -⟩ := finish_ok.mpr h
  rw [hlogs.violation_of_new hnew] at hnone
  rw [hlogs.size_of_new hnew] at hshort
  have hplaced : ∀ {offset opcode label}, .jumped offset opcode label ∈ log →
      ∃ place, .bound label place ∈ log := by
    by_contra hnot
    obtain ⟨before, after, offset, opcode, label, hlog, hbefore, hnever⟩ := exists_first_jump hnot
    rw [hlogs.unresolved_of_new hnew hlog hbefore fun place hbound => hnever ⟨place, hbound⟩]
      at hresolved
    cases hresolved
  obtain ⟨c', hfinish, hdecode⟩ := hlogs.finish_of_new hnew hnone hshort hplaced
  obtain rfl := Except.ok.inj (hfinish.symm.trans h)
  exact ⟨hdecode, by rw [widthOf_instructions]; exact hshort⟩

/-- A body is finished if nothing that can be seen in its log stands against it. -/
theorem exists_finish {name : String} {calls : List AssemblerCall} {log : List AssemblyEvent}
    (hlog : answer (performAll calls) { name := name } = log) (hnone : firstViolation [] log = none)
    (hshort : size log ≤ maxSize)
    (hplaced : ∀ label ∈ log.filterMap AssemblyEvent.target?, (place? log label).isSome = true) :
    ∃ c, (after (performAll calls) { name := name }).finish = .ok c := by
  have hlogs := logs_performAll calls { name := name }
  rw [hlog] at hlogs
  obtain ⟨c, hfinish, -⟩ := hlogs.finish_of_new (isNew name) hnone hshort fun hmem => by
    obtain ⟨place, hplace⟩ :=
      Option.isSome_iff_exists.mp (hplaced _ (List.mem_filterMap.mpr ⟨_, hmem, rfl⟩))
    exact ⟨place, bound_of_place? hplace⟩
  exact ⟨c, hfinish⟩

/-- **What a finished assembler comes to.**  Whatever calls were made to a new assembler, it is
finished exactly if nothing was wrong with what they asked for; then its bytes list what was
emitted, at the offsets the calls have answered, jumps with the places where their labels were
bound last.  If not, the failure is the first violation, else the number of bytes, else the
label of the first jump to one that was never bound. -/
theorem finish_performAll (name : String) (calls : List AssemblerCall) :
    let log := answer (performAll calls) { name := name }
    match (after (performAll calls) { name := name }).finish with
    | .ok c => Sound log ∧ decode c.bytes = .ok (instructions log).toArray
        ∧ ∀ {offset opcode label}, .jumped offset opcode label ∈ log →
          ∃ place ≤ maxSize, place? log label = some place
    | .error e => ¬ Sound log ∧ FailsWith log e := by
  intro log
  have hlogs : Logs { name := name } log (after (performAll calls) { name := name }) :=
    logs_performAll calls _
  have hnew := isNew name
  generalize after (performAll calls) { name := name } = a at hlogs
  have hviolation := hlogs.violation_of_new hnew
  have hsize := hlogs.size_of_new hnew
  -- the causes of failure are tried in the order in which `finish` looks for them
  have hnone : firstViolation [] log = none ↔ _ := firstViolation_eq_none (Nat.zero_le _)
  rw [length_learnAll] at hnone
  cases hfirst : firstViolation [] log with
  | some e =>
      rw [finish_of_violation (hviolation.trans hfirst)]
      refine ⟨fun hsound => ?_, .violation hfirst⟩
      rw [hnone.mpr ⟨hsound.narrow, hsound.jumps, hsound.locals⟩] at hfirst
      cases hfirst
  | none =>
      obtain ⟨hnarrow, hjumps, hlocals⟩ := hnone.mp hfirst
      rw [hfirst] at hviolation
      by_cases hlong : maxSize < size log
      · rw [finish_of_long hviolation (hsize ▸ hlong), hsize]
        exact ⟨fun hsound => Nat.not_lt.mpr hsound.short hlong, .tooLong hfirst hlong⟩
      · have hshort : size log ≤ maxSize := Nat.not_lt.mp hlong
        by_cases hplaced : ∀ {offset opcode label}, .jumped offset opcode label ∈ log →
            ∃ place, .bound label place ∈ log
        · obtain ⟨c, hfinish, hdecode⟩ := hlogs.finish_of_new hnew hfirst hshort hplaced
          rw [hfinish]
          refine ⟨⟨hnarrow, hjumps, hlocals, hshort, hplaced⟩, hdecode, fun hmem => ?_⟩
          obtain ⟨place, hbound⟩ := hplaced hmem
          obtain ⟨last, hlast⟩ := exists_place? hbound
          -- a label is bound where some instruction ends, so within the bytes
          have hle := hlogs.placed.le (bound_of_place? hlast)
          exact ⟨last, hle.trans (by simpa using hshort), hlast⟩
        · obtain ⟨before, after, offset, opcode, label, hlog, hbefore, hnot⟩ :=
            exists_first_jump hplaced
          have hnever : ∀ place, .bound label place ∉ log := fun place hbound => hnot ⟨place, hbound⟩
          have hunresolved := hlogs.unresolved_of_new hnew hlog hbefore hnever
          rw [finish_of_unresolved hviolation (hsize.trans_le hshort) hunresolved]
          exact ⟨fun hsound => hplaced hsound.placed, .unplaced hfirst hshort hlog hbefore hnever⟩

end Resumable
