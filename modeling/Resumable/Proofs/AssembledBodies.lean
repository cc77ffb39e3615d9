/-
  Resumable.Proofs.AssembledBodies
  ────────────────────────────────
  **WHAT AN ASSEMBLER MAKES OF A STRUCTURED BODY.**

  A body tells an assembler what to emit, with a label for every place it jumps to.
  A part of a body makes the labels it needs and binds no others:

      labels before a part  …  │ its own │ …  those made after it

  so where its jumps go is settled when the part is done, whatever follows.

  Main results:
    • `Body.emitted`          — a body emits the instructions at its points,
    • `Body.Assembles.decode` — and so the finished body lists them.
-/
import Resumable.Proofs.StructuredBodies

namespace Resumable

open Assembler

/-! ## §1. Telling an assembler. -/

/-- Leave a note. -/
def Note.assemble : Note → Assembly Unit
  | .constant c => do let _ ← addConstant c
  | .name n => do let _ ← addName n
  | .local n => do let _ ← declareLocal n
  | .line n => setLine n

/-- Take a step of straight code. -/
def Op.assemble : Op → Assembly Unit
  | .emit opcode arg => do let _ ← Assembler.emit opcode arg
  | .note n => n.assemble

/-- Emit straight code. -/
def Op.assembleAll : List Op → Assembly Unit
  | [] => pure ()
  | op :: ops => do
      op.assemble
      assembleAll ops

/-- Emit a structured body. -/
def Body.assemble : Body → Assembly Unit
  | .straight ops => Op.assembleAll ops
  | .seq first second => do
      first.assemble
      second.assemble
  | .raises ops => do
      Op.assembleAll ops
      let _ ← emit .raise 0
  | .returns ops => do
      Op.assembleAll ops
      let _ ← emit .returnValue 0
  | .forLoop iterable target body => do
      Op.assembleAll (iterable ++ [.emit .getIter 0])
      let head ← createLabel
      let exit ← createLabel
      bindLabel head
      let _ ← emitJump .forIter exit
      Op.assembleAll [.ofTarget target]
      body.assemble
      let _ ← emitJump .jumpAbsolute head
      bindLabel exit
  | .whileLoop test leaves body => do
      let head ← createLabel
      let exit ← createLabel
      bindLabel head
      Op.assembleAll test
      let _ ← emitJump (.leaving leaves) exit
      body.assemble
      let _ ← emitJump .jumpAbsolute head
      bindLabel exit
  | .forever body => do
      let head ← createLabel
      bindLabel head
      body.assemble
      let _ ← emitJump .jumpAbsolute head
  | .tryExcept body handler => do
      let catches ← createLabel
      let exit ← createLabel
      let _ ← emitJump .setupExcept catches
      body.assemble
      let _ ← emit .popBlock 0
      let _ ← emitJump .jumpAbsolute exit
      bindLabel catches
      Op.assembleAll [.emit .popTop 0]
      handler.assemble
      let _ ← emit .popExcept 0
      bindLabel exit

/-- A finished body is the structured one, whatever was declared before it. -/
def Body.Assembles (b : Body) (c : Code) : Prop :=
  ∃ a : Assembler, a.bytes = #[] ∧ a.jumps = #[] ∧ (b.assemble.run a).2.finish = .ok c

/-! ## §2. Labels. -/

/-- The labels below a number are where they were. -/
structure KeepsLabels (below : Nat) (a a' : Assembler) : Prop where
  nextLabel_le : a.nextLabel ≤ a'.nextLabel
  labels_eq : ∀ l < below, a'.labels[l]? = a.labels[l]?

/-- The labels from a number on are those given in the end. -/
def Settled (labels : Std.HashMap Nat Nat) (first : Nat) (a : Assembler) : Prop :=
  ∀ l, first ≤ l → l < a.nextLabel → labels[l]? = a.labels[l]?

section Labels

variable {labels : Std.HashMap Nat Nat} {below label : Nat} {a a' a'' : Assembler}

/-- Labels kept by each step are kept by both. -/
theorem KeepsLabels.trans (h : KeepsLabels below a a') (h' : KeepsLabels below a' a'') :
    KeepsLabels below a a'' := by
  refine ⟨Nat.le_trans h.nextLabel_le h'.nextLabel_le, fun l hl => ?_⟩
  rw [h'.labels_eq l hl, h.labels_eq l hl]

/-- Keeping more labels is keeping these. -/
theorem KeepsLabels.mono {below' : Nat} (h : KeepsLabels below a a') (hle : below' ≤ below) :
    KeepsLabels below' a a' :=
  ⟨h.nextLabel_le, fun l hl => h.labels_eq l (Nat.lt_of_lt_of_le hl hle)⟩

theorem KeepsLabels.of_eq (hlabels : a'.labels = a.labels) (hnext : a'.nextLabel = a.nextLabel) :
    KeepsLabels below a a' := by
  refine ⟨Nat.le_of_eq hnext.symm, fun l _ => ?_⟩
  rw [hlabels]

/-- What is quiet places no label; neither does what emits. -/
theorem Assembler.Quiet.keepsLabels (h : Quiet a a') : KeepsLabels below a a' :=
  .of_eq h.labels_eq h.nextLabel_eq

theorem keepsLabels_emit (opcode : Opcode) (arg : UInt16) (a : Assembler) :
    KeepsLabels below a (after (emit opcode arg) a) := by
  rw [after_emit]
  exact .of_eq rfl rfl

theorem keepsLabels_emitJump (opcode : Opcode) (label : Nat) (a : Assembler) :
    KeepsLabels below a (after (emitJump opcode label) a) := by
  rw [after_emitJump]
  exact .of_eq rfl rfl

theorem keepsLabels_declareLocal (name : String) (a : Assembler) :
    KeepsLabels below a (after (declareLocal name) a) := by
  cases hslot : a.localSlot[name]? with
  | some slot =>
      rw [after_declareLocal_known a hslot]
      exact .of_eq rfl rfl
  | none =>
      rw [after_declareLocal_new a hslot]
      exact .of_eq rfl rfl

theorem keepsLabels_createLabel : KeepsLabels below a (after createLabel a) :=
  ⟨Nat.le_succ _, fun _ _ => rfl⟩

/-- Placing a label keeps the ones before it. -/
theorem keepsLabels_bindLabel (hle : below ≤ label) : KeepsLabels below a (after (bindLabel label) a) :=
  ⟨Nat.le_refl _, fun l hl => bindLabel_other a label (by omega)⟩

/-- What is settled later is settled when only older labels can still change. -/
theorem Settled.before {first first' : Nat} (h : Settled labels first a') (hle : first ≤ first')
    (hkeeps : KeepsLabels a.nextLabel a a') : Settled labels first' a := by
  intro l hfirst hlt
  have hlast := hkeeps.nextLabel_le
  rw [h l (by omega) (by omega), hkeeps.labels_eq l hlt]

/-- Giving a place to an older label settles nothing. -/
theorem Settled.unbind {first : Nat} (h : Settled labels first (after (bindLabel label) a))
    (hlt : label < first) : Settled labels first a := by
  intro l hfirst hl
  rw [h l hfirst hl, bindLabel_other a label (by omega)]

end Labels

/-! ## §3. Bodies. -/

variable {labels : Std.HashMap Nat Nat} {p : Place} {depth start below : Nat} {a : Assembler}

/-- A note emits nothing. -/
theorem Note.emits (n : Note) (a : Assembler) : Emits labels [] a (after n.assemble a) := by
  cases n with
  | constant c => exact (quiet_addConstant a c).emits
  | name n => exact (quiet_addName a n).emits
  | «local» n => exact emits_declareLocal n
  | line n => exact (quiet_setLine a n).emits

theorem Note.keepsLabels (n : Note) (a : Assembler) : KeepsLabels below a (after n.assemble a) := by
  cases n with
  | constant c => exact (quiet_addConstant a c).keepsLabels
  | name n => exact (quiet_addName a n).keepsLabels
  | «local» n => exact keepsLabels_declareLocal n a
  | line n => exact (quiet_setLine a n).keepsLabels

/-- Straight code is emitted as it is written. -/
theorem Op.emits_all (labels : Std.HashMap Nat Nat) (p : Place) (depth : Nat) (ops : List Op)
    (hstart : a.bytes.size = start) :
    Emits labels ((Op.points p ops depth start).map Point.instr) a (after (Op.assembleAll ops) a) := by
  induction ops generalizing a depth start with
  | nil => exact .of_eq rfl rfl id
  | cons op ops ih =>
      cases op with
      | note n =>
          have hnote : Emits labels [] a (after n.assemble a) := n.emits a
          exact hnote.trans (ih depth (hnote.size_of hstart))
      | emit opcode arg =>
          have hfirst : Emits labels _ a _ := emits_emit opcode arg hstart
          refine hfirst.trans (ih _ ?_)
          rw [hfirst.size_of hstart]
          simp

/-- Straight code places no labels at all. -/
theorem Op.keepsLabels_all (ops : List Op) (a : Assembler) :
    KeepsLabels below a (after (Op.assembleAll ops) a) := by
  induction ops generalizing a with
  | nil => exact (Quiet.refl a).keepsLabels
  | cons op ops ih =>
      cases op with
      | note n => exact (n.keepsLabels a).trans (ih _)
      | emit opcode arg => exact (keepsLabels_emit opcode arg a).trans (ih _)

theorem Opcode.isJump_leaving (leaves : Bool) : (Opcode.leaving leaves).isJump = true := by
  cases leaves with
  | false => rfl
  | true => rfl

/-- What an assembler does with a body: its own labels apart it changes none, and it
emits the instructions of the body. -/
structure Body.Emitted (b : Body) (a a' : Assembler) : Prop where
  keepsLabels : KeepsLabels a.nextLabel a a'
  emits : ∀ (labels : Std.HashMap Nat Nat) (p : Place) (depth : Nat) {start : Nat},
    a.bytes.size = start → Settled labels a.nextLabel a' → Emits labels (b.listing p depth start) a a'

namespace Body

variable {body : Body}

/-- A for-loop creates two labels, then emits head, body and the jump back. -/
theorem emitted_forLoop (iterable : List Op) (item : Option UInt16)
    (hbody : ∀ a, body.Emitted a (after body.assemble a)) (a : Assembler) :
    (forLoop iterable item body).Emitted a (after (forLoop iterable item body).assemble a) := by
  obtain ⟨a₁, ha₁⟩ : ∃ x, x = after (Op.assembleAll (iterable ++ [.emit .getIter 0])) a := ⟨_, rfl⟩
  obtain ⟨head, hhead⟩ : ∃ l, l = a₁.nextLabel := ⟨_, rfl⟩
  obtain ⟨a₂, ha₂⟩ : ∃ x, x = after (bindLabel head) (after createLabel (after createLabel a₁)) :=
    ⟨_, rfl⟩
  obtain ⟨a₃, ha₃⟩ : ∃ x, x = after (Op.assembleAll [.ofTarget item])
    (after (emitJump .forIter (head + 1)) a₂) := ⟨_, rfl⟩
  obtain ⟨a₄, ha₄⟩ : ∃ x, x = after body.assemble a₃ := ⟨_, rfl⟩
  obtain ⟨a₅, ha₅⟩ : ∃ x, x = after (emitJump .jumpAbsolute head) a₄ := ⟨_, rfl⟩
  have hlast : after (forLoop iterable item body).assemble a = after (bindLabel (head + 1)) a₅ := by
    rw [ha₅, ha₄, ha₃, ha₂, hhead, ha₁]
    rfl
  rw [hlast]
  -- which labels each part keeps
  have hiterable : KeepsLabels a.nextLabel a a₁ := ha₁ ▸ Op.keepsLabels_all ..
  have hhead_le : a.nextLabel ≤ head := hhead ▸ hiterable.nextLabel_le
  have hopens : KeepsLabels head a₁ a₂ := by
    rw [ha₂]
    exact keepsLabels_createLabel.trans (keepsLabels_createLabel.trans
      (keepsLabels_bindLabel (Nat.le_refl _)))
  have hnext : a₂.nextLabel = head + 2 := by
    rw [ha₂, hhead]
    rfl
  have hstarts (below : Nat) : KeepsLabels below a₂ a₃ := by
    rw [ha₃]
    exact (keepsLabels_emitJump ..).trans (Op.keepsLabels_all ..)
  have hinner : KeepsLabels a₃.nextLabel a₃ a₄ := ha₄ ▸ (hbody a₃).keepsLabels
  have hback (below : Nat) : KeepsLabels below a₄ a₅ := ha₅ ▸ keepsLabels_emitJump ..
  have hmore : head + 2 ≤ a₃.nextLabel := hnext ▸ (hstarts 0).nextLabel_le
  have hlasts := (hback 0).nextLabel_le
  have hmore' := hinner.nextLabel_le
  refine ⟨?_, fun labels p depth start hstart hsettled => ?_⟩
  · have hinner' : KeepsLabels a.nextLabel a₃ a₄ := hinner.mono (by omega)
    exact (hiterable.trans ((hopens.mono hhead_le).trans ((hstarts _).trans
      (hinner'.trans (hback _))))).trans (keepsLabels_bindLabel (by omega))
  · -- the labels of the loop are where its jumps need them
    have hexit : labels[head + 1]? = some a₅.bytes.size := by
      rw [hsettled _ (by omega) (by show head + 1 < a₅.nextLabel; omega), bindLabel_same]
    have hat : labels[head]? = some a₁.bytes.size := by
      rw [hsettled _ (by omega) (by show head < a₅.nextLabel; omega), bindLabel_other _ _ (by omega),
        (hback (head + 1)).labels_eq _ (by omega), hinner.labels_eq _ (by omega),
        (hstarts (head + 1)).labels_eq _ (by omega), ha₂]
      exact bindLabel_same ..
    have hown : Settled labels a₃.nextLabel a₄ :=
      (show Settled labels a₃.nextLabel a₅ from
        .unbind (fun l _ hlt => hsettled l (by omega) hlt) (by omega)).before (Nat.le_refl _) (hback _)
    -- what each part emits, and where the next one starts
    have hone := Op.emits_all labels p depth (iterable ++ [.emit .getIter 0]) hstart
    have htwo : Emits labels [] a₁ a₂ := by
      rw [ha₂]
      exact emits_createLabel.trans (emits_createLabel.trans (emits_bindLabel _))
    rw [← ha₁] at hone
    have hsize₁ := hone.size_of hstart
    have hsize₂ := htwo.size_of hsize₁
    have hjump := emits_emitJump (show Opcode.forIter.isJump = true from rfl) hexit hsize₂
    have hsize := hjump.size_of hsize₂
    have hitem := Op.emits_all labels (p.inLoop (Op.depthAfter iterable depth - 1)) 1
      [.ofTarget item] hsize
    rw [← ha₃] at hitem
    have hsize₃ := hitem.size_of hsize
    have hfour := (hbody a₃).emits labels (p.inLoop (Op.depthAfter iterable depth - 1)) 0 hsize₃
      (ha₄ ▸ hown)
    rw [← ha₄] at hfour
    have hsize₄ := hfour.size_of hsize₃
    have hfive := emits_emitJump (show Opcode.jumpAbsolute.isJump = true from rfl) hat hsize₄
    rw [← ha₅] at hfive
    have hsize₅ := hfive.size_of hsize₄
    have hall := (hone.trans (htwo.trans (hjump.trans (hitem.trans (hfour.trans hfive))))).trans
      (emits_bindLabel (head + 1))
    rw [hsize₅, hsize₁] at hall
    simpa [listing, points, Nat.add_assoc] using hall

/-- A while-loop has its test at the head. -/
theorem emitted_whileLoop (test : List Op) (leaves : Bool)
    (hbody : ∀ a, body.Emitted a (after body.assemble a)) (a : Assembler) :
    (whileLoop test leaves body).Emitted a (after (whileLoop test leaves body).assemble a) := by
  obtain ⟨head, hhead⟩ : ∃ l, l = a.nextLabel := ⟨_, rfl⟩
  obtain ⟨a₁, ha₁⟩ : ∃ x, x = after (bindLabel head) (after createLabel (after createLabel a)) :=
    ⟨_, rfl⟩
  obtain ⟨a₂, ha₂⟩ : ∃ x, x = after (Op.assembleAll test) a₁ := ⟨_, rfl⟩
  obtain ⟨a₃, ha₃⟩ : ∃ x, x = after (emitJump (.leaving leaves) (head + 1)) a₂ := ⟨_, rfl⟩
  obtain ⟨a₄, ha₄⟩ : ∃ x, x = after body.assemble a₃ := ⟨_, rfl⟩
  obtain ⟨a₅, ha₅⟩ : ∃ x, x = after (emitJump .jumpAbsolute head) a₄ := ⟨_, rfl⟩
  have hlast : after (whileLoop test leaves body).assemble a = after (bindLabel (head + 1)) a₅ := by
    rw [ha₅, ha₄, ha₃, ha₂, ha₁, hhead]
    rfl
  rw [hlast]
  -- which labels each part keeps
  have hopens : KeepsLabels a.nextLabel a a₁ := by
    rw [ha₁]
    exact keepsLabels_createLabel.trans (keepsLabels_createLabel.trans
      (keepsLabels_bindLabel (Nat.le_of_eq hhead.symm)))
  have hnext : a₁.nextLabel = head + 2 := by
    rw [ha₁, hhead]
    rfl
  have hstarts (below : Nat) : KeepsLabels below a₁ a₃ := by
    rw [ha₃, ha₂]
    exact (Op.keepsLabels_all ..).trans (keepsLabels_emitJump ..)
  have hinner : KeepsLabels a₃.nextLabel a₃ a₄ := ha₄ ▸ (hbody a₃).keepsLabels
  have hback (below : Nat) : KeepsLabels below a₄ a₅ := ha₅ ▸ keepsLabels_emitJump ..
  have hmore : head + 2 ≤ a₃.nextLabel := hnext ▸ (hstarts 0).nextLabel_le
  have hlasts := (hback 0).nextLabel_le
  have hmore' := hinner.nextLabel_le
  refine ⟨?_, fun labels p depth start hstart hsettled => ?_⟩
  · have hinner' : KeepsLabels a.nextLabel a₃ a₄ := hinner.mono (by omega)
    exact (hopens.trans ((hstarts _).trans (hinner'.trans (hback _)))).trans
      (keepsLabels_bindLabel (by omega))
  · -- the labels of the loop are where its jumps need them
    have hexit : labels[head + 1]? = some a₅.bytes.size := by
      rw [hsettled _ (by omega) (by show head + 1 < a₅.nextLabel; omega), bindLabel_same]
    have hat : labels[head]? = some a.bytes.size := by
      rw [hsettled _ (by omega) (by show head < a₅.nextLabel; omega), bindLabel_other _ _ (by omega),
        (hback (head + 1)).labels_eq _ (by omega), hinner.labels_eq _ (by omega),
        (hstarts (head + 1)).labels_eq _ (by omega), ha₁]
      exact bindLabel_same ..
    have hown : Settled labels a₃.nextLabel a₄ :=
      (show Settled labels a₃.nextLabel a₅ from
        .unbind (fun l _ hlt => hsettled l (by omega) hlt) (by omega)).before (Nat.le_refl _) (hback _)
    -- what each part emits, and where the next one starts
    have hone : Emits labels [] a a₁ := by
      rw [ha₁]
      exact emits_createLabel.trans (emits_createLabel.trans (emits_bindLabel _))
    have hsize₁ := hone.size_of hstart
    have htwo := Op.emits_all labels p depth test hsize₁
    rw [← ha₂] at htwo
    have hsize₂ := htwo.size_of hsize₁
    have hthree := emits_emitJump (Opcode.isJump_leaving leaves) hexit hsize₂
    rw [← ha₃] at hthree
    have hsize₃ := hthree.size_of hsize₂
    have hfour := (hbody a₃).emits labels p (Op.depthAfter test depth - 1) hsize₃ (ha₄ ▸ hown)
    rw [← ha₄] at hfour
    have hsize₄ := hfour.size_of hsize₃
    have hfive := emits_emitJump (show Opcode.jumpAbsolute.isJump = true from rfl) hat hsize₄
    rw [← ha₅] at hfive
    have hsize₅ := hfive.size_of hsize₄
    have hall := (hone.trans (htwo.trans (hthree.trans (hfour.trans hfive)))).trans
      (emits_bindLabel (head + 1))
    rw [hsize₅, hstart] at hall
    simpa [listing, points, Nat.add_assoc] using hall

/-- A loop without a test needs the label of its start only. -/
theorem emitted_forever (hbody : ∀ a, body.Emitted a (after body.assemble a)) (a : Assembler) :
    (forever body).Emitted a (after (forever body).assemble a) := by
  obtain ⟨head, hhead⟩ : ∃ l, l = a.nextLabel := ⟨_, rfl⟩
  obtain ⟨a₁, ha₁⟩ : ∃ x, x = after (bindLabel head) (after createLabel a) := ⟨_, rfl⟩
  obtain ⟨a₂, ha₂⟩ : ∃ x, x = after body.assemble a₁ := ⟨_, rfl⟩
  have hlast : after (forever body).assemble a = after (emitJump .jumpAbsolute head) a₂ := by
    rw [ha₂, ha₁, hhead]
    rfl
  rw [hlast]
  have hopens : KeepsLabels a.nextLabel a a₁ := by
    rw [ha₁]
    exact keepsLabels_createLabel.trans (keepsLabels_bindLabel (Nat.le_of_eq hhead.symm))
  have hnext : a₁.nextLabel = head + 1 := by
    rw [ha₁, hhead]
    rfl
  have hinner : KeepsLabels a₁.nextLabel a₁ a₂ := ha₂ ▸ (hbody a₁).keepsLabels
  have hback (below : Nat) : KeepsLabels below a₂ (after (emitJump .jumpAbsolute head) a₂) :=
    keepsLabels_emitJump ..
  have hmore := hinner.nextLabel_le
  have hlasts := (hback 0).nextLabel_le
  refine ⟨?_, fun labels p depth start hstart hsettled => ?_⟩
  · exact hopens.trans ((hinner.mono (by omega)).trans (hback _))
  · -- the label is placed at the start and nobody moves it afterwards
    have hat : labels[head]? = some a.bytes.size := by
      rw [hsettled _ (by omega) (by omega), (hback (head + 1)).labels_eq _ (by omega),
        hinner.labels_eq _ (by omega), ha₁]
      exact bindLabel_same ..
    have hown : Settled labels a₁.nextLabel a₂ := hsettled.before (by omega) (hback _)
    have hone : Emits labels [] a a₁ := by
      rw [ha₁]
      exact emits_createLabel.trans (emits_bindLabel _)
    have hsize₁ := hone.size_of hstart
    have htwo := (hbody a₁).emits labels p depth hsize₁ (ha₂ ▸ hown)
    rw [← ha₂] at htwo
    have hall := hone.trans (htwo.trans
      (emits_emitJump (show Opcode.jumpAbsolute.isJump = true from rfl) hat (htwo.size_of hsize₁)))
    rw [hstart] at hall
    simpa [listing, points] using hall

/-- A try statement places the label of its handler between its two bodies. -/
theorem emitted_tryExcept {handler : Body} (hbody : ∀ a, body.Emitted a (after body.assemble a))
    (hhandler : ∀ a, handler.Emitted a (after handler.assemble a)) (a : Assembler) :
    (tryExcept body handler).Emitted a (after (tryExcept body handler).assemble a) := by
  obtain ⟨catches, hcatches⟩ : ∃ l, l = a.nextLabel := ⟨_, rfl⟩
  obtain ⟨a₁, ha₁⟩ : ∃ x, x = after (emitJump .setupExcept catches)
    (after createLabel (after createLabel a)) := ⟨_, rfl⟩
  obtain ⟨a₂, ha₂⟩ : ∃ x, x = after body.assemble a₁ := ⟨_, rfl⟩
  obtain ⟨a₃, ha₃⟩ : ∃ x, x = after (emit .popBlock 0) a₂ := ⟨_, rfl⟩
  obtain ⟨a₄, ha₄⟩ : ∃ x, x = after (emitJump .jumpAbsolute (catches + 1)) a₃ := ⟨_, rfl⟩
  obtain ⟨a₅, ha₅⟩ : ∃ x, x = after (Op.assembleAll [.emit .popTop 0]) (after (bindLabel catches) a₄) :=
    ⟨_, rfl⟩
  obtain ⟨a₆, ha₆⟩ : ∃ x, x = after handler.assemble a₅ := ⟨_, rfl⟩
  obtain ⟨a₇, ha₇⟩ : ∃ x, x = after (emit .popExcept 0) a₆ := ⟨_, rfl⟩
  have hlast : after (tryExcept body handler).assemble a = after (bindLabel (catches + 1)) a₇ := by
    simp only [assemble, after_bind, answer_createLabel]
    rw [ha₇, ha₆, ha₅, ha₄, ha₃, ha₂, ha₁, hcatches]
    rfl
  rw [hlast]
  -- which labels each part keeps
  have hopens (below : Nat) : KeepsLabels below a a₁ := by
    rw [ha₁]
    exact keepsLabels_createLabel.trans (keepsLabels_createLabel.trans (keepsLabels_emitJump ..))
  have hnext : a₁.nextLabel = catches + 2 := by
    rw [ha₁, hcatches, after_emitJump]
    rfl
  have hinner : KeepsLabels a₁.nextLabel a₁ a₂ := ha₂ ▸ (hbody a₁).keepsLabels
  have hskips (below : Nat) : KeepsLabels below a₂ a₄ := by
    rw [ha₄, ha₃]
    exact (keepsLabels_emit ..).trans (keepsLabels_emitJump ..)
  have hdrops (below : Nat) : KeepsLabels below (after (bindLabel catches) a₄) a₅ :=
    ha₅ ▸ Op.keepsLabels_all ..
  have hhandles : KeepsLabels a₅.nextLabel a₅ a₆ := ha₆ ▸ (hhandler a₅).keepsLabels
  have hleaves (below : Nat) : KeepsLabels below a₆ a₇ := ha₇ ▸ keepsLabels_emit ..
  have hle₂ := hinner.nextLabel_le
  have hle₄ := (hskips 0).nextLabel_le
  have hle₅ : a₄.nextLabel ≤ a₅.nextLabel := (hdrops 0).nextLabel_le
  have hle₆ := hhandles.nextLabel_le
  have hle₇ := (hleaves 0).nextLabel_le
  refine ⟨?_, fun labels p depth start hstart hsettled => ?_⟩
  · have hinner' : KeepsLabels a.nextLabel a₁ a₂ := hinner.mono (by omega)
    have hbind : KeepsLabels a.nextLabel a₄ (after (bindLabel catches) a₄) :=
      keepsLabels_bindLabel (by omega)
    have hhandles' : KeepsLabels a.nextLabel a₅ a₆ := hhandles.mono (by omega)
    exact ((hopens _).trans (hinner'.trans ((hskips _).trans (hbind.trans ((hdrops _).trans
      (hhandles'.trans (hleaves _))))))).trans (keepsLabels_bindLabel (by omega))
  · -- what is settled at the end of the handler, where it starts and at the end of the body
    have hsettled₆ : Settled labels a₁.nextLabel a₆ :=
      (show Settled labels a₁.nextLabel a₇ from
        .unbind (fun l _ hlt => hsettled l (by omega) hlt) (by omega)).before (Nat.le_refl _) (hleaves _)
    have hsettled₄ : Settled labels a₁.nextLabel a₄ :=
      ((hsettled₆.before (Nat.le_refl _) hhandles).before (Nat.le_refl _) (hdrops _)).unbind
        (by omega)
    -- the labels are where the jumps need them
    have hexit : labels[catches + 1]? = some a₇.bytes.size := by
      rw [hsettled _ (by omega) (by show catches + 1 < a₇.nextLabel; omega), bindLabel_same]
    have hat : labels[catches]? = some a₄.bytes.size := by
      rw [hsettled _ (by omega) (by show catches < a₇.nextLabel; omega), bindLabel_other _ _ (by omega),
        (hleaves (catches + 1)).labels_eq _ (by omega), hhandles.labels_eq _ (by omega),
        (hdrops (catches + 1)).labels_eq _ (by omega)]
      exact bindLabel_same ..
    -- what each part emits, and where the next one starts
    have hcreate : Emits labels [] a (after createLabel (after createLabel a)) :=
      emits_createLabel.trans emits_createLabel
    have hone := hcreate.trans
      (emits_emitJump (show Opcode.setupExcept.isJump = true from rfl) hat (hcreate.size_of hstart))
    rw [← ha₁] at hone
    have hsize₁ := hone.size_of hstart
    have htwo := (hbody a₁).emits labels (p.inTry depth a₄.bytes.size) 0 hsize₁
      (ha₂ ▸ hsettled₄.before (Nat.le_refl _) (hskips _))
    rw [← ha₂] at htwo
    have hsize₂ := htwo.size_of hsize₁
    have hthree : Emits labels _ a₂ _ := emits_emit .popBlock 0 hsize₂
    rw [← ha₃] at hthree
    have hsize₃ := hthree.size_of hsize₂
    have hfour := emits_emitJump (show Opcode.jumpAbsolute.isJump = true from rfl) hexit hsize₃
    rw [← ha₄] at hfour
    have hsize₄ := hfour.size_of hsize₃
    have hfive := Op.emits_all labels (p.inHandler depth) 1 [.emit .popTop 0]
      (a := after (bindLabel catches) a₄) hsize₄
    rw [← ha₅] at hfive
    have hsize₅ := hfive.size_of hsize₄
    have hsix := (hhandler a₅).emits labels (p.inHandler depth) 0 hsize₅
      (ha₆ ▸ hsettled₆.before (by omega) (Quiet.refl _).keepsLabels)
    rw [← ha₆] at hsix
    have hsize₆ := hsix.size_of hsize₅
    have hseven : Emits labels _ a₆ _ := emits_emit .popExcept 0 hsize₆
    rw [← ha₇] at hseven
    have hsize₇ := hseven.size_of hsize₆
    have hbind : Emits labels [] a₄ (after (bindLabel catches) a₄) := emits_bindLabel _
    have hall := (hone.trans (htwo.trans (hthree.trans (hfour.trans (hbind.trans (hfive.trans
      (hsix.trans hseven))))))).trans (emits_bindLabel (catches + 1))
    rw [hsize₇, hsize₄] at hall
    simpa [listing, points, Nat.add_assoc] using hall

/-- **A body emits its instructions.** -/
theorem emitted (b : Body) (a : Assembler) : b.Emitted a (after b.assemble a) := by
  induction b generalizing a with
  | straight ops =>
      exact ⟨Op.keepsLabels_all ops a, fun labels p depth start hstart _ =>
        Op.emits_all labels p depth ops hstart⟩
  | seq first second ihfirst ihsecond =>
      have hfirst := ihfirst a
      have hsecond := ihsecond (after first.assemble a)
      have hle := hfirst.keepsLabels.nextLabel_le
      refine ⟨hfirst.keepsLabels.trans (hsecond.keepsLabels.mono hle), ?_⟩
      intro labels p depth start hstart hsettled
      -- the labels of the first body are settled before the second one starts
      have hone := hfirst.emits labels p depth hstart
        (hsettled.before (Nat.le_refl _) hsecond.keepsLabels)
      have htwo := hsecond.emits labels p (first.depthAfter depth) (hone.size_of hstart)
        (fun l hl hlt => hsettled l (by omega) hlt)
      have hall := hone.trans htwo
      simpa [listing, points, assemble] using hall
  | raises ops =>
      have hkeeps : KeepsLabels a.nextLabel a (after (emit .raise 0) (after (Op.assembleAll ops) a)) :=
        (Op.keepsLabels_all ops a).trans (keepsLabels_emit ..)
      refine ⟨hkeeps, fun labels p depth start hstart _ => ?_⟩
      have hone := Op.emits_all labels p depth ops hstart
      have hall := hone.trans (emits_emit .raise 0 (hone.size_of hstart))
      simpa [listing, points, assemble] using hall
  | returns ops =>
      have hkeeps :
          KeepsLabels a.nextLabel a (after (emit .returnValue 0) (after (Op.assembleAll ops) a)) :=
        (Op.keepsLabels_all ops a).trans (keepsLabels_emit ..)
      refine ⟨hkeeps, fun labels p depth start hstart _ => ?_⟩
      have hone := Op.emits_all labels p depth ops hstart
      have hall := hone.trans (emits_emit .returnValue 0 (hone.size_of hstart))
      simpa [listing, points, assemble] using hall
  | forLoop iterable item body ih => exact emitted_forLoop iterable item ih a
  | whileLoop test leaves body ih => exact emitted_whileLoop test leaves ih a
  | forever body ih => exact emitted_forever ih a
  | tryExcept body handler ihbody ihhandler => exact emitted_tryExcept ihbody ihhandler a

/-- **The bytes of a body are those of its instructions**, once its jumps are filled in. -/
theorem resolved_assemble {a : Assembler} (b : Body) (p : Place) (depth : Nat) (hbytes : a.bytes = #[])
    (hjumps : a.jumps = #[]) :
    (after b.assemble a).bytes.size = b.width
      ∧ (after b.assemble a).resolved (after b.assemble a).labels
        = .ok (bytesOf (b.listing p depth 0)).toArray
      ∧ ((after b.assemble a).violation = none → ∀ i ∈ b.listing p depth 0, i.Fits) := by
  have hstart : a.bytes.size = 0 := by
    rw [hbytes]
    rfl
  have hin : a.InBounds := by
    intro j hj
    rw [hjumps] at hj
    simp at hj
  -- no label of the body is bound after it
  have hemits := (emitted b a).emits (after b.assemble a).labels p depth hstart fun l _ _ => rfl
  have hempty : a.resolved (after b.assemble a).labels = .ok #[] := by
    unfold resolved
    rw [hjumps, hbytes]
    rfl
  have hsize := hemits.size_eq
  rw [hstart, listing, widthOf_points, Nat.zero_add] at hsize
  have hfilled := hemits.resolved_eq hin
  rw [hempty] at hfilled
  refine ⟨hsize, hfilled.trans (congrArg Except.ok (Array.ext' ?_)), fun hnone => (hemits.fits hnone).2⟩
  simp [listing]

/-- A body that is short enough is finished if nothing was wrong with it. -/
theorem assembles_of {a : Assembler} (b : Body) (hbytes : a.bytes = #[]) (hjumps : a.jumps = #[])
    (hnone : (after b.assemble a).violation = none) (hshort : b.width ≤ maxSize) :
    b.Assembles {
      name := (after b.assemble a).name
      qualname := (after b.assemble a).qualname
      filename := (after b.assemble a).filename
      firstLine := (after b.assemble a).firstLine
      bytes := (bytesOf (b.listing (.outside 0) 0 0)).toArray
      constants := (after b.assemble a).constants
      names := (after b.assemble a).names
      varnames := (after b.assemble a).varnames
      argCount := (after b.assemble a).argCount.toNat
      lines := (after b.assemble a).closedLines.toList } := by
  obtain ⟨hsize, hresolved, -⟩ := resolved_assemble b (.outside 0) 0 hbytes hjumps
  exact ⟨a, hbytes, hjumps, finish_ok.mp ⟨_, hnone, hsize.trans_le hshort, hresolved, rfl⟩⟩

/-- A finished body lists its instructions, and there are no more bytes of them than an
offset can tell. -/
theorem Assembles.decode {b : Body} {c : Code} (h : b.Assembles c) (p : Place) (depth : Nat) :
    decode c.bytes = .ok (b.listing p depth 0).toArray ∧ c.bytes.size = b.width
      ∧ b.width ≤ maxSize := by
  obtain ⟨a, hbytes, hjumps, hfinish⟩ := h
  obtain ⟨bytes, hnone, hshort, hresolved, rfl⟩ := finish_ok.mpr hfinish
  obtain ⟨hsize, hall, hfits⟩ := resolved_assemble b p depth hbytes hjumps
  obtain rfl := Except.ok.inj (hall.symm.trans hresolved)
  refine ⟨decode_bytesOf (inRow_points b) (hfits hnone), ?_, ?_⟩
  · simp [listing]
  · rw [← hsize]
    exact hshort

end Body

end Resumable
