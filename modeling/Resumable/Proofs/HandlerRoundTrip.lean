/-
  Resumable.Proofs.HandlerRoundTrip
  ─────────────────────────────────
  **LEAVING A HANDLER UNDOES ITS ENTRY.**

  An exception closes the handlers inside a try body and enters the handler of the
  body:

      blocks    … | try at L | handler … handler        outermost first
           ⟶    … | handler at L

      slots     L slots | …
           ⟶    L slots | type | value | trace | exception

  The value that is saved is what was handled before the outermost of the closed
  handlers was entered.  When the new handler is left, whatever its own work has put
  on top by then is cut off, and the blocks around the body, the L slots and the saved
  value are there again.

  The blocks lie on the stack one above the other (`Frame.LaidOut`), so a handler
  that is closed does not cut into what the blocks around it rely on.

  Main results:
    • `Frame.laidOut_iff`      — the layout, block by block and as a recursion,
    • `unwind_leaveHandler`    — entering and leaving, and what is left without a try body.
-/
import Resumable.Proofs.SavedException

namespace Resumable

variable {nlocals top level handler : Nat} {inner outer blocks : List Block}

/-! ## §1. How blocks lie on a stack. -/

/-- Where the slots that a block relies on end: at its level, or above what a handler saved
there. -/
def Block.reserved : Block → Nat
  | .guarded level _ => level
  | .handling level => level + savedSlots

theorem Block.reserved_of_isHandling {b : Block} (h : b.isHandling = true) :
    b.reserved = b.level + savedSlots := by
  cases b with
  | handling level => rfl
  | guarded level handler => cases h

/-- A nested block starts above the locals and above what the blocks around it rely on, and
the stack reaches over what it relies on itself. -/
theorem nested_iff : Nested nlocals top blocks ↔
    (∀ b ∈ blocks, nlocals ≤ b.level) ∧ (∀ b ∈ blocks, b.reserved ≤ top)
      ∧ blocks.Pairwise fun inner outer => outer.reserved ≤ inner.level := by
  induction blocks generalizing top with
  | nil => simp [Nested]
  | cons b outer ih =>
      have hcons : Nested nlocals top (b :: outer)
          ↔ nlocals ≤ b.level ∧ b.reserved ≤ top ∧ Nested nlocals b.level outer := by
        cases b <;> rfl
      have hlevel : b.level ≤ b.reserved := by
        cases b with
        | guarded level handler => exact Nat.le_refl level
        | handling level => exact Nat.le_add_right level savedSlots
      rw [hcons, ih, List.forall_mem_cons, List.forall_mem_cons, List.pairwise_cons]
      constructor
      · rintro ⟨hlocals, htop, houter, hbelow, hpairs⟩
        have hout : ∀ a ∈ outer, a.reserved ≤ top := fun a ha =>
          Nat.le_trans (hbelow a ha) (Nat.le_trans hlevel htop)
        exact ⟨⟨hlocals, houter⟩, ⟨htop, hout⟩, hbelow, hpairs⟩
      · rintro ⟨⟨hlocals, houter⟩, ⟨htop, -⟩, hbelow, hpairs⟩
        exact ⟨hlocals, htop, houter, hbelow, hpairs⟩

/-- Handlers are passed on the way to a try body. -/
theorem tryBodyIn_append (hinner : ∀ b ∈ inner, b.isHandling = true) (outer : List Block) :
    tryBodyIn (inner ++ outer) = tryBodyIn outer := by
  induction inner with
  | nil => rfl
  | cons b rest ih =>
      obtain ⟨hb, hrest⟩ := List.forall_mem_cons.mp hinner
      cases b with
      | handling level => exact ih hrest
      | guarded level handler => cases hb

theorem tryBodyIn_eq_none (hall : ∀ b ∈ blocks, b.isHandling = true) : tryBodyIn blocks = none := by
  rw [← List.append_nil blocks]
  exact tryBodyIn_append hall []

/-- Among blocks either all are handlers, or handlers lead up to the innermost try body. -/
theorem tryBodyIn_cases (blocks : List Block) :
    (∀ b ∈ blocks, b.isHandling = true) ∨ ∃ inner level handler outer,
      blocks = inner ++ .guarded level handler :: outer ∧ ∀ b ∈ inner, b.isHandling = true := by
  induction blocks with
  | nil => exact .inl fun b hb => absurd hb List.not_mem_nil
  | cons b rest ih =>
      cases b with
      | guarded level handler =>
          exact .inr ⟨[], level, handler, rest, rfl, fun b hb => absurd hb List.not_mem_nil⟩
      | handling level =>
          rcases ih with hall | ⟨inner, l, handler, outer, rfl, hinner⟩
          · exact .inl (List.forall_mem_cons.mpr ⟨rfl, hall⟩)
          · exact .inr ⟨.handling level :: inner, l, handler, outer, rfl,
              List.forall_mem_cons.mpr ⟨rfl, hinner⟩⟩

namespace Frame

variable {f : Frame}

/-- The blocks of a frame lie on its stack one above the other. -/
structure LaidOut (f : Frame) : Prop where
  /-- No block starts among the locals. -/
  nlocals_le : ∀ b ∈ f.blocks, f.nlocals ≤ b.level
  /-- From the outermost block inwards the levels do not fall, and what a handler saved lies
  below the blocks inside it. -/
  rising : f.blocks.Pairwise fun inner outer => outer.reserved ≤ inner.level
  /-- What a handler saved lies on the stack. -/
  saved_le : ∀ b ∈ f.blocks, b.isHandling = true → b.level + savedSlots ≤ f.top
  /-- The stack reaches the level of the innermost try body. -/
  reaches : ∀ body, f.tryBody? = some body → body.level ≤ f.top

/-- The layout is the one that the recursion over the blocks checks. -/
theorem laidOut_iff : f.LaidOut ↔ f.Loose 0 := by
  unfold Loose
  rw [nested_iff]
  constructor
  · rintro ⟨hlocals, hrising, hsaved, hreaches⟩
    refine ⟨hlocals, ?_, hrising⟩
    have hhandling : ∀ b ∈ f.blocks, b.isHandling = true → b.reserved ≤ f.top := by
      intro b hb hisHandling
      rw [Block.reserved_of_isHandling hisHandling]
      exact hsaved b hb hisHandling
    rcases tryBodyIn_cases f.blocks with hall | ⟨inner, level, handler, outer, hblocks, hinner⟩
    · exact fun b hb => hhandling b hb (hall b hb)
    · have hlevel : level ≤ f.top := by
        refine hreaches ⟨level, handler, outer⟩ ?_
        unfold tryBody?
        rw [hblocks, tryBodyIn_append hinner]
        rfl
      rw [hblocks] at hrising hhandling ⊢
      obtain ⟨-, hrest, -⟩ := List.pairwise_append.mp hrising
      obtain ⟨houter, -⟩ := List.pairwise_cons.mp hrest
      intro b hb
      -- a block outside the body lies below its level, one inside it is a handler
      rcases List.mem_append.mp hb with hin | hrest
      · exact hhandling b hb (hinner b hin)
      · rcases List.mem_cons.mp hrest with rfl | hout
        · exact hlevel
        · exact Nat.le_trans (houter b hout) hlevel
  · rintro ⟨hlocals, hreserved, hrising⟩
    refine ⟨hlocals, hrising, ?_, ?_⟩
    · intro b hb hisHandling
      rw [← Block.reserved_of_isHandling hisHandling]
      exact hreserved b hb
    · intro body hbody
      rcases tryBodyIn_cases f.blocks with hall | ⟨inner, level, handler, outer, hblocks, hinner⟩
      · rw [tryBody?, tryBodyIn_eq_none hall] at hbody
        cases hbody
      · rw [tryBody?, hblocks, tryBodyIn_append hinner] at hbody
        obtain rfl := Option.some.inj hbody
        refine hreserved (.guarded level handler) ?_
        rw [hblocks]
        exact List.mem_append_right inner List.mem_cons_self

end Frame

/-! ## §2. Handlers on the way of an exception. -/

/-- Closing handlers cuts a stack down to the level of the outermost of them. -/
theorem Nested.settledTop_append (h : Nested nlocals top (inner ++ outer))
    (hinner : ∀ b ∈ inner, b.isHandling = true) :
    settledTop top (inner ++ outer) = settledTop ((outermostHandler? inner).getD top) outer := by
  induction inner generalizing top with
  | nil => rfl
  | cons b rest ih =>
      obtain ⟨hb, hrest⟩ := List.forall_mem_cons.mp hinner
      cases b with
      | guarded level handler => cases hb
      | handling level =>
          show settledTop (savedStart top level) (rest ++ outer)
            = settledTop (((outermostHandler? rest).or (some level)).getD top) outer
          rw [Nested.savedStart_eq h, ih h.2.2 hrest]
          cases outermostHandler? rest <;> rfl

namespace Frame

variable {f : Frame} {handled : Option Value}

/-- What is handled when the given handlers of the frame are closed: what the outermost of
them saved. -/
def keptBy (f : Frame) (handlers : List Block) (handled : Option Value) : Option Value :=
  match outermostHandler? handlers with
  | some level => f.keptAt level
  | none => handled

/-- An exception that is caught passes the handlers inside the body. -/
theorem settle_eq_keptBy (h : f.Loose 0) (hblocks : f.blocks = inner ++ .guarded level handler :: outer)
    (hinner : ∀ b ∈ inner, b.isHandling = true) : f.settle handled = f.keptBy inner handled := by
  have hnested : Nested f.nlocals f.slots.size (inner ++ .guarded level handler :: outer) := hblocks ▸ h
  cases inner with
  | nil =>
      unfold settle
      rw [hblocks]
      rfl
  | cons b rest =>
      have htop := hnested.settledTop_append hinner
      cases b with
      | guarded level handler => cases (List.forall_mem_cons.mp hinner).1
      | handling l =>
          have hsettle : f.settle handled = f.keptAt (settledTop f.slots.size f.blocks) := by
            unfold settle
            rw [hblocks]
            rfl
          rw [hsettle, hblocks, htop]
          unfold keptBy
          show f.keptAt (((outermostHandler? rest).or (some l)).getD f.slots.size)
            = match (outermostHandler? rest).or (some l) with
              | some k => f.keptAt k
              | none => handled
          cases outermostHandler? rest <;> rfl

end Frame

/-! ## §3. Entering and leaving. -/

variable {vm : Vm} {f : Frame} {rest : List Frame}

/-- An exception that is caught enters the handler of the innermost try body. -/
theorem unwind_of_guarded (hframes : vm.frames = f :: rest) (h : f.Loose 0)
    (hblocks : f.blocks = inner ++ .guarded level handler :: outer)
    (hinner : ∀ b ∈ inner, b.isHandling = true) (exc : Value) :
    unwind exc vm = .ok ()
      { vm with
        frames := { f with
          next := handler
          blocks := .handling level :: outer
          slots := f.slots.take level ++ savedTriplet (f.keptBy inner vm.handled) ++ [some exc] } :: rest
        handled := some exc } := by
  have hbody : f.tryBody? = some ⟨level, handler, outer⟩ := by
    rw [Frame.tryBody?, hblocks, tryBodyIn_append hinner]
    rfl
  obtain ⟨hlocals, hlevel, -⟩ := Nested.level_le_settledTop h hbody
  have hslots : f.settledSlots.take (max level f.nlocals) = f.slots.take level := by
    rw [Nat.max_eq_left hlocals]
    exact take_take_of_le hlevel
  rw [unwind_eq hframes, unwindThrough_caught h.inPlace hbody hframes exc]
  unfold Frame.catching
  rw [hslots, Frame.settle_eq_keptBy h hblocks hinner]

/-- An exception that is not caught closes all handlers. -/
theorem unwind_of_handling (hframes : vm.frames = f :: rest) (h : f.Loose 0)
    (hall : ∀ b ∈ f.blocks, b.isHandling = true) (exc : Value) :
    unwind exc vm = .error (.exception exc)
      { vm with
        frames := { f with
          blocks := []
          slots := f.slots.take ((outermostHandler? f.blocks).getD f.slots.size) } :: rest
        handled := f.keptBy f.blocks vm.handled } := by
  have hbody : f.tryBody? = none := tryBodyIn_eq_none hall
  have hnested : Nested f.nlocals f.slots.size (f.blocks ++ []) := by
    rw [List.append_nil]
    exact h
  have htop := hnested.settledTop_append hall
  rw [List.append_nil] at htop
  have hslots : f.settledSlots
      = f.slots.take ((outermostHandler? f.blocks).getD f.slots.size) := by
    unfold Frame.settledSlots
    rw [htop]
    rfl
  rw [unwind_eq hframes, unwindThrough_uncaught h.inPlace hbody hframes exc, hslots,
    Frame.settle_eq_restore h hbody]
  rfl

/-- Leaving a handler whose saved slots are intact cuts off all that lies above its level. -/
theorem leaveHandler_of_triplet {low above : List (Option Value)} {kept : Option Value}
    (hframes : vm.frames = f :: rest) (hblocks : f.blocks = .handling level :: outer)
    (hlocals : f.nlocals ≤ level) (hslots : f.slots.toList = low ++ savedTriplet kept ++ above)
    (hlow : low.length = level) :
    leaveHandler vm = .ok ()
      { vm with
        frames := { f with blocks := outer, slots := low.toArray } :: rest
        handled := kept } := by
  have hsize : f.slots.size = level + savedSlots + above.length := by
    rw [← Array.length_toList, hslots, List.length_append, List.length_append,
      length_savedTriplet, hlow]
    rfl
  have htake : f.slots.take level = low.toArray := by
    apply Array.toList_inj.mp
    rw [toList_take, hslots, List.append_assoc, List.take_left' hlow]
  rw [leaveHandler_eq hframes hblocks hlocals (by omega), htake, Frame.keptAt_of_triplet hslots hlow]

/-- **Leaving a handler undoes its entry.**  An exception that meets a try body at some level
leaves the blocks around the body, with a handler at that level, and the slots below the level,
with what was handled before the handlers inside the body and with itself on top; when the
handler is left, with these saved slots in place and anything above them, the blocks around
the body, the slots below the level and what was handled before are there again.  An exception
that meets no try body closes all handlers of the frame and goes on, and what was handled
before the outermost of them is handled again. -/
theorem unwind_leaveHandler (hframes : vm.frames = f :: rest) (hlaid : f.LaidOut) (exc : Value) :
    (∀ inner level handler outer, f.blocks = inner ++ .guarded level handler :: outer →
      (∀ b ∈ inner, b.isHandling = true) →
      unwind exc vm = .ok ()
          { vm with
            frames := { f with
              next := handler
              blocks := .handling level :: outer
              slots := f.slots.take level ++ savedTriplet (f.keptBy inner vm.handled)
                ++ [some exc] } :: rest
            handled := some exc }
        ∧ level ≤ f.top
        ∧ ∀ (later : Vm) (g : Frame) (below : List Frame) (low above : List (Option Value)),
          later.frames = g :: below → g.nlocals = f.nlocals → g.blocks = .handling level :: outer →
          g.slots.toList = low ++ savedTriplet (f.keptBy inner vm.handled) ++ above →
          low.length = level →
          leaveHandler later = .ok ()
            { later with
              frames := { g with blocks := outer, slots := low.toArray } :: below
              handled := f.keptBy inner vm.handled })
    ∧ ((∀ b ∈ f.blocks, b.isHandling = true) →
      unwind exc vm = .error (.exception exc)
        { vm with
          frames := { f with
            blocks := []
            slots := f.slots.take ((outermostHandler? f.blocks).getD f.slots.size) } :: rest
          handled := f.keptBy f.blocks vm.handled }) := by
  have hloose := Frame.laidOut_iff.mp hlaid
  refine ⟨fun inner level handler outer hblocks hinner => ?_, fun hall => ?_⟩
  · have hmem : Block.guarded level handler ∈ f.blocks := by
      rw [hblocks]
      exact List.mem_append_right inner List.mem_cons_self
    -- a level lies between the locals and the top, so nothing is cut that should stay
    have hlocals : f.nlocals ≤ level := hlaid.nlocals_le _ hmem
    have hlevel : level ≤ f.top := (nested_iff.mp hloose).2.1 _ hmem
    refine ⟨unwind_of_guarded hframes hloose hblocks hinner exc, hlevel, ?_⟩
    intro later g below low above hlater hsame hhandling hslots hlow
    exact leaveHandler_of_triplet hlater hhandling (hsame ▸ hlocals) hslots hlow
  · exact unwind_of_handling hframes hloose hall exc

/-- An exception that says its name. -/
def thrown (serial : Nat) (message : String) : Value :=
  .exception ⟨serial, "Exception", message⟩

/-- A frame that was in a handler, in which nothing was handled before, when it entered two more:
`A` was handled before the second, `B` before the third. -/
def amidHandlers (blocks : List Block) : Frame where
  function := ⟨0, ⟨"f", "f", "", 1, encodeAll [(.raise, 0)], #[], #[], #["x"], 0, []⟩⟩
  slots := #[some (.int 7), none, none, none, some (.int 8),
    some (.str "Exception"), some (thrown 1 "A"), some .none,
    some (.str "Exception"), some (thrown 2 "B"), some .none, some (.int 9)]
  blocks := blocks
  parent := none
  argCount := 0

/-- A machine on which `C` is handled while it runs. -/
def amid (blocks : List Block) : Vm where
  frames := [amidHandlers blocks]
  handled := some (thrown 3 "C")

/-- With a try body around the inner two, an exception enters its handler with `A` saved, and `A`
is handled again when that is left; with none, nothing is handled when the exception goes on. -/
theorem unwind_leaveHandler_amid :
    (∃ caught left,
        unwind (thrown 4 "D") (amid [.handling 8, .handling 5, .guarded 5 40, .handling 1])
            = .ok () caught
          ∧ caught.handled = some (thrown 4 "D")
          ∧ caught.frames.map (fun f => (f.next, f.top)) = [(40, 9)]
          ∧ leaveHandler caught = .ok () left ∧ left.handled = some (thrown 1 "A")
          ∧ left.frames.map (fun f => (f.top, f.blocks)) = [(5, [.handling 1])])
      ∧ ∃ gone, unwind (thrown 4 "D") (amid [.handling 8, .handling 5, .handling 1])
            = .error (.exception (thrown 4 "D")) gone
          ∧ gone.handled = none ∧ gone.frames.map (fun f => (f.top, f.blocks)) = [(1, [])] := by
  have hframes (blocks : List Block) : (amid blocks).frames = [amidHandlers blocks] := rfl
  constructor
  · have hlaid : (amidHandlers [.handling 8, .handling 5, .guarded 5 40, .handling 1]).LaidOut :=
      Frame.laidOut_iff.mpr (by decide)
    obtain ⟨hcaught, -, hleave⟩ := (unwind_leaveHandler (hframes _) hlaid (thrown 4 "D")).1
      [.handling 8, .handling 5] 5 40 [.handling 1] rfl (by decide)
    exact ⟨_, _, hcaught, rfl, rfl,
      hleave _ _ [] [some (.int 7), none, none, none, some (.int 8)] [some (thrown 4 "D")]
        rfl rfl rfl rfl rfl,
      rfl, rfl⟩
  · have hlaid : (amidHandlers [.handling 8, .handling 5, .handling 1]).LaidOut :=
      Frame.laidOut_iff.mpr (by decide)
    have hgone := (unwind_leaveHandler (hframes _) hlaid (thrown 4 "D")).2 (by decide)
    exact ⟨_, hgone, rfl, rfl⟩

end Resumable
