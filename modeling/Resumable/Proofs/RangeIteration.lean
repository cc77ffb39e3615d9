/-
  Resumable.Proofs.RangeIteration
  ───────────────────────────────
  **A RANGE GIVES ITS INTEGERS AND ENDS.**

  An iterator over a range holds the integer it gives next, held at the ends of the
  64-bit range when the next one does not fit:

      exact     start   start + step   …   start + n * step   │  start + (n + 1) * step   …
      held      start   start + step   …   start + n * step   │  an end of the 64 bits    …
                                                       stop ──┘

  The two rows are the same as long as the exact integer lies before the stop of the
  range.  From the first one that does not, neither row comes back before the stop:
  the exact one moves on, and the one that is held stays.

  Main results:
    • `Cursor.Follows.advance` — one call keeps the rows together,
    • `range_enumerates`       — what all calls answer, one after the other.
-/
import Mathlib
import Resumable.Value.Store

namespace Resumable

/-! ## §1. The exact row. -/

/-- Whether an integer lies before the stop of a range, in the direction of its step. -/
def BeforeStop (stop step i : Int) : Prop :=
  if 0 < step then i < stop else stop < i

instance (stop step i : Int) : Decidable (BeforeStop stop step i) :=
  inferInstanceAs (Decidable (if 0 < step then i < stop else stop < i))

/-- The integer a range comes to after `k` steps. -/
def exactItem (start step : Int) (k : Nat) : Int :=
  start + k * step

section Exact

variable {start stop step i : Int} {k l : Nat}

@[simp] theorem exactItem_zero : exactItem start step 0 = start := by
  simp [exactItem]

theorem exactItem_succ : exactItem start step (k + 1) = exactItem start step k + step := by
  unfold exactItem
  push_cast
  ring

theorem beforeStop_of_pos (h : 0 < step) : BeforeStop stop step i ↔ i < stop := by
  rw [BeforeStop, if_pos h]

theorem beforeStop_of_neg (h : step < 0) : BeforeStop stop step i ↔ stop < i := by
  rw [BeforeStop, if_neg (by omega)]

/-- A step away from the start does not lead back before the stop. -/
theorem BeforeStop.of_add (h : BeforeStop stop step (i + step)) : BeforeStop stop step i := by
  unfold BeforeStop at h ⊢
  split at h
  · next hpos =>
      rw [if_pos hpos]
      omega
  · next hpos =>
      rw [if_neg hpos]
      omega

theorem BeforeStop.of_le (hle : k ≤ l) (h : BeforeStop stop step (exactItem start step l)) :
    BeforeStop stop step (exactItem start step k) := by
  induction l, hle using Nat.le_induction with
  | base => exact h
  | succ l hle ih =>
      rw [exactItem_succ] at h
      exact ih h.of_add

/-- **The exact row leaves the range**, in whichever direction it moves. -/
theorem exists_not_beforeStop (start stop : Int) (hstep : step ≠ 0) :
    ∃ k, ¬ BeforeStop stop step (exactItem start step k) := by
  refine ⟨(stop - start).natAbs, fun h => ?_⟩
  unfold exactItem at h
  rcases lt_or_gt_of_ne hstep with hneg | hpos
  · rw [beforeStop_of_neg hneg] at h
    have hmul : ((stop - start).natAbs : Int) * step ≤ (stop - start).natAbs * (-1) :=
      mul_le_mul_of_nonneg_left (by omega) (by omega)
    omega
  · rw [beforeStop_of_pos hpos] at h
    have hmul : ((stop - start).natAbs : Int) * 1 ≤ (stop - start).natAbs * step :=
      mul_le_mul_of_nonneg_left (by omega) (by omega)
    omega

/-- So there is a last integer before the stop, if there is a first one. -/
theorem exists_count (start stop : Int) (hstep : step ≠ 0) :
    ∃ n : Nat, ∀ k, k < n ↔ BeforeStop stop step (exactItem start step k) := by
  have hends := exists_not_beforeStop start stop hstep
  refine ⟨Nat.find hends, fun k => ⟨fun hlt => ?_, fun hbefore => ?_⟩⟩
  · exact not_not.mp (Nat.find_min hends hlt)
  · refine Nat.lt_of_not_le fun hle => ?_
    exact Nat.find_spec hends (hbefore.of_le hle)

end Exact

/-! ## §2. The row that is held. -/

namespace Store

variable {a b : Int64}

/-- A sum that fits is exact. -/
theorem toInt_saturatingAdd_of_fits (hlow : Int64.minValue.toInt ≤ a.toInt + b.toInt)
    (hhigh : a.toInt + b.toInt ≤ Int64.maxValue.toInt) :
    (saturatingAdd a b).toInt = a.toInt + b.toInt := by
  unfold saturatingAdd
  dsimp only
  rw [if_neg (by omega), if_neg (by omega)]
  rw [Int64.toInt_minValue] at hlow
  rw [Int64.toInt_maxValue] at hhigh
  exact Int64.toInt_ofInt_of_le hlow (by omega)

/-- One that is too great is held at the upper end. -/
theorem saturatingAdd_of_high (h : Int64.maxValue.toInt < a.toInt + b.toInt) :
    saturatingAdd a b = Int64.maxValue := by
  have hends : Int64.minValue.toInt < Int64.maxValue.toInt := by decide
  unfold saturatingAdd
  dsimp only
  rw [if_neg (by omega), if_pos h]

/-- One that is too small is held at the lower end. -/
theorem saturatingAdd_of_low (h : a.toInt + b.toInt < Int64.minValue.toInt) :
    saturatingAdd a b = Int64.minValue := by
  unfold saturatingAdd
  exact if_pos h

end Store

section Held

variable {stop step next : Int64} {exact : Int}

/-- Both rows stand at the same integer before the stop, or at none that is before it. -/
structure Cursor.Follows (stop step next : Int64) (exact : Int) : Prop where
  /-- Before the stop they are the same. -/
  eq : BeforeStop stop.toInt step.toInt exact → next.toInt = exact
  /-- After it, the row that is held does not come back. -/
  ended : ¬ BeforeStop stop.toInt step.toInt exact → ¬ BeforeStop stop.toInt step.toInt next.toInt

/-- **A step that is held** keeps the rows together, since nothing lies beyond the ends. -/
theorem Cursor.Follows.add (hstep : step ≠ 0) (h : next.toInt = exact) :
    Cursor.Follows stop step (Store.saturatingAdd next step) (exact + step.toInt) := by
  subst h
  have hzero : step.toInt ≠ 0 := fun heq => hstep (Int64.toInt_inj.mp heq)
  have hlow := Int64.minValue_le_toInt next
  have hhigh := Int64.toInt_le next
  have hstopLow := Int64.minValue_le_toInt stop
  have hstopHigh := Int64.toInt_le stop
  by_cases habove : Int64.maxValue.toInt < next.toInt + step.toInt
  · have hpos : 0 < step.toInt := by omega
    rw [Store.saturatingAdd_of_high habove]
    refine ⟨fun hbefore => ?_, fun _ => ?_⟩
    · rw [beforeStop_of_pos hpos] at hbefore
      omega
    · rw [beforeStop_of_pos hpos]
      omega
  by_cases hbelow : next.toInt + step.toInt < Int64.minValue.toInt
  · have hneg : step.toInt < 0 := by omega
    rw [Store.saturatingAdd_of_low hbelow]
    refine ⟨fun hbefore => ?_, fun _ => ?_⟩
    · rw [beforeStop_of_neg hneg] at hbefore
      omega
    · rw [beforeStop_of_neg hneg]
      omega
  · have hsum := Store.toInt_saturatingAdd_of_fits (Int.not_lt.mp hbelow) (Int.not_lt.mp habove)
    exact ⟨fun _ => hsum, fun hended => hsum ▸ hended⟩

end Held

/-! ## §3. Calls for the next item. -/

/-- An iterator over a range gives the integer it holds if that is before the stop. -/
theorem Store.step_range (s : Store) (next stop step : Int64) :
    s.step (.range next stop step)
      = if BeforeStop stop.toInt step.toInt next.toInt
        then (some (.int next), .range (saturatingAdd next step) stop step)
        else (none, .range next stop step) := by
  unfold Store.step BeforeStop
  simp only [Int64.lt_iff_toInt_lt, Int64.le_iff_toInt_le, Int64.toInt_zero]
  by_cases hpos : 0 < step.toInt
  · simp only [hpos, if_true, ← Int.not_lt, ite_not]
  · simp only [hpos, if_false, ← Int.not_lt, ite_not]

/-- The item an iterator at a place gives, and the iterator after it. -/
theorem Store.advance_eq {s : Store} {place : Address} {cursor : Cursor}
    (h : s.cursors[place]? = some cursor) :
    (s.advance place).1 = (s.step cursor).1
      ∧ (s.advance place).2.cursors[place]? = some (s.step cursor).2 := by
  obtain ⟨hlt, -⟩ := Array.getElem?_eq_some_iff.mp h
  unfold advance
  rw [h]
  exact ⟨rfl, Array.getElem?_setIfInBounds_self_of_lt hlt⟩

/-- An iterator is asked for one item after the other.  The store may change in between, but
the iterator is left as the last call left it. -/
def AskedAgain (place : Address) (stores : Nat → Store) : Prop :=
  ∀ k, (stores (k + 1)).cursors[place]? = ((stores k).advance place).2.cursors[place]?

section Calls

variable {start stop step : Int64} {place : Address} {stores : Nat → Store}

/-- **One call** answers the exact integer if it is before the stop, and keeps the rows together. -/
theorem Cursor.Follows.advance {s : Store} {next : Int64} {exact : Int} (hstep : step ≠ 0)
    (h : Cursor.Follows stop step next exact) (hnext : s.cursors[place]? = some (.range next stop step)) :
    (s.advance place).1
        = (if BeforeStop stop.toInt step.toInt exact then some (.int (Int64.ofInt exact)) else none)
      ∧ ∃ next', (s.advance place).2.cursors[place]? = some (.range next' stop step)
        ∧ Cursor.Follows stop step next' (exact + step.toInt) := by
  obtain ⟨hanswer, hafter⟩ := Store.advance_eq hnext
  rw [hanswer, hafter, Store.step_range]
  by_cases hbefore : BeforeStop stop.toInt step.toInt exact
  · have heq := h.eq hbefore
    rw [if_pos (heq ▸ hbefore), if_pos hbefore, ← heq, Int64.ofInt_toInt]
    exact ⟨rfl, _, rfl, .add hstep rfl⟩
  · rw [if_neg (h.ended hbefore), if_neg hbefore]
    exact ⟨rfl, next, rfl, fun hagain => absurd hagain.of_add hbefore, fun _ => h.ended hbefore⟩

/-- After any number of calls the rows are together. -/
theorem AskedAgain.follows (hstep : step ≠ 0)
    (hstart : (stores 0).cursors[place]? = some (.range start stop step))
    (h : AskedAgain place stores) (k : Nat) :
    ∃ next, (stores k).cursors[place]? = some (.range next stop step)
      ∧ Cursor.Follows stop step next (exactItem start.toInt step.toInt k) := by
  induction k with
  | zero =>
      rw [exactItem_zero]
      exact ⟨start, hstart, fun _ => rfl, id⟩
  | succ k ih =>
      obtain ⟨next, hnext, hfollows⟩ := ih
      rw [h k, exactItem_succ]
      exact (hfollows.advance hstep hnext).2

/-- **What the calls answer.**  An iterator over a range whose step is not zero gives, one
after the other, the integers `start`, `start + step`, `start + 2 * step`, … that lie before the
stop in the direction of the step, each of them exactly, and after the last of them no more. -/
theorem range_enumerates (hstep : step ≠ 0)
    (hstart : (stores 0).cursors[place]? = some (.range start stop step))
    (hasked : AskedAgain place stores) :
    ∃ items : List Int64,
      items.map Int64.toInt
          = (List.range items.length).map (exactItem start.toInt step.toInt)
        ∧ (∀ k, k < items.length
          ↔ BeforeStop stop.toInt step.toInt (exactItem start.toInt step.toInt k))
        ∧ ∀ k, ((stores k).advance place).1 = items[k]?.map .int := by
  have hzero : step.toInt ≠ 0 := fun heq => hstep (Int64.toInt_inj.mp heq)
  obtain ⟨n, hn⟩ := exists_count start.toInt stop.toInt hzero
  let items := (List.range n).map fun k => Int64.ofInt (exactItem start.toInt step.toInt k)
  have hlength : items.length = n := by simp [items]
  refine ⟨items, ?_, fun k => by rw [hlength, hn], fun k => ?_⟩
  · rw [hlength, List.map_map]
    refine List.map_congr_left fun k hk => ?_
    -- an integer before the stop is one that the iterator has held
    have hbefore := (hn k).mp (List.mem_range.mp hk)
    obtain ⟨next, -, hfollows⟩ := hasked.follows hstep hstart k
    show (Int64.ofInt (exactItem start.toInt step.toInt k)).toInt = _
    rw [← hfollows.eq hbefore, Int64.ofInt_toInt]
  · obtain ⟨next, hnext, hfollows⟩ := hasked.follows hstep hstart k
    rw [(hfollows.advance hstep hnext).1]
    by_cases hlt : k < n
    · rw [if_pos ((hn k).mp hlt)]
      simp [items, hlt]
    · rw [if_neg fun hbefore => hlt ((hn k).mpr hbefore)]
      simp [items, hlt]

end Calls

/-! ## §4. A range whose next integer does not fit. -/

/-- The stores that come of nothing but calls. -/
def polled (place : Address) (s : Store) : Nat → Store
  | 0 => s
  | k + 1 => ((polled place s k).advance place).2

theorem askedAgain_polled (place : Address) (s : Store) : AskedAgain place (polled place s) :=
  fun _ => rfl

/-- A store with an iterator that moves by two, from three below the greatest integer to it. -/
def lastSteps : Store :=
  (({} : Store).makeIterator (.range (Int64.maxValue - 3) Int64.maxValue 2)).2

/-- It gives two integers; the third one would not fit. -/
theorem range_enumerates_lastSteps :
    ∃ items : List Int64,
      items.map Int64.toInt = [9223372036854775804, 9223372036854775806]
        ∧ ∀ k, ((polled 0 lastSteps k).advance 0).1 = items[k]?.map .int := by
  have hstart : (polled 0 lastSteps 0).cursors[0]?
      = some (.range (Int64.maxValue - 3) Int64.maxValue 2) := rfl
  obtain ⟨items, hitems, hcount, hanswers⟩ :=
    range_enumerates (by decide) hstart (askedAgain_polled 0 lastSteps)
  have hone : 1 < items.length := (hcount 1).mpr (by decide)
  have htwo : ¬ 2 < items.length := fun h => absurd ((hcount 2).mp h) (by decide)
  have hlength : items.length = 2 := by omega
  rw [hlength] at hitems
  exact ⟨items, hitems, hanswers⟩

end Resumable
