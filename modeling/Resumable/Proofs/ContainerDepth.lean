/-
  Resumable.Proofs.ContainerDepth
  ───────────────────────────────
  **HOW DEEP CONTAINERS HAVE TO BE FOLLOWED.**

  Comparing and writing follow containers inside containers, and both are given
  a depth to stop at.  No answer depends on it:

      comparing   `s.same 1 ⊆ s.same 2 ⊆ …` are relations on the containers of
                  the store.  There are `n * n` pairs, and once a step adds no
                  pair no later one does, so the chain is constant from
                  `n * n + 1` on;
      writing     a container inside itself is left out, so each container that
                  is gone into is one less to go into later.

  A place that nobody was given reads as an empty container, and there is
  nothing in it to follow.

  Main results:
    • `Store.same_of_le`          — comparing deeper finds nothing more,
    • `Store.containerRepr_of_lt` — writing deeper shows nothing more.
-/
import Resumable.Proofs.Renaming

namespace Resumable

/-- Values that are equal stay equal when more containers are. -/
theorem Value.eqBy_mono {same same' : Container → Container → Bool}
    (h : ∀ p q, same p q = true → same' p q = true) {a b : Value}
    (hab : a.eqBy same b = true) : a.eqBy same' b = true := by
  induction a using Value.induct generalizing b with
  | leaf a ha =>
      cases a with
      | tuple items => exact nomatch ha
      | list p =>
          cases b with
          | list q => exact h _ _ hab
          | _ => exact hab
      | dict p =>
          cases b with
          | dict q => exact h _ _ hab
          | _ => exact hab
      | bool i => simpa [eqBy] using hab
      | int i => simpa [eqBy] using hab
      | _ => cases b <;> exact hab
  | tuple items ih =>
      cases b with
      | tuple items' =>
          rw [eqBy] at hab ⊢
          -- tuples are compared item by item, so the containers in them are compared pairwise
          induction items generalizing items' with
          | nil => cases items' <;> exact hab
          | cons v rest ih' =>
              cases items' with
              | nil => exact hab
              | cons v' rest' =>
                  rw [itemsEqBy, Bool.and_eq_true] at hab ⊢
                  exact ⟨ih v (List.mem_cons_self ..) hab.1,
                    ih' (fun v hv => ih v (List.mem_cons_of_mem _ hv)) rest' hab.2⟩
      | _ => exact hab

namespace Store

variable {s : Store}

/-! ## §1. The containers of a store. -/

/-- The containers that were made. -/
def places (s : Store) : Finset Container :=
  (Finset.range s.lists.size).image .list ∪ (Finset.range s.dicts.size).image .dict

theorem list_mem_places {place : Address} :
    .list place ∈ s.places ↔ place < s.lists.size := by
  simp [places]

theorem dict_mem_places {place : Address} :
    .dict place ∈ s.places ↔ place < s.dicts.size := by
  simp [places]

theorem card_places_le (s : Store) : s.places.card ≤ s.containers := by
  refine (Finset.card_union_le _ _).trans (Nat.add_le_add ?_ ?_)
  · exact Finset.card_image_le.trans (Finset.card_range _).le
  · exact Finset.card_image_le.trans (Finset.card_range _).le

/-- A place that nobody was given holds nothing. -/
theorem held_of_notMem {c : Container} (h : c ∉ s.places) : s.held c = [] := by
  cases c with
  | list place =>
      rw [list_mem_places, Nat.not_lt] at h
      rw [held, list, Array.getElem?_eq_none h]
      rfl
  | dict place =>
      rw [dict_mem_places, Nat.not_lt] at h
      rw [held, dict, Array.getElem?_eq_none h]
      rfl

/-! ## §2. Comparing. -/

/-- What is found equal is found equal one deeper. -/
theorem same_succ {d : Nat} {a b : Container} (h : s.same d a b = true) :
    s.same (d + 1) a b = true := by
  induction d generalizing a b with
  | zero =>
      have hself : (a == b) = true := h
      rw [same, hself, Bool.true_or]
  | succ d ih =>
      rw [same, Bool.or_eq_true, Bool.and_eq_true] at h ⊢
      refine h.imp_right fun ⟨hkeys, hheld⟩ => ⟨hkeys, ?_⟩
      exact Value.eqBy_mono (fun _ _ => ih) (a := .tuple (s.held a)) (b := .tuple (s.held b)) hheld

/-- A place that nobody was given is compared at depth one. -/
theorem same_of_notMem {a b : Container} (h : ¬(a ∈ s.places ∧ b ∈ s.places)) (d : Nat) :
    s.same (d + 1) a b = s.same 1 a b := by
  show (_ || _ && itemsEqBy (s.same d) _ _) = (_ || _ && itemsEqBy (s.same 0) _ _)
  by_cases ha : a ∈ s.places
  · rw [held_of_notMem fun hb => h ⟨ha, hb⟩]
    cases s.held a <;> rfl
  · rw [held_of_notMem ha]
    cases s.held b <;> rfl

/-- The pairs of containers that are found equal. -/
def equalPairs (s : Store) (d : Nat) : Finset (Container × Container) :=
  (s.places ×ˢ s.places).filter fun p => s.same (d + 1) p.1 p.2

/-- Where the same pairs are found equal, everything compares the same. -/
theorem same_eq_of_equalPairs_eq {d e : Nat} (h : s.equalPairs d = s.equalPairs e) :
    s.same (d + 1) = s.same (e + 1) := by
  funext a b
  by_cases hab : a ∈ s.places ∧ b ∈ s.places
  · have hmem (d : Nat) : (a, b) ∈ s.equalPairs d ↔ s.same (d + 1) a b = true := by
      rw [equalPairs, Finset.mem_filter, Finset.mem_product]
      exact and_iff_right hab
    rw [Bool.eq_iff_iff, ← hmem d, ← hmem e, h]
  · rw [same_of_notMem hab d, same_of_notMem hab e]

theorem equalPairs_mono (s : Store) : Monotone s.equalPairs :=
  monotone_nat_of_le_succ fun _ => Finset.monotone_filter_right _ fun _ _ => same_succ

/-- A step that adds no pair is followed by one that adds no pair. -/
theorem equalPairs_succ {d : Nat} (h : s.equalPairs d = s.equalPairs (d + 1)) :
    s.equalPairs (d + 1) = s.equalPairs (d + 2) := by
  have hsame := same_eq_of_equalPairs_eq h
  refine Finset.filter_congr fun p _ => ?_
  show (_ || _ && itemsEqBy (s.same (d + 1)) _ _) = true ↔ _
  rw [hsame, same]

/-- **Comparing deeper finds nothing more** than comparing as deep as there are
pairs of containers. -/
theorem same_of_le {d : Nat} (h : s.containers * s.containers + 1 ≤ d) :
    s.same d = s.same (s.containers * s.containers + 1) := by
  obtain ⟨d, rfl⟩ : ∃ m, d = m + 1 := ⟨d - 1, by omega⟩
  have hle : s.containers * s.containers ≤ d := Nat.le_of_succ_le_succ h
  have hcard (m : Nat) : (s.equalPairs m).card ≤ s.containers * s.containers :=
    calc (s.equalPairs m).card
        ≤ (s.places ×ˢ s.places).card := Finset.card_filter_le ..
      _ = s.places.card * s.places.card := Finset.card_product ..
      _ ≤ s.containers * s.containers := Nat.mul_le_mul s.card_places_le s.card_places_le
  have hstable := Nat.stabilises_of_monotone
    (fun _ _ hmn => Finset.card_le_card (s.equalPairs_mono hmn)) hcard
    (fun m hm => congrArg Finset.card (equalPairs_succ
      (Finset.eq_of_subset_of_card_le (s.equalPairs_mono m.le_succ) hm.ge))) hle
  exact same_eq_of_equalPairs_eq
    (Finset.eq_of_subset_of_card_le (s.equalPairs_mono hle) hstable.le).symm

/-! ## §3. Writing. -/

/-- **Writing deeper shows nothing more** than writing as deep as there are
containers that are not around. -/
theorem containerRepr_of_lt {m n : Nat} {outer : List Container} {c : Container}
    (hm : (s.places.filter (· ∉ outer)).card < m) (hn : (s.places.filter (· ∉ outer)).card < n) :
    s.containerRepr m outer c = s.containerRepr n outer c := by
  induction m generalizing n outer c with
  | zero => exact absurd hm (Nat.not_lt_zero _)
  | succ m ih =>
      obtain ⟨n, rfl⟩ : ∃ k, n = k + 1 := ⟨n - 1, by omega⟩
      rw [containerRepr, containerRepr]
      split
      · rfl
      · rename_i hc
        by_cases hmem : c ∈ s.places
        · -- Whatever is written inside `c` is written with `c` around it.
          have hless : (s.places.filter (· ∉ c :: outer)).card
              < (s.places.filter (· ∉ outer)).card := by
            refine Finset.card_lt_card ⟨?_, fun hsub => ?_⟩
            · exact Finset.monotone_filter_right _ fun _ _ h hin => h (List.mem_cons_of_mem _ hin)
            · have := hsub (Finset.mem_filter.mpr ⟨hmem, hc⟩)
              exact (Finset.mem_filter.mp this).2 (List.mem_cons_self ..)
          have hinner : s.containerRepr m (c :: outer) = s.containerRepr n (c :: outer) :=
            funext fun _ => ih (by omega) (by omega)
          rw [hinner]
        · rw [held_of_notMem hmem]
          rfl

/-- A container is written the same at every depth from its store's own on. -/
theorem containerRepr_of_le {n : Nat} (h : s.containers + 1 ≤ n) (c : Container) :
    s.containerRepr n [] c = s.containerRepr (s.containers + 1) [] c := by
  have hcard : (s.places.filter (· ∉ ([] : List Container))).card ≤ s.containers :=
    (Finset.card_filter_le ..).trans s.card_places_le
  exact containerRepr_of_lt (by omega) (by omega)

end Store

end Resumable
