/-
  Resumable.Proofs.ValueEquality
  ──────────────────────────────
  **EQUAL VALUES ARE NOT TOLD APART.**

  Two values are equal by one of four rules; `Value.EqualBy` names them:

      plain    the same form (numbers by what they count for)
      tuple    equal items in order
      list     one place, or equal items in order in the store
      dict     one place, or equal values under the same keys in the store

  A property that goes through the four rules holds of all equal values
  (`Value.eqBy_induct`).  That is how equality is symmetric and transitive.
  Values without cycles are compared alike in a store that has grown, since all
  that is in them was in the store before.  What an operator looks at before it
  opens a container is the form alone, so equal operands take the same way
  through it; a product that is too long for a string is so for both.

  Main results:
    • `Store.eq_equivalence` — equality is an equivalence,
    • `Store.eq_list_iff`    — lists are equal as tuples are,
    • `Store.eq_dict_iff`    — dicts are equal key by key,
    • `Calc.agree_add`       — sums of equal values are equal, in a store that
      holds one more list,
    • `multiply_eq_none_iff` — which products break off,
    • `Store.eq_congruence`  — no operator and no comparison tells equal values
      apart.
-/
import Resumable.Proofs.RenamedStore

namespace Resumable

variable {s t : Store} {a b v w : Value} {same same' : Container → Container → Bool}

/-! ## §1. Forms. -/

/-- What is seen of a value before it is opened: of a container its kind, of any
other value all that it is compared by. -/
inductive Form where
  | absent
  | number (i : Int64)
  | text (t : String)
  | tuple
  | dict
  | list
  | function (serial : Nat)
  | builtin (serial : Nat)
  | object (place : Address)
  | iterator (place : Address)
  | exception (serial : Nat)
  | continuation (place : Address)

/-- Whether a form says all of a value. -/
def Form.isPlain : Form → Bool
  | .tuple | .dict | .list => false
  | _ => true

namespace Value

/-- The form of a value. -/
def form : Value → Form
  | .none => .absent
  | .bool b => .number (if b then 1 else 0)
  | .int i => .number i
  | .str t => .text t
  | .tuple _ => .tuple
  | .dict _ => .dict
  | .list _ => .list
  | .function f => .function f.serial
  | .builtin b => .builtin b.serial
  | .object place => .object place
  | .iterator place => .iterator place
  | .exception e => .exception e.serial
  | .continuation place => .continuation place

/-- The integer a value stands for is its form. -/
theorem asInt?_eq_some_iff {i : Int64} : b.asInt? = some i ↔ Form.number i = b.form := by
  cases b <;> simp [asInt?, form, eq_comm]

/-- The string a value is, is its form. -/
theorem asStr?_eq_some_iff {t : String} : b.asStr? = some t ↔ Form.text t = b.form := by
  cases b <;> simp [asStr?, form, eq_comm]

/-- A plain value is compared by its form. -/
theorem eqBy_iff_of_isPlain (ha : a.form.isPlain = true) :
    a.eqBy same b = true ↔ a.form = b.form := by
  cases a with
  | bool | int => rw [eqBy, beq_iff_eq, asInt?_eq_some_iff, form]
  | tuple | dict | list => simp [form, Form.isPlain] at ha
  | _ => cases b <;> simp [eqBy, form]

end Value

/-! ## §2. The four rules. -/

/-- Equal by one rule, given how two containers and how two parts compare. -/
inductive Value.EqualBy (same : Container → Container → Prop) (part : Value → Value → Prop) :
    Value → Value → Prop
  | plain {a b : Value} (hplain : a.form.isPlain = true) (h : a.form = b.form) :
      EqualBy same part a b
  | tuple {as bs : List Value} (h : List.Forall₂ part as bs) :
      EqualBy same part (.tuple as) (.tuple bs)
  | list {p q : Address} (h : same (.list p) (.list q)) : EqualBy same part (.list p) (.list q)
  | dict {p q : Address} (h : same (.dict p) (.dict q)) : EqualBy same part (.dict p) (.dict q)

theorem itemsEqBy_iff {as bs : List Value} :
    itemsEqBy same as bs = true ↔ List.Forall₂ (fun v w => v.eqBy same w = true) as bs := by
  induction as generalizing bs with
  | nil => cases bs <;> simp [itemsEqBy]
  | cons v rest ih => cases bs <;> simp [itemsEqBy, ih]

namespace Value

@[simp] theorem eqBy_tuple_iff {as : List Value} :
    (Value.tuple as).eqBy same w = true ↔
      ∃ bs, w = .tuple bs ∧ List.Forall₂ (fun a b => a.eqBy same b = true) as bs := by
  cases w <;> simp [eqBy, itemsEqBy_iff]

@[simp] theorem eqBy_list_iff {p : Address} :
    (Value.list p).eqBy same w = true ↔ ∃ q, w = .list q ∧ same (.list p) (.list q) = true := by
  cases w <;> simp [eqBy]

@[simp] theorem eqBy_dict_iff {p : Address} :
    (Value.dict p).eqBy same w = true ↔ ∃ q, w = .dict q ∧ same (.dict p) (.dict q) = true := by
  cases w <;> simp [eqBy]

/-- **Values are equal by one of the four rules.** -/
theorem eqBy_iff : a.eqBy same b = true ↔
    EqualBy (fun p q => same p q = true) (fun v w => v.eqBy same w = true) a b := by
  constructor
  · intro h
    cases a with
    | tuple as => obtain ⟨bs, rfl, hitems⟩ := eqBy_tuple_iff.mp h; exact .tuple hitems
    | list p => obtain ⟨q, rfl, hpq⟩ := eqBy_list_iff.mp h; exact .list hpq
    | dict p => obtain ⟨q, rfl, hpq⟩ := eqBy_dict_iff.mp h; exact .dict hpq
    | _ => exact .plain rfl ((eqBy_iff_of_isPlain rfl).mp h)
  · rintro (⟨hplain, h⟩ | h | h | h)
    · exact (eqBy_iff_of_isPlain hplain).mpr h
    · exact eqBy_tuple_iff.mpr ⟨_, rfl, h⟩
    · exact eqBy_list_iff.mpr ⟨_, rfl, h⟩
    · exact eqBy_dict_iff.mpr ⟨_, rfl, h⟩

/-- **What goes through the four rules holds of all equal values.** -/
theorem eqBy_induct {P : Value → Value → Prop}
    (step : ∀ a b, EqualBy (fun p q => same p q = true) P a b → P a b) (h : a.eqBy same b = true) :
    P a b := by
  -- The rule is found by the first value, so the induction is on that one alone.
  induction a using Value.induct generalizing b with
  | leaf a ha =>
      apply step
      cases eqBy_iff.mp h with
      | plain hplain h => exact .plain hplain h
      | list h => exact .list h
      | dict h => exact .dict h
      | tuple h => exact nomatch ha
  | tuple items ih =>
      obtain ⟨bs, rfl, hitems⟩ := eqBy_tuple_iff.mp h
      have hih := (List.forall₂_and_left _ _).mpr ⟨fun v hv w => ih v hv (b := w), hitems⟩
      exact step _ _ (.tuple (hih.imp fun v w hvw => hvw.1 w hvw.2))

/-! ## §3. An equivalence. -/

/-- A value is equal to itself. -/
theorem eqBy_refl (hrefl : ∀ p, same p p = true) (v : Value) : v.eqBy same v = true := by
  induction v using Value.induct with
  | leaf v hv =>
      cases v with
      | tuple items => exact nomatch hv
      | list p => exact eqBy_list_iff.mpr ⟨p, rfl, hrefl _⟩
      | dict p => exact eqBy_dict_iff.mpr ⟨p, rfl, hrefl _⟩
      | _ => exact (eqBy_iff_of_isPlain rfl).mpr rfl
  | tuple items ih => exact eqBy_tuple_iff.mpr ⟨items, rfl, List.forall₂_same.mpr ih⟩

/-- Equality goes both ways. -/
theorem eqBy_symm (hsymm : ∀ p q, same p q = true → same q p = true) (h : a.eqBy same b = true) :
    b.eqBy same a = true := by
  refine eqBy_induct (P := fun a b => b.eqBy same a = true) (fun a b hab => eqBy_iff.mpr ?_) h
  cases hab with
  | plain hplain h => exact .plain (h ▸ hplain) h.symm
  | tuple h => exact .tuple h.flip
  | list h => exact .list (hsymm _ _ h)
  | dict h => exact .dict (hsymm _ _ h)

end Value

/-- Sequences in step are empty together. -/
theorem isEmpty_eq_of_forall₂ {α β : Type} {R : α → β → Prop} {xs : List α} {ys : List β}
    (h : List.Forall₂ R xs ys) : xs.isEmpty = ys.isEmpty := by
  cases h <;> rfl

/-- Two sequences in step with a third are in step with each other. -/
theorem forall₂_trans {α : Type} {P Q R : α → α → Prop} (h : ∀ x y z, P x y → Q y z → R x z)
    {xs ys zs : List α} (hxy : List.Forall₂ P xs ys) (hyz : List.Forall₂ Q ys zs) :
    List.Forall₂ R xs zs := by
  induction hxy generalizing zs with
  | nil => cases hyz; exact .nil
  | cons hx _ ih =>
      cases hyz with
      | cons hy hrest => exact .cons (h _ _ _ hx hy) (ih hrest)

namespace Value

/-- What is equal to an equal value is equal. -/
theorem eqBy_trans (htrans : ∀ p q r, same p q = true → same q r = true → same p r = true)
    {c : Value} (hab : a.eqBy same b = true) (hbc : b.eqBy same c = true) :
    a.eqBy same c = true := by
  refine eqBy_induct (P := fun a b => ∀ c, b.eqBy same c = true → a.eqBy same c = true)
    (fun a b hab c hbc => eqBy_iff.mpr ?_) hab c hbc
  cases hab with
  | plain hplain h => exact .plain hplain (h.trans ((eqBy_iff_of_isPlain (h ▸ hplain)).mp hbc))
  | tuple h =>
      obtain ⟨cs, rfl, hitems⟩ := eqBy_tuple_iff.mp hbc
      exact .tuple (forall₂_trans (fun _ _ _ hx hy => hx _ hy) h hitems)
  | list h =>
      obtain ⟨r, rfl, hqr⟩ := eqBy_list_iff.mp hbc
      exact .list (htrans _ _ _ h hqr)
  | dict h =>
      obtain ⟨r, rfl, hqr⟩ := eqBy_dict_iff.mp hbc
      exact .dict (htrans _ _ _ h hqr)

/-- **Equality of values is an equivalence**, when equality of containers is. -/
theorem eqBy_equivalence (h : Equivalence fun p q => same p q = true) :
    Equivalence fun a b : Value => a.eqBy same b = true where
  refl := eqBy_refl h.refl
  symm := eqBy_symm fun _ _ => h.symm
  trans := eqBy_trans fun p q r (hpq : same p q = true) (hqr : same q r = true) => h.trans hpq hqr

/-- Values compare as the containers in them do. -/
theorem eqBy_congr (h : ∀ p q : Container, p.value ∈ a.leaves → q.value ∈ b.leaves →
    same' p q = same p q) : a.eqBy same' b = a.eqBy same b := by
  have heq : (a.rename (.refl 0)).eqBy same' (b.rename (.refl 0)) = a.eqBy same b := by
    refine eqBy_rename fun p q hp hq => ?_
    rw [Container.rename_refl, Container.rename_refl]
    exact h p q hp hq
  rwa [rename_refl, rename_refl] at heq

end Value

namespace Store

/-- Two containers are equal if they are one, or hold equal values in order under
the same keys. -/
theorem same_succ_iff {n : Nat} {p q : Container} : s.same (n + 1) p q = true ↔
    p = q ∨ s.keys? p = s.keys? q
      ∧ (Value.tuple (s.held p)).eqBy (s.same n) (.tuple (s.held q)) = true := by
  rw [same, Bool.or_eq_true, beq_iff_eq, Bool.and_eq_true, beq_iff_eq, Value.eqBy]

/-- At every depth, equality of containers is an equivalence. -/
theorem same_equivalence (s : Store) (n : Nat) :
    Equivalence fun p q => s.same n p q = true := by
  induction n with
  | zero =>
      simp only [same, beq_iff_eq]
      exact eq_equivalence
  | succ n ih =>
      simp only [same_succ_iff]
      have hheld := Value.eqBy_equivalence ih
      refine ⟨fun p => .inl rfl, fun h => ?_, fun hpq hqr => ?_⟩
      · obtain rfl | ⟨hkeys, h⟩ := h
        · exact .inl rfl
        · exact .inr ⟨hkeys.symm, hheld.symm h⟩
      · obtain rfl | ⟨hkeys, hpq⟩ := hpq
        · exact hqr
        · obtain rfl | ⟨hkeys', hqr⟩ := hqr
          · exact .inr ⟨hkeys, hpq⟩
          · exact .inr ⟨hkeys.trans hkeys', hheld.trans hpq hqr⟩

/-- **Equality is an equivalence.** -/
theorem eq_equivalence (s : Store) : Equivalence fun a b => s.eq a b = true :=
  Value.eqBy_equivalence (s.same_equivalence _)

/-- **Containers are equal if they are one, or hold equal values in order under
the same keys**: the bound on the depth of a comparison decides nothing. -/
theorem same_iff {p q : Container} :
    s.same (s.containers * s.containers + 1) p q = true ↔
      p = q ∨ s.keys? p = s.keys? q ∧ s.eq (.tuple (s.held p)) (.tuple (s.held q)) = true := by
  rw [← same_of_le (Nat.le_succ _), same_succ_iff]
  rfl

/-- **Lists are equal as tuples are.** -/
theorem eq_list_iff {p q : Address} : s.eq (.list p) (.list q) = true ↔
    p = q ∨ s.eq (.tuple (s.list p).toList) (.tuple (s.list q).toList) = true := by
  rw [eq, Value.eqBy, same_iff, Container.list.injEq]
  exact or_congr_right (and_iff_right rfl)

/-! ## §4. Values without cycles. -/

/-- Whether a container holds another one, itself or in a tuple. -/
def Inside (s : Store) (c inner : Container) : Prop :=
  ∃ v ∈ s.held c, inner.value ∈ v.leaves

/-- Whether a container is in a value, at any depth. -/
def Reaches (s : Store) (v : Value) (c : Container) : Prop :=
  ∃ p : Container, p.value ∈ v.leaves ∧ Relation.ReflTransGen s.Inside p c

/-- A value without cycles: the containers in it are in the store, and none of
them is in itself. -/
structure Acyclic (s : Store) (v : Value) : Prop where
  known : ∀ c, s.Reaches v c → c ∈ s.places
  acyclic : ∀ c, s.Reaches v c → ¬ Relation.TransGen s.Inside c c

variable {p q c : Container}

theorem Reaches.trans (h : s.Reaches v p) (hpq : Relation.ReflTransGen s.Inside p q) :
    s.Reaches v q := by
  obtain ⟨first, hfirst, hp⟩ := h
  exact ⟨first, hfirst, hp.trans hpq⟩

/-- Only one container is the value of a container. -/
theorem eq_of_value_mem {p first : Container} (h : first.value ∈ p.value.leaves) : first = p := by
  cases p <;> cases first <;> cases List.mem_singleton.mp h <;> rfl

/-- What is in a container is the container, or inside it. -/
theorem reaches_value : s.Reaches p.value c ↔ Relation.ReflTransGen s.Inside p c := by
  constructor
  · rintro ⟨first, hfirst, hreach⟩
    exact eq_of_value_mem hfirst ▸ hreach
  · refine fun hreach => ⟨p, ?_, hreach⟩
    cases p <;> exact List.mem_singleton.mpr rfl

/-- What is in a value that a container holds is in the container. -/
theorem Reaches.of_held (hv : v ∈ s.held p) (h : s.Reaches v c) : s.Reaches p.value c := by
  obtain ⟨first, hfirst, hreach⟩ := h
  exact reaches_value.mpr (.head ⟨v, hv, hfirst⟩ hreach)

/-- What is in a tuple is in one of its items. -/
@[simp] theorem reaches_tuple {items : List Value} :
    s.Reaches (.tuple items) c ↔ ∃ v ∈ items, s.Reaches v c := by
  simp only [Reaches, Value.leaves_tuple, List.mem_flatMap]
  constructor
  · rintro ⟨first, ⟨v, hv, hfirst⟩, hreach⟩
    exact ⟨v, hv, first, hfirst, hreach⟩
  · rintro ⟨v, hv, first, hfirst, hreach⟩
    exact ⟨first, ⟨v, hv, hfirst⟩, hreach⟩

namespace Acyclic

/-- A value is without cycles if all that is in it is in such a value. -/
theorem mono (h : s.Acyclic v) (hw : ∀ c, s.Reaches w c → s.Reaches v c) : s.Acyclic w where
  known c hc := h.known c (hw c hc)
  acyclic c hc := h.acyclic c (hw c hc)

/-- What a container without cycles holds is without cycles. -/
theorem held (h : s.Acyclic p.value) (hv : v ∈ s.held p) : s.Acyclic v :=
  h.mono fun _ => Reaches.of_held hv

/-- The containers in a value without cycles are without cycles. -/
theorem leaf (h : s.Acyclic v) (hp : p.value ∈ v.leaves) : s.Acyclic p.value :=
  h.mono fun _ hc => ⟨p, hp, reaches_value.mp hc⟩

/-- A container without cycles is in the store. -/
theorem mem_places (h : s.Acyclic p.value) : p ∈ s.places :=
  h.known p (reaches_value.mpr .refl)

/-- The items of two lists without cycles are without cycles. -/
theorem append {p q : Address} (hp : s.Acyclic (.list p)) (hq : s.Acyclic (.list q)) :
    ∀ v ∈ (s.list p ++ s.list q).toList, s.Acyclic v := by
  intro v hv
  rw [Array.toList_append] at hv
  exact (List.mem_append.mp hv).elim (held (p := .list p) hp) (held (p := .list q) hq)

/-- A plain value holds no container. -/
theorem of_isPlain (hplain : v.form.isPlain = true) : s.Acyclic v := by
  have hnone (p : Container) : p.value ∉ v.leaves := by
    cases v with
    | tuple | dict | list => simp [Value.form, Form.isPlain] at hplain
    | _ => cases p <;> simp [Value.leaves, Container.value]
  constructor
  · rintro c ⟨p, hp, -⟩
    exact absurd hp (hnone p)
  · rintro c ⟨p, hp, -⟩
    exact absurd hp (hnone p)

/-- A tuple is without cycles when its items are. -/
@[simp] theorem tuple_iff {items : List Value} :
    s.Acyclic (.tuple items) ↔ ∀ v ∈ items, s.Acyclic v := by
  constructor
  · exact fun h v hv => h.mono fun c hc => reaches_tuple.mpr ⟨v, hv, hc⟩
  · refine fun h => ⟨fun c hc => ?_, fun c hc => ?_⟩
    · obtain ⟨v, hv, hc⟩ := reaches_tuple.mp hc
      exact (h v hv).known c hc
    · obtain ⟨v, hv, hc⟩ := reaches_tuple.mp hc
      exact (h v hv).acyclic c hc

/-- Containers that hold only containers of a lower rank make no cycle. -/
theorem of_rank (rank : Container → Nat)
    (h : ∀ c inner, s.Inside c inner → inner ∈ s.places ∧ rank inner < rank c)
    (hv : ∀ p : Container, p.value ∈ v.leaves → p ∈ s.places) : s.Acyclic v := by
  have hlt {p q : Container} (hpq : Relation.TransGen s.Inside p q) :
      q ∈ s.places ∧ rank q < rank p := by
    induction hpq with
    | single hin => exact h _ _ hin
    | tail _ hin ih => exact ⟨(h _ _ hin).1, Nat.lt_trans (h _ _ hin).2 ih.2⟩
  refine ⟨fun c ⟨p, hp, hreach⟩ => ?_, fun c _ hcycle => Nat.lt_irrefl _ (hlt hcycle).2⟩
  obtain rfl | hreach := Relation.reflTransGen_iff_eq_or_transGen.mp hreach
  · exact hv _ hp
  · exact (hlt hreach).1

end Acyclic

/-! ## §5. In a store that has grown. -/

/-- A container that is in a store is in one that has grown out of it. -/
theorem mem_places_of_extends (hst : s.Extends t) (hc : c ∈ s.places) : c ∈ t.places := by
  have hknown : c.value.Known s 0 := known_container.mpr hc
  exact known_container.mp (hst.known hknown)

/-- It holds the same values. -/
theorem held_of_extends (hst : s.Extends t) (hc : c ∈ s.places) : t.held c = s.held c := by
  cases c with
  | list place => exact congrArg Array.toList (hst.list_eq place (list_mem_places.mp hc))
  | dict place => exact congrArg (List.map Prod.snd) (hst.dict_eq place (dict_mem_places.mp hc))

/-- It holds them under the same keys. -/
theorem keys?_of_extends (hst : s.Extends t) (hc : c ∈ s.places) : t.keys? c = s.keys? c := by
  cases c with
  | list place => rfl
  | dict place =>
      exact congrArg (fun entries => some (List.map Prod.fst entries))
        (hst.dict_eq place (dict_mem_places.mp hc))

theorem inside_iff_of_extends (hst : s.Extends t) (hp : p ∈ s.places) :
    t.Inside p q ↔ s.Inside p q := by
  rw [Inside, Inside, held_of_extends hst hp]

namespace Acyclic

/-- What is inside a container of the old store was inside it there. -/
theorem transGen_of_extends (h : s.Acyclic v) (hst : s.Extends t) (hp : s.Reaches v p)
    (hpq : Relation.TransGen t.Inside p q) : Relation.TransGen s.Inside p q := by
  induction hpq with
  | single hin => exact .single ((inside_iff_of_extends hst (h.known _ hp)).mp hin)
  | tail _ hin ih =>
      have hknown := h.known _ (hp.trans ih.to_reflTransGen)
      exact ih.tail ((inside_iff_of_extends hst hknown).mp hin)

/-- What is in a value of the old store was in it there. -/
theorem reaches_of_extends (h : s.Acyclic v) (hst : s.Extends t) (hc : t.Reaches v c) :
    s.Reaches v c := by
  obtain ⟨p, hp, hreach⟩ := hc
  have hself : s.Reaches v p := ⟨p, hp, .refl⟩
  obtain rfl | hreach := Relation.reflTransGen_iff_eq_or_transGen.mp hreach
  · exact hself
  · exact hself.trans (h.transGen_of_extends hst hself hreach).to_reflTransGen

/-- A value without cycles stays without. -/
theorem of_extends (h : s.Acyclic v) (hst : s.Extends t) : t.Acyclic v where
  known c hc := mem_places_of_extends hst (h.known c (h.reaches_of_extends hst hc))
  acyclic c hc hcycle :=
    have hc := h.reaches_of_extends hst hc
    h.acyclic c hc (h.transGen_of_extends hst hc hcycle)

/-- A list made of values without cycles is one. -/
theorem makeList {items : Array Value} (h : ∀ v ∈ items.toList, s.Acyclic v) :
    (s.makeList items).2.Acyclic (.list s.lists.size) := by
  have hst := extends_makeList s items
  have hnext : .list s.lists.size ∈ (s.makeList items).2.places :=
    list_mem_places.mpr (lt_size_push ..)
  have hnew : .list s.lists.size ∉ s.places :=
    fun hmem => Nat.lt_irrefl _ (list_mem_places.mp hmem)
  -- What is inside the list was in the store before it.
  have hinside {c : Container}
      (hc : Relation.TransGen (s.makeList items).2.Inside (.list s.lists.size) c) :
      ∃ v ∈ items.toList, s.Reaches v c := by
    obtain ⟨inner, ⟨v, hv, hinner⟩, hreach⟩ := Relation.TransGen.head'_iff.mp hc
    change v ∈ ((s.makeList items).2.list s.lists.size).toList at hv
    rw [list_makeList, if_pos rfl] at hv
    exact ⟨v, hv, (h v hv).reaches_of_extends hst ⟨inner, hinner, hreach⟩⟩
  have hreaches {c : Container} (hc : (s.makeList items).2.Reaches (.list s.lists.size) c) :
      c = .list s.lists.size ∨ ∃ v ∈ items.toList, s.Reaches v c :=
    (Relation.reflTransGen_iff_eq_or_transGen.mp
      (reaches_value (p := .list s.lists.size).mp hc)).imp_right hinside
  refine ⟨fun c hc => ?_, fun c hc hcycle => ?_⟩
  · obtain rfl | ⟨v, hv, hc⟩ := hreaches hc
    · exact hnext
    · exact mem_places_of_extends hst ((h v hv).known c hc)
  · obtain rfl | ⟨v, hv, hc⟩ := hreaches hc
    · obtain ⟨v, hv, hc⟩ := hinside hcycle
      exact hnew ((h v hv).known _ hc)
    · exact (h v hv).acyclic c hc ((h v hv).transGen_of_extends hst hc hcycle)

end Acyclic

/-- Containers of the old store compare as they did there, at every depth. -/
theorem same_of_extends (hst : s.Extends t) {n : Nat} (hp : s.Acyclic p.value)
    (hq : s.Acyclic q.value) : t.same n p q = s.same n p q := by
  induction n generalizing p q with
  | zero => rfl
  | succ n ih =>
      have hheld : (Value.tuple (s.held p)).eqBy (t.same n) (.tuple (s.held q))
          = (Value.tuple (s.held p)).eqBy (s.same n) (.tuple (s.held q)) :=
        Value.eqBy_congr fun p' q' hp' hq' =>
          ih ((Acyclic.tuple_iff.mpr fun _ => hp.held).leaf hp')
            ((Acyclic.tuple_iff.mpr fun _ => hq.held).leaf hq')
      rw [Value.eqBy, Value.eqBy] at hheld
      rw [same, same, held_of_extends hst hp.mem_places, held_of_extends hst hq.mem_places,
        keys?_of_extends hst hp.mem_places, keys?_of_extends hst hq.mem_places, hheld]

/-- **Values compare alike in a store that has grown.** -/
theorem eq_of_extends (hst : s.Extends t) (ha : s.Acyclic a) (hb : s.Acyclic b) :
    t.eq a b = s.eq a b := by
  have hle : s.containers ≤ t.containers := Nat.add_le_add hst.lists_le hst.dicts_le
  refine Value.eqBy_congr fun p q hp hq => ?_
  rw [same_of_extends hst (ha.leaf hp) (hb.leaf hq),
    same_of_le (Nat.succ_le_succ (Nat.mul_le_mul hle hle))]

end Store

/-! ## §6. Dicts by key. -/

namespace Bindings

variable {α : Type} {entries as bs : Bindings α} {name : String}

/-- The names of the entries stand in order, each one once. -/
def Sorted (entries : Bindings α) : Prop :=
  entries.Pairwise fun e f => e.1 < f.1

theorem mem_set {e : String × α} {a : α} (h : e ∈ entries.set name a) :
    e = (name, a) ∨ e ∈ entries := by
  induction entries with
  | nil => exact .inl (List.mem_singleton.mp h)
  | cons entry rest ih =>
      obtain ⟨key, b⟩ := entry
      unfold set at h
      split at h
      · exact (List.mem_cons.mp h).imp_right (List.mem_cons_of_mem _)
      · split at h
        · exact List.mem_cons.mp h
        · obtain rfl | h := List.mem_cons.mp h
          · exact .inr (List.mem_cons_self ..)
          · exact (ih h).imp_right (List.mem_cons_of_mem _)

theorem Sorted.set (h : Sorted entries) (name : String) (a : α) : Sorted (entries.set name a) := by
  induction entries with
  | nil => exact List.pairwise_singleton ..
  | cons entry rest ih =>
      obtain ⟨key, b⟩ := entry
      obtain ⟨hkey, hrest⟩ := List.pairwise_cons.mp h
      unfold Bindings.set
      split
      · next heq => exact List.pairwise_cons.mpr ⟨heq ▸ hkey, hrest⟩
      · next hne =>
          split
          · next hlt =>
              refine List.pairwise_cons.mpr ⟨fun e he => ?_, h⟩
              obtain rfl | he := List.mem_cons.mp he
              · exact hlt
              · exact lt_trans hlt (hkey e he)
          · next hlt =>
              refine List.pairwise_cons.mpr ⟨fun e he => ?_, ih hrest⟩
              obtain rfl | he := mem_set he
              · exact lt_of_le_of_ne (not_lt.mp hlt) hne
              · exact hkey e he

/-- A name before all others has no entry. -/
theorem find?_eq_none_of_lt (h : ∀ e ∈ entries, name < e.1) : find? entries name = none := by
  induction entries with
  | nil => rfl
  | cons entry rest ih =>
      obtain ⟨key, b⟩ := entry
      have hkey : name < key := h _ (List.mem_cons_self ..)
      rw [find?_cons, if_neg hkey.ne', ih fun e he => h e (List.mem_cons_of_mem _ he)]

/-- A name before that of the first entry has none. -/
theorem Sorted.find?_eq_none {key : String} {a : α} (h : Sorted ((key, a) :: entries))
    (hlt : name < key) : find? ((key, a) :: entries) name = none := by
  refine find?_eq_none_of_lt fun e he => ?_
  obtain rfl | he := List.mem_cons.mp he
  · exact hlt
  · exact lt_trans hlt ((List.pairwise_cons.mp h).1 e he)

theorem find?_cons_self (key : String) (a : α) (rest : Bindings α) :
    find? ((key, a) :: rest) key = some a :=
  if_pos rfl

/-- **Sorted entries are in step when they are name by name.** -/
theorem Sorted.forall₂_iff {R : α → α → Prop} (has : Sorted as) (hbs : Sorted bs) :
    List.Forall₂ (fun e f => e.1 = f.1 ∧ R e.2 f.2) as bs ↔
      ∀ name, Option.Rel R (find? as name) (find? bs name) := by
  constructor
  · intro h name
    induction h with
    | nil => exact .none
    | cons hef _ ih =>
        rw [find?, find?, hef.1]
        split
        · exact .some hef.2
        · exact ih has.tail hbs.tail
  · intro h
    induction as generalizing bs with
    | nil =>
        cases bs with
        | nil => exact .nil
        | cons f bs => exact nomatch find?_cons_self f.1 f.2 bs ▸ h f.1
    | cons e as ih =>
        cases bs with
        | nil => exact nomatch find?_cons_self e.1 e.2 as ▸ h e.1
        | cons f bs =>
            obtain ⟨key, a⟩ := e
            obtain ⟨key', b⟩ := f
            -- The smaller of two different first names would have one entry only.
            obtain hlt | rfl | hlt := lt_trichotomy key key'
            · have hkey := h key
              rw [find?_cons_self, hbs.find?_eq_none hlt] at hkey
              exact nomatch hkey
            · have hkey := h key
              rw [find?_cons_self, find?_cons_self, Option.rel_some_some] at hkey
              refine .cons ⟨rfl, hkey⟩ (ih has.tail hbs.tail fun name => ?_)
              by_cases hname : key = name
              · subst hname
                rw [find?_eq_none_of_lt (List.pairwise_cons.mp has).1,
                  find?_eq_none_of_lt (List.pairwise_cons.mp hbs).1]
                exact .none
              · have hrest := h name
                rwa [find?_cons, find?_cons, if_neg hname, if_neg hname] at hrest
            · have hkey := h key'
              rw [find?_cons_self, has.find?_eq_none hlt] at hkey
              exact nomatch hkey

end Bindings

/-- A dict that is built is sorted. -/
theorem sorted_dictOf {entries made : Bindings Value} {items : List Value} (h : entries.Sorted)
    (hmade : dictOf entries items = .ok made) : made.Sorted := by
  fun_induction dictOf entries items with
  | case1 entries value rest name ih => exact ih (h.set name value) hmade
  | case2 => exact nomatch hmade
  | case3 => cases hmade; exact h

/-- Entries are in step when their keys are the same and their values are in step. -/
theorem forall₂_entries_iff {R : Value → Value → Prop} {as bs : Bindings Value} :
    List.Forall₂ (fun e f => e.1 = f.1 ∧ R e.2 f.2) as bs ↔
      as.map Prod.fst = bs.map Prod.fst ∧ List.Forall₂ R (as.map Prod.snd) (bs.map Prod.snd) := by
  induction as generalizing bs with
  | nil => cases bs <;> simp
  | cons e as ih => cases bs <;> simp [ih, and_assoc, and_left_comm]

/-- **Dicts are equal if they have equal values under the same keys.** -/
theorem Store.eq_dict_iff {p q : Address} (hp : (s.dict p).Sorted) (hq : (s.dict q).Sorted) :
    s.eq (.dict p) (.dict q) = true ↔
      ∀ key, Option.Rel (fun v w => s.eq v w = true) ((s.dict p).find? key)
        ((s.dict q).find? key) := by
  rw [← hp.forall₂_iff hq, forall₂_entries_iff (R := fun v w => s.eq v w = true), eq,
    Value.eqBy, same_iff, Container.dict.injEq, eq, Value.eqBy, itemsEqBy_iff, keys?, keys?, Option.some.injEq]
  refine or_iff_right_of_imp ?_
  rintro rfl
  exact ⟨rfl, List.forall₂_same.mpr fun v _ => s.eq_equivalence.refl v⟩

/-! ## §7. What is seen of equal values. -/

namespace Value

/-- **Equal values have one form.** -/
theorem form_eq_of_eqBy (h : a.eqBy same b = true) : a.form = b.form := by
  cases eqBy_iff.mp h with
  | plain _ h => exact h
  | _ => rfl

theorem asInt?_eq_of_form (h : a.form = b.form) : a.asInt? = b.asInt? := by
  ext i
  rw [asInt?_eq_some_iff, asInt?_eq_some_iff, h]

theorem asStr?_eq_of_form (h : a.form = b.form) : a.asStr? = b.asStr? := by
  ext t
  rw [asStr?_eq_some_iff, asStr?_eq_some_iff, h]

theorem form_eq_text_iff {t : String} : a.form = .text t ↔ a = .str t := by
  cases a <;> simp [form]

end Value

/-- Whether a plain value of a form counts as true. -/
def Form.truthy (s : Store) : Form → Bool
  | .absent => false
  | .number i => i != 0
  | .text t => !t.isEmpty
  | .continuation place => !(s.continuation place).isEmpty
  | _ => true

namespace Store

theorem truthy_of_isPlain (hplain : v.form.isPlain = true) : s.truthy v = v.form.truthy s := by
  cases v with
  | tuple | dict | list => exact nomatch hplain
  | bool b => cases b <;> rfl
  | _ => rfl

/-- **Equal values count as true alike.** -/
theorem truthy_eq_of_eq (heq : s.eq a b = true) : s.truthy a = s.truthy b := by
  cases Value.eqBy_iff.mp heq with
  | plain hplain h => rw [truthy_of_isPlain hplain, truthy_of_isPlain (h ▸ hplain), h]
  | tuple h => rw [truthy, truthy, isEmpty_eq_of_forall₂ h]
  | list h =>
      obtain rfl | h := eq_list_iff.mp h
      · rfl
      · rw [eq, Value.eqBy, itemsEqBy_iff] at h
        rw [truthy, truthy, ← Array.isEmpty_toList, ← Array.isEmpty_toList, isEmpty_eq_of_forall₂ h]
  | @dict p q h =>
      obtain h | ⟨-, h⟩ := same_iff.mp h
      · rw [Container.dict.inj h]
      · rw [eq, Value.eqBy, itemsEqBy_iff] at h
        have hempty := isEmpty_eq_of_forall₂ h
        rw [held, held, List.isEmpty_map, List.isEmpty_map] at hempty
        rw [truthy, truthy, hempty]

/-- The order of two values is told by their forms. -/
theorem ordering?_eq_of_form {a' b' : Value} (ha : a.form = a'.form) (hb : b.form = b'.form) :
    ordering? a b = ordering? a' b' := by
  unfold ordering?
  rw [Value.asStr?_eq_of_form ha, Value.asStr?_eq_of_form hb, Value.asInt?_eq_of_form ha,
    Value.asInt?_eq_of_form hb]

/-- **Two values with an order are equal if the order says so.** -/
theorem eq_iff_of_ordering? {o : Ordering} (h : ordering? a b = some o) :
    s.eq a b = true ↔ o = .eq := by
  unfold ordering? at h
  split at h
  · next x y hx hy =>
      rw [Value.asStr?_eq_some_iff] at hx hy
      obtain rfl := Option.some.inj h
      rw [eq, Value.eqBy_iff_of_isPlain (hx ▸ rfl), ← hx, ← hy, compareOfLessAndEq_eq_eq le_refl not_le,
        Form.text.injEq]
  · split at h
    · next i j hi hj =>
        rw [Value.asInt?_eq_some_iff] at hi hj
        obtain rfl := Option.some.inj h
        rw [eq, Value.eqBy_iff_of_isPlain (hi ▸ rfl), ← hi, ← hj,
          compareOfLessAndEq_eq_eq le_refl not_le, Form.number.injEq, Int64.toInt_inj]
    · exact nomatch h

end Store

/-! ## §8. What operators give. -/

/-- Two computations, one after the other, end in exceptions of one type, or give
equal values without cycles. -/
inductive Calc.Agree (s : Store) (x x' : Calc Value) : Prop
  | raise {c c' : Cause} (h : x s = .error c) (h' : x' s = .error c') (htype : c.typeName = c'.typeName)
  | give {r r' : Value} {t u : Store} (h : x s = .ok (r, t)) (h' : x' t = .ok (r', u))
      (hr : u.Acyclic r) (hr' : u.Acyclic r') (heq : u.eq r r' = true)

namespace Calc

/-- A value agrees with itself. -/
theorem agree_pure (hv : s.Acyclic v) : Agree s (pure v) (pure v) :=
  .give rfl rfl hv hv (s.eq_equivalence.refl v)

variable {a' b' : Value}

theorem agree_integersBy (symbol : String) (combine : Int → Int → Int) (ha : a.form = a'.form)
    (hb : b.form = b'.form) :
    Agree s (liftM (integersBy symbol combine a b)) (liftM (integersBy symbol combine a' b')) := by
  unfold integersBy
  rw [Value.asInt?_eq_of_form ha, Value.asInt?_eq_of_form hb]
  split
  · unfold exactly
    split
    · exact agree_pure (.of_isPlain rfl)
    · exact .raise rfl rfl rfl
  · exact .raise rfl rfl rfl

theorem agree_subtract (ha : a.form = a'.form) (hb : b.form = b'.form) :
    Agree s (liftM (subtract a b)) (liftM (subtract a' b')) :=
  agree_integersBy "-" (· - ·) ha hb

/-- Products of values of the same forms agree, where there is a product. -/
theorem agree_multiply (ha : a.form = a'.form) (hb : b.form = b'.form)
    {r : Except Cause Value} (hr : multiply a b = some r) :
    ∃ r', multiply a' b' = some r' ∧ Agree s (liftM r) (liftM r') := by
  have htext {text : String} {n : Int64}
      (hr : (repeated? text n.toInt.toNat).map (Except.ok ∘ Value.str) = some r) :
      ∃ r' : Except Cause Value,
        (repeated? text n.toInt.toNat).map (Except.ok ∘ Value.str) = some r'
          ∧ Agree s (liftM r) (liftM r') := by
    refine ⟨r, hr, ?_⟩
    obtain ⟨made, -, rfl⟩ := Option.map_eq_some_iff.mp hr
    exact agree_pure (.of_isPlain rfl)
  unfold multiply at hr ⊢
  rw [← Value.asStr?_eq_of_form ha, ← Value.asStr?_eq_of_form hb, ← Value.asInt?_eq_of_form ha,
    ← Value.asInt?_eq_of_form hb]
  split at hr
  · exact htext hr
  · exact htext hr
  · obtain rfl := Option.some.inj hr
    exact ⟨_, rfl, agree_integersBy "*" (· * ·) ha hb⟩

end Calc

/-- Whether a product is a string repeated to more bytes than a string can have. -/
def TooLong (a b : Value) : Prop :=
  ∃ (text : String) (n : Int64),
    (a.asStr? = some text ∧ b.asInt? = some n ∨ b.asStr? = some text ∧ a.asInt? = some n)
      ∧ maxStringBytes < text.utf8ByteSize * n.toInt.toNat

/-- A string is no number. -/
theorem Value.asInt?_of_asStr? {text : String} (h : a.asStr? = some text) :
    a.asInt? = Option.none := by
  cases a with
  | str => rfl
  | _ => exact nomatch h

theorem repeated?_eq_none_iff {text : String} {count : Nat} :
    repeated? text count = none ↔ maxStringBytes < text.utf8ByteSize * count := by
  unfold repeated?
  split
  · simp [*]
  · split <;> simp [*]

/-- **A product breaks off when it is too long**, and only then. -/
theorem multiply_eq_none_iff : multiply a b = none ↔ TooLong a b := by
  unfold multiply TooLong
  split
  · next text n ha hb =>
      rw [Option.map_eq_none_iff, repeated?_eq_none_iff, ha, hb, Value.asInt?_of_asStr? ha]
      simp
  · next text n hb ha hleft =>
      rw [Option.map_eq_none_iff, repeated?_eq_none_iff, ha, hb, Value.asInt?_of_asStr? hb]
      simp
  · next hleft hright =>
      refine iff_of_false nofun ?_
      rintro ⟨text, n, ⟨ha, hb⟩ | ⟨hb, ha⟩, -⟩
      · exact hleft text n ha hb
      · exact hright text n hb ha

/-- Products of values of the same forms are too long together. -/
theorem tooLong_iff_of_form {a' b' : Value} (ha : a.form = a'.form) (hb : b.form = b'.form) :
    TooLong a b ↔ TooLong a' b' := by
  unfold TooLong
  rw [Value.asStr?_eq_of_form ha, Value.asStr?_eq_of_form hb, Value.asInt?_eq_of_form ha,
    Value.asInt?_eq_of_form hb]

/-- Whether two values of these forms are joined by a sum. -/
def Form.joins : Form → Form → Bool
  | .text _, .text _ | .tuple, .tuple | .list, .list => true
  | _, _ => false

theorem joins_cases (h : a.form.joins b.form = true) :
    (∃ x y, a = .str x ∧ b = .str y) ∨ (∃ as bs, a = .tuple as ∧ b = .tuple bs) ∨
      ∃ p q, a = .list p ∧ b = .list q := by
  cases a with
  | str x => cases b <;> first | exact .inl ⟨_, _, rfl, rfl⟩ | exact nomatch h
  | tuple as => cases b <;> first | exact .inr (.inl ⟨_, _, rfl, rfl⟩) | exact nomatch h
  | list p => cases b <;> first | exact .inr (.inr ⟨_, _, rfl, rfl⟩) | exact nomatch h
  | _ => exact nomatch h

/-- Values that are not joined are added as integers. -/
theorem add_of_not_joins (h : a.form.joins b.form = false) :
    add a b = liftM (integersBy "+" (· + ·) a b) := by
  cases a with
  | str | tuple | list => cases b <;> first | rfl | exact nomatch h
  | _ => rfl

namespace Store

/-- The items of equal lists are equal. -/
theorem items_eq_of_eq {p q : Address} (h : s.eq (.list p) (.list q) = true) :
    List.Forall₂ (fun v w => s.eq v w = true) (s.list p).toList (s.list q).toList := by
  obtain rfl | h := eq_list_iff.mp h
  · exact List.forall₂_same.mpr fun v _ => s.eq_equivalence.refl v
  · rwa [eq, Value.eqBy, itemsEqBy_iff] at h

/-- **Lists made of equal items are equal**, one made after the other. -/
theorem eq_makeList {items items' : Array Value} {u : Store}
    (hitems : ∀ v ∈ items.toList, s.Acyclic v) (hitems' : ∀ v ∈ items'.toList, s.Acyclic v)
    (heq : List.Forall₂ (fun v w => s.eq v w = true) items.toList items'.toList)
    (ht : (s.makeList items).2 = t) (hu : (t.makeList items').2 = u) :
    u.eq (.list s.lists.size) (.list t.lists.size) = true := by
  have hst : s.Extends t := ht ▸ s.extends_makeList items
  have htu : t.Extends u := hu ▸ t.extends_makeList items'
  have hplace : s.lists.size < t.lists.size := ht ▸ lt_size_push ..
  have hlist : u.list s.lists.size = items := by
    rw [htu.list_eq _ hplace, ← ht, list_makeList, if_pos rfl]
  have hlist' : u.list t.lists.size = items' := by
    rw [← hu, list_makeList, if_pos rfl]
  have hgrown := eq_of_extends (hst.trans htu) (Acyclic.tuple_iff.mpr hitems)
    (Acyclic.tuple_iff.mpr hitems')
  refine eq_list_iff.mpr (.inr ?_)
  rw [hlist, hlist', hgrown]
  exact Value.eqBy_tuple_iff.mpr ⟨_, rfl, heq⟩

end Store

namespace Calc

variable {a' b' : Value}

/-- Joined lists are equal when their parts are. -/
theorem agree_add_lists {p q p' q' : Address} (hp : s.Acyclic (.list p)) (hq : s.Acyclic (.list q))
    (hp' : s.Acyclic (.list p')) (hq' : s.Acyclic (.list q'))
    (hpp : s.eq (.list p) (.list p') = true) (hqq : s.eq (.list q) (.list q') = true) :
    Agree s (add (.list p) (.list q)) (add (.list p') (.list q')) := by
  have heq : List.Forall₂ (fun v w => s.eq v w = true) (s.list p ++ s.list q).toList
      (s.list p' ++ s.list q').toList := by
    rw [Array.toList_append, Array.toList_append]
    exact List.rel_append (Store.items_eq_of_eq hpp) (Store.items_eq_of_eq hqq)
  generalize ht : (s.makeList (s.list p ++ s.list q)).2 = t
  have hst : s.Extends t := ht ▸ s.extends_makeList _
  -- The second sum is made where the first one is already: it reads the same items.
  have hsum' : add (.list p') (.list q') t = .ok (t.makeList (s.list p' ++ s.list q')) := by
    rw [← hst.list_eq p' (Store.list_mem_places.mp (hp'.mem_places (p := .list p'))),
      ← hst.list_eq q' (Store.list_mem_places.mp (hq'.mem_places (p := .list q')))]
    rfl
  have htu := t.extends_makeList (s.list p' ++ s.list q')
  have hmade : t.Acyclic (.list s.lists.size) := ht ▸ .makeList (hp.append hq)
  exact .give (ht ▸ rfl) hsum' (hmade.of_extends htu)
    (.makeList fun v hv => (hp'.append hq' v hv).of_extends hst)
    (Store.eq_makeList (hp.append hq) (hp'.append hq') heq ht rfl)

/-- **Sums of equal values agree.** -/
theorem agree_add (ha : s.Acyclic a) (hb : s.Acyclic b) (ha' : s.Acyclic a') (hb' : s.Acyclic b')
    (haa : s.eq a a' = true) (hbb : s.eq b b' = true) : Agree s (add a b) (add a' b') := by
  have hform := Value.form_eq_of_eqBy haa
  have hform' := Value.form_eq_of_eqBy hbb
  by_cases hjoins : a.form.joins b.form = true
  · obtain ⟨x, y, rfl, rfl⟩ | ⟨as, bs, rfl, rfl⟩ | ⟨p, q, rfl, rfl⟩ := joins_cases hjoins
    · obtain rfl := Value.form_eq_text_iff.mp hform.symm
      obtain rfl := Value.form_eq_text_iff.mp hform'.symm
      exact agree_pure (.of_isPlain rfl)
    · obtain ⟨as', rfl, has⟩ := Value.eqBy_tuple_iff.mp haa
      obtain ⟨bs', rfl, hbs⟩ := Value.eqBy_tuple_iff.mp hbb
      rw [Store.Acyclic.tuple_iff] at ha hb ha' hb'
      refine .give rfl rfl ?_ ?_ (Value.eqBy_tuple_iff.mpr ⟨_, rfl, List.rel_append has hbs⟩)
      · exact Store.Acyclic.tuple_iff.mpr fun v hv => (List.mem_append.mp hv).elim (ha v) (hb v)
      · exact Store.Acyclic.tuple_iff.mpr fun v hv => (List.mem_append.mp hv).elim (ha' v) (hb' v)
    · obtain ⟨p', rfl, hp⟩ := Value.eqBy_list_iff.mp haa
      obtain ⟨q', rfl, hq⟩ := Value.eqBy_list_iff.mp hbb
      exact agree_add_lists ha hb ha' hb' haa hbb
  · rw [Bool.not_eq_true] at hjoins
    rw [add_of_not_joins hjoins, add_of_not_joins (hform ▸ hform' ▸ hjoins)]
    exact agree_integersBy "+" (· + ·) hform hform'

end Calc

/-! ## §9. Comparisons. -/

namespace Store

/-- The comparisons that ask for an order. -/
theorem compare_of_ordered {kind : Comparison} (heq : kind ≠ .eq) (hne : kind ≠ .ne) :
    compare s kind a b = match ordering? a b with
      | some o => .ok (kind.holds o)
      | none => .error (.notOrdered kind.symbol a.typeName b.typeName) := by
  unfold compare
  cases kind <;> first | rfl | contradiction

/-- **Comparisons of equal values agree.** -/
theorem compare_agree {a' b' : Value} (haa : s.eq a a' = true) (hbb : s.eq b b' = true)
    (kind : Comparison) :
    (∃ r, compare s kind a b = .ok r ∧ compare s kind a' b' = .ok r) ∨
      ∃ c c', compare s kind a b = .error c ∧ compare s kind a' b' = .error c' := by
  have heq : s.eq a b = s.eq a' b' := by
    have hequiv := s.eq_equivalence
    rw [Bool.eq_iff_iff]
    exact ⟨fun h => hequiv.trans (hequiv.symm haa) (hequiv.trans h hbb),
      fun h => hequiv.trans haa (hequiv.trans h (hequiv.symm hbb))⟩
  have hord := ordering?_eq_of_form (Value.form_eq_of_eqBy haa) (Value.form_eq_of_eqBy hbb)
  by_cases hkind : kind = .eq ∨ kind = .ne
  · obtain rfl | rfl := hkind
    · exact .inl ⟨s.eq a b, rfl, heq ▸ rfl⟩
    · exact .inl ⟨!s.eq a b, rfl, heq ▸ rfl⟩
  · obtain ⟨hne, hne'⟩ := not_or.mp hkind
    rw [compare_of_ordered hne hne', compare_of_ordered hne hne', ← hord]
    cases ordering? a b with
    | some o => exact .inl ⟨kind.holds o, rfl, rfl⟩
    | none => exact .inr ⟨_, _, rfl, rfl⟩

/-- **Values with an order are in one of three ways.** -/
theorem compare_trichotomy {kind : Comparison} {r : Bool} (heq : kind ≠ .eq) (hne : kind ≠ .ne)
    (h : compare s kind a b = .ok r) :
    ∃ o : Ordering, compare s .lt a b = .ok (o == .lt) ∧ compare s .eq a b = .ok (o == .eq) ∧
      compare s .gt a b = .ok (o == .gt) := by
  rw [compare_of_ordered heq hne] at h
  cases hord : ordering? a b with
  | none => rw [hord] at h; exact nomatch h
  | some o =>
      have hcompare {kind : Comparison} (heq : kind ≠ .eq) (hne : kind ≠ .ne) :
          compare s kind a b = .ok (kind.holds o) := by
        rw [compare_of_ordered heq hne, hord]
      have hequal : s.eq a b = (o == .eq) := by
        rw [Bool.eq_iff_iff, beq_iff_eq]
        exact eq_iff_of_ordering? hord
      exact ⟨o, hcompare nofun nofun, hequal ▸ rfl, hcompare nofun nofun⟩

/-! ## §10. The laws of equality. -/

/-- No operator and no comparison tells `a'` and `b'` from `a` and `b`. -/
structure Interchangeable (s : Store) (a b a' b' : Value) : Prop where
  truthy : s.truthy a = s.truthy a'
  add : Calc.Agree s (add a b) (add a' b')
  subtract : Calc.Agree s (liftM (subtract a b)) (liftM (subtract a' b'))
  breaksOff : multiply a b = none ↔ TooLong a b
  breaksOff' : multiply a' b' = none ↔ TooLong a b
  multiply : ∀ r, multiply a b = some r →
    ∃ r', multiply a' b' = some r' ∧ Calc.Agree s (liftM r) (liftM r')
  compare : ∀ kind,
    (∃ r, compare s kind a b = .ok r ∧ compare s kind a' b' = .ok r) ∨
      ∃ c c', compare s kind a b = .error c ∧ compare s kind a' b' = .error c'

/-- **Equality is an equivalence and a congruence** on values without cycles, and
where values have an order it is the middle one of its three cases.  Equal
operands give equal products, unless both products are too long to be made. -/
theorem eq_congruence {c a' b' : Value} (ha : s.Acyclic a) (hb : s.Acyclic b)
    (ha' : s.Acyclic a') (hb' : s.Acyclic b') :
    s.eq a a = true ∧ (s.eq a b = true → s.eq b a = true) ∧
      (s.eq a b = true → s.eq b c = true → s.eq a c = true) ∧
      (s.eq a a' = true → s.eq b b' = true → s.Interchangeable a b a' b') ∧
      ∀ kind r, kind ≠ .eq → kind ≠ .ne → compare s kind a b = .ok r →
        ∃ o : Ordering, compare s .lt a b = .ok (o == .lt) ∧ compare s .eq a b = .ok (o == .eq) ∧
          compare s .gt a b = .ok (o == .gt) := by
  have hequiv := s.eq_equivalence
  refine ⟨hequiv.refl a, hequiv.symm, hequiv.trans, fun haa hbb => ?_,
    fun kind r heq hne => compare_trichotomy heq hne⟩
  have hform := Value.form_eq_of_eqBy haa
  have hform' := Value.form_eq_of_eqBy hbb
  exact
    { truthy := truthy_eq_of_eq haa
      add := Calc.agree_add ha hb ha' hb' haa hbb
      subtract := Calc.agree_subtract hform hform'
      multiply := fun _ => Calc.agree_multiply hform hform'
      breaksOff := multiply_eq_none_iff
      breaksOff' := multiply_eq_none_iff.trans (tooLong_iff_of_form hform hform').symm
      compare := compare_agree haa hbb }

/-- A string of two bytes, as often as an integer can say, is too long: the product
of equal operands neither gives a value nor raises an exception. -/
theorem not_product_of_long :
    ({} : Store).Acyclic (.str "ab") ∧ ({} : Store).Acyclic (.int Int64.maxValue)
      ∧ ({} : Store).eq (.str "ab") (.str "ab") = true
      ∧ ({} : Store).eq (.int Int64.maxValue) (.int Int64.maxValue) = true
      ∧ ¬ ∃ r r', multiply (.str "ab") (.int Int64.maxValue) = some r
        ∧ multiply (.str "ab") (.int Int64.maxValue) = some r'
        ∧ Calc.Agree {} (liftM r) (liftM r') := by
  have hlong : multiply (.str "ab") (.int Int64.maxValue) = none :=
    multiply_eq_none_iff.mpr ⟨"ab", Int64.maxValue, .inl ⟨rfl, rfl⟩, by decide⟩
  refine ⟨.of_isPlain rfl, .of_isPlain rfl, by decide, by decide, ?_⟩
  rintro ⟨r, -, hr, -⟩
  exact nomatch hlong.symm.trans hr

/-- Lists and dicts inside lists, with truth values in one place and integers in
the other. -/
def nested : Store where
  lists := #[#[.int 1], #[.bool true], #[.list 0, .dict 0], #[.list 1, .dict 1]]
  dicts := #[[("k", .bool true)], [("k", .int 1)]]

/-- Only the two longer lists hold containers, and those hold none. -/
theorem nested_inside {c inner : Container} (h : nested.Inside c inner) :
    c ∈ [.list 2, .list 3] ∧ inner ∈ [.list 0, .list 1, .dict 0, .dict 1] := by
  have hc : c ∈ nested.places := by
    by_contra hc
    obtain ⟨v, hv, -⟩ := h
    rw [held_of_notMem hc] at hv
    exact nomatch hv
  have hinner : inner.value ∈ (nested.held c).flatMap Value.leaves := List.mem_flatMap.mpr h
  have hnone (v : Value) (hv : v = .int 1 ∨ v = .bool true) : inner.value ∉ [v] := by
    rintro hmem
    obtain rfl := List.mem_singleton.mp hmem
    cases inner <;> exact hv.elim nofun nofun
  have hpair (place : Address) (hmem : inner.value ∈ [.list place, .dict place]) :
      inner = .list place ∨ inner = .dict place := by
    cases inner <;> simp_all [Container.value]
  cases c with
  | list place =>
      have hplace : place < 4 := list_mem_places.mp hc
      interval_cases place
      · exact absurd hinner (hnone _ (.inl rfl))
      · exact absurd hinner (hnone _ (.inr rfl))
      · obtain rfl | rfl := hpair 0 hinner <;> decide
      · obtain rfl | rfl := hpair 1 hinner <;> decide
  | dict place =>
      have hplace : place < 2 := dict_mem_places.mp hc
      interval_cases place
      · exact absurd hinner (hnone _ (.inr rfl))
      · exact absurd hinner (hnone _ (.inl rfl))

theorem eq_congruence_nested : nested.eq (.list 2) (.list 3) = true ∧
    nested.eq (.list 0) (.list 1) = true ∧
    nested.Interchangeable (.list 2) (.list 0) (.list 3) (.list 1) := by
  have hacyclic (p : Address) (hp : p < 4) : nested.Acyclic (.list p) := by
    refine .of_rank (fun c => if c ∈ [.list 2, .list 3] then 1 else 0) (fun c inner h => ?_)
      fun q hq => ?_
    · obtain ⟨hc, hinner⟩ := nested_inside h
      rw [if_pos hc]
      fin_cases hinner <;> decide
    · obtain rfl := eq_of_value_mem (p := .list p) hq
      exact list_mem_places.mpr hp
  have haa : nested.eq (.list 2) (.list 3) = true := by decide
  have hbb : nested.eq (.list 0) (.list 1) = true := by decide
  exact ⟨haa, hbb, (eq_congruence (c := .none) (hacyclic 2 (by decide)) (hacyclic 0 (by decide))
    (hacyclic 3 (by decide)) (hacyclic 1 (by decide))).2.2.2.1 haa hbb⟩

end Store

end Resumable
