/-
  Resumable.Proofs.ArgumentBinding
  ────────────────────────────────
  **WHICH CALLS A BODY ACCEPTS.**

  A call gives values by position and by name, and the two meet in one array of locals:

      parameter    0 … p-1          p … argCount-1        argCount … nlocals-1
      local        by position      by name, any order    empty

  What a local holds can be told from the arguments alone (`given`), so binding the
  named arguments one after the other never has to be looked at again: after any number
  of them the locals are those that the arguments taken so far give (`givenLocals`), and
  the next one fits exactly if it names a parameter that none of them gives.

  Of a call that is refused the first fault counts: too many positional arguments, then
  the first named argument that does not fit, then the first parameter that is not given.

  Main results:
    • `foldlM_bindNamed` — the named arguments, up to the first that does not fit,
    • `bind_eq_ok_iff`   — which calls are accepted, and with which locals,
    • `bind_perm`        — the order of the named arguments does not matter to them,
    • `bind_fits`        — which calls are accepted, and why the others are not.
-/
import Resumable.Proofs.CallSite

namespace Resumable

/-- The names that arguments are given by. -/
def Arguments.names (args : Arguments) : List String :=
  args.keywords.map Prod.fst

namespace Code

variable {c : Code} {name : String} {value : Value} {i : Nat} {locals : Slots}
  {positional : List Value} {keywords done : List (String × Value)} {args : Arguments}

/-! ## §1. The locals that arguments give. -/

/-- The index of the parameter with a name. -/
def paramIndex? (c : Code) (name : String) : Option Nat :=
  c.params.findIdx? (· == name)

/-- What arguments give the local at an index. -/
def given (c : Code) (args : Arguments) (i : Nat) : Option Value :=
  if i < args.positional.length then args.positional[i]?
  else (args.keywords.find? fun named => c.paramIndex? named.1 == some i).map Prod.snd

/-- The locals, each with what arguments give it. -/
def givenLocals (c : Code) (args : Arguments) : Slots :=
  Array.ofFn fun i : Fin c.nlocals => c.given args i

@[simp] theorem size_givenLocals : (c.givenLocals args).size = c.nlocals :=
  Array.size_ofFn

theorem getElem?_givenLocals (h : i < c.nlocals) :
    (c.givenLocals args)[i]? = some (c.given args i) := by
  rw [givenLocals, Array.getElem?_ofFn, dif_pos h]

theorem length_params : c.params.length = min c.argCount c.nlocals :=
  List.length_take

theorem paramIndex?_eq_some_iff : c.paramIndex? name = some i ↔
    c.params[i]? = some name ∧ ∀ j < i, c.params[j]? ≠ some name := by
  unfold paramIndex?
  rw [List.findIdx?_eq_some_iff_getElem]
  constructor
  · rintro ⟨hlt, hname, hfirst⟩
    refine ⟨by rw [List.getElem?_eq_getElem hlt, eq_of_beq hname], fun j hj heq => ?_⟩
    have hj' : j < c.params.length := Nat.lt_trans hj hlt
    rw [List.getElem?_eq_getElem hj'] at heq
    exact hfirst j hj (beq_iff_eq.mpr (Option.some.inj heq))
  · rintro ⟨hname, hfirst⟩
    obtain ⟨hlt, hname⟩ := List.getElem?_eq_some_iff.mp hname
    refine ⟨hlt, beq_iff_eq.mpr hname, fun j hj heq => hfirst j hj ?_⟩
    rw [List.getElem?_eq_getElem (Nat.lt_trans hj hlt), eq_of_beq heq]

theorem paramIndex?_eq_none_iff : c.paramIndex? name = none ↔ name ∉ c.params := by
  unfold paramIndex?
  rw [List.findIdx?_eq_none_iff]
  constructor
  · exact fun h hmem => by simpa using h name hmem
  · rintro h other hmem
    exact beq_false_of_ne fun heq => h (heq ▸ hmem)

/-- Two names of one parameter are one name. -/
theorem eq_of_paramIndex? {other : String} (h : c.paramIndex? name = some i)
    (h' : c.paramIndex? other = some i) : name = other :=
  Option.some.inj ((paramIndex?_eq_some_iff.mp h).1.symm.trans (paramIndex?_eq_some_iff.mp h').1)

theorem lt_nlocals_of_paramIndex? (h : c.paramIndex? name = some i) : i < c.nlocals := by
  obtain ⟨hlt, -⟩ := List.getElem?_eq_some_iff.mp (paramIndex?_eq_some_iff.mp h).1
  rw [length_params] at hlt
  omega

/-- Positional arguments alone give the leading locals. -/
theorem positionalLocals_eq : c.positionalLocals positional = c.givenLocals { positional } := by
  refine Array.ext (by rw [size_positionalLocals, size_givenLocals]) fun i hi hi' => ?_
  rw [size_givenLocals] at hi'
  have hsome : (c.positionalLocals positional)[i]? = some (c.given { positional } i) := by
    unfold positionalLocals given
    rw [List.getElem?_toArray, List.getElem?_take_of_lt hi', List.getElem?_append]
    simp only [List.length_map, List.getElem?_map, List.find?_nil, Option.map_none]
    split
    · next hlt => rw [List.getElem?_eq_getElem hlt, Option.map_some]
    · rw [List.getElem?_replicate, if_pos (by omega)]
  rw [Array.getElem?_eq_getElem hi, ← getElem?_givenLocals hi'] at hsome
  rw [Array.getElem?_eq_getElem (by rwa [size_givenLocals])] at hsome
  exact Option.some.inj hsome

/-- A parameter after the positional ones holds nothing until its name is given. -/
theorem given_eq_none_iff (hi : positional.length ≤ i) :
    c.given ⟨positional, done⟩ i = none ↔ ∀ named ∈ done, c.paramIndex? named.1 ≠ some i := by
  unfold given
  rw [if_neg (Nat.not_lt.mpr hi), Option.map_eq_none_iff, List.find?_eq_none]
  simp only [beq_iff_eq]

/-- A further named argument fills the local of its parameter. -/
theorem givenLocals_append (hindex : c.paramIndex? name = some i) (hi : positional.length ≤ i)
    (hnew : c.given ⟨positional, done⟩ i = none) :
    (c.givenLocals ⟨positional, done⟩).setIfInBounds i (some value)
      = c.givenLocals ⟨positional, done ++ [(name, value)]⟩ := by
  refine Array.ext (by simp) fun j hj hj' => ?_
  rw [size_givenLocals] at hj'
  rw [Array.getElem_setIfInBounds (by simpa using hj)]
  simp only [givenLocals, Array.getElem_ofFn]
  -- the local of the parameter, then any other
  split
  · next heq =>
      subst heq
      have hfind : done.find? (fun named => c.paramIndex? named.1 == some i) = none := by
        unfold given at hnew
        rw [if_neg (Nat.not_lt.mpr hi), Option.map_eq_none_iff] at hnew
        exact hnew
      unfold given
      rw [if_neg (Nat.not_lt.mpr hi), List.find?_append, hfind, Option.none_or,
        List.find?_cons_of_pos (by rw [hindex]; exact beq_self_eq_true _)]
      rfl
  · next hne =>
      unfold given
      rw [List.find?_append, List.find?_cons_of_neg, List.find?_nil, Option.or_none]
      rw [hindex, beq_iff_eq]
      exact fun heq => hne (Option.some.inj heq)

/-! ## §2. One named argument after the other. -/

/-- A name can be used for a parameter that is not given by position. -/
def IsFree (c : Code) (count : Nat) (name : String) : Prop :=
  ∃ i, c.paramIndex? name = some i ∧ count ≤ i

/-- The names fit, after `count` positional arguments and the names in `before`. -/
structure FitAfter (c : Code) (count : Nat) (before names : List String) : Prop where
  free : ∀ name ∈ names, c.IsFree count name
  new : ∀ name ∈ names, name ∉ before
  nodup : names.Nodup

/-- What is wrong with a name after others. -/
inductive Misfits (c : Code) (count : Nat) (before : List String) (name : String) :
    BindingError → Prop
  | unknown : name ∉ c.params → Misfits c count before name (.unknownName c.name name)
  | again {i : Nat} : c.paramIndex? name = some i → i < count ∨ name ∈ before →
      Misfits c count before name (.givenTwice c.name name)

theorem FitAfter.nil {count : Nat} {before : List String} : c.FitAfter count before [] :=
  ⟨by simp, by simp, List.nodup_nil⟩

theorem FitAfter.cons {count : Nat} {before names : List String} (hfree : c.IsFree count name)
    (hnew : name ∉ before) (h : c.FitAfter count (before ++ [name]) names) :
    c.FitAfter count before (name :: names) where
  free := List.forall_mem_cons.mpr ⟨hfree, h.free⟩
  new := List.forall_mem_cons.mpr
    ⟨hnew, fun other hother hmem => h.new other hother (List.mem_append_left _ hmem)⟩
  nodup := List.nodup_cons.mpr
    ⟨fun hmem => h.new name hmem (List.mem_append_right _ (List.mem_singleton_self name)), h.nodup⟩

/-- A named argument is taken if it fits, and nothing else is. -/
theorem bindNamed_cases (c : Code) (positional : List Value) (done : List (String × Value))
    (name : String) (value : Value) :
    (c.IsFree positional.length name ∧ name ∉ done.map Prod.fst
        ∧ c.bindNamed (c.givenLocals ⟨positional, done⟩) (name, value)
          = .ok (c.givenLocals ⟨positional, done ++ [(name, value)]⟩))
      ∨ ∃ e, c.Misfits positional.length (done.map Prod.fst) name e
        ∧ c.bindNamed (c.givenLocals ⟨positional, done⟩) (name, value) = .error e := by
  unfold bindNamed
  cases hindex : c.params.findIdx? (· == name) with
  | none => exact .inr ⟨_, .unknown (paramIndex?_eq_none_iff.mp hindex), rfl⟩
  | some i =>
      replace hindex : c.paramIndex? name = some i := hindex
      dsimp only
      rw [getElem?_givenLocals (lt_nlocals_of_paramIndex? hindex)]
      -- the parameter can be given by position, by a name before, or not yet
      by_cases hi : i < positional.length
      · refine .inr ⟨_, .again hindex (.inl hi), ?_⟩
        unfold given
        rw [if_pos hi, List.getElem?_eq_getElem hi]
      · rw [Nat.not_lt] at hi
        by_cases hmem : name ∈ done.map Prod.fst
        · refine .inr ⟨_, .again hindex (.inr hmem), ?_⟩
          obtain ⟨named, hnamed, heq⟩ := List.mem_map.mp hmem
          cases hgiven : c.given ⟨positional, done⟩ i with
          | some v => rfl
          | none => exact absurd (heq ▸ hindex) ((given_eq_none_iff hi).mp hgiven named hnamed)
        · have hnone : c.given ⟨positional, done⟩ i = none := by
            refine (given_eq_none_iff hi).mpr fun named hnamed heq => hmem ?_
            exact List.mem_map.mpr ⟨named, hnamed, eq_of_paramIndex? heq hindex⟩
          refine .inl ⟨⟨i, hindex, hi⟩, hmem, ?_⟩
          rw [hnone]
          exact congrArg Except.ok (givenLocals_append hindex hi hnone)

/-- **The named arguments** are taken up to the first that does not fit. -/
theorem foldlM_bindNamed (c : Code) (positional : List Value)
    (done keywords : List (String × Value)) :
    match keywords.foldlM c.bindNamed (c.givenLocals ⟨positional, done⟩) with
    | .ok locals => c.FitAfter positional.length (done.map Prod.fst) (keywords.map Prod.fst)
        ∧ locals = c.givenLocals ⟨positional, done ++ keywords⟩
    | .error e => ∃ before name value after, keywords = before ++ (name, value) :: after
        ∧ c.FitAfter positional.length (done.map Prod.fst) (before.map Prod.fst)
        ∧ c.Misfits positional.length ((done ++ before).map Prod.fst) name e := by
  -- what has been taken grows from the left, so `done` is not fixed
  induction keywords generalizing done with
  | nil => exact ⟨.nil, by rw [List.append_nil]⟩
  | cons named keywords ih =>
      obtain ⟨name, value⟩ := named
      rw [List.foldlM_cons]
      obtain ⟨hfree, hnew, hbind⟩ | ⟨e, hmisfits, hbind⟩ :=
        bindNamed_cases c positional done name value
      · rw [hbind]
        have hrest := ih (done ++ [(name, value)])
        simp only [List.map_append, List.map_cons, List.map_nil, List.append_assoc,
          List.singleton_append] at hrest
        show match keywords.foldlM c.bindNamed (c.givenLocals ⟨positional, done ++ [(name, value)]⟩)
          with | .ok _ => _ | .error _ => _
        split at hrest
        · obtain ⟨hfit, rfl⟩ := hrest
          exact ⟨hfit.cons hfree hnew, rfl⟩
        · obtain ⟨before, other, v, after, rfl, hfit, hmisfits⟩ := hrest
          refine ⟨(name, value) :: before, other, v, after, rfl, hfit.cons hfree hnew, ?_⟩
          simpa using hmisfits
      · rw [hbind]
        refine ⟨[], name, value, keywords, rfl, .nil, ?_⟩
        rw [List.append_nil]
        exact hmisfits

/-- A name that does not fit is none of those that fit together. -/
theorem Misfits.not_fitAfter {count : Nat} {before after : List String} {e : BindingError}
    (h : c.Misfits count before name e) : ¬ c.FitAfter count [] (before ++ name :: after) := by
  intro hfit
  obtain ⟨i, hindex, hi⟩ := hfit.free name (by simp)
  cases h with
  | unknown hunknown =>
      rw [paramIndex?_eq_none_iff.mpr hunknown] at hindex
      cases hindex
  | again hindex' htaken =>
      obtain rfl := Option.some.inj (hindex.symm.trans hindex')
      rcases htaken with hlt | hmem
      · omega
      · exact (List.nodup_append.mp hfit.nodup).2.2 name hmem name (List.mem_cons_self ..) rfl

/-- All named arguments are taken exactly if they fit. -/
theorem foldlM_bindNamed_eq_ok_iff :
    keywords.foldlM c.bindNamed (c.givenLocals { positional }) = .ok locals
      ↔ c.FitAfter positional.length [] (keywords.map Prod.fst)
        ∧ locals = c.givenLocals ⟨positional, keywords⟩ := by
  have hall := foldlM_bindNamed c positional [] keywords
  rw [List.map_nil, List.nil_append] at hall
  split at hall
  · next given hgiven =>
      rw [hgiven]
      obtain ⟨hfit, rfl⟩ := hall
      exact ⟨fun h => ⟨hfit, (Except.ok.inj h).symm⟩, fun h => congrArg Except.ok h.2.symm⟩
  · next e he =>
      rw [he]
      obtain ⟨before, name, value, after, rfl, -, hmisfits⟩ := hall
      refine ⟨(fun h => nomatch h), fun h => absurd h.1 ?_⟩
      rw [List.map_append]
      exact hmisfits.not_fitAfter

/-! ## §3. Parameters that are not given. -/

/-- The parameter that is missed is the first whose local is empty. -/
theorem missing?_cases (c : Code) (locals : Slots) :
    match c.missing? locals with
    | none => ∀ (i : Nat) (name : String), c.params[i]? = some name → locals[i]? ≠ some none
    | some name => ∃ i : Nat, c.params[i]? = some name ∧ locals[i]? = some none
        ∧ ∀ j < i, locals[j]? ≠ some none := by
  unfold missing?
  simp only [← Array.getElem?_toList]
  -- parameters and locals are walked in step, one parameter for one local
  generalize locals.toList = slots
  generalize c.params = params
  induction params generalizing slots with
  | nil => exact fun i name h => nomatch h
  | cons param params ih =>
      cases slots with
      | nil => exact fun i name _ h => nomatch h
      | cons slot slots =>
          cases slot with
          | none => exact ⟨0, rfl, rfl, fun j hj => absurd hj (Nat.not_lt_zero j)⟩
          | some v =>
              have hrest := ih slots
              rw [List.zip_cons_cons, List.findSome?_cons]
              dsimp only
              split
              · next hnone =>
                  rw [hnone] at hrest
                  rintro (_ | i) name hname
                  · exact fun h => nomatch h
                  · exact hrest i name hname
              · next missed hmissed =>
                  rw [hmissed] at hrest
                  obtain ⟨i, hname, hempty, hfirst⟩ := hrest
                  refine ⟨i + 1, hname, hempty, ?_⟩
                  rintro (_ | j) hj
                  · exact fun h => nomatch h
                  · exact hfirst j (Nat.lt_of_succ_lt_succ hj)

theorem getElem?_givenLocals_of_param (h : c.params[i]? = some name) :
    (c.givenLocals args)[i]? = some (c.given args i) := by
  obtain ⟨hlt, -⟩ := List.getElem?_eq_some_iff.mp h
  rw [length_params] at hlt
  exact getElem?_givenLocals (by omega)

/-- Nothing is missed exactly if each parameter is given something. -/
theorem missing?_givenLocals_eq_none_iff : c.missing? (c.givenLocals args) = none
    ↔ ∀ i name, c.params[i]? = some name → c.given args i ≠ none := by
  have hcases := missing?_cases c (c.givenLocals args)
  constructor
  · intro hnone i name hname hempty
    rw [hnone] at hcases
    exact hcases i name hname (by rw [getElem?_givenLocals_of_param hname, hempty])
  · intro hall
    split at hcases
    · assumption
    · obtain ⟨i, hname, hempty, -⟩ := hcases
      rw [getElem?_givenLocals_of_param hname] at hempty
      exact absurd (Option.some.inj hempty) (hall i _ hname)

/-! ## §4. Calls. -/

theorem bind_of_many (h : c.argCount < args.positional.length) :
    c.bind args = .error (.tooMany c.name c.argCount args.positional.length) := by
  unfold bind
  rw [if_pos h]
  rfl

/-- Without too many positional arguments, the named ones decide, and then what is missed. -/
theorem bind_of_few (h : positional.length ≤ c.argCount) :
    c.bind ⟨positional, keywords⟩
      = match keywords.foldlM c.bindNamed (c.givenLocals { positional }) with
        | .error e => .error e
        | .ok locals =>
            match c.missing? locals with
            | some name => .error (.notGiven c.name name)
            | none => .ok locals := by
  unfold bind
  rw [if_neg (Nat.not_lt.mpr h), positionalLocals_eq]
  show (keywords.foldlM c.bindNamed (c.givenLocals { positional }) >>= _) = _
  cases keywords.foldlM c.bindNamed (c.givenLocals { positional }) with
  | error e => rfl
  | ok locals =>
      show (match c.missing? locals with | some name => _ | none => _) = _
      cases hmissing : c.missing? locals with
      | none => simp only [hmissing, pure, Except.pure]
      | some name => simp only [hmissing, throw, throwThe, MonadExceptOf.throw]

/-- **The calls that are accepted**, and the locals they give. -/
theorem bind_eq_ok_iff : c.bind args = .ok locals ↔
    args.positional.length ≤ c.argCount ∧ c.FitAfter args.positional.length [] args.names
      ∧ (∀ i name, c.params[i]? = some name → c.given args i ≠ none)
      ∧ locals = c.givenLocals args := by
  obtain ⟨positional, keywords⟩ := args
  by_cases hfew : positional.length ≤ c.argCount
  · rw [bind_of_few hfew]
    constructor
    · intro h
      split at h
      · cases h
      · next given hgiven =>
          obtain ⟨hfit, rfl⟩ := foldlM_bindNamed_eq_ok_iff.mp hgiven
          split at h
          · cases h
          · next hnone =>
              exact ⟨hfew, hfit, missing?_givenLocals_eq_none_iff.mp hnone, (Except.ok.inj h).symm⟩
    · rintro ⟨-, hfit, hgiven, rfl⟩
      rw [foldlM_bindNamed_eq_ok_iff.mpr ⟨hfit, rfl⟩]
      dsimp only
      rw [missing?_givenLocals_eq_none_iff.mpr hgiven]
  · rw [bind_of_many (Nat.not_le.mp hfew)]
    exact ⟨(fun h => nomatch h), fun h => absurd h.1 hfew⟩

/-- Of named arguments with different names one at most is for a parameter. -/
theorem find?_eq_some_iff_of_nodup {v : Value} (hnodup : (keywords.map Prod.fst).Nodup) :
    (keywords.find? fun named => c.paramIndex? named.1 == some i).map Prod.snd = some v
      ↔ ∃ name, (name, v) ∈ keywords ∧ c.paramIndex? name = some i := by
  induction keywords with
  | nil => simp
  | cons named keywords ih =>
      obtain ⟨name, w⟩ := named
      obtain ⟨hnew, hrest⟩ := List.nodup_cons.mp hnodup
      by_cases hindex : c.paramIndex? name = some i
      · rw [List.find?_cons_of_pos (by rw [hindex]; exact beq_self_eq_true _)]
        constructor
        · intro h
          obtain rfl := Option.some.inj h
          exact ⟨name, List.mem_cons_self .., hindex⟩
        · rintro ⟨other, hmem, hother⟩
          -- a later argument for this parameter would have the same name
          obtain rfl := eq_of_paramIndex? hindex hother
          rcases List.mem_cons.mp hmem with heq | hmem
          · rw [← heq]
            rfl
          · exact absurd (List.mem_map.mpr ⟨_, hmem, rfl⟩) hnew
      · rw [List.find?_cons_of_neg (by simpa using hindex), ih hrest]
        constructor
        · rintro ⟨other, hmem, hother⟩
          exact ⟨other, List.mem_cons_of_mem _ hmem, hother⟩
        · rintro ⟨other, hmem, hother⟩
          rcases List.mem_cons.mp hmem with heq | hmem
          · obtain ⟨rfl, rfl⟩ := Prod.mk.inj heq
            exact absurd hother hindex
          · exact ⟨other, hmem, hother⟩

theorem given_perm {keywords' : List (String × Value)} (h : keywords.Perm keywords')
    (hnodup : (keywords.map Prod.fst).Nodup) (i : Nat) :
    c.given ⟨positional, keywords⟩ i = c.given ⟨positional, keywords'⟩ i := by
  unfold given
  dsimp only
  split
  · rfl
  · refine Option.ext fun v => ?_
    rw [find?_eq_some_iff_of_nodup hnodup,
      find?_eq_some_iff_of_nodup ((h.map Prod.fst).nodup_iff.mp hnodup)]
    simp only [h.mem_iff]

theorem FitAfter.perm {count : Nat} {names names' : List String}
    (hfit : c.FitAfter count [] names) (h : names.Perm names') : c.FitAfter count [] names' where
  free := fun name hmem => hfit.free name (h.mem_iff.mpr hmem)
  new := fun _ _ hmem => nomatch hmem
  nodup := h.nodup_iff.mp hfit.nodup

/-- **The order of named arguments** is no matter, if they are accepted. -/
theorem bind_perm {keywords' : List (String × Value)} (h : keywords.Perm keywords')
    (hbind : c.bind ⟨positional, keywords⟩ = .ok locals) :
    c.bind ⟨positional, keywords'⟩ = .ok locals := by
  obtain ⟨hfew, hfit, hgiven, rfl⟩ := bind_eq_ok_iff.mp hbind
  have hsame (i : Nat) : c.given ⟨positional, keywords⟩ i = c.given ⟨positional, keywords'⟩ i :=
    given_perm h hfit.nodup i
  refine bind_eq_ok_iff.mpr ⟨hfew, hfit.perm (h.map Prod.fst), fun i name hname => ?_, ?_⟩
  · rw [← hsame]
    exact hgiven i name hname
  · unfold givenLocals
    simp only [hsame]

/-! ## §5. What a call must look like. -/

/-- A call that fits a body: there are not too many positional arguments, the names of the
others are different, each names a parameter that is not given by position, and each such
parameter is named. -/
structure Accepts (c : Code) (args : Arguments) : Prop where
  few : args.positional.length ≤ c.argCount
  distinct : args.names.Nodup
  known : ∀ name ∈ args.names, name ∈ c.params.drop args.positional.length
  complete : ∀ name ∈ c.params.drop args.positional.length, name ∈ args.names

/-- Where the locals hold which argument. -/
structure Places (c : Code) (args : Arguments) (locals : Slots) : Prop where
  size_eq : locals.size = c.nlocals
  by_position : ∀ {i : Nat} {v : Value}, args.positional[i]? = some v → locals[i]? = some (some v)
  by_name : ∀ {i : Nat} {name : String} {v : Value}, args.positional.length ≤ i → c.params[i]? = some name →
    (name, v) ∈ args.keywords → locals[i]? = some (some v)
  unbound : ∀ {i : Nat}, c.argCount ≤ i → i < c.nlocals → locals[i]? = some none

/-- Why a call does not fit a body: of several reasons, the first. -/
inductive RefusesWith (c : Code) (args : Arguments) : BindingError → Prop
  | tooMany : c.argCount < args.positional.length →
      RefusesWith c args (.tooMany c.name c.argCount args.positional.length)
  /-- The first named argument that does not fit names no parameter … -/
  | unknownName {before after : List (String × Value)} {name : String} {value : Value} :
      args.positional.length ≤ c.argCount → args.keywords = before ++ (name, value) :: after →
      (before.map Prod.fst).Nodup →
      (∀ other ∈ before.map Prod.fst, other ∈ c.params.drop args.positional.length) →
      name ∉ c.params → RefusesWith c args (.unknownName c.name name)
  /-- … or one that is given by position or by a name before it. -/
  | givenTwice {before after : List (String × Value)} {name : String} {value : Value} :
      args.positional.length ≤ c.argCount → args.keywords = before ++ (name, value) :: after →
      (before.map Prod.fst).Nodup →
      (∀ other ∈ before.map Prod.fst, other ∈ c.params.drop args.positional.length) →
      name ∈ c.params →
      name ∈ c.params.take args.positional.length ∨ name ∈ before.map Prod.fst →
      RefusesWith c args (.givenTwice c.name name)
  /-- All named arguments fit, but not every parameter is given. -/
  | notGiven {i : Nat} {name : String} :
      args.positional.length ≤ c.argCount → args.names.Nodup →
      (∀ other ∈ args.names, other ∈ c.params.drop args.positional.length) →
      args.positional.length ≤ i → c.params[i]? = some name → name ∉ args.names →
      (∀ j other, args.positional.length ≤ j → j < i → c.params[j]? = some other →
        other ∈ args.names) →
      RefusesWith c args (.notGiven c.name name)

section Distinct

variable (hparams : c.params.Nodup)

include hparams

/-- With different parameters, a name has the index it stands at. -/
theorem paramIndex?_eq_some_iff_of_nodup :
    c.paramIndex? name = some i ↔ c.params[i]? = some name := by
  rw [paramIndex?_eq_some_iff]
  refine ⟨And.left, fun h => ⟨h, fun j hj heq => ?_⟩⟩
  obtain ⟨hlt, hi⟩ := List.getElem?_eq_some_iff.mp h
  obtain ⟨hlt', hj'⟩ := List.getElem?_eq_some_iff.mp heq
  have hsame : c.params[j] = c.params[i] := hj'.trans hi.symm
  exact absurd (hparams.getElem_inj_iff.mp hsame) (Nat.ne_of_lt hj)

theorem isFree_iff {count : Nat} : c.IsFree count name ↔ name ∈ c.params.drop count := by
  unfold IsFree
  simp only [paramIndex?_eq_some_iff_of_nodup hparams, List.mem_iff_getElem?, List.getElem?_drop]
  constructor
  · rintro ⟨i, hname, hi⟩
    exact ⟨i - count, by rwa [Nat.add_sub_cancel' hi]⟩
  · rintro ⟨i, hname⟩
    exact ⟨count + i, hname, Nat.le_add_right ..⟩

theorem fitAfter_nil_iff {count : Nat} {names : List String} :
    c.FitAfter count [] names ↔ names.Nodup ∧ ∀ name ∈ names, name ∈ c.params.drop count := by
  constructor
  · exact fun h => ⟨h.nodup, fun name hname => (isFree_iff hparams).mp (h.free name hname)⟩
  · rintro ⟨hnodup, hall⟩
    exact ⟨fun name hname => (isFree_iff hparams).mpr (hall name hname), by simp, hnodup⟩

/-- A parameter is given nothing if it has no position among the arguments and no name. -/
theorem given_eq_none_iff_of_nodup (hi : c.params[i]? = some name) :
    c.given args i = none ↔ args.positional.length ≤ i ∧ name ∉ args.names := by
  obtain ⟨positional, keywords⟩ := args
  by_cases hlt : i < positional.length
  · have hgiven : c.given ⟨positional, keywords⟩ i = some positional[i] := by
      unfold given
      rw [if_pos hlt, List.getElem?_eq_getElem hlt]
    rw [hgiven]
    exact ⟨(fun h => nomatch h), fun h => absurd h.1 (Nat.not_le.mpr hlt)⟩
  · rw [given_eq_none_iff (Nat.not_lt.mp hlt)]
    simp only [ne_eq, paramIndex?_eq_some_iff_of_nodup hparams, hi]
    constructor
    · intro h
      refine ⟨Nat.not_lt.mp hlt, fun hmem => ?_⟩
      obtain ⟨named, hnamed, heq⟩ := List.mem_map.mp hmem
      exact h named hnamed (congrArg some heq.symm)
    · rintro ⟨-, hnew⟩ named hnamed heq
      exact hnew (List.mem_map.mpr ⟨named, hnamed, (Option.some.inj heq).symm⟩)

theorem accepts_iff : c.Accepts args ↔
    args.positional.length ≤ c.argCount ∧ c.FitAfter args.positional.length [] args.names
      ∧ ∀ i name, c.params[i]? = some name → c.given args i ≠ none := by
  have hgiven : (∀ i name, c.params[i]? = some name → c.given args i ≠ none)
      ↔ ∀ name ∈ c.params.drop args.positional.length, name ∈ args.names := by
    constructor
    · intro h name hname
      obtain ⟨i, hi⟩ := List.mem_iff_getElem?.mp hname
      rw [List.getElem?_drop] at hi
      by_contra hnew
      exact h _ name hi ((given_eq_none_iff_of_nodup hparams hi).mpr ⟨Nat.le_add_right .., hnew⟩)
    · intro h i name hi hnone
      obtain ⟨hle, hnew⟩ := (given_eq_none_iff_of_nodup hparams hi).mp hnone
      refine hnew (h name (List.mem_iff_getElem?.mpr ⟨i - args.positional.length, ?_⟩))
      rw [List.getElem?_drop, Nat.add_sub_cancel' hle, hi]
  rw [hgiven, fitAfter_nil_iff hparams]
  exact ⟨fun h => ⟨h.few, ⟨h.distinct, h.known⟩, h.complete⟩, fun h => ⟨h.1, h.2.1.1, h.2.1.2, h.2.2⟩⟩

/-- The locals that the arguments give hold them in their places. -/
theorem places_givenLocals (hlocals : c.argCount ≤ c.nlocals) (h : c.Accepts args) :
    c.Places args (c.givenLocals args) where
  size_eq := size_givenLocals
  by_position := by
    intro i v hv
    obtain ⟨hlt, -⟩ := List.getElem?_eq_some_iff.mp hv
    have hfew := h.few
    rw [getElem?_givenLocals (by omega), given, if_pos hlt, hv]
  by_name := by
    intro i name v hi hname hmem
    rw [getElem?_givenLocals_of_param hname, given, if_neg (Nat.not_lt.mpr hi)]
    refine congrArg some ((find?_eq_some_iff_of_nodup h.distinct).mpr ⟨name, hmem, ?_⟩)
    exact (paramIndex?_eq_some_iff_of_nodup hparams).mpr hname
  unbound := by
    intro i hcount hi
    have hfew := h.few
    rw [getElem?_givenLocals hi]
    refine congrArg some ?_
    obtain ⟨positional, keywords⟩ := args
    refine (given_eq_none_iff (Nat.le_trans hfew hcount)).mpr fun named _ hindex => ?_
    obtain ⟨hlt, -⟩ := List.getElem?_eq_some_iff.mp (paramIndex?_eq_some_iff.mp hindex).1
    rw [length_params] at hlt
    omega

/-- A named argument that does not fit is the reason for a refusal. -/
theorem Misfits.refusesWith {before after : List (String × Value)} {e : BindingError}
    (hfew : positional.length ≤ c.argCount)
    (hfit : c.FitAfter positional.length [] (before.map Prod.fst))
    (h : c.Misfits positional.length (before.map Prod.fst) name e) :
    c.RefusesWith ⟨positional, before ++ (name, value) :: after⟩ e := by
  obtain ⟨hnodup, hall⟩ := (fitAfter_nil_iff hparams).mp hfit
  cases h with
  | unknown hunknown => exact .unknownName hfew rfl hnodup hall hunknown
  | @again i hindex htaken =>
      have hname := (paramIndex?_eq_some_iff_of_nodup hparams).mp hindex
      refine .givenTwice hfew rfl hnodup hall (List.mem_of_getElem? hname) ?_
      refine htaken.imp_left fun hlt => List.mem_iff_getElem?.mpr ⟨i, ?_⟩
      rw [List.getElem?_take_of_lt hlt, hname]

/-- A parameter that is missed is the reason for a refusal. -/
theorem refusesWith_of_missing? (hfew : positional.length ≤ c.argCount)
    (hfit : c.FitAfter positional.length [] (keywords.map Prod.fst))
    (h : c.missing? (c.givenLocals ⟨positional, keywords⟩) = some name) :
    c.RefusesWith ⟨positional, keywords⟩ (.notGiven c.name name) := by
  obtain ⟨hnodup, hall⟩ := (fitAfter_nil_iff hparams).mp hfit
  have hmissing := missing?_cases c (c.givenLocals ⟨positional, keywords⟩)
  rw [h] at hmissing
  obtain ⟨i, hparam, hempty, hfirst⟩ := hmissing
  rw [getElem?_givenLocals_of_param hparam, Option.some_inj,
    given_eq_none_iff_of_nodup hparams hparam] at hempty
  refine .notGiven hfew hnodup hall hempty.1 hparam hempty.2 fun j other hle hj hother => ?_
  by_contra hnew
  refine hfirst j hj ?_
  rw [getElem?_givenLocals_of_param hother, Option.some_inj]
  exact (given_eq_none_iff_of_nodup hparams hother).mpr ⟨hle, hnew⟩

/-- A call that is refused is so for the first reason. -/
theorem refusesWith_of_bind {e : BindingError} (h : c.bind args = .error e) :
    c.RefusesWith args e := by
  obtain ⟨positional, keywords⟩ := args
  by_cases hfew : positional.length ≤ c.argCount
  · rw [bind_of_few hfew] at h
    have hfold := foldlM_bindNamed c positional [] keywords
    rw [List.map_nil, List.nil_append] at hfold
    split at h
    · next e' he' =>
        obtain rfl := Except.error.inj h
        rw [he'] at hfold
        obtain ⟨before, name, value, after, rfl, hfit, hmisfits⟩ := hfold
        exact hmisfits.refusesWith hparams hfew hfit
    · next locals hlocals =>
        rw [hlocals] at hfold
        obtain ⟨hfit, rfl⟩ := hfold
        split at h
        · next name hname =>
            obtain rfl := Except.error.inj h
            exact refusesWith_of_missing? hparams hfew hfit hname
        · cases h
  · rw [bind_of_many (Nat.not_le.mp hfew)] at h
    obtain rfl := Except.error.inj h
    exact .tooMany (Nat.not_le.mp hfew)

end Distinct

end Code

/-- A frame begins with the locals it is given, if there is one for each of its slots. -/
theorem Frame.slots_ofLocals {f : Function} {locals : Slots} (parent : Option Nat)
    (h : locals.size = f.code.nlocals) : (ofLocals f parent locals.toList).slots = locals := by
  have htake : locals.toList.take f.code.nlocals = locals.toList := by
    rw [← h, ← Array.length_toList, List.take_length]
  show ((locals.toList.take f.code.nlocals ++ _).toArray : Slots) = locals
  rw [htake, Array.length_toList, h, Nat.sub_self]
  simp

/-- **Which calls a body accepts**, and why it does not accept the others.  A call that is
accepted fits the body; its arguments are in their places when the frame of the call begins,
whatever the order of the named ones. -/
theorem Code.bind_fits (c : Code) (hlocals : c.argCount ≤ c.nlocals) (hparams : c.params.Nodup)
    (args : Arguments) :
    match c.bind args with
    | .ok locals => c.Accepts args ∧ c.Places args locals
        ∧ (∀ keywords, keywords.Perm args.keywords → c.bind { args with keywords } = .ok locals)
        ∧ ∀ serial parent, (Frame.ofLocals ⟨serial, c⟩ parent locals.toList).slots = locals
    | .error e => ¬ c.Accepts args ∧ c.RefusesWith args e := by
  cases hbind : c.bind args with
  | ok locals =>
      obtain ⟨hfew, hfit, hgiven, rfl⟩ := bind_eq_ok_iff.mp hbind
      have haccepts := (accepts_iff hparams).mpr ⟨hfew, hfit, hgiven⟩
      exact ⟨haccepts, places_givenLocals hparams hlocals haccepts,
        fun keywords hperm => bind_perm hperm.symm hbind,
        fun serial parent => Frame.slots_ofLocals parent size_givenLocals⟩
  | error e =>
      refine ⟨fun haccepts => ?_, refusesWith_of_bind hparams hbind⟩
      obtain ⟨hfew, hfit, hgiven⟩ := (accepts_iff hparams).mp haccepts
      rw [bind_eq_ok_iff.mpr ⟨hfew, hfit, hgiven, rfl⟩] at hbind
      cases hbind

/-- A body with three parameters and another local. -/
def Code.ofThree : Code where
  name := "f"
  qualname := "f"
  filename := ""
  firstLine := 1
  bytes := #[]
  constants := #[]
  names := #[]
  varnames := #["a", "b", "c", "tmp"]
  argCount := 3
  lines := []

/-- It takes one argument by position and two by name, the last one first, and refuses a
name whose parameter is given by position. -/
theorem Code.bind_fits_ofThree :
    ofThree.argCount ≤ ofThree.nlocals ∧ ofThree.params.Nodup
      ∧ (∃ locals, ofThree.bind ⟨[.int 1], [("c", .int 3), ("b", .int 2)]⟩ = .ok locals
        ∧ ofThree.Places ⟨[.int 1], [("c", .int 3), ("b", .int 2)]⟩ locals)
      ∧ ofThree.RefusesWith ⟨[.int 1], [("c", .int 3), ("a", .int 2)]⟩ (.givenTwice "f" "a") := by
  have hlocals : ofThree.argCount ≤ ofThree.nlocals := by decide
  have hparams : ofThree.params.Nodup := by decide
  have haccepted := bind_fits ofThree hlocals hparams ⟨[.int 1], [("c", .int 3), ("b", .int 2)]⟩
  have hrefused := bind_fits ofThree hlocals hparams ⟨[.int 1], [("c", .int 3), ("a", .int 2)]⟩
  exact ⟨hlocals, hparams, ⟨_, rfl, haccepted.2.1⟩, hrefused.2⟩

end Resumable
