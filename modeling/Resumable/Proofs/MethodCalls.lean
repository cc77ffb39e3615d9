/-
  Resumable.Proofs.MethodCalls
  ────────────────────────────
  **CALLING A METHOD AND CALLING AN ATTRIBUTE.**

  There are two ways to call what an owner has under a name:

      LOAD_ATTR name,   push the arguments, CALL_FUNCTION n    attribute | a 1 … a n
      LOAD_METHOD name, push the arguments, CALL_METHOD n      method | receiver or empty | a 1 … a n

  They make the same call unless the method is bound, which is in two cases:

      an object without the attribute, whose nearest class that has it holds a
      function or a builtin
      a list, whose methods are no attributes of it

  In between a method stands one entry higher, and both calls end on the stack below.

  Main results:
    • `method_eq_attributeOf` — what a method that is not bound is,
    • `method_calls_agree`    — the calls of an owner's methods and attributes.
-/
import Resumable.Proofs.CallShapes

namespace Resumable

open VmAction

/-! ## §1. Bound methods. -/

/-- A value that is bound when it is found on a class. -/
def Value.Binds (v : Value) : Prop :=
  (∃ fn, v = .function fn) ∨ ∃ b, v = .builtin b

/-- A name is missing on an object and the nearest class that has it, along its line of
classes, holds a value that is bound. -/
def Store.BindsMethod (s : Store) (owner : Value) (name : String) (callee : Value) : Prop :=
  ∃ place nearer c farther, owner = .object place
    ∧ (s.object place).attrs.find? name = none
    ∧ (s.object place).lineage = nearer ++ c :: farther
    ∧ (∀ d ∈ nearer, (s.object d).attrs.find? name = none)
    ∧ (s.object c).attrs.find? name = some callee ∧ callee.Binds

variable {s : Store} {owner callee : Value} {name : String}

/-- It is the value that a look-up finds on the classes of the object. -/
theorem bindsMethod_iff : s.BindsMethod owner name callee ↔
    ∃ place, owner = .object place ∧ s.lookup place name = some (.inherited callee)
      ∧ callee.Binds := by
  constructor
  · rintro ⟨place, nearer, c, farther, rfl, hown, hlineage, hnearer, hc, hbinds⟩
    refine ⟨place, rfl, ?_, hbinds⟩
    unfold Store.lookup
    dsimp only
    rw [hown]
    dsimp only
    rw [List.findSome?_eq_some_iff.mpr ⟨nearer, c, farther, hlineage, hc, hnearer⟩]
    rfl
  · rintro ⟨place, rfl, hlookup, hbinds⟩
    unfold Store.lookup at hlookup
    dsimp only at hlookup
    cases hown : (s.object place).attrs.find? name with
    | some v =>
        rw [hown] at hlookup
        cases hlookup
    | none =>
        rw [hown] at hlookup
        obtain ⟨v, hfound, heq⟩ := Option.map_eq_some_iff.mp hlookup
        cases heq
        obtain ⟨nearer, c, farther, hlineage, hc, hnearer⟩ := List.findSome?_eq_some_iff.mp hfound
        exact ⟨place, nearer, c, farther, rfl, hown, hlineage, hnearer, hc, hbinds⟩

theorem attributeOf_object (place : Address) (name : String) (vm : Vm) :
    attributeOf (.object place) name vm =
      match vm.store.lookup place name with
      | some found => .ok found.value vm
      | none => (raise (.noAttribute (Value.object place).typeName name) : VmAction Value) vm := by
  unfold attributeOf
  dsimp only
  rw [action_get_bind]
  cases vm.store.lookup place name <;> rfl

theorem attributeOf_exception (e : Exception) (name : String) (vm : Vm) :
    attributeOf (.exception e) name vm =
      if name = "args" then .ok (.tuple [.str e.message]) vm
      else (raise (.noAttribute (Value.exception e).typeName name) : VmAction Value) vm := by
  unfold attributeOf
  dsimp only
  split <;> rfl

/-- An attribute is found, or the owner has none of the name. -/
theorem attributeOf_cases (owner : Value) (name : String) (vm : Vm) :
    (∃ v, attributeOf owner name vm = .ok v vm)
      ∨ attributeOf owner name vm
        = (raise (.noAttribute owner.typeName name) : VmAction Value) vm := by
  cases owner with
  | object place =>
      rw [attributeOf_object]
      cases vm.store.lookup place name with
      | some found => exact .inl ⟨found.value, rfl⟩
      | none => exact .inr rfl
  | exception e =>
      rw [attributeOf_exception]
      by_cases hname : name = "args"
      · exact .inl ⟨_, if_pos hname⟩
      · exact .inr (if_neg hname)
  | _ => exact .inr rfl

/-- Of what an object has, only a function or a builtin of a class is bound to it. -/
theorem method_object (place : Address) (name : String) (vm : Vm) :
    method (.object place) name vm =
      match vm.store.lookup place name with
      | some (.inherited (.function f)) => .ok (.function f, some (.object place)) vm
      | some (.inherited (.builtin b)) => .ok (.builtin b, some (.object place)) vm
      | some found => .ok (found.value, none) vm
      | none => (raise (.noAttribute (Value.object place).typeName name) :
          VmAction (Value × Option Value)) vm := by
  unfold method
  dsimp only
  rw [action_get_bind]
  cases vm.store.lookup place name with
  | none => rfl
  | some found =>
      cases found with
      | own v => rfl
      | inherited v => cases v <;> rfl

/-- **A method that is not bound is the attribute**, and there is no receiver. -/
theorem method_eq_attributeOf (vm : Vm) (hlist : ∀ place, owner ≠ .list place)
    (hbinds : ∀ callee, ¬ vm.store.BindsMethod owner name callee) :
    method owner name vm = (attributeOf owner name >>= fun v => pure (v, none)) vm := by
  cases owner with
  | object place =>
      have hattribute := attributeOf_object place name vm
      rw [method_object]
      cases hlookup : vm.store.lookup place name with
      | none =>
          rw [hlookup] at hattribute
          exact (action_bind_of_error hattribute).symm
      | some found =>
          rw [hlookup] at hattribute
          rw [action_bind_of_ok hattribute]
          cases found with
          | own v => rfl
          | inherited v =>
              have hfree : ¬ v.Binds := fun h =>
                hbinds v (bindsMethod_iff.mpr ⟨place, rfl, hlookup, h⟩)
              cases v with
              | function fn => exact absurd (.inl ⟨fn, rfl⟩) hfree
              | builtin b => exact absurd (.inr ⟨b, rfl⟩) hfree
              | _ => rfl
  | list place => exact absurd rfl (hlist place)
  | _ => rfl

/-- One that is bound is the attribute as well, and the owner is the receiver. -/
theorem method_of_bindsMethod (vm : Vm) (h : vm.store.BindsMethod owner name callee) :
    attributeOf owner name vm = .ok callee vm
      ∧ method owner name vm = .ok (callee, some owner) vm := by
  obtain ⟨place, rfl, hlookup, hbinds⟩ := bindsMethod_iff.mp h
  rw [attributeOf_object, method_object, hlookup]
  rcases hbinds with ⟨fn, rfl⟩ | ⟨b, rfl⟩
  · exact ⟨rfl, rfl⟩
  · exact ⟨rfl, rfl⟩

/-- The methods of lists are made anew each time. -/
theorem method_list (place : Address) (name : String) (vm : Vm) :
    method (.list place) name vm =
      match listMethod? name with
      | some native => .ok (.builtin ⟨vm.store.serial, native⟩, some (.list place))
          { vm with store := (vm.store.makeBuiltin native).2 }
      | none => (raise (.noAttribute (Value.list place).typeName name) : VmAction (Value × Option Value)) vm := by
  unfold method
  dsimp only
  cases listMethod? name <;> rfl

/-! ## §2. The two ways to load. -/

/-- A machine that is about to load what an owner on top of the stack has under a name. -/
structure AttributeSite where
  /-- The machine. -/
  vm : Vm
  /-- The innermost frame. -/
  frame : Frame
  /-- The frames below it. -/
  rest : List Frame
  /-- The slots below the owner. -/
  below : Slots
  /-- The owner. -/
  owner : Value
  /-- The operand of the instruction. -/
  index : UInt16
  /-- The name it stands for. -/
  name : String
  frames_eq : vm.frames = frame :: rest
  slots_eq : frame.slots = below.push (some owner)
  locals_le : frame.nlocals ≤ below.size
  name_eq : frame.code.names[index.toNat]? = some name

namespace AttributeSite

variable (a : AttributeSite)

/-- The machine with entries in place of the owner. -/
def holding (entries : List (Option Value)) : Vm :=
  { a.vm with frames := { a.frame with slots := a.below ++ entries } :: a.rest }

/-- The instruction fails: the owner has no attribute of the name. -/
def missing : EStateM.Result Fault Vm Outcome :=
  .error (.exception (.exception ⟨a.vm.store.serial, "AttributeError",
      (Cause.noAttribute a.owner.typeName a.name).message⟩))
    { a.holding [] with store := { a.vm.store with serial := a.vm.store.serial + 1 } }

variable {a}

theorem nameAt_eq : nameAt a.index.toNat a.vm = .ok a.name a.vm := by
  have hself : { a.vm with frames := a.frame :: a.rest } = a.vm := by rw [← a.frames_eq]
  have hcurrent : currentFrame a.vm = .ok a.frame a.vm := by
    unfold currentFrame
    rw [onFrame_apply a.frames_eq]
    simp only [get, getThe, MonadStateOf.get, EStateM.get]
    rw [hself]
  unfold nameAt
  rw [action_bind_of_ok hcurrent, a.name_eq]
  rfl

theorem pop_eq : onFrame FrameAction.pop a.vm = .ok a.owner (a.holding []) := by
  have hroom : ¬ a.frame.slots.size ≤ a.frame.nlocals := by
    have hlocals := a.locals_le
    rw [a.slots_eq, Array.size_push]
    omega
  have hpop : FrameAction.pop a.frame = .ok a.owner { a.frame with slots := a.below } := by
    simp only [FrameAction.pop, bind, EStateM.bind, FrameAction.popSlot_apply, if_neg hroom]
    rw [a.slots_eq, Array.back?_push, Array.pop_push]
    rfl
  rw [onFrame_apply a.frames_eq, hpop]
  rfl

theorem loadAttribute_eq : loadAttribute a.index.toNat a.vm
    = (attributeOf a.owner a.name >>= fun v => onFrame (FrameAction.push v)) (a.holding []) := by
  unfold loadAttribute
  exact (action_bind_of_ok nameAt_eq).trans (action_bind_of_ok pop_eq)

theorem loadMethod_eq : loadMethod a.index.toNat a.vm
    = (method a.owner a.name >>= fun found => onFrame do
        FrameAction.push found.1
        match found.2 with
        | some value => FrameAction.push value
        | none => FrameAction.pushEmpty) (a.holding []) := by
  unfold loadMethod
  exact (action_bind_of_ok nameAt_eq).trans (action_bind_of_ok pop_eq)

theorem loadAttribute_of_ok {v : Value}
    (h : attributeOf a.owner a.name (a.holding []) = .ok v (a.holding [])) :
    loadAttribute a.index.toNat a.vm = .ok () (a.holding [some v]) := by
  rw [loadAttribute_eq, action_bind_of_ok h]
  rfl

theorem loadMethod_of_ok {callee : Value} {receiver : Option Value} {s : Store}
    (h : method a.owner a.name (a.holding [])
      = .ok (callee, receiver) { a.holding [] with store := s }) :
    loadMethod a.index.toNat a.vm
      = .ok () { a.holding [some callee, receiver] with store := s } := by
  rw [loadMethod_eq, action_bind_of_ok h]
  cases receiver <;> rfl

/-! ## §3. The calls. -/

variable (a)

/-- The name is loaded, arguments are pushed and what has been loaded is called: the
callee gets the arguments `given`, and the call ends on the stack below the owner. -/
def Calls (load call : Opcode) (args : List Value) (callee : Value) (given : Arguments) : Prop :=
  ∃ (entries : List (Option Value)) (s : Store),
    (∀ offset, execute ⟨offset, load, a.index⟩ a.vm
      = .ok (.flow .next) { a.holding entries with store := s })
    ∧ onFrame (args.forM FrameAction.push) { a.holding entries with store := s }
      = .ok () { a.holding (entries ++ args.map some) with store := s }
    ∧ ∀ c : CallSite, c.instruction.opcode = call → c.instruction.arg.toNat = args.length →
      c.below = a.below → c.entries = entries ++ args.map some → c.Makes callee given

/-- Loading the name fails. -/
def Misses (load : Opcode) : Prop :=
  ∀ offset, execute ⟨offset, load, a.index⟩ a.vm = a.missing

variable {a} {args : List Value} {callee : Value}

/-- Values that are pushed one after the other stand above each other. -/
theorem forM_push (args : List Value) (f : Frame) :
    args.forM FrameAction.push f = .ok () { f with slots := f.slots ++ args.map some } := by
  induction args generalizing f with
  | nil => rfl
  | cons v args ih => exact ih (f.withSlot (some v))

theorem push_holding (entries : List (Option Value)) (args : List Value) (s : Store) :
    onFrame (args.forM FrameAction.push) { a.holding entries with store := s }
      = .ok () { a.holding (entries ++ args.map some) with store := s } := by
  have hslots : a.below ++ (entries ++ args.map some) = a.below ++ entries ++ args.map some := by
    apply Array.toList_inj.mp
    simp only [Array.toList_appendList, List.append_assoc]
  have hheld : a.holding (entries ++ args.map some) = { a.vm with
      frames := { a.frame with slots := a.below ++ entries ++ args.map some } :: a.rest } := by
    unfold holding
    rw [hslots]
  have hframes : ({ a.holding entries with store := s } : Vm).frames
      = { a.frame with slots := a.below ++ entries } :: a.rest := rfl
  rw [onFrame_apply hframes, forM_push, hheld]
  rfl

theorem calls_attribute (h : attributeOf a.owner a.name (a.holding []) = .ok callee (a.holding [])) :
    a.Calls .loadAttr .callFunction args callee { positional := args } := by
  refine ⟨[some callee], a.vm.store, fun offset => ?_, push_holding .., fun c hop hn _ hentries => ?_⟩
  · unfold execute andNext
    exact action_bind_of_ok (loadAttribute_of_ok h)
  · exact makes_function callee args c.vm.store c hop hn rfl hentries

theorem calls_method (receiver : Option Value) (s : Store)
    (h : method a.owner a.name (a.holding [])
      = .ok (callee, receiver) { a.holding [] with store := s }) :
    a.Calls .loadMethod .callMethod args callee { positional := receiver.toList ++ args } := by
  refine ⟨[some callee, receiver], s, fun offset => ?_, push_holding .., fun c hop hn _ hentries => ?_⟩
  · unfold execute andNext
    exact action_bind_of_ok (loadMethod_of_ok h)
  · exact makes_method callee receiver args c.vm.store c hop hn rfl hentries

theorem misses_attribute
    (h : attributeOf a.owner a.name (a.holding [])
      = (raise (.noAttribute a.owner.typeName a.name) : VmAction Value) (a.holding [])) :
    a.Misses .loadAttr := by
  intro offset
  unfold execute andNext
  exact action_bind_of_error (loadAttribute_eq.trans (action_bind_of_error h))

theorem misses_method
    (h : method a.owner a.name (a.holding [])
      = (raise (.noAttribute a.owner.typeName a.name) : VmAction (Value × Option Value)) (a.holding [])) :
    a.Misses .loadMethod := by
  intro offset
  unfold execute andNext
  exact action_bind_of_error (loadMethod_eq.trans (action_bind_of_error h))

/-- A method of lists is called with the list before the arguments. -/
theorem calls_listMethod {place : Address} {native : Native} (hlist : a.owner = .list place)
    (hnative : listMethod? a.name = some native) :
    a.Calls .loadMethod .callMethod args (.builtin ⟨a.vm.store.serial, native⟩)
      { positional := a.owner :: args } := by
  have hmethod := method_list place a.name (a.holding [])
  rw [hnative, ← hlist] at hmethod
  exact calls_method (some a.owner) (a.vm.store.makeBuiltin native).2 hmethod

theorem misses_listMethod {place : Address} (hlist : a.owner = .list place)
    (hnone : listMethod? a.name = none) : a.Misses .loadMethod := by
  have hmethod := method_list place a.name (a.holding [])
  rw [hnone, ← hlist] at hmethod
  exact misses_method hmethod

end AttributeSite

theorem listMethod?_eq_none (happend : name ≠ "append") (hpop : name ≠ "pop") :
    listMethod? name = none := by
  unfold listMethod?
  split
  · exact absurd rfl happend
  · exact absurd rfl hpop
  · rfl

/-- What calling the method of an owner and calling its attribute have in common. -/
structure MethodCallsAgree (a : AttributeSite) (args : List Value) : Prop where
  /-- A method that is not bound is called like the attribute, or is missing like it. -/
  free : (∀ place, a.owner ≠ .list place) →
    (∀ callee, ¬ a.vm.store.BindsMethod a.owner a.name callee) →
    (a.Misses .loadMethod ∧ a.Misses .loadAttr)
      ∨ ∃ callee, a.Calls .loadMethod .callMethod args callee { positional := args }
        ∧ a.Calls .loadAttr .callFunction args callee { positional := args }
  /-- One that is bound is the attribute as well, but gets the owner before the arguments. -/
  bound : ∀ callee, a.vm.store.BindsMethod a.owner a.name callee →
    a.Calls .loadMethod .callMethod args callee { positional := a.owner :: args }
      ∧ a.Calls .loadAttr .callFunction args callee { positional := args }
  /-- A list has two methods, which get it before the arguments. -/
  list : ∀ place, a.owner = .list place →
    (a.name = "append" → a.Calls .loadMethod .callMethod args
      (.builtin ⟨a.vm.store.serial, .append⟩) { positional := a.owner :: args })
    ∧ (a.name = "pop" → a.Calls .loadMethod .callMethod args
      (.builtin ⟨a.vm.store.serial, .pop⟩) { positional := a.owner :: args })
    ∧ (a.name ≠ "append" → a.name ≠ "pop" → a.Misses .loadMethod)

/-- **Method calls agree with attribute calls**, for every owner, name and line of classes. -/
theorem method_calls_agree (a : AttributeSite) (args : List Value) : MethodCallsAgree a args where
  free hlist hbinds := by
    have hmethod := method_eq_attributeOf (a.holding []) hlist hbinds
    rcases attributeOf_cases a.owner a.name (a.holding []) with ⟨callee, hfound⟩ | hmissing
    · refine .inr ⟨callee, ?_, AttributeSite.calls_attribute hfound⟩
      refine AttributeSite.calls_method none a.vm.store ?_
      rw [hmethod, action_bind_of_ok hfound]
      rfl
    · refine .inl ⟨AttributeSite.misses_method ?_, AttributeSite.misses_attribute hmissing⟩
      rw [hmethod]
      exact action_bind_of_error hmissing
  bound callee hbinds := by
    obtain ⟨hattribute, hmethod⟩ := method_of_bindsMethod (a.holding []) hbinds
    exact ⟨AttributeSite.calls_method (some a.owner) a.vm.store hmethod,
      AttributeSite.calls_attribute hattribute⟩
  list place hlist :=
    ⟨fun hname => AttributeSite.calls_listMethod hlist (by rw [hname]; rfl),
      fun hname => AttributeSite.calls_listMethod hlist (by rw [hname]; rfl),
      fun happend hpop => AttributeSite.misses_listMethod hlist (listMethod?_eq_none happend hpop)⟩

/-- A method of two parameters. -/
def describing : Function :=
  ⟨0, { ofTwo with name := "m", qualname := "m", varnames := #["self", "a"] }⟩

/-- An object, its class without the method, and the class of that with it. -/
def inheriting : Store :=
  { objects := #[{ attrs := [("m", .function describing)] }, { lineage := [0] },
      { lineage := [1, 0] }], serial := 2 }

/-- A frame that is about to load the method of the object. -/
def inheritingFrame : Frame where
  function := ⟨1, { ofTwo with bytes := encodeAll [(.loadMethod, 0)], names := #["m"], argCount := 0 }⟩
  slots := #[none, none, some (.object 2)]
  parent := none
  argCount := 0

/-- The machine it runs on. -/
def inheritingSite : AttributeSite where
  vm := { frames := [inheritingFrame], store := inheriting }
  frame := inheritingFrame
  rest := []
  below := #[none, none]
  owner := .object 2
  index := 0
  name := "m"
  frames_eq := rfl
  slots_eq := rfl
  locals_le := by decide
  name_eq := rfl

/-- The method is found on the class of the class and gets the object as its first
argument; the attribute does not. -/
theorem method_calls_agree_inheriting :
    inheriting.BindsMethod (.object 2) "m" (.function describing)
      ∧ inheritingSite.Calls .loadMethod .callMethod [.int 5] (.function describing)
        { positional := [.object 2, .int 5] }
      ∧ inheritingSite.Calls .loadAttr .callFunction [.int 5] (.function describing)
        { positional := [.int 5] } := by
  have hbinds : inheriting.BindsMethod (.object 2) "m" (.function describing) := by
    refine ⟨2, [1], 0, [], rfl, rfl, rfl, ?_, rfl, .inl ⟨describing, rfl⟩⟩
    intro d hd
    obtain rfl := List.mem_singleton.mp hd
    rfl
  exact ⟨hbinds, (method_calls_agree inheritingSite [.int 5]).bound _ hbinds⟩

end Resumable
