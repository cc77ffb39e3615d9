/-
  Resumable.Proofs.CallShapes
  ───────────────────────────
  **FOUR INSTRUCTIONS, ONE CALL.**

  The same call can be put on the stack in several shapes:

      CALL_FUNCTION n       callee | a 1 … a n
      CALL_METHOD n         callee | empty | a 1 … a n
      CALL_FUNCTION_EX 0    callee | tuple or list of a 1 … a n

      CALL_METHOD n         callee | r | a 1 … a n
      CALL_FUNCTION n+1     callee | r | a 1 … a n

      CALL_FUNCTION_KW n    callee | v 1 … v n | names
      CALL_FUNCTION_EX 1    callee | empty tuple | a dict of names and values

  The last two ask for different calls: the names come in the order of the code in
  one and in their own order in the other.  A body binds both alike, since the order
  does not matter where no name occurs twice.

  Main results:
    • `Bindings.ofList_perm` — a dict holds the pairs it is made of,
    • `call_shapes_agree`    — each shape asks for its call and ends it alike.
-/
import Resumable.Proofs.ArgumentBinding
import Resumable.Proofs.CallLifetimes

namespace Resumable

/-! ## §1. The dict of some pairs. -/

namespace Bindings

variable {α : Type}

/-- A new name is put among the others. -/
theorem set_perm {entries : Bindings α} {name : String} (hnew : name ∉ entries.map Prod.fst)
    (a : α) : (set entries name a).Perm ((name, a) :: entries) := by
  fun_induction set entries name a with
  | case1 => exact .refl _
  | case2 b rest => exact absurd (List.mem_cons_self ..) hnew
  | case3 key b rest hne hlt => exact .refl _
  | case4 key b rest hne hlt ih =>
      have hrest : name ∉ rest.map Prod.fst := fun hmem => hnew (List.mem_cons_of_mem _ hmem)
      exact ((ih hrest).cons (key, b)).trans (.swap ..)

/-- Pairs are put among entries of other names. -/
theorem foldl_set_perm {pairs : List (String × α)} {entries : Bindings α}
    (hnames : ((pairs ++ entries).map Prod.fst).Nodup) :
    (pairs.foldl (fun entries pair => entries.set pair.1 pair.2) entries).Perm (pairs ++ entries) := by
  induction pairs generalizing entries with
  | nil => exact .refl _
  | cons pair pairs ih =>
      have hnew : pair.1 ∉ (pairs ++ entries).map Prod.fst := (List.nodup_cons.mp hnames).1
      have hentries : pair.1 ∉ entries.map Prod.fst := by
        intro hmem
        refine hnew ?_
        rw [List.map_append]
        exact List.mem_append_right _ hmem
      -- the pair goes from the front of the pairs to the front of the entries
      have hset := set_perm hentries pair.2
      have hmoved : (pairs ++ entries.set pair.1 pair.2).Perm (pair :: (pairs ++ entries)) :=
        (hset.append_left pairs).trans List.perm_middle
      refine (ih ?_).trans hmoved
      exact ((hmoved.map Prod.fst).nodup_iff).mpr hnames

/-- **A dict of pairs with different names holds these pairs.** -/
theorem ofList_perm {pairs : List (String × α)} (hnames : (pairs.map Prod.fst).Nodup) :
    (ofList pairs).Perm pairs := by
  have hall : ((pairs ++ []).map Prod.fst).Nodup := by rwa [List.append_nil]
  have hperm : (ofList pairs).Perm (pairs ++ []) := foldl_set_perm hall
  rwa [List.append_nil] at hperm

end Bindings

/-- Names and values in turn are made into a dict. -/
theorem dictOf_pairs (entries : Bindings Value) (pairs : List (String × Value)) :
    dictOf entries (pairs.flatMap fun pair => [.str pair.1, pair.2])
      = .ok (pairs.foldl (fun entries pair => entries.set pair.1 pair.2) entries) := by
  induction pairs generalizing entries with
  | nil => rfl
  | cons pair pairs ih => exact ih (entries.set pair.1 pair.2)

/-! ## §2. Reading the shapes. -/

variable {callee : Value} {args : List Value} {s : Store}

theorem mapM_argument (args : List Value) : (args.map some).mapM argument = .ok args := by
  induction args with
  | nil => rfl
  | cons v args ih =>
      rw [List.map_cons, List.mapM_cons, ih]
      rfl

theorem functionRequest_eq (callee : Value) (args : List Value) :
    functionRequest (some callee :: args.map some)
      = .ok ⟨callee, { positional := args }, args.length + 1⟩ := by
  unfold functionRequest
  rw [firstArgument_ok.mpr rfl]
  simp only [bind, Except.bind, mapM_argument]
  simp only [pure, Except.pure, List.length_cons, List.length_map]

theorem methodRequest_eq (callee : Value) (receiver : Option Value) (args : List Value) :
    methodRequest (some callee :: receiver :: args.map some)
      = .ok ⟨callee, { positional := receiver.toList ++ args }, args.length + 2⟩ := by
  unfold methodRequest
  rw [firstArgument_ok.mpr rfl]
  simp only [bind, Except.bind, List.tail_cons, mapM_argument]
  simp only [pure, Except.pure, List.length_cons, List.length_map, List.head?_cons, Option.join_some]

/-- The names of some pairs. -/
def nameTuple (pairs : List (String × Value)) : Value :=
  .tuple (pairs.map fun pair => .str pair.1)

/-- The entries of a call by names: the values, and the names on top. -/
def namedEntries (callee : Value) (pairs : List (String × Value)) : List (Option Value) :=
  some callee :: ((pairs.map Prod.snd).map some ++ [some (nameTuple pairs)])

theorem asNames?_nameTuple (pairs : List (String × Value)) :
    (nameTuple pairs).asNames? = some (pairs.map Prod.fst) := by
  show (pairs.map fun pair => Value.str pair.1).mapM Value.asStr? = _
  induction pairs with
  | nil => rfl
  | cons pair pairs ih =>
      rw [List.map_cons, List.mapM_cons, ih]
      rfl

theorem namesOnTop?_namedEntries (callee : Value) (pairs : List (String × Value)) :
    namesOnTop? pairs.length (namedEntries callee pairs) = some (pairs.map Prod.fst) := by
  unfold namesOnTop? namedEntries
  rw [← List.cons_append, List.getLast?_concat]
  show ((nameTuple pairs).asNames?).filter _ = _
  rw [asNames?_nameTuple, Option.filter_some, if_pos]
  rw [List.length_map, beq_self_eq_true]

theorem keywordRequest_eq (callee : Value) (pairs : List (String × Value)) :
    keywordRequest pairs.length (namedEntries callee pairs)
      = .ok ⟨callee, { keywords := pairs }, pairs.length + 2⟩ := by
  have hvalues : ((pairs.map Prod.snd).map some ++ [some (nameTuple pairs)]).take pairs.length
      = (pairs.map Prod.snd).map some :=
    List.take_left' (by rw [List.length_map, List.length_map])
  have hpairs : (pairs.map Prod.fst).zip (pairs.map Prod.snd) = pairs :=
    (List.zip_of_prod rfl rfl).symm
  unfold keywordRequest
  rw [namesOnTop?_namedEntries]
  unfold namedEntries
  dsimp only
  rw [firstArgument_ok.mpr rfl]
  simp only [bind, Except.bind, hvalues, mapM_argument, hpairs]
  simp only [pure, Except.pure, List.length_cons, List.length_append, List.length_map,
    List.length_nil]

/-! ## §3. The shapes. -/

/-- Wherever a run stands before the instruction with these entries on the stack, and
with the lists and dicts of a store, it makes the call. -/
def Opcode.Makes (opcode : Opcode) (n : Nat) (s : Store) (entries : List (Option Value))
    (callee : Value) (args : Arguments) : Prop :=
  ∀ c : CallSite, c.instruction.opcode = opcode → c.instruction.arg.toNat = n → c.vm.store = s →
    c.entries = entries → c.Makes callee args

theorem makes_function (callee : Value) (args : List Value) (s : Store) :
    Opcode.callFunction.Makes args.length s (some callee :: args.map some) callee
      { positional := args } := by
  intro c hop hn hs hentries
  have hreads : c.instruction.ReadsAs c.vm.store c.entries
      ⟨callee, { positional := args }, args.length + 1⟩ := by
    unfold Instruction.ReadsAs Instruction.read
    rw [hop, hentries]
    exact VmAction.ofExcept_ok.mpr ⟨functionRequest_eq callee args, rfl⟩
  refine CallSite.makes_of_readsAs (by rw [hop]; rfl) ?_ hreads
  unfold Instruction.callSize
  rw [hentries, hop, hn, List.length_cons, List.length_map]

theorem makes_method (callee : Value) (receiver : Option Value) (args : List Value) (s : Store) :
    Opcode.callMethod.Makes args.length s (some callee :: receiver :: args.map some) callee
      { positional := receiver.toList ++ args } := by
  intro c hop hn hs hentries
  have hreads : c.instruction.ReadsAs c.vm.store c.entries
      ⟨callee, { positional := receiver.toList ++ args }, args.length + 2⟩ := by
    unfold Instruction.ReadsAs Instruction.read
    rw [hop, hentries]
    exact VmAction.ofExcept_ok.mpr ⟨methodRequest_eq callee receiver args, rfl⟩
  refine CallSite.makes_of_readsAs (by rw [hop]; rfl) ?_ hreads
  unfold Instruction.callSize
  rw [hentries, hop, hn, List.length_cons, List.length_cons, List.length_map]

theorem makes_named (callee : Value) (pairs : List (String × Value)) (s : Store) :
    Opcode.callFunctionKw.Makes pairs.length s (namedEntries callee pairs) callee
      { keywords := pairs } := by
  intro c hop hn hs hentries
  have hreads : c.instruction.ReadsAs c.vm.store c.entries
      ⟨callee, { keywords := pairs }, pairs.length + 2⟩ := by
    unfold Instruction.ReadsAs Instruction.read
    rw [hop, hn, hentries]
    exact VmAction.ofExcept_ok.mpr ⟨keywordRequest_eq callee pairs, rfl⟩
  refine CallSite.makes_of_readsAs (by rw [hop]; rfl) ?_ hreads
  unfold Instruction.callSize
  rw [hentries, hop, hn, namedEntries, List.length_cons, List.length_append, List.length_map,
    List.length_map]
  rfl

/-- A call with collected arguments gets the items of a sequence and, if the operand is
odd, the entries of a dict. -/
theorem makes_collected (callee sequence : Value) (dict : List (Option Value))
    {positional : List Value} {keywords : List (String × Value)}
    (hsequence : sequenceItems s sequence = .ok positional)
    (hkeywords : namedOnTop s dict = some keywords) {n : Nat} (hodd : n % 2 = dict.length) :
    Opcode.callFunctionEx.Makes n s (some callee :: some sequence :: dict) callee
      { positional, keywords } := by
  intro c hop hn hs hentries
  have hreads : c.instruction.ReadsAs c.vm.store c.entries
      ⟨callee, { positional, keywords }, (some callee :: some sequence :: dict).length⟩ := by
    unfold Instruction.ReadsAs Instruction.read
    rw [hop, hentries, hs]
    exact collectedRequest_ok.mpr
      ⟨rfl, callee, sequence, dict, positional, keywords, rfl, hsequence, hkeywords, rfl⟩
  refine CallSite.makes_of_readsAs (by rw [hop]; rfl) ?_ hreads
  unfold Instruction.callSize
  rw [hentries, hop, hn]
  dsimp only
  rw [hodd, List.length_cons, List.length_cons, Nat.add_comm 2]

/-! ## §4. Named arguments in another order. -/

namespace Run

variable {fn : Function} {given : Arguments}

/-- A call of a function raises the error of binding its arguments. -/
def RaisesBinding (fn : Function) (given : Arguments) : Prop :=
  ∃ fault : BindingError, fn.code.bind given = .error fault ∧
    ∀ (vm : Vm) (pending : List Pending), ∃ store serial,
      beginCall vm pending (.function fn) given = ⟨{ vm with store := store }, pending,
        .returned (.error (.exception (.exception ⟨serial, "TypeError", fault.message⟩)))⟩

/-- A call of a function enters a frame with these locals. -/
def BindsTo (fn : Function) (given : Arguments) (locals : Slots) : Prop :=
  ∀ (vm : Vm) (pending : List Pending), beginCall vm pending (.function fn) given
    = enterFrame vm pending (.ofLocals fn vm.topIndex? locals.toList)

theorem bindsTo_of_bind {locals : Slots} (h : fn.code.bind given = .ok locals) :
    BindsTo fn given locals := by
  intro vm pending
  unfold beginCall
  dsimp only
  rw [h]
  rfl

theorem raisesBinding_of_bind {fault : BindingError} (h : fn.code.bind given = .error fault) :
    RaisesBinding fn given := by
  refine ⟨fault, h, fun vm pending => ⟨(vm.store.makeException "TypeError" fault.message).2,
    vm.store.serial, ?_⟩⟩
  unfold beginCall
  dsimp only
  rw [h]
  rfl

/-- The order of named arguments does not matter to a function, but for the message. -/
theorem bind_alike (fn : Function) (positional : List Value)
    {keywords keywords' : List (String × Value)} (h : keywords.Perm keywords') :
    (∃ locals, BindsTo fn ⟨positional, keywords⟩ locals ∧ BindsTo fn ⟨positional, keywords'⟩ locals)
      ∨ (RaisesBinding fn ⟨positional, keywords⟩ ∧ RaisesBinding fn ⟨positional, keywords'⟩) := by
  cases hbind : fn.code.bind ⟨positional, keywords⟩ with
  | ok locals =>
      exact .inl ⟨locals, bindsTo_of_bind hbind, bindsTo_of_bind (Code.bind_perm h hbind)⟩
  | error fault =>
      cases hother : fn.code.bind ⟨positional, keywords'⟩ with
      | error other => exact .inr ⟨raisesBinding_of_bind hbind, raisesBinding_of_bind hother⟩
      | ok locals => cases hbind.symm.trans (Code.bind_perm h.symm hother)

end Run

/-! ## §5. All of them. -/

/-- The shapes of the call of a value with arguments by position, with one argument
before them, and with arguments by name. -/
structure CallShapesAgree (s : Store) (callee : Value) (args : List Value) (receiver : Value)
    (pairs : List (String × Value)) : Prop where
  /-- The arguments one by one … -/
  function : Opcode.callFunction.Makes args.length s (some callee :: args.map some) callee
    { positional := args }
  /-- … above an empty entry … -/
  method : Opcode.callMethod.Makes args.length s (some callee :: none :: args.map some) callee
    { positional := args }
  /-- … and collected in a tuple … -/
  tuple : Opcode.callFunctionEx.Makes 0 s [some callee, some (.tuple args)] callee
    { positional := args }
  /-- … or in a list. -/
  list : ∀ place, (s.list place).toList = args →
    Opcode.callFunctionEx.Makes 0 s [some callee, some (.list place)] callee { positional := args }
  /-- One more argument below them as a receiver … -/
  received : Opcode.callMethod.Makes args.length s (some callee :: some receiver :: args.map some)
    callee { positional := receiver :: args }
  /-- … and as an argument. -/
  first : Opcode.callFunction.Makes (args.length + 1) s
    (some callee :: some receiver :: args.map some) callee { positional := receiver :: args }
  /-- Values with their names on top … -/
  named : Opcode.callFunctionKw.Makes pairs.length s (namedEntries callee pairs) callee
    { keywords := pairs }
  /-- … and the dict that they are made into … -/
  dict : dictOf [] (pairs.flatMap fun pair => [.str pair.1, pair.2]) = .ok (Bindings.ofList pairs)
  /-- … above an empty tuple. -/
  collected : ∀ place, s.dict place = Bindings.ofList pairs →
    Opcode.callFunctionEx.Makes 1 s [some callee, some (.tuple []), some (.dict place)] callee
      { keywords := Bindings.ofList pairs }
  /-- A function takes both into the same locals or raises an error for both. -/
  bound : ∀ fn : Function,
    (∃ locals, Run.BindsTo fn { keywords := pairs } locals
        ∧ Run.BindsTo fn { keywords := Bindings.ofList pairs } locals)
      ∨ (Run.RaisesBinding fn { keywords := pairs }
        ∧ Run.RaisesBinding fn { keywords := Bindings.ofList pairs })
  /-- Whatever else is on the stack stays there if the instruction asks for no call. -/
  refused : ∀ c : CallSite, c.instruction.opcode.isCall = true →
    (∃ req : CallRequest, c.run.step = some ⟨{ c.vm with frames := c.held :: c.rest },
      .site req.slots :: c.pending, .call req.callee req.args⟩) ∨ c.Refuses

/-- **The four call instructions agree**, on every machine and whatever waits. -/
theorem call_shapes_agree (s : Store) (callee : Value) (args : List Value) (receiver : Value)
    {pairs : List (String × Value)} (hnames : (pairs.map Prod.fst).Nodup) :
    CallShapesAgree s callee args receiver pairs where
  function := makes_function callee args s
  method := makes_method callee none args s
  tuple := makes_collected callee (.tuple args) [] rfl rfl rfl
  list place hlist := makes_collected callee (.list place) [] (congrArg Except.ok hlist) rfl rfl
  received := makes_method callee (some receiver) args s
  first := makes_function callee (receiver :: args) s
  named := makes_named callee pairs s
  dict := dictOf_pairs [] pairs
  collected place hdict :=
    makes_collected callee (.tuple []) [some (.dict place)] rfl (congrArg some hdict) rfl
  bound fn := Run.bind_alike fn [] (Bindings.ofList_perm hnames).symm
  refused _ hcall := CallSite.asks_or_refuses hcall

/-- The body of `def f(a, b)`. -/
def ofTwo : Code where
  name := "f"
  qualname := "f"
  filename := ""
  firstLine := 1
  bytes := encodeAll [(.loadFast, 0), (.returnValue, 0)]
  constants := #[]
  names := #[]
  varnames := #["a", "b"]
  argCount := 2
  lines := []

/-- Two arguments by name, the second parameter first. -/
def swapped : List (String × Value) :=
  [("b", Value.int 1), ("a", Value.int 2)]

/-- A frame that is about to call it with them, over one operand. -/
def swappingFrame : Frame where
  function := ⟨1, { ofTwo with bytes := encodeAll [(.callFunctionKw, 2)], argCount := 0 }⟩
  slots := #[none, none, some (Value.int 7)] ++ namedEntries (.function ⟨0, ofTwo⟩) swapped
  parent := none
  argCount := 0

/-- A run of it. -/
def swappingSite : CallSite where
  vm := { frames := [swappingFrame] }
  pending := []
  frame := swappingFrame
  rest := []
  instruction := ⟨0, .callFunctionKw, 2⟩
  below := #[none, none, some (Value.int 7)]
  entries := namedEntries (.function ⟨0, ofTwo⟩) swapped
  frames_eq := rfl
  decodes := rfl
  slots_eq := rfl
  locals_le := by decide

/-- The frame makes the call, and the names find their parameters. -/
theorem call_shapes_agree_swapped :
    (swapped.map Prod.fst).Nodup
      ∧ CallShapesAgree {} (.function ⟨0, ofTwo⟩) [.int 1, .int 2] .none swapped
      ∧ swappingSite.Makes (.function ⟨0, ofTwo⟩) { keywords := swapped }
      ∧ Run.BindsTo ⟨0, ofTwo⟩ { keywords := swapped } #[some (.int 2), some (.int 1)] := by
  have hnames : (swapped.map Prod.fst).Nodup := by decide
  have hagree := call_shapes_agree {} (.function ⟨0, ofTwo⟩) [.int 1, .int 2] .none hnames
  exact ⟨hnames, hagree, hagree.named swappingSite rfl rfl rfl rfl, Run.bindsTo_of_bind rfl⟩

end Resumable
