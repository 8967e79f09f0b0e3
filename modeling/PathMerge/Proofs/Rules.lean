/-
  PathMerge.Proofs.Rules — every rule, one by one.

  A rule that changes the store leaves the path condition alone; what it makes of a state is told by
  `Follows`. The rule of a branch changes the conditions only. `run_yields` puts the rules together and
  `carryOut_yields` adds what comes before and after a rule: merging and simplification.
-/

import PathMerge.Proofs.Simulation

namespace PathMerge

open Context

structure Follows (r : Registry) (ctx : Context) (s : State) (stmt : Statement) (u : Unknowns) (t : State)
    (ctx' : Context) : Prop where
  valid : t.Valid ctx'
  within : t.Within r
  path : t.path = s.path
  represents : ∀ {I v m e m'}, s.Represents r ctx I v m → Grants v u e stmt → stmt.perform I e m = some m' →
    t.Represents r ctx' I v m'
  keeps : ∀ {y}, ¬ stmt.Binds r y → t.store.get? y = s.store.get? y

section Effects

variable {r : Registry} {ctx₀ ctx : Context} {s : State} {stmt : Statement} {u : Unknowns}

theorem State.Ready.assign_within (ready : s.Ready r ctx₀) {x : SymbolId} (registered : x.number < r.size)
    (h : Handle) :
    (s.assign x h).Within r := by
  intro y k bound
  have bound : (s.store.assign x h).get? y = some k := bound
  rw [Store.get?_assign] at bound
  split at bound
  · rename_i same
    exact same ▸ registered
  · exact ready.within bound

theorem State.Ready.registered (ready : s.Ready r ctx₀) (e : ctx₀.Extends ctx) {x : SymbolId} (lt : x.number < r.size) :
    x.number < ctx.symbols.size :=
  Nat.lt_of_lt_of_le lt (Nat.le_trans ready.ext.size_le e.symbols.size_le)

theorem State.assign_keeps {x : SymbolId} (binds : stmt.Binds r x) (h : Handle) {y : SymbolId}
    (unbound : ¬ stmt.Binds r y) :
    (s.assign x h).store.get? y = s.store.get? y := by
  have other : x ≠ y := fun same => unbound (same ▸ binds)
  exact (Store.get?_assign ..).trans (if_neg other)

variable (ready : s.Ready r ctx₀) (e : ctx₀.Extends ctx)

include ready e

theorem follows_set {x : String} {id : SymbolId} (target : stmt.defined? = some x) (found : r.locals.lookup x = some id)
    {f : Denotation} {h : Handle} (d : Denotes r ctx₀ s f h ctx)
    (outcome : ∀ {I effect m m'}, stmt.perform I effect m = some m' → ∃ a, f I m = some (.scalar a) ∧ m' = m.set x a) :
    Follows r ctx₀ s stmt u (s.assign id h) ctx := by
  obtain ⟨_, registered, _⟩ := ready.registry.locals found
  have lt := Registry.get?_eq_some_lt registered
  refine ⟨State.assign_valid (ready.valid.extends e) d.has (ready.registered e lt), ready.assign_within lt h, rfl, ?_,
    State.assign_keeps (.inl ⟨x, target, found⟩) h⟩
  intro I v m effect m' rep _ performed
  obtain ⟨a, value, rfl⟩ := outcome performed
  have rep' := (State.represents_extends ready.sound e ready.valid).mpr rep
  exact rep'.set ready.registry found (d.value rep _ value)

theorem follows_setHeap (changes : stmt.changesHeap = true) {f : Denotation} {h : Handle} (d : Denotes r ctx₀ s f h ctx)
    (outcome : ∀ {I effect m m'}, stmt.perform I effect m = some m' →
      ∃ heap, f I m = some (.heap heap) ∧ m' = { m with heap := heap }) :
    Follows r ctx₀ s stmt u (s.assign Registry.heap h) ctx := by
  have lt := Registry.get?_eq_some_lt ready.registry.heap
  refine ⟨State.assign_valid (ready.valid.extends e) d.has (ready.registered e lt), ready.assign_within lt h, rfl, ?_,
    State.assign_keeps (.inr (.inl ⟨changes, rfl⟩)) h⟩
  intro I v m effect m' rep _ performed
  obtain ⟨heap, value, rfl⟩ := outcome performed
  have rep' := (State.represents_extends ready.sound e ready.valid).mpr rep
  exact rep'.setHeap ready.registry (d.value rep _ value)

variable (hc : ctx.Sound)

include hc

theorem assignTo_yields (sup : stmt.Supported r) {x : String} (target : stmt.defined? = some x) {f : Denotation}
    {h : Handle} (d : Denotes r ctx₀ s f h ctx)
    (outcome : ∀ {I effect m m'}, stmt.perform I effect m = some m' → ∃ a, f I m = some (.scalar a) ∧ m' = m.set x a) :
    Yields (Rule.assignTo s x h) ctx (Follows r ctx₀ s stmt u) := by
  obtain ⟨id, found⟩ := sup.target target
  refine (ContextM.lookup_yields hc (e.symbols.locals (ready.ext.locals found))).bind ?_
  rintro _ _ _ _ ⟨rfl, rfl⟩
  exact Yields.pure hc (follows_set ready e target found d outcome)

theorem known_heap : Yields (Rule.heapOf s) ctx (Denotes r ctx₀ s fun _ m => some (.heap m.heap)) :=
  heapOf_yields ready.sound ready.valid ready.ext ready.registry hc e

theorem known_operand {a : Operand} (known : a.Known r) :
    Yields (Rule.operandValue s a) ctx (Denotes r ctx₀ s a.denoted) :=
  operandValue_yields ready.sound ready.valid ready.ext ready.registry hc e known

end Effects

section Statements

variable {r : Registry} {ctx : Context} {s : State} {u : Unknowns}
variable (ready : s.Ready r ctx)

include ready

theorem assign_yields {x : String} {value : RightSide} (sup : (Statement.assign x value).Supported r) :
    Yields (Rule.assign s x value) ctx (Follows r ctx s (.assign x value) u) := by
  refine (rightSideValue_yields ready.sound ready.valid ready.ext ready.registry
    (ready.provides (.refl ctx) (sup.operations .integers)) ready.sound (.refl ctx) sup.operands).bind
    fun h ctx₁ e₁ hc₁ d => ?_
  refine assignTo_yields ready e₁ hc₁ sup rfl d fun {I _ m m'} performed => ?_
  obtain ⟨a, value, rfl⟩ := Option.map_eq_some_iff.mp performed
  exact ⟨a, by rw [value]; rfl, rfl⟩

theorem readField_yields {x : String} {base : Operand} {field : FieldRef}
    (sup : (Statement.readField x base field).Supported r) :
    Yields (Rule.readField s x base field) ctx (Follows r ctx s (.readField x base field) u) := by
  refine (known_heap ready (.refl ctx) ready.sound).bind fun heap ctx₁ e₁ hc₁ dheap => ?_
  refine (known_operand ready e₁ hc₁ (sup.operands base (by simp [Statement.operands]))).bind
    fun o ctx₂ e₂ hc₂ dbase => ?_
  refine (ContextM.field_yields hc₂ field.id).bind fun f ctx₃ e₃ hc₃ constant => ?_
  have e₂₃ := e₂.trans e₃
  have provided := ready.provides (e₁.trans e₂₃) (sup.operations .heap)
  refine (call_denotes hc₃ (.memory .select) provided (.cons (dheap.later hc₁ e₂₃)
    (.cons (dbase.later hc₂ e₃) (.cons (.of_constant constant) .nil))) rfl).bind fun v ctx₄ e₄ hc₄ d => ?_
  refine assignTo_yields ready ((e₁.trans e₂₃).trans e₄) hc₄ sup rfl d fun performed => ?_
  cases performed
  exact ⟨_, rfl, rfl⟩

/-- The state after a field write represents the machine that has performed it. -/
theorem writeField_yields {base value : Operand} {field : FieldRef}
    (sup : (Statement.writeField base field value).Supported r) :
    Yields (Rule.writeField s base field value) ctx (Follows r ctx s (.writeField base field value) u) := by
  refine (known_heap ready (.refl ctx) ready.sound).bind fun heap ctx₁ e₁ hc₁ dheap => ?_
  refine (known_operand ready e₁ hc₁ (sup.operands base (by simp [Statement.operands]))).bind
    fun o ctx₂ e₂ hc₂ dbase => ?_
  refine (known_operand ready (e₁.trans e₂) hc₂ (sup.operands value (by simp [Statement.operands]))).bind
    fun a ctx₃ e₃ hc₃ dvalue => ?_
  refine (ContextM.field_yields hc₃ field.id).bind fun f ctx₄ e₄ hc₄ constant => ?_
  have e₃₄ := e₃.trans e₄
  have e₂₄ := e₂.trans e₃₄
  have provided := ready.provides (e₁.trans e₂₄) (sup.operations .heap)
  refine (call_denotes hc₄ (.memory .store) provided (.cons (dheap.later hc₁ e₂₄) (.cons (dbase.later hc₂ e₃₄)
    (.cons (.of_constant constant) (.cons (dvalue.later hc₃ e₄) .nil)))) rfl).bind fun v ctx₅ e₅ hc₅ d => ?_
  refine Yields.pure hc₅ (follows_setHeap ready ((e₁.trans e₂₄).trans e₅) rfl d fun performed => ?_)
  cases performed
  exact ⟨_, rfl, rfl⟩

theorem readArray_yields {x : String} {array index : Operand} (sup : (Statement.readArray x array index).Supported r) :
    Yields (Rule.readArray s x array index) ctx (Follows r ctx s (.readArray x array index) u) := by
  refine (known_heap ready (.refl ctx) ready.sound).bind fun heap ctx₁ e₁ hc₁ dheap => ?_
  refine (known_operand ready e₁ hc₁ (sup.operands array (by simp [Statement.operands]))).bind
    fun o ctx₂ e₂ hc₂ darray => ?_
  refine (known_operand ready (e₁.trans e₂) hc₂ (sup.operands index (by simp [Statement.operands]))).bind
    fun i ctx₃ e₃ hc₃ dindex => ?_
  have provided := ready.provides ((e₁.trans e₂).trans e₃) (sup.operations .heap)
  refine (call_denotes hc₃ (.memory .arr) provided (.cons dindex .nil) rfl).bind fun f ctx₄ e₄ hc₄ dslot => ?_
  have e₃₄ := e₃.trans e₄
  have e₂₄ := e₂.trans e₃₄
  refine (call_denotes hc₄ (.memory .select) (provided.extends e₄.symbols) (.cons (dheap.later hc₁ e₂₄)
    (.cons (darray.later hc₂ e₃₄) (.cons dslot .nil))) rfl).bind fun v ctx₅ e₅ hc₅ d => ?_
  refine assignTo_yields ready ((e₁.trans e₂₄).trans e₅) hc₅ sup rfl d fun performed => ?_
  cases performed
  exact ⟨_, rfl, rfl⟩

theorem writeArray_yields {array index value : Operand} (sup : (Statement.writeArray array index value).Supported r) :
    Yields (Rule.writeArray s array index value) ctx (Follows r ctx s (.writeArray array index value) u) := by
  refine (known_heap ready (.refl ctx) ready.sound).bind fun heap ctx₁ e₁ hc₁ dheap => ?_
  refine (known_operand ready e₁ hc₁ (sup.operands array (by simp [Statement.operands]))).bind
    fun o ctx₂ e₂ hc₂ darray => ?_
  refine (known_operand ready (e₁.trans e₂) hc₂ (sup.operands index (by simp [Statement.operands]))).bind
    fun i ctx₃ e₃ hc₃ dindex => ?_
  have e₁₃ := (e₁.trans e₂).trans e₃
  refine (known_operand ready e₁₃ hc₃ (sup.operands value (by simp [Statement.operands]))).bind
    fun a ctx₄ e₄ hc₄ dvalue => ?_
  have provided := ready.provides (e₁₃.trans e₄) (sup.operations .heap)
  refine (call_denotes hc₄ (.memory .arr) provided (.cons (dindex.later hc₃ e₄) .nil) rfl).bind
    fun f ctx₅ e₅ hc₅ dslot => ?_
  have e₄₅ := e₄.trans e₅
  have e₃₅ := e₃.trans e₄₅
  refine (call_denotes hc₅ (.memory .store) (provided.extends e₅.symbols) (.cons (dheap.later hc₁ (e₂.trans e₃₅))
    (.cons (darray.later hc₂ e₃₅) (.cons dslot (.cons (dvalue.later hc₄ e₅) .nil)))) rfl).bind fun v ctx₆ e₆ hc₆ d => ?_
  refine Yields.pure hc₆ (follows_setHeap ready ((e₁₃.trans e₄₅).trans e₆) rfl d fun performed => ?_)
  cases performed
  exact ⟨_, rfl, rfl⟩

theorem measureArray_yields {x : String} {array : Operand} (sup : (Statement.arrayLength x array).Supported r) :
    Yields (Rule.measureArray s x array) ctx (Follows r ctx s (.arrayLength x array) u) := by
  obtain ⟨id, found⟩ := sup.target rfl
  refine (known_operand ready (.refl ctx) ready.sound (sup.operands array (by simp [Statement.operands]))).bind
    fun o ctx₁ e₁ hc₁ darray => ?_
  refine (ContextM.lookup_yields hc₁ (e₁.symbols.locals (ready.ext.locals found))).bind ?_
  rintro _ _ _ _ ⟨rfl, rfl⟩
  have provided := ready.provides e₁ (sup.operations .heap)
  refine (call_denotes hc₁ (.memory .length) provided (.cons darray .nil) rfl).bind fun v ctx₂ e₂ hc₂ d => ?_
  refine Yields.pure hc₂ (follows_set ready (e₁.trans e₂) rfl found d fun performed => ?_)
  cases performed
  exact ⟨_, rfl, rfl⟩

/-- The state after a pure call represents the machine that has performed it. -/
theorem callPure_yields {x : String} {receiver? : Option Operand} {callee : Callee} {args : List Operand}
    (sup : (Statement.call (some x) receiver? callee args).Supported r) (pure : Purity.isPure callee.signature = true) :
    Yields (Rule.callPure s x receiver? callee args) ctx
      (Follows r ctx s (.call (some x) receiver? callee args) u) := by
  obtain ⟨f, sort, owner, named, registered, free⟩ := sup.function rfl pure
  have known : ctx.symbols.function callee.signature = .ok f := by
    unfold Registry.function
    rw [ready.ext.functions named]
  refine (ContextM.asking_yields ready.sound known).bind ?_
  rintro _ _ _ _ ⟨rfl, rfl⟩
  refine (known_heap ready (.refl ctx) ready.sound).bind fun heap ctx₁ e₁ hc₁ dheap => ?_
  refine (operandValues_yields ready.sound ready.valid ready.ext ready.registry hc₁ e₁ sup.operands).bind
    fun values ctx₂ e₂ hc₂ dvalues => ?_
  have each : List.Forall₂ (fun f h => Denotes r ctx s f h ctx₂)
      ((fun _ m => some (.heap m.heap)) :: (receiver?.toList ++ args).map Operand.denoted) (heap :: values) :=
    .cons (dheap.later hc₁ e₂) (List.forall₂_map_left_iff.mpr dvalues)
  have arity :
    1 + receiver?.toList.length + args.length = ((receiver?.toList ++ args).map Operand.denoted).length + 1 := by
    rw [List.length_map, List.length_append]
    omega
  have registered := (e₁.trans e₂).symbols.get (ready.ext.get registered)
  rw [arity] at registered
  refine (apply_denotes hc₂ registered free each).bind fun v ctx₃ e₃ hc₃ d => ?_
  refine assignTo_yields ready ((e₁.trans e₂).trans e₃) hc₃ sup rfl d fun {I effect m m'} performed => ?_
  rw [Statement.perform_pureCall pure] at performed
  obtain ⟨a, result, rfl⟩ := Option.map_eq_some_iff.mp performed
  have operands : ((receiver?.toList ++ args).map Operand.denoted).mapM (fun f : Denotation => f I m) =
      some ((receiver?.toList ++ args).map fun a => .scalar (a.value m)) := by
    rw [List.mapM_map]
    exact List.mapM_pure
  refine ⟨a, ?_, rfl⟩
  rw [List.mapM_cons, operands, ← Machine.pureResult?_eq_some.mp result]
  rfl

/-- Bind a symbol to one that was not there before. -/
theorem havoc_yields {base : String} {x : SymbolId} (registered : x.number < r.size) :
    Yields (Rule.havoc s base x) ctx fun t ctx' => t.Ready r ctx' ∧ ctx.symbols.size < ctx'.symbols.size ∧
      ∃ h, t = s.assign x h ∧ ContextM.Stands ctx' ⟨ctx.symbols.size⟩ h := by
  obtain ⟨sym, found⟩ := Registry.get?_of_lt (ready.registered (.refl ctx) registered)
  refine (ContextM.asking_yields ready.sound (symbolSort_eq found)).bind ?_
  rintro _ _ _ _ ⟨rfl, rfl⟩
  refine (ContextM.fresh_yields ready.sound base sym.sort).bind ?_
  rintro _ ctx₁ e₁ hc₁ ⟨rfl, size, _⟩
  have new : ctx.symbols.size < ctx₁.symbols.size := by omega
  refine (ContextM.symbol_yields hc₁ new).bind fun h ctx₂ e₂ hc₂ stands => Yields.pure hc₂ ?_
  have e := e₁.trans e₂
  refine ⟨⟨ready.registry, hc₂, ready.ext.trans e.symbols, ?_, ready.assign_within registered h⟩, ?_, h, rfl, stands⟩
  · exact State.assign_valid (ready.valid.extends e) stands.has (ready.registered e registered)
  · exact Nat.lt_of_lt_of_le new e₂.symbols.size_le

end Statements

/-! ## Unknowns -/

/-- The unknowns of a statement carried out when there were `n` symbols: new symbols, and after a call that is not
pure the heap and its target hold them. -/
structure Unknowns.Of (r : Registry) (n : Nat) (stmt : Statement) (u : Unknowns) (outs : List State)
    (ctx : Context) : Prop where
  heap_new : n ≤ u.heap.number
  result_new : n ≤ u.result.number
  distinct : u.heap ≠ u.result
  heap : stmt.isImpure = true → ∀ o ∈ outs, ∀ I v, o.store.eval ctx I v Registry.heap = some (v u.heap)
  result : stmt.isImpure = true → ∀ {x id}, stmt.defined? = some x → r.locals.lookup x = some id →
    ∀ o ∈ outs, ∀ I v, o.store.eval ctx I v id = some (v u.result)

def Unknowns.next (ctx : Context) : Unknowns := ⟨⟨ctx.symbols.size⟩, ⟨ctx.symbols.size + 1⟩⟩

theorem Unknowns.next_distinct (ctx : Context) : (next ctx).heap ≠ (next ctx).result := by
  intro same
  have := congrArg SymbolId.number same
  simp [next] at this

theorem Unknowns.next_of {r : Registry} {ctx ctx' : Context} {stmt : Statement} {outs : List State}
    (pure : stmt.isImpure = false) : (next ctx).Of r ctx.symbols.size stmt outs ctx' := by
  have no : ¬ stmt.isImpure = true := by simp [pure]
  exact ⟨Nat.le_refl _, Nat.le_succ _, next_distinct ctx, fun impure => absurd impure no,
    fun impure => absurd impure no⟩

section Impure

variable {r : Registry} {ctx ctx' : Context} {s : State} {n : SymbolId} {h : Handle} {receiver? : Option Operand}
  {callee : Callee} {args : List Operand}

/-- A state with a new symbol for its heap represents the machine with the heap that the symbol stands for. -/
theorem State.Ready.represents_newHeap (ready : s.Ready r ctx) (e : ctx.Extends ctx') (hc' : ctx'.Sound)
    (stands : ContextM.Stands ctx' n h) {I : Interpretation} {v : Valuation} {m : Machine} {heap : Heap}
    (rep : s.Represents r ctx I v m) (granted : v n = .heap heap) :
    (s.assign Registry.heap h).Represents r ctx' I v { m with heap := heap } := by
  refine ((State.represents_extends ready.sound e ready.valid).mpr rep).setHeap ready.registry ?_
  rw [stands.eval hc', granted]

theorem State.Ready.represents_newValue (ready : s.Ready r ctx) (e : ctx.Extends ctx') (hc' : ctx'.Sound)
    (stands : ContextM.Stands ctx' n h) {x : String} {id : SymbolId} (found : r.locals.lookup x = some id)
    {I : Interpretation} {v : Valuation} {m : Machine} {a : Scalar} (rep : s.Represents r ctx I v m)
    (granted : v n = .scalar a) : (s.assign id h).Represents r ctx' I v (m.set x a) := by
  refine ((State.represents_extends ready.sound e ready.valid).mpr rep).set ready.registry found ?_
  rw [stands.eval hc', granted]

theorem State.eval_assign_stands (hc : ctx.Sound) (stands : ContextM.Stands ctx n h) {x : SymbolId} (I : Interpretation)
    (v : Valuation) : (s.assign x h).store.eval ctx I v x = some (v n) := by
  rw [State.eval_assign, if_pos rfl]
  exact stands.eval hc I v

theorem Statement.isImpure_call (impure : Purity.isPure callee.signature = false) (target? : Option String)
    (receiver? : Option Operand) (args : List Operand) :
    (Statement.call target? receiver? callee args).isImpure = true := by
  show (!Purity.isPure callee.signature) = true
  rw [impure]
  rfl

variable (ready : s.Ready r ctx) (impure : Purity.isPure callee.signature = false)

include ready impure

/-- A call whose result is dropped: the heap is unknown after it. -/
theorem droppedCall_follows (ready' : (s.assign Registry.heap h).Ready r ctx') (e : ctx.Extends ctx')
    (stands : ContextM.Stands ctx' ⟨ctx.symbols.size⟩ h) :
    Follows r ctx s (.call none receiver? callee args) (.next ctx) (s.assign Registry.heap h) ctx' ∧
      (Unknowns.next ctx).Of r ctx.symbols.size (.call none receiver? callee args) [s.assign Registry.heap h] ctx' := by
  have isImpure := Statement.isImpure_call impure none receiver? args
  have bindsHeap : (Statement.call none receiver? callee args).Binds r Registry.heap := .inr (.inl ⟨isImpure, rfl⟩)
  refine ⟨⟨ready'.valid, ready'.within, rfl, ?_, State.assign_keeps bindsHeap h⟩,
    Nat.le_refl _, Nat.le_succ _, Unknowns.next_distinct ctx, ?_, ?_⟩
  · intro I v m effect m' rep grants performed
    rw [Statement.perform_droppedCall, impure] at performed
    cases performed
    exact ready.represents_newHeap e ready'.sound stands rep (grants isImpure).1
  · intro _ o ho
    rw [List.mem_singleton.mp ho]
    exact State.eval_assign_stands ready'.sound stands
  · intro _ x id target
    cases target

/-- A call whose result is used: the heap and the target are unknown after it. -/
theorem usedCall_follows {ctx'' : Context} {x : String} {id : SymbolId} {k : Handle}
    (found : r.locals.lookup x = some id) (ready' : (s.assign Registry.heap h).Ready r ctx') (e : ctx.Extends ctx')
    (grown : ctx.symbols.size < ctx'.symbols.size) (stands : ContextM.Stands ctx' ⟨ctx.symbols.size⟩ h)
    (ready'' : ((s.assign Registry.heap h).assign id k).Ready r ctx'') (e' : ctx'.Extends ctx'')
    (stands' : ContextM.Stands ctx'' ⟨ctx'.symbols.size⟩ k) :
    let u : Unknowns := ⟨⟨ctx.symbols.size⟩, ⟨ctx'.symbols.size⟩⟩
    Follows r ctx s (.call (some x) receiver? callee args) u ((s.assign Registry.heap h).assign id k) ctx'' ∧
      u.Of r ctx.symbols.size (.call (some x) receiver? callee args)
      [(s.assign Registry.heap h).assign id k] ctx'' := by
  have isImpure := Statement.isImpure_call impure (some x) receiver? args
  have bindsHeap : (Statement.call (some x) receiver? callee args).Binds r Registry.heap := .inr (.inl ⟨isImpure, rfl⟩)
  obtain ⟨_, _, _, _, notHeap⟩ := ready.registry.locals found
  refine ⟨⟨ready''.valid, ready''.within, rfl, ?_, fun unbound => ?_⟩, Nat.le_refl _, Nat.le_of_lt grown,
    fun same => ?_, ?_, ?_⟩
  · intro I v m effect m' rep grants performed
    rw [Statement.perform_impureCall impure] at performed
    cases performed
    obtain ⟨heap, result⟩ := grants isImpure
    exact ready'.represents_newValue e' ready''.sound stands' found
      (ready.represents_newHeap e ready'.sound stands rep heap) (result rfl)
  · rw [State.assign_keeps (.inl ⟨x, rfl, found⟩) k unbound, State.assign_keeps bindsHeap h unbound]
  · have := congrArg SymbolId.number same
    simp only at this
    omega
  · intro _ o ho I v
    rw [List.mem_singleton.mp ho, State.eval_assign, if_neg notHeap, State.eval_extends ready'.sound e' ready'.valid]
    exact State.eval_assign_stands ready'.sound stands I v
  · intro _ y j target found' o ho
    cases target
    rw [found] at found'
    cases found'
    rw [List.mem_singleton.mp ho]
    exact State.eval_assign_stands ready''.sound stands'

/-- After an impure call, unknowns stand for whatever it has left in the heap and its target. -/
theorem callImpure_yields {target? : Option String} (sup : (Statement.call target? receiver? callee args).Supported r) :
    Yields (Rule.callImpure s target?) ctx fun t ctx' =>
      ∃ u : Unknowns, Follows r ctx s (.call target? receiver? callee args) u t ctx' ∧
        u.Of r ctx.symbols.size (.call target? receiver? callee args) [t] ctx' := by
  refine (havoc_yields ready (Registry.get?_eq_some_lt ready.registry.heap)).bind ?_
  rintro _ ctx₁ e₁ hc₁ ⟨ready₁, grown₁, h, rfl, stands⟩
  cases target? with
  | none => exact Yields.pure hc₁ ⟨_, droppedCall_follows ready impure ready₁ e₁ stands⟩
  | some x =>
    obtain ⟨id, found⟩ := sup.target rfl
    obtain ⟨_, registered, _⟩ := ready.registry.locals found
    refine (ContextM.lookup_yields hc₁ (ready₁.ext.locals found)).bind ?_
    rintro _ _ _ _ ⟨rfl, rfl⟩
    refine (havoc_yields ready₁ (Registry.get?_eq_some_lt registered)).mono ?_
    rintro _ ctx₂ e₂ hc₂ ⟨ready₂, _, k, rfl, stands₂⟩
    exact ⟨_, usedCall_follows ready impure found ready₁ e₁ grown₁ stands ready₂ e₂ stands₂⟩

end Impure

/-! ## All rules together -/

def Rule.ofPureCall : (target? : Option String) → (receiver? : Option Operand) → Rule
  | some _, none => pureStaticCall
  | some _, some _ => pureVirtualCall
  | none, _ => dummy

def Statement.rule : Statement → Rule
  | assign .. => .assignment
  | readField .. => .fieldRead
  | writeField .. => .fieldWrite
  | readArray .. => .arrayRead
  | writeArray .. => .arrayWrite
  | arrayLength .. => .arrayLength
  | call target? receiver? callee _ =>
    if Purity.isPure callee.signature then .ofPureCall target? receiver? else .impureCall
  | branch .. => .branch
  | ret (some _) => .returnValue
  | ret none => .returnNothing
  | jump _ | skip => .dummy
  | raise _ | unmodelled _ => .ignored

theorem select_eq {ins : List State} (ne : ins ≠ []) (stmt : Statement) : Rule.select stmt ins = .ok stmt.rule := by
  obtain ⟨s, rest, rfl⟩ := List.exists_cons_of_ne_nil ne
  cases stmt with
  | call target? receiver? callee args =>
    unfold Rule.select Rule.accepting Statement.rule
    cases pure : Purity.isPure callee.signature <;> cases target? <;> cases receiver? <;>
      simp [Rule.all, Rule.accepts, Rule.covers, Rule.ofPureCall, pure]
  | ret value? => cases value? <;> rfl
  | _ => rfl

/-- What comes out of a statement with `edges` outgoing edges, carried out in `ctx` on the states `ins`. -/
structure Outcome (r : Registry) (ctx : Context) (stmt : Statement) (ins : List State) (edges : Nat) (u : Unknowns)
    (outs : List State) (ctx' : Context) : Prop where
  valid : ∀ o ∈ outs, o.Valid ctx'
  within : ∀ o ∈ outs, o.Within r
  length : outs.length = max edges 1
  unknowns : u.Of r ctx.symbols.size stmt outs ctx'
  transfers : Transfers r ctx' stmt ins u outs

section Run

variable {r : Registry} {ctx : Context} {s : State} (ready : s.Ready r ctx)

include ready

/-- A statement that goes on over its only edge. -/
theorem Follows.outcome {stmt : Statement} {u : Unknowns} {t : State} {ctx' : Context} (e : ctx.Extends ctx')
    (f : Follows r ctx s stmt u t ctx') (unknowns : u.Of r ctx.symbols.size stmt [t] ctx') (one : ∀ m, stmt.edge m = 0)
    (goesOn : stmt.isTerminal = false) : Outcome r ctx stmt [s] 1 u [t] ctx' := by
  have applies : ∀ {I v}, t.path.truth ctx' I v = s.path.truth ctx' I v := by
    intro I v
    rw [f.path]
  refine ⟨fun o ho => ?_, fun o ho => ?_, rfl, unknowns, fun {I v} all o ho => ?_, ?_, ?_,
    fun sole o ho _ unbound => ?_⟩
  · exact List.mem_singleton.mp ho ▸ f.valid
  · rw [List.mem_singleton.mp ho]
    exact f.within
  · rw [List.mem_singleton.mp ho]
    exact applies.trans (all s List.mem_cons_self)
  · intro I v s' m effect m' sole rep grants performed
    obtain rfl := List.mem_singleton.mp sole.mem
    have rep := (State.represents_extends ready.sound e ready.valid).mp rep
    rw [one m]
    refine ⟨t, rfl, applies.trans sole.applies, f.represents rep grants performed, fun k o' at' ne => ?_⟩
    obtain ⟨lt, _⟩ := List.getElem?_eq_some_iff.mp at'
    simp only [List.length_singleton] at lt
    omega
  · intro I v s' m _ _ terminal
    rw [goesOn] at terminal
    cases terminal
  · rw [List.mem_singleton.mp sole.mem, List.mem_singleton.mp ho]
    exact .of_eq (Store.eval_congr (f.keeps unbound).symm)

theorem Follows.outcome_next {stmt : Statement} {t : State} {ctx' : Context} (e : ctx.Extends ctx')
    (f : Follows r ctx s stmt (Unknowns.next ctx) t ctx') (pure : stmt.isImpure = false)
    (one : ∀ m, stmt.edge m = 0) (goesOn : stmt.isTerminal = false) :
    ∃ u, Outcome r ctx stmt [s] 1 u [t] ctx' :=
  ⟨_, f.outcome ready e (Unknowns.next_of pure) one goesOn⟩

/-- A statement that changes nothing. -/
theorem unchanged_follows {stmt : Statement} {u : Unknowns}
    (nothing : ∀ {I effect m m'}, stmt.perform I effect m = some m' → m' = m) : Follows r ctx s stmt u s ctx :=
  ⟨ready.valid, ready.within, rfl, fun rep _ performed => nothing performed ▸ rep, fun _ => rfl⟩

/-- A statement where the method ends. -/
theorem Outcome.of_end {stmt : Statement} {t : State} {ctx' : Context} (e : ctx.Extends ctx') (valid : t.Valid ctx')
    (within : t.Within r) (path : t.path = s.path) (pure : stmt.isImpure = false)
    (halts : ∀ I effect m, stmt.perform I effect m = none)
    (concludes : ∀ {I v m}, s.Represents r ctx I v m → t.Concludes r ctx' I v stmt m)
    (keeps : ∀ {y}, ¬ stmt.Binds r y → t.store.get? y = s.store.get? y) :
    ∃ u, Outcome r ctx stmt [s] 0 u [t] ctx' := by
  have applies : ∀ {I v}, t.path.truth ctx' I v = s.path.truth ctx' I v := by
    intro I v
    rw [path]
  refine ⟨Unknowns.next ctx, fun o ho => ?_, fun o ho => ?_, rfl, Unknowns.next_of pure,
    fun {I v} all o ho => ?_, ?_, ?_,
    fun sole o ho _ unbound => ?_⟩
  · exact List.mem_singleton.mp ho ▸ valid
  · rw [List.mem_singleton.mp ho]
    exact within
  · rw [List.mem_singleton.mp ho]
    exact applies.trans (all s List.mem_cons_self)
  · intro I v s' m effect m' _ _ _ performed
    rw [halts] at performed
    cases performed
  · intro I v s' m sole rep _
    obtain rfl := List.mem_singleton.mp sole.mem
    have rep := (State.represents_extends ready.sound e ready.valid).mp rep
    exact ⟨t, rfl, applies.trans sole.applies, concludes rep⟩
  · rw [List.mem_singleton.mp sole.mem, List.mem_singleton.mp ho]
    exact .of_eq (Store.eval_congr (keeps unbound).symm)

/-- Returning a value comes out as one state, which represents the machine with its result. -/
theorem returnWith_yields {a : Operand} (sup : (Statement.ret (some a)).Supported r) :
    Yields (Rule.returnWith s a) ctx fun t ctx' => ∃ u, Outcome r ctx (.ret (some a)) [s] 0 u [t] ctx' := by
  obtain ⟨id, result⟩ := sup.result rfl
  obtain ⟨_, registered⟩ := ready.registry.result result
  have lt := Registry.get?_eq_some_lt registered
  refine (known_operand ready (.refl ctx) ready.sound (sup.operands a (by simp [Statement.operands]))).bind
    fun h ctx₁ e₁ hc₁ d => ?_
  refine (ContextM.get_yields hc₁).bind ?_
  rintro _ _ _ _ ⟨rfl, rfl⟩
  rw [e₁.symbols.result (ready.ext.result result)]
  refine Yields.pure hc₁ (Outcome.of_end ready e₁ ?_ (ready.assign_within lt h) rfl rfl (fun _ _ _ => rfl)
    (fun {I v m} rep => ?_)
    (State.assign_keeps (.inr (.inr ⟨⟨a, rfl⟩, result⟩)) h))
  · exact State.assign_valid (ready.valid.extends e₁) d.has (ready.registered e₁ lt)
  · have rep' := (State.represents_extends ready.sound e₁ ready.valid).mpr rep
    refine ⟨?_, fun {x k} found other => ?_, fun {b} returns => ⟨id, result, ?_⟩⟩
    · rw [State.eval_assign, if_neg (ready.registry.result_ne_heap result)]
      exact rep'.heap
    · have ne : id ≠ k := fun same => other ⟨a, rfl⟩ (same ▸ result)
      rw [State.eval_assign, if_neg ne]
      exact rep'.locals found
    · cases returns
      rw [State.eval_assign, if_pos rfl]
      exact d.value rep _ rfl

omit ready in
/-- The states for the two edges of a branch. -/
theorem mem_sides {g : Handle} {o : State} (ho : o ∈ [s.constrainNegated g, s.constrain g]) :
    o = s.constrain (-g) ∨ o = s.constrain g := by
  rcases List.mem_cons.mp ho with rfl | ho
  · exact .inl rfl
  · exact .inr (List.mem_singleton.mp ho)

omit ready in
/-- Of the two, the one that the value of the condition selects applies still, and the other is refuted. -/
theorem sides_of_holds (hc : ctx.Sound) (valid : s.Valid ctx) {g : Handle} (has : ctx.Has g) {I : Interpretation}
    {v : Valuation} {b : Bool} (guard : ctx.holds I v g = some b) (applies : s.Applies ctx I v) :
    ∃ o, [s.constrainNegated g, s.constrain g][if b then 1 else 0]? = some o ∧ o.Applies ctx I v ∧ o.store = s.store ∧
      ∀ k o', [s.constrainNegated g, s.constrain g][k]? = some o' → k ≠ (if b then 1 else 0) → o'.Refuted ctx I v := by
  have negated : ctx.holds I v (-g) = some (!b) := by
    refine (Pool.holds_neg hc.pool has).trans ?_
    unfold Context.holds at guard
    rw [guard]
    rfl
  cases b with
  | true =>
    refine ⟨s.constrain g, rfl, PathCondition.add_true hc valid.path has applies guard, rfl, ?_⟩
    intro k o' at' ne
    match k, at', ne with
    | 0, at', _ =>
      cases at'
      exact PathCondition.add_false hc (.inr negated)
    | k + 2, at', _ => cases at'
  | false =>
    have hasNeg : ctx.Has (-g) := Pool.has_neg.mpr has
    refine ⟨s.constrainNegated g, rfl, PathCondition.add_true hc valid.path hasNeg applies negated, rfl, ?_⟩
    intro k o' at' ne
    match k, at', ne with
    | 1, at', _ =>
      cases at'
      exact PathCondition.add_false hc (.inr guard)
    | k + 2, at', _ => cases at'

/-- A branch comes out as two states, one for each value of its condition. -/
theorem branch_yields {cond : Condition} {goal : Nat} (sup : (Statement.branch cond goal).Supported r) :
    Yields (Rule.branch.run (.branch cond goal) 2 s) ctx fun outs ctx' =>
      ∃ u, Outcome r ctx (.branch cond goal) [s] 2 u outs ctx' := by
  refine (conditionValue_yields ready.sound ready.valid ready.ext ready.registry
    (ready.provides (.refl ctx) (sup.operations .integers)) ready.sound (.refl ctx)
    (sup.operands cond.lhs (by simp [Statement.operands])) (sup.operands cond.rhs (by simp [Statement.operands]))).bind
    fun g ctx₁ e₁ hc₁ d => Yields.pure hc₁ ⟨Unknowns.next ctx, ?_⟩
  have valid := ready.valid.extends e₁
  refine ⟨fun o ho => ?_, fun o ho => ?_, rfl, Unknowns.next_of rfl, fun {I v} all o ho => ?_, ?_, ?_,
    fun sole o ho y _ => ?_⟩
  · rcases mem_sides ho with rfl | rfl
    · exact State.constrain_valid hc₁ valid (Pool.has_neg.mpr d.has)
    · exact State.constrain_valid hc₁ valid d.has
  · rcases mem_sides ho with rfl | rfl <;> exact ready.within
  · have no : s.path.truth ctx₁ I v = some false := all s List.mem_cons_self
    rcases mem_sides ho with rfl | rfl <;> exact PathCondition.add_false hc₁ (.inl no)
  · intro I v s' m effect m' sole rep _ performed
    obtain rfl := (List.mem_singleton.mp sole.mem).symm
    have rep₀ := (State.represents_extends ready.sound e₁ ready.valid).mp rep
    obtain ⟨b, value, rfl⟩ := Option.map_eq_some_iff.mp performed
    have guard : ctx₁.holds I v g = some b := holds_eq_some.mpr (d.value rep₀ (.bool b) (by rw [value]; rfl))
    rw [Statement.edge_branch value]
    obtain ⟨o, side, applies, store, others⟩ := sides_of_holds hc₁ valid d.has guard sole.applies
    exact ⟨o, side, applies, ⟨store ▸ rep.heap, store ▸ rep.locals⟩, others⟩
  · intro I v s' m _ _ terminal
    cases terminal
  · rw [List.mem_singleton.mp sole.mem]
    rcases mem_sides ho with rfl | rfl <;> exact Below.refl _

/-- A rule that makes one state, of a statement that goes on. -/
theorem goesOn_yields {stmt : Statement} {x : ContextM State}
    (follows : Yields x ctx (Follows r ctx s stmt (.next ctx))) (pure : stmt.isImpure = false)
    (one : ∀ m, stmt.edge m = 0) (goesOn : stmt.isTerminal = false) :
    Yields (Rule.replicate 1 <$> x) ctx fun outs ctx' => ∃ u, Outcome r ctx stmt [s] 1 u outs ctx' :=
  Yields.map (follows.mono fun _ _ e _ f => f.outcome_next ready e pure one goesOn)

theorem unchanged_yields {stmt : Statement} (nothing : ∀ {I effect m m'}, stmt.perform I effect m = some m' → m' = m)
    (pure : stmt.isImpure = false) (one : ∀ m, stmt.edge m = 0) (goesOn : stmt.isTerminal = false) :
    Yields (return [s]) ctx fun outs ctx' => ∃ u, Outcome r ctx stmt [s] 1 u outs ctx' :=
  Yields.pure ready.sound ((unchanged_follows ready nothing).outcome_next ready (.refl ctx) pure one goesOn)

/-- A method that ends without a result. -/
theorem end_yields {stmt : Statement} (pure : stmt.isImpure = false)
    (halts : ∀ I effect m, stmt.perform I effect m = none) (nothing : ∀ a, stmt ≠ .ret (some a)) :
    Yields (return [s]) ctx fun outs ctx' => ∃ u, Outcome r ctx stmt [s] 0 u outs ctx' :=
  Yields.pure ready.sound (Outcome.of_end ready (.refl ctx) ready.valid ready.within rfl pure halts
    (fun rep => rep.concludes nothing) fun _ => rfl)

/-- Whichever rule carries out a call, what comes out represents the machine that has performed it. -/
theorem runCall_yields {target? : Option String} {receiver? : Option Operand} {callee : Callee} {args : List Operand}
    (sup : (Statement.call target? receiver? callee args).Supported r) :
    Yields ((Statement.call target? receiver? callee args).rule.run (.call target? receiver? callee args) 1 s) ctx
      fun outs ctx' => ∃ u, Outcome r ctx (.call target? receiver? callee args) [s] 1 u outs ctx' := by
  cases pure : Purity.isPure callee.signature with
  | false =>
    have rule : (Statement.call target? receiver? callee args).rule = .impureCall := if_neg (by simp [pure])
    rw [rule]
    refine Yields.map ((callImpure_yields ready pure sup).mono ?_)
    rintro t ctx' e _ ⟨u, f, unknowns⟩
    exact ⟨u, f.outcome ready e unknowns (fun _ => rfl) rfl⟩
  | true =>
    have isPure : (Statement.call target? receiver? callee args).isImpure = false := by
      show (!Purity.isPure callee.signature) = false
      rw [pure]
      rfl
    have rule : (Statement.call target? receiver? callee args).rule = .ofPureCall target? receiver? := if_pos pure
    rw [rule]
    cases target? with
    | none =>
      refine unchanged_yields ready (fun {I effect m m'} performed => ?_) isPure (fun _ => rfl) rfl
      rw [Statement.perform_droppedCall, pure] at performed
      exact (Option.some.inj performed).symm
    | some x =>
      have called := goesOn_yields ready (callPure_yields ready sup pure) isPure (fun _ => rfl) rfl
      cases receiver? with
      | none => exact called
      | some receiver => exact called

/-- Whatever the statement, its rule does what it does. -/
theorem run_yields {stmt : Statement} (sup : stmt.Supported r) (i : Nat) :
    Yields (stmt.rule.run stmt (stmt.successors i).length s) ctx fun outs ctx' =>
      ∃ u, Outcome r ctx stmt [s] (stmt.successors i).length u outs ctx' := by
  cases stmt with
  | assign x value => exact goesOn_yields ready (assign_yields ready sup) rfl (fun _ => rfl) rfl
  | readField x base field => exact goesOn_yields ready (readField_yields ready sup) rfl (fun _ => rfl) rfl
  | writeField base field value => exact goesOn_yields ready (writeField_yields ready sup) rfl (fun _ => rfl) rfl
  | readArray x array index => exact goesOn_yields ready (readArray_yields ready sup) rfl (fun _ => rfl) rfl
  | writeArray array index value => exact goesOn_yields ready (writeArray_yields ready sup) rfl (fun _ => rfl) rfl
  | arrayLength x array => exact goesOn_yields ready (measureArray_yields ready sup) rfl (fun _ => rfl) rfl
  | call target? receiver? callee args => exact runCall_yields ready sup
  | branch cond goal => exact branch_yields ready sup
  | jump goal | skip | unmodelled text =>
    exact unchanged_yields ready (fun performed => (Option.some.inj performed).symm) rfl (fun _ => rfl) rfl
  | ret value? =>
    cases value? with
    | some a => exact (returnWith_yields ready sup).bind fun _ _ _ hc out => Yields.pure hc out
    | none => exact end_yields ready rfl (fun _ _ _ => rfl) nofun
  | raise value => exact end_yields ready rfl (fun _ _ _ => rfl) nofun

end Run

/-! ## Carrying out a statement -/

theorem simplifyAll_yields {ctx : Context} {outs : List State} (hc : ctx.Sound) (valid : ∀ o ∈ outs, o.Valid ctx) :
    Yields (outs.mapM State.simplify) ctx fun outs' ctx' =>
      List.Forall₂ (fun o o' => State.Refined ctx o o' ctx') outs outs' := by
  refine Yields.mapM (P := fun o o' c => State.Refined ctx o o' c) outs ?_ hc fun o ho ctx₁ e₁ hc₁ => ?_
  · exact fun o o' ctx₁ ctx₂ _ hc₁ e₂ _ refined => refined.later hc₁ e₂
  · exact (State.simplify_yields hc₁ ((valid o ho).extends e₁)).mono fun _ _ _ _ refined =>
      refined.earlier hc e₁ (valid o ho)

theorem Unknowns.Of.refine_outs {r : Registry} {n : Nat} {ctx₁ ctx₂ : Context} {stmt : Statement} {u : Unknowns}
    {outs outs' : List State} (refined : List.Forall₂ (fun o o' => State.Refined ctx₁ o o' ctx₂) outs outs')
    (h : u.Of r n stmt outs ctx₁) : u.Of r n stmt outs' ctx₂ := by
  refine ⟨h.heap_new, h.result_new, h.distinct, ?_, ?_⟩
  · intro impure o' ho' I v
    obtain ⟨o, ho, ref⟩ := Related.exists_left refined ho'
    exact ref.store I v _ _ (h.heap impure o ho I v)
  · intro impure x id target found o' ho' I v
    obtain ⟨o, ho, ref⟩ := Related.exists_left refined ho'
    exact ref.store I v _ _ (h.result impure target found o ho I v)

/-- The states are merged and the statement is carried out. -/
theorem apply_yields {r : Registry} {ctx : Context} {stmt : Statement} {ins : List State} (sup : stmt.Supported r)
    (i : Nat) (ne : ins ≠ []) (hr : r.Sound) (hc : ctx.Sound) (ext : r.Extends ctx.symbols)
    (valid : ∀ s ∈ ins, s.Valid ctx) (within : ∀ s ∈ ins, s.Within r) :
    Yields (stmt.rule.apply stmt ins (stmt.successors i).length) ctx fun outs ctx' =>
      ∃ u, Outcome r ctx stmt ins (stmt.successors i).length u outs ctx' := by
  unfold Rule.apply
  refine (State.merge_yields hc ne valid).bind fun s ctx₁ e₁ hc₁ merges => ?_
  have ready : s.Ready r ctx₁ := ⟨hr, hc₁, ext.trans e₁.symbols, merges.valid, merges.within within⟩
  refine (run_yields ready sup i).mono ?_
  rintro outs ctx₂ e₂ hc₂ ⟨u, out⟩
  refine ⟨u, out.valid, out.within, out.length, ?_, ?_⟩
  · exact ⟨Nat.le_trans e₁.symbols.size_le out.unknowns.heap_new,
      Nat.le_trans e₁.symbols.size_le out.unknowns.result_new, out.unknowns.distinct, out.unknowns.heap,
      out.unknowns.result⟩
  · exact out.transfers.of_merged hc (e₁.trans e₂) valid hc₁ e₂ merges

/-- Carrying out a statement returns, and what it returns follows from the states it is carried out on. -/
theorem carryOut_yields {lay : Layout} {i : Nat} {r : Registry} {ctx : Context} {stmt : Statement} {ins : List State}
    (here : lay.body[i]? = some stmt) (edges : lay.flow.succs i = stmt.successors i) (sup : stmt.Supported r)
    (ne : ins ≠ []) (hr : r.Sound) (hc : ctx.Sound) (ext : r.Extends ctx.symbols) (valid : ∀ s ∈ ins, s.Valid ctx)
    (within : ∀ s ∈ ins, s.Within r) :
    Yields (Walk.carryOut lay i ins) ctx fun outs ctx' =>
      ∃ u, Outcome r ctx stmt ins (lay.flow.succs i).length u outs ctx' := by
  have statement : lay.statement i = .ok stmt := Layout.statement_eq_ok.mpr here
  unfold Walk.carryOut
  rw [edges]
  refine (ContextM.ofExcept_yields hc statement).bind ?_
  rintro _ _ _ _ ⟨rfl, rfl⟩
  refine (ContextM.ofExcept_yields hc (select_eq ne stmt)).bind ?_
  rintro _ _ _ _ ⟨rfl, rfl⟩
  refine (apply_yields sup i ne hr hc ext valid within).bind ?_
  rintro outs ctx₁ e₁ hc₁ ⟨u, out⟩
  refine (simplifyAll_yields hc₁ out.valid).mono fun outs' ctx₂ e₂ hc₂ refined => ⟨u, ?_, ?_, ?_, ?_, ?_⟩
  · intro o' ho'
    obtain ⟨_, _, ref⟩ := Related.exists_left refined ho'
    exact ref.valid
  · intro o' ho' x h bound
    obtain ⟨o, ho, ref⟩ := Related.exists_left refined ho'
    obtain ⟨k, bound⟩ := ref.bound bound
    exact out.within o ho bound
  · rw [← refined.length_eq]
    exact out.length
  · exact out.unknowns.refine_outs refined
  · exact out.transfers.refine_outs hc₁ e₂ (fun s hs => (valid s hs).extends e₁) refined

end PathMerge
