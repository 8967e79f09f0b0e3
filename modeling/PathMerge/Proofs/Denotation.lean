/-
  PathMerge.Proofs.Denotation — the terms of operands, right sides and conditions.

  A state represents a machine if its store gives the heap and every variable the values they have there
  (`State.Represents`). The variables are those of the registry `r` that execution starts with; what is
  registered later hides none of them. A term built for an expression of the program has, in every
  machine the state represents, the value of the expression if that has one (`Denotes`).
-/

import PathMerge.Rule
import PathMerge.Proofs.Machine
import PathMerge.Proofs.Merge

namespace PathMerge

open Context

/-! ## Representing a machine -/

structure State.Represents (r : Registry) (ctx : Context) (I : Interpretation) (v : Valuation) (s : State)
    (m : Machine) : Prop where
  heap : s.store.eval ctx I v Registry.heap = some (.heap m.heap)
  locals : ∀ {x id}, r.locals.lookup x = some id → s.store.eval ctx I v id = some (.scalar (m.locals x))

namespace State

variable {r : Registry} {ctx ctx' : Context} {I : Interpretation} {v : Valuation} {s t : State} {m : Machine}

/-- A state with the same values, or more of them, represents the same machine. -/
theorem Represents.mono (rep : s.Represents r ctx I v m)
    (below : ∀ x, Below (s.store.eval ctx I v x) (t.store.eval ctx' I v x)) : t.Represents r ctx' I v m :=
  ⟨below _ _ rep.heap, fun found => below _ _ (rep.locals found)⟩

theorem represents_extends (hc : ctx.Sound) (e : ctx.Extends ctx') (valid : s.Valid ctx) :
    s.Represents r ctx' I v m ↔ s.Represents r ctx I v m :=
  ⟨fun rep => rep.mono fun x => .of_eq (eval_extends hc e valid x),
    fun rep => rep.mono fun x => .of_eq (eval_extends hc e valid x).symm⟩

def valuationOf (r : Registry) (m : Machine) : Valuation := fun y =>
  if y = Registry.heap then .heap m.heap else .scalar (m.locals ((r.get? y).elim "" (·.name)))

/-- Every machine is represented at the start. -/
theorem initial_represents (hr : r.Sound) (ctx : Context) (I : Interpretation) (m : Machine) :
    State.initial.Represents r ctx I (valuationOf r m) m := by
  refine ⟨rfl, fun {x id} found => ?_⟩
  obtain ⟨s, got, rfl, _, notHeap⟩ := hr.locals found
  show some (valuationOf r m id) = _
  unfold valuationOf
  rw [if_neg notHeap, got]
  rfl

theorem eval_assign (x : SymbolId) (h : Handle) (y : SymbolId) :
    (s.assign x h).store.eval ctx I v y = if x = y then ctx.eval I v h else s.store.eval ctx I v y := by
  show (s.store.assign x h).eval ctx I v y = _
  unfold Store.eval
  rw [Store.get?_assign]
  by_cases same : x = y
  · rw [if_pos same, if_pos same]
  · rw [if_neg same, if_neg same]

/-- Giving a variable another value. -/
theorem Represents.set (hr : r.Sound) (rep : s.Represents r ctx I v m) {x : String} {id : SymbolId} {h : Handle}
    {a : Scalar} (found : r.locals.lookup x = some id) (value : ctx.eval I v h = some (.scalar a)) :
    (s.assign id h).Represents r ctx I v (m.set x a) := by
  obtain ⟨_, _, _, _, notHeap⟩ := hr.locals found
  refine ⟨?_, fun {y k} found' => ?_⟩
  · rw [eval_assign, if_neg notHeap]
    exact rep.heap
  · rw [eval_assign]
    by_cases same : id = k
    · subst same
      rw [if_pos rfl, value, hr.local_injective found' found]
      simp [Machine.set]
    · have other : y ≠ x := by
        rintro rfl
        rw [found] at found'
        exact same (Option.some.inj found')
      rw [if_neg same, rep.locals found']
      simp [Machine.set, other]

theorem Represents.setHeap (hr : r.Sound) (rep : s.Represents r ctx I v m) {h : Handle} {heap : Heap}
    (value : ctx.eval I v h = some (.heap heap)) :
    (s.assign Registry.heap h).Represents r ctx I v { m with heap := heap } := by
  refine ⟨?_, fun {y k} found => ?_⟩
  · rw [eval_assign, if_pos rfl, value]
  · obtain ⟨_, _, _, _, notHeap⟩ := hr.locals found
    rw [eval_assign, if_neg (Ne.symm notHeap)]
    exact rep.locals found

theorem assign_valid (valid : s.Valid ctx) {x : SymbolId} {h : Handle} (has : ctx.Has h)
    (registered : x.number < ctx.symbols.size) : (s.assign x h).Valid ctx := by
  refine ⟨valid.path, fun {y k} bound => ?_⟩
  have bound : (s.store.assign x h).get? y = some k := bound
  rw [Store.get?_assign] at bound
  split at bound
  · rename_i same
    cases bound
    exact ⟨has, same ▸ registered⟩
  · exact valid.store bound

theorem constrain_valid (hc : ctx.Sound) (valid : s.Valid ctx) {h : Handle} (has : ctx.Has h) :
    (s.constrain h).Valid ctx :=
  ⟨PathCondition.add_valid hc valid.path has, valid.store⟩

theorem value_yields (hc : ctx.Sound) (valid : s.Valid ctx) {x : SymbolId} (registered : x.number < ctx.symbols.size) :
    Yields (s.value x) ctx fun h ctx' => ValueOf ctx x s h ctx' := by
  have same : s.value x = valueIn x s.store.flatten := by
    have found := Store.find?_flatten s.store x
    unfold State.value Store.value valueIn
    cases bound : s.store.get? x <;> simp only [found, bound]
  rw [same]
  exact valueIn_yields hc valid registered

end State

/-! ## Terms for expressions -/

abbrev Denotation := Interpretation → Machine → Option Value

def Operation.denoted (op : Operation) (fs : List Denotation) : Denotation :=
  fun I m => (fs.mapM fun f : Denotation => f I m).bind (op.apply I)

/-- In every machine that the state represents, `h` has the value `f` gives, if that is one. -/
structure Denotes (r : Registry) (ctx : Context) (s : State) (f : Denotation) (h : Handle)
    (ctx' : Context) : Prop where
  has : ctx'.Has h
  value : ∀ {I v m}, s.Represents r ctx I v m → Below (f I m) (ctx'.eval I v h)

namespace Denotes

variable {r : Registry} {ctx₀ ctx ctx' : Context} {s : State} {f g : Denotation} {h : Handle}

theorem later (hc : ctx.Sound) (e : ctx.Extends ctx') (d : Denotes r ctx₀ s f h ctx) : Denotes r ctx₀ s f h ctx' := by
  refine ⟨e.has d.has, fun {I v m} rep => ?_⟩
  rw [eval_extends hc e d.has]
  exact d.value rep

theorem weaken (below : ∀ I m, Below (g I m) (f I m)) (d : Denotes r ctx₀ s f h ctx) : Denotes r ctx₀ s g h ctx :=
  ⟨d.has, fun rep => (below _ _).trans (d.value rep)⟩

theorem of_constant {x : Value} (c : ContextM.Constant x h ctx) : Denotes r ctx₀ s (fun _ _ => some x) h ctx :=
  ⟨c.has, fun {I v _} _ => .of_eq (c.eval I v).symm⟩

end Denotes

def Operand.denoted (a : Operand) : Denotation := fun _ m => some (.scalar (a.value m))

def Operand.Known (r : Registry) (a : Operand) : Prop := ∀ x, a.var? = some x → ∃ id, r.locals.lookup x = some id

theorem Scalar.same?_value (a b : Scalar) :
    Value.same? (.scalar a) (.scalar b) = (a.same? b).map Value.bool := by
  have kinds : ∀ c : Scalar, (Value.scalar c).isBool = c.isBool := fun c => by cases c <;> rfl
  unfold Value.same? Scalar.same?
  rw [kinds, kinds]
  by_cases kind : a.isBool = b.isBool
  · rw [if_pos kind, if_pos kind]
    simp
  · rw [if_neg kind, if_neg kind]
    rfl

def BinaryOp.function : BinaryOp → IntFunction
  | add => .plus
  | sub => .minus
  | mul => .mul
  | div => .div
  | rem => .rem

theorem BinaryOp.value_below (I : Interpretation) (op : BinaryOp) (a b : Scalar) :
    Below ((op.value I a b).map .scalar) (op.function.apply I [.scalar a, .scalar b]) := by
  cases op <;> cases a <;> cases b <;> exact Below.refl _

section Terms

variable {r : Registry} {ctx₀ ctx : Context} {s : State}
variable (hc₀ : ctx₀.Sound) (valid : s.Valid ctx₀) (ext : r.Extends ctx₀.symbols)

include hc₀ valid ext

theorem symbolValue_yields (hc : ctx.Sound) (e : ctx₀.Extends ctx) {x : SymbolId} (registered : x.number < r.size)
    {f : Denotation}
    (value : ∀ {I v m}, s.Represents r ctx₀ I v m → s.store.eval ctx₀ I v x = f I m) :
    Yields (s.value x) ctx (Denotes r ctx₀ s f) := by
  have registered : x.number < ctx.symbols.size :=
    Nat.lt_of_lt_of_le registered (Nat.le_trans ext.size_le e.symbols.size_le)
  refine (State.value_yields hc (valid.extends e) registered).mono fun h ctx' _ _ val => ⟨val.1, fun {I v m} rep => ?_⟩
  rw [val.2, State.eval_extends hc₀ e valid, value rep]
  exact Below.refl _

theorem heapOf_yields (hr : r.Sound) (hc : ctx.Sound) (e : ctx₀.Extends ctx) :
    Yields (Rule.heapOf s) ctx (Denotes r ctx₀ s fun _ m => some (.heap m.heap)) :=
  symbolValue_yields hc₀ valid ext hc e (Registry.get?_eq_some_lt hr.heap) fun rep => rep.heap

/-- The handle built for an operand denotes what the operand evaluates to on the machine. -/
theorem operandValue_yields (hr : r.Sound) (hc : ctx.Sound) (e : ctx₀.Extends ctx) {a : Operand} (known : a.Known r) :
    Yields (Rule.operandValue s a) ctx (Denotes r ctx₀ s a.denoted) := by
  cases a with
  | var x =>
    obtain ⟨id, found⟩ := known x rfl
    obtain ⟨_, registered, _⟩ := hr.locals found
    refine (ContextM.lookup_yields hc (e.symbols.locals (ext.locals found))).bind ?_
    rintro _ _ _ _ ⟨rfl, rfl⟩
    exact symbolValue_yields hc₀ valid ext hc e (Registry.get?_eq_some_lt registered) fun rep => rep.locals found
  | int n => exact (ContextM.integer_yields hc n).mono fun _ _ _ _ c => .of_constant c
  | bool b =>
    refine Yields.pure hc ⟨?_, fun {I v m} _ => .of_eq ?_⟩
    · cases b
      · exact Pool.has_neg.mpr hc.pool.has_tt
      · exact hc.pool.has_tt
    · cases b
      · exact (holds_eq_some.mp (Pool.holds_ff hc.pool)).symm
      · exact (holds_eq_some.mp (Pool.holds_tt hc.pool)).symm
  | null => exact (ContextM.null_yields hc).mono fun _ _ _ _ c => .of_constant c

omit valid ext hc₀ in
theorem call_denotes (hc : ctx.Sound) (op : Operation) (provided : ctx.symbols.Provides op.theory) {args : List Handle}
    {fs : List Denotation} (each : List.Forall₂ (fun f h => Denotes r ctx₀ s f h ctx) fs args)
    (arity : fs.length = op.decl.arity) :
    Yields (ContextM.call op.decl.name args) ctx (Denotes r ctx₀ s (op.denoted fs)) := by
  have has : ∀ a ∈ args, ctx.Has a := by
    intro a ha
    obtain ⟨_, _, d⟩ := Related.exists_left each ha
    exact d.has
  refine (ContextM.call_yields hc op provided args (each.length_eq ▸ arity) has).mono fun h ctx' e hc' app =>
    ⟨app.has, ?_⟩
  intro I v m rep
  rw [app.eval hc', applied_extends hc e has]
  exact (Below.mapM (each.imp fun {_ _} d => d.value rep)).bind fun _ _ => Below.refl _

omit valid ext hc₀ in
/-- A function that no law is about, applied. -/
theorem apply_denotes (hc : ctx.Sound) {f : SymbolId} {name : String} {sort : ValueSort} {owner : String}
    {args : List Handle} {fs : List Denotation}
    (registered : ctx.symbols.get? f = some ⟨name, sort, .function fs.length owner⟩)
    (free : operationOf? owner name = none) (each : List.Forall₂ (fun f h => Denotes r ctx₀ s f h ctx) fs args) :
    Yields (ContextM.apply f args) ctx
      (Denotes r ctx₀ s fun I m => (fs.mapM fun f : Denotation => f I m).map (I.function name)) := by
  have has : ∀ a ∈ args, ctx.Has a := by
    intro a ha
    obtain ⟨_, _, d⟩ := Related.exists_left each ha
    exact d.has
  refine (ContextM.apply_yields hc registered (by rw [each.length_eq]) has).mono ?_
  rintro h ctx' e hc' ⟨sign, symbols, node⟩
  refine ⟨Pool.has_of_node node, fun {I v m} rep => ?_⟩
  rw [ContextM.eval_app hc' (e.symbols.get registered) node sign]
  unfold ContextM.appliedSymbol
  rw [mapM_eval_extends hc e has, Option.map_eq_bind]
  refine (Below.mapM (each.imp fun {_ _} d => d.value rep)).bind fun xs _ => .of_eq ?_
  unfold Symbol.apply
  dsimp only
  rw [free]
  rfl

omit valid ext hc₀ in
theorem binaryValue_yields (hc : ctx.Sound) (provided : ctx.symbols.Provides .integers) (op : BinaryOp)
    {f g : Denotation} {a b : Handle} (ha : Denotes r ctx₀ s f a ctx) (hb : Denotes r ctx₀ s g b ctx) :
    Yields (Rule.binaryValue op a b) ctx (Denotes r ctx₀ s ((Operation.integer op.function).denoted [f, g])) := by
  have same : Rule.binaryValue op a b = ContextM.call op.function.decl.name [a, b] := by
    cases op <;> rfl
  rw [same]
  refine call_denotes hc (.integer op.function) provided (.cons ha (.cons hb .nil)) ?_
  cases op <;> rfl

omit valid ext hc₀ in
/-- A comparison of two handles denotes the comparison of the integers they denote. -/
theorem comparisonValue_yields (hc : ctx.Sound) (provided : ctx.symbols.Provides .integers) (op : Comparison)
    {f g : Interpretation → Machine → Scalar}
    {a b : Handle} (ha : Denotes r ctx₀ s (fun I m => some (.scalar (f I m))) a ctx)
    (hb : Denotes r ctx₀ s (fun I m => some (.scalar (g I m))) b ctx) :
    Yields (Rule.comparisonValue op a b) ctx
      (Denotes r ctx₀ s fun I m => (op.value (f I m) (g I m)).map .bool) := by
  have equation : Yields (ContextM.equation a b) ctx
      (Denotes r ctx₀ s fun I m => ((f I m).same? (g I m)).map .bool) := by
    refine (ContextM.equation_yields hc ha.has hb.has).mono fun h ctx' _ _ eq => ⟨eq.has, fun {I v m} rep => ?_⟩
    refine Below.trans (.of_eq ?_) (eq.value I v)
    have ea : ctx.pool.eval (ctx.meaning I v) a = _ := ha.value rep _ rfl
    have eb : ctx.pool.eval (ctx.meaning I v) b = _ := hb.value rep _ rfl
    unfold Pool.same
    rw [ea, eb]
    exact (Scalar.same?_value _ _).symm
  have order : ∀ (k : IntFunction) {f g : Denotation} {a b : Handle},
      k.decl.arity = 2 → Denotes r ctx₀ s f a ctx → Denotes r ctx₀ s g b ctx →
      Yields (ContextM.arithmetic k [a, b]) ctx (Denotes r ctx₀ s ((Operation.integer k).denoted [f, g])) :=
    fun k _ _ _ _ arity ha hb => call_denotes hc (.integer k) provided (.cons ha (.cons hb .nil)) arity.symm
  cases op with
  | eq => exact equation
  | ne =>
    refine Yields.map (equation.mono fun h ctx' _ hc' d => ⟨Pool.has_neg.mpr d.has, fun {I v m} rep x hx => ?_⟩)
    obtain ⟨b, hb, rfl⟩ := Option.map_eq_some_iff.mp hx
    obtain ⟨c, hc, rfl⟩ := Option.map_eq_some_iff.mp hb
    refine holds_eq_some.mp ((Pool.holds_neg hc'.pool d.has).trans ?_)
    have holds := holds_eq_some.mpr (d.value rep (.bool c) (by rw [hc]; rfl))
    unfold Context.holds at holds
    rw [holds]
    rfl
  | lt =>
    refine (order .lt rfl ha hb).mono fun _ _ _ _ d => d.weaken fun I m => ?_
    show Below _ (IntFunction.lt.apply I [.scalar (f I m), .scalar (g I m)])
    cases f I m <;> cases g I m <;> exact Below.refl _
  | le =>
    refine (order .le rfl ha hb).mono fun _ _ _ _ d => d.weaken fun I m => ?_
    show Below _ (IntFunction.le.apply I [.scalar (f I m), .scalar (g I m)])
    cases f I m <;> cases g I m <;> exact Below.refl _
  | gt =>
    refine (order .lt rfl hb ha).mono fun _ _ _ _ d => d.weaken fun I m => ?_
    show Below _ (IntFunction.lt.apply I [.scalar (g I m), .scalar (f I m)])
    cases f I m <;> cases g I m <;> exact Below.refl _
  | ge =>
    refine (order .le rfl hb ha).mono fun _ _ _ _ d => d.weaken fun I m => ?_
    show Below _ (IntFunction.le.apply I [.scalar (g I m), .scalar (f I m)])
    cases f I m <;> cases g I m <;> exact Below.refl _

/-- The handle built for a right-hand side denotes what it evaluates to on the machine. -/
theorem rightSideValue_yields (hr : r.Sound) (provided : ctx₀.symbols.Provides .integers) (hc : ctx.Sound)
    (e : ctx₀.Extends ctx) {value : RightSide}
    (known : ∀ a ∈ value.operands, a.Known r) :
    Yields (Rule.rightSideValue s value) ctx
      (Denotes r ctx₀ s fun I m => (value.value I m).map .scalar) := by
  have operand : ∀ a ∈ value.operands, ∀ {ctx : Context}, ctx.Sound → ctx₀.Extends ctx →
      Yields (Rule.operandValue s a) ctx (Denotes r ctx₀ s a.denoted) :=
    fun a ha _ hc e => operandValue_yields hc₀ valid ext hr hc e (known a ha)
  cases value with
  | use a => exact operand a (by simp [RightSide.operands]) hc e
  | neg a =>
    refine (operand a (by simp [RightSide.operands]) hc e).bind fun h ctx₁ e₁ hc₁ d => ?_
    refine (call_denotes hc₁ (.integer .neg) (provided.extends (e.trans e₁).symbols) (.cons d .nil) rfl).mono
      fun _ _ _ _ d => d.weaken fun I m => ?_
    show Below ((a.value m).negative?.map .scalar) (IntFunction.neg.apply I [.scalar (a.value m)])
    cases a.value m <;> exact Below.refl _
  | binary op a b =>
    refine (operand a (by simp [RightSide.operands]) hc e).bind fun h ctx₁ e₁ hc₁ da => ?_
    refine (operand b (by simp [RightSide.operands]) hc₁ (e.trans e₁)).bind fun k ctx₂ e₂ hc₂ db => ?_
    refine (binaryValue_yields hc₂ (provided.extends ((e.trans e₁).trans e₂).symbols) op (da.later hc₁ e₂) db).mono
      fun _ _ _ _ d => d.weaken fun I m => ?_
    exact op.value_below I _ _
  | compare op a b =>
    refine (operand a (by simp [RightSide.operands]) hc e).bind fun h ctx₁ e₁ hc₁ da => ?_
    refine (operand b (by simp [RightSide.operands]) hc₁ (e.trans e₁)).bind fun k ctx₂ e₂ hc₂ db => ?_
    refine (comparisonValue_yields hc₂ (provided.extends ((e.trans e₁).trans e₂).symbols) op (da.later hc₁ e₂) db).mono
      fun _ _ _ _ d => d.weaken fun I m => ?_
    refine .of_eq ?_
    show Option.map _ (Option.map _ _) = _
    rw [Option.map_map]
    rfl

theorem conditionValue_yields (hr : r.Sound) (provided : ctx₀.symbols.Provides .integers) (hc : ctx.Sound)
    (e : ctx₀.Extends ctx) {c : Condition}
    (lhs : c.lhs.Known r) (rhs : c.rhs.Known r) :
    Yields (Rule.conditionValue s c) ctx (Denotes r ctx₀ s fun _ m => (c.value m).map .bool) := by
  unfold Rule.conditionValue
  refine (operandValue_yields hc₀ valid ext hr hc e lhs).bind fun h ctx₁ e₁ hc₁ da => ?_
  refine (operandValue_yields hc₀ valid ext hr hc₁ (e.trans e₁) rhs).bind fun k ctx₂ e₂ hc₂ db => ?_
  exact comparisonValue_yields hc₂ (provided.extends ((e.trans e₁).trans e₂).symbols) c.op (da.later hc₁ e₂) db

/-- The operands of a call, in order. -/
theorem operandValues_yields (hr : r.Sound) (hc : ctx.Sound) (e : ctx₀.Extends ctx) {as : List Operand}
    (known : ∀ a ∈ as, a.Known r) :
    Yields (as.mapM (Rule.operandValue s)) ctx fun hs ctx' =>
      List.Forall₂ (fun a h => Denotes r ctx₀ s a.denoted h ctx') as hs := by
  refine Yields.mapM (P := fun (a : Operand) h c => Denotes r ctx₀ s a.denoted h c) as ?_ hc fun a ha ctx₁ e₁ hc₁ => ?_
  · exact fun a h ctx₁ ctx₂ _ hc₁ e₂ _ d => d.later hc₁ e₂
  · exact operandValue_yields hc₀ valid ext hr hc₁ (e.trans e₁) (known a ha)

end Terms

end PathMerge
