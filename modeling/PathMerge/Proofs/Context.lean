/-
  PathMerge.Proofs.Context — expressions of a context and their values.

  A valuation gives each symbol a value. A function that one of the three theories owns has its meaning
  there, any other is what the interpretation says of its name. `Context.eval` is the value of a handle
  under an interpretation and a valuation.

  A context is sound when its pool and its registry are, the registry provides the functions of the
  installed theories, every node names registered symbols, applications have as many arguments as their
  functions take, and the memory of the simplifier holds nothing wrong. As a context grows no value
  changes (`eval_extends`), and a value depends only on symbols that are registered (`eval_agree`).
-/

import PathMerge.Context
import PathMerge.Proofs.Choice
import PathMerge.Proofs.Registry

namespace PathMerge

/-! ## Functions and their meaning -/

namespace Operation

def theory : Operation → Theory
  | integer _ => .integers
  | memory _ => .heap
  | location _ => .locations

def decl : Operation → FunctionDecl
  | integer f => f.decl
  | memory f => f.decl
  | location f => f.decl

end Operation

def Theory.operation? : Theory → String → Option Operation
  | integers, name => (IntFunction.ofName? name).map .integer
  | heap, name => (HeapFunction.ofName? name).map .memory
  | locations, name => (LocFunction.ofName? name).map .location

theorem Theory.operation?_decl (op : Operation) : op.theory.operation? op.decl.name = some op := by
  rcases op with f | f | f <;> cases f <;> rfl

theorem Theory.mem_functions (op : Operation) : op.decl ∈ op.theory.functions := by
  rcases op with f | f | f <;> cases f <;> decide

theorem Theory.ofName?_name (t : Theory) : ofName? t.name = some t := by
  cases t <;> rfl

def operationOf? (owner name : String) : Option Operation :=
  (Theory.ofName? owner).bind fun t => t.operation? name

theorem operationOf?_decl (op : Operation) : operationOf? op.theory.name op.decl.name = some op := by
  unfold operationOf?
  rw [Theory.ofName?_name]
  exact Theory.operation?_decl op

/-- The functions of a theory are registered as they are declared. -/
def Registry.Provides (r : Registry) (t : Theory) : Prop :=
  ∀ op : Operation, op.theory = t → ∃ f, r.get? f = some ⟨op.decl.name, op.decl.sort, .function op.decl.arity t.name⟩

theorem Registry.Provides.extends {r r' : Registry} (e : r.Extends r') {t : Theory} (h : r.Provides t) :
    r'.Provides t := by
  intro op ht
  obtain ⟨f, hf⟩ := h op ht
  exact ⟨f, e.get hf⟩

def Symbol.apply (I : Interpretation) (s : Symbol) (xs : List Value) : Option Value :=
  match s.kind with
  | .function _ owner =>
    match operationOf? owner s.name with
    | some op => op.apply I xs
    | none => some (I.function s.name xs)
  | _ => none

abbrev Valuation := SymbolId → Value

def Node.Registered (r : Registry) : Node → Prop
  | symbol y => ∃ s, r.get? y = some s
  | app f args => ∃ name sort owner, r.get? f = some ⟨name, sort, .function args.length owner⟩
  | n => n.Plain

theorem Node.Registered.extends {r r' : Registry} (e : r.Extends r') {n : Node} (h : n.Registered r) :
    n.Registered r' := by
  cases n with
  | symbol y =>
    obtain ⟨s, hs⟩ := h
    exact ⟨s, e.get hs⟩
  | app f args =>
    obtain ⟨name, sort, owner, hs⟩ := h
    exact ⟨name, sort, owner, e.get hs⟩
  | _ => exact h

theorem Node.Plain.registered (r : Registry) {n : Node} (h : n.Plain) : n.Registered r := by
  cases n <;> first | exact h | exact h.elim

namespace Context

def meaning (ctx : Context) (I : Interpretation) (v : Valuation) : Meaning where
  symbol := v
  apply := fun f xs => (ctx.symbols.get? f).bind fun s => s.apply I xs

noncomputable def eval (ctx : Context) (I : Interpretation) (v : Valuation) (h : Handle) : Option Value :=
  ctx.pool.eval (ctx.meaning I v) h

noncomputable def holds (ctx : Context) (I : Interpretation) (v : Valuation) (h : Handle) : Option Bool :=
  ctx.pool.holds (ctx.meaning I v) h

abbrev Has (ctx : Context) (h : Handle) : Prop := ctx.pool.Has h

abbrev weight (ctx : Context) (h : Handle) : Nat := ctx.pool.weight h

theorem holds_eq_some {ctx : Context} {I : Interpretation} {v : Valuation} {h : Handle} {b : Bool} :
    ctx.holds I v h = some b ↔ ctx.eval I v h = some (.bool b) := Pool.holds_eq_some

/-- The handle `k` of `ctx'` has the value of the handle `h` of `ctx` where that has one, and is not heavier. -/
structure Refined (ctx : Context) (h : Handle) (k : Handle) (ctx' : Context) : Prop where
  has : ctx'.Has k
  value : ∀ I v, Below (ctx.eval I v h) (ctx'.eval I v k)
  weight : ctx'.weight k ≤ ctx.weight h

structure Sound (ctx : Context) : Prop where
  pool : ctx.pool.Sound
  symbols : ctx.symbols.Sound
  provides : ∀ t ∈ ctx.theories, ctx.symbols.Provides t
  registered : ∀ {h n}, ctx.pool.node? h = some n → n.Registered ctx.symbols
  memo : ∀ {key k}, ctx.memo.find? key = some k → ctx.Has key ∧ ctx.Refined key k ctx

structure Extends (ctx ctx' : Context) : Prop where
  pool : ctx.pool.Extends ctx'.pool
  symbols : ctx.symbols.Extends ctx'.symbols

instance : Growing Context where
  Sound := Sound
  Extends := Extends
  refl := fun ctx => ⟨fun h => h, .refl ctx.symbols⟩
  trans := fun h h' => ⟨fun hn => h'.pool (h.pool hn), h.symbols.trans h'.symbols⟩

theorem Extends.refl (ctx : Context) : ctx.Extends ctx := Growing.refl ctx

theorem Extends.trans {a b c : Context} (h : a.Extends b) (h' : b.Extends c) : a.Extends c :=
  Growing.trans (σ := Context) h h'

/-! ## What is known of a symbol -/

theorem symbolName_eq {ctx : Context} {x : SymbolId} {s : Symbol} (found : ctx.symbols.get? x = some s) :
    ctx.symbolName x = .ok s.name := by
  unfold symbolName
  rw [Registry.get_eq_ok found]
  rfl

theorem symbolSort_eq {ctx : Context} {x : SymbolId} {s : Symbol} (found : ctx.symbols.get? x = some s) :
    ctx.symbolSort x = .ok s.sort := by
  unfold symbolSort
  rw [Registry.get_eq_ok found]
  rfl

theorem theoryOf?_eq {ctx : Context} {f : SymbolId} {s : Symbol} {arity : Nat} {owner : String}
    (found : ctx.symbols.get? f = some s) (kind : s.kind = .function arity owner) :
    ctx.theoryOf? f = .ok (ctx.theory? owner) := by
  obtain ⟨name, sort, _⟩ := s
  obtain rfl := kind
  unfold theoryOf?
  rw [Registry.get_eq_ok found]
  rfl

end Context

/-! ## Values do not change -/

theorem Pool.eval_congr {p : Pool} (hp : p.Sound) {M N : Meaning}
    (symbol : ∀ h y, p.node? h = some (.symbol y) → M.symbol y = N.symbol y)
    (apply : ∀ h f args, p.node? h = some (.app f args) → ∀ xs, M.apply f xs = N.apply f xs) {h : Handle}
    (hh : p.Has h) : p.eval M h = p.eval N h := by
  refine induction hp (P := fun h => p.eval M h = p.eval N h) (fun h n hn ih => ?_) hh
  have node : n.value M (p.eval M) = n.value N (p.eval N) :=
    Node.value_congr ih (fun y e => symbol h y (e ▸ hn)) fun f args e xs _ => apply h f args (e ▸ hn) xs
  unfold eval at *
  rw [read_eq hp hn, read_eq hp hn]
  exact congrArg (fun x => if h.negated = true then complement? x else x) node

namespace Context

variable {ctx ctx' ctx'' : Context} {I : Interpretation} {v v' : Valuation}

theorem eval_extends (hc : ctx.Sound) (e : ctx.Extends ctx') {h : Handle} (hh : ctx.Has h) :
    ctx'.eval I v h = ctx.eval I v h := by
  unfold eval
  rw [Pool.eval_extends hc.pool e.pool hh]
  refine Pool.eval_congr (M := ctx'.meaning I v) (N := ctx.meaning I v) hc.pool (fun _ _ _ => rfl)
    (fun h f args hn xs => ?_) hh
  obtain ⟨name, sort, owner, hf⟩ := hc.registered hn
  show (ctx'.symbols.get? f).bind _ = (ctx.symbols.get? f).bind _
  rw [hf, e.symbols.get hf]

theorem holds_extends (hc : ctx.Sound) (e : ctx.Extends ctx') {h : Handle} (hh : ctx.Has h) :
    ctx'.holds I v h = ctx.holds I v h :=
  congrArg truth? (eval_extends hc e hh)

theorem weight_extends (hc : ctx.Sound) (e : ctx.Extends ctx') {h : Handle} (hh : ctx.Has h) :
    ctx'.weight h = ctx.weight h :=
  Pool.weight_extends hc.pool e.pool hh

/-- Valuations that agree on the registered symbols give the same values. -/
theorem eval_agree (hc : ctx.Sound) (agree : ∀ y : SymbolId, y.number < ctx.symbols.size → v y = v' y)
    {h : Handle} (hh : ctx.Has h) : ctx.eval I v h = ctx.eval I v' h := by
  refine Pool.eval_congr (M := ctx.meaning I v) (N := ctx.meaning I v') hc.pool (fun h y hn => ?_)
    (fun _ _ _ _ _ => rfl) hh
  obtain ⟨s, hs⟩ := hc.registered hn
  exact agree y (Registry.get?_eq_some_lt hs)

theorem holds_agree (hc : ctx.Sound) (agree : ∀ y : SymbolId, y.number < ctx.symbols.size → v y = v' y)
    {h : Handle} (hh : ctx.Has h) : ctx.holds I v h = ctx.holds I v' h :=
  congrArg truth? (eval_agree hc agree hh)

theorem Extends.has (e : ctx.Extends ctx') {h : Handle} (hh : ctx.Has h) : ctx'.Has h := Pool.Extends.has e.pool hh

theorem Refined.refl {h : Handle} (hh : ctx.Has h) : ctx.Refined h h ctx :=
  ⟨hh, fun _ _ => Below.refl _, Nat.le_refl _⟩

/-- A refinement stays one while the context it was made in grows. -/
theorem Refined.later (hc' : ctx'.Sound) (e : ctx'.Extends ctx'') {h k : Handle} (r : ctx.Refined h k ctx') :
    ctx.Refined h k ctx'' := by
  refine ⟨e.has r.has, fun I v => ?_, ?_⟩
  · rw [eval_extends hc' e r.has]
    exact r.value I v
  · rw [weight_extends hc' e r.has]
    exact r.weight

theorem Refined.earlier (hc : ctx.Sound) (e : ctx.Extends ctx') {h k : Handle} (hh : ctx.Has h)
    (r : ctx'.Refined h k ctx'') : ctx.Refined h k ctx'' := by
  refine ⟨r.has, fun I v => ?_, ?_⟩
  · rw [← eval_extends hc e hh]
    exact r.value I v
  · rw [← weight_extends hc e hh]
    exact r.weight

theorem Refined.now (hc : ctx.Sound) (e : ctx.Extends ctx') {h k : Handle} (hh : ctx.Has h)
    (r : ctx.Refined h k ctx') : ctx'.Refined h k ctx' := by
  refine ⟨r.has, fun I v => ?_, ?_⟩
  · rw [eval_extends hc e hh]
    exact r.value I v
  · rw [weight_extends hc e hh]
    exact r.weight

theorem Refined.extends (hc : ctx.Sound) (e : ctx.Extends ctx') {h k : Handle} (hh : ctx.Has h)
    (r : ctx.Refined h k ctx) : ctx'.Refined h k ctx' := by
  refine ⟨e.has r.has, fun I v => ?_, ?_⟩
  · rw [eval_extends hc e hh, eval_extends hc e r.has]
    exact r.value I v
  · rw [weight_extends hc e hh, weight_extends hc e r.has]
    exact r.weight

/-- A sound context that grows stays sound if what is new is. -/
theorem Sound.grow (hc : ctx.Sound) (e : ctx.Extends ctx') (pool : ctx'.pool.Sound)
    (symbols : ctx'.symbols.Sound) (theories : ctx'.theories = ctx.theories)
    (memo : ∀ {key k}, ctx'.memo.find? key = some k → ctx.memo.find? key = some k)
    (registered : ∀ {h n}, ctx'.pool.node? h = some n → n.Registered ctx'.symbols) : ctx'.Sound := by
  refine ⟨pool, symbols, fun t ht => ?_, registered, fun hm => ?_⟩
  · exact (hc.provides t (theories ▸ ht)).extends e.symbols
  · obtain ⟨has, refined⟩ := hc.memo (memo hm)
    exact ⟨e.has has, refined.extends hc e has⟩

/-! ## Functions of the theories in a sound context -/

def Names (ctx : Context) (op : Operation) (f : SymbolId) : Prop :=
  ctx.symbols.get? f = some ⟨op.decl.name, op.decl.sort, .function op.decl.arity op.theory.name⟩

theorem Names.apply {op : Operation} {f : SymbolId} (h : ctx.Names op f) (xs : List Value) :
    (ctx.meaning I v).apply f xs = op.apply I xs := by
  show (ctx.symbols.get? f).bind _ = _
  rw [h]
  show (match operationOf? op.theory.name op.decl.name with
    | some op => op.apply I xs
    | none => some (I.function op.decl.name xs)) = _
  rw [operationOf?_decl]

theorem Names.lookup (hc : ctx.Sound) {op : Operation} {f : SymbolId} (h : ctx.Names op f) :
    ctx.symbols.functions.lookup op.decl.name = some f :=
  hc.symbols.functions.mpr ⟨_, _, _, h⟩

/-- A function symbol that is called like an operation is that operation. -/
theorem Sound.names_of_name (hc : ctx.Sound) {op : Operation} (provided : ctx.symbols.Provides op.theory)
    {f : SymbolId} {s : ValueSort} {a : Nat} {o : String}
    (h : ctx.symbols.get? f = some ⟨op.decl.name, s, .function a o⟩) : ctx.Names op f := by
  obtain ⟨g, hg⟩ := provided op rfl
  exact hc.symbols.function_unique h hg ▸ hg

theorem Names.unique (hc : ctx.Sound) {op : Operation} {f g : SymbolId} (hf : ctx.Names op f)
    (hg : ctx.Names op g) : f = g :=
  hc.symbols.function_unique hf hg

noncomputable def applied (ctx : Context) (I : Interpretation) (v : Valuation) (op : Operation)
    (args : List Handle) : Option Value :=
  (args.mapM (ctx.eval I v)).bind (op.apply I)

def weights (ctx : Context) (args : List Handle) : Nat := (args.map ctx.weight).sum

structure Applies (ctx : Context) (op : Operation) (args : List Handle) (h : Handle) : Prop where
  sign : h.negated = false
  node : ∃ f, ctx.Names op f ∧ ctx.pool.node? h = some (.app f args)

namespace Applies

variable {op : Operation} {args : List Handle} {h : Handle}

theorem has (a : ctx.Applies op args h) : ctx.Has h := by
  obtain ⟨f, _, hn⟩ := a.node
  exact Pool.has_of_node hn

theorem has_arg (hc : ctx.Sound) (a : ctx.Applies op args h) : ∀ x ∈ args, ctx.Has x := by
  obtain ⟨f, _, hn⟩ := a.node
  exact fun x hx => hc.pool.has_child hn hx

theorem length (hc : ctx.Sound) (a : ctx.Applies op args h) : args.length = op.decl.arity := by
  obtain ⟨f, hf, hn⟩ := a.node
  obtain ⟨name, sort, owner, hs⟩ := hc.registered hn
  unfold Names at hf
  rw [hf] at hs
  have := congrArg Symbol.kind (Option.some.inj hs)
  simp only [SymbolKind.function.injEq] at this
  exact this.1.symm

theorem eval (hc : ctx.Sound) (a : ctx.Applies op args h) : ctx.eval I v h = ctx.applied I v op args := by
  obtain ⟨f, hf, hn⟩ := a.node
  unfold Context.eval
  rw [Pool.eval_node hc.pool hn a.sign]
  show (args.mapM (ctx.eval I v)).bind ((ctx.meaning I v).apply f) = _
  rw [funext hf.apply]
  rfl

theorem weight (hc : ctx.Sound) (a : ctx.Applies op args h) : ctx.weight h = 1 + ctx.weights args := by
  obtain ⟨f, _, hn⟩ := a.node
  exact Pool.weight_eq hc.pool hn

/-- Two applications of one operation to the same arguments are the same handle. -/
theorem unique (hc : ctx.Sound) {k : Handle} (a : ctx.Applies op args h) (b : ctx.Applies op args k) : h = k := by
  obtain ⟨f, hf, hn⟩ := a.node
  obtain ⟨g, hg, hm⟩ := b.node
  obtain rfl := hf.unique hc hg
  exact hc.pool.eq_of_node hn hm (a.sign.trans b.sign.symm)

end Applies

theorem mapM_eval_extends (hc : ctx.Sound) (e : ctx.Extends ctx') {args : List Handle}
    (has : ∀ x ∈ args, ctx.Has x) : args.mapM (ctx'.eval I v) = args.mapM (ctx.eval I v) :=
  mapM_option_congr fun x hx => eval_extends hc e (has x hx)

theorem applied_extends (hc : ctx.Sound) (e : ctx.Extends ctx') {op : Operation} {args : List Handle}
    (has : ∀ x ∈ args, ctx.Has x) : ctx'.applied I v op args = ctx.applied I v op args := by
  unfold applied
  rw [mapM_eval_extends hc e has]

theorem weights_extends (hc : ctx.Sound) (e : ctx.Extends ctx') {args : List Handle}
    (has : ∀ x ∈ args, ctx.Has x) : ctx'.weights args = ctx.weights args :=
  congrArg List.sum (List.map_congr_left fun x hx => weight_extends hc e (has x hx))

/-- An application stays one. -/
theorem Applies.extends (e : ctx.Extends ctx') {op : Operation} {args : List Handle} {h : Handle}
    (a : ctx.Applies op args h) : ctx'.Applies op args h := by
  obtain ⟨f, hf, hn⟩ := a.node
  exact ⟨a.sign, f, e.symbols.get hf, e.pool hn⟩

end Context

end PathMerge
